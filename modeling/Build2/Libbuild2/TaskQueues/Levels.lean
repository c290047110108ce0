import Build2.Libbuild2.TaskQueues.Basic
import Mathlib.Data.List.Range

/-! # The levels of the task queue

The mark of the queue stands at the first of the tasks that were pushed at the level of its owner,
or is disabled if there are none, unless no tasks of the outer levels are left. What is saved in a
frame is as right for the level below the frame, with the tasks that were there when it began. -/

namespace Build2.Libbuild2.TaskQueues

open Build2.Lib Build2.Lib.Ring

/-! ### The tasks of the outer levels -/

/-- How many tasks were pushed before `b`. -/
def below (b : ℕ) (l : List ℕ) : ℕ := l.countP (· < b)

@[simp] theorem below_zero (l : List ℕ) : below 0 l = 0 := by
  simp [below]

@[simp] theorem below_nil (b : ℕ) : below b [] = 0 := rfl

theorem below_le_length (b : ℕ) (l : List ℕ) : below b l ≤ l.length :=
  List.countP_le_length

theorem below_append_of_le {b x : ℕ} (h : b ≤ x) (l : List ℕ) : below b (l ++ [x]) = below b l := by
  simp [below, h]

theorem below_eq_length {b : ℕ} {l : List ℕ} (h : ∀ x ∈ l, x < b) : below b l = l.length := by
  unfold below
  rw [List.countP_eq_length]
  intro x hx
  simpa using h x hx

/-- A task that was not pushed before `b` is the first one only if there are no such tasks. -/
theorem below_tail {b x : ℕ} {l : List ℕ} (h : (x :: l).Pairwise (· < ·)) :
    below b l = below b (x :: l) - 1 := by
  by_cases hx : x < b
  · simp [below, hx]
  · have hl : below b l = 0 := by
      unfold below
      rw [List.countP_eq_zero]
      intro y hy
      have hxy := List.rel_of_pairwise_cons h hy
      simp only [decide_eq_true_eq]
      omega
    have hxl : below b (x :: l) = below b l := by simp [below, hx]
    omega

/-- The last task was not pushed before `b` unless all of them were. -/
theorem le_last {b x : ℕ} {l : List ℕ} (h : (l ++ [x]).Pairwise (· < ·))
    (hb : below b (l ++ [x]) < l.length + 1) : b ≤ x := by
  by_contra hx
  have hall : ∀ y ∈ l ++ [x], y < b := by
    intro y hy
    rcases List.mem_append.mp hy with hy | hy
    · have hyx := (List.pairwise_append.mp h).2.2 y hy x (List.mem_singleton_self x)
      omega
    · obtain rfl := List.mem_singleton.mp hy
      omega
  rw [below_eq_length hall] at hb
  simp at hb

/-! ### The mark -/

/-- A mark is right for a level with `outer` tasks of the outer levels among `size` ones. -/
def Marks (depth head mark outer size : ℕ) : Prop :=
  if mark = depth then outer = size ∨ outer = 0
  else size = 0 ∨ outer = 0 ∨ outer < size ∧ mark = slot depth head outer

theorem marks_zero (depth head mark size : ℕ) : Marks depth head mark 0 size := by
  unfold Marks
  split_ifs
  · exact .inr rfl
  · exact .inr (.inl rfl)

theorem marks_disabled (depth head size : ℕ) : Marks depth head depth size size := by
  simp [Marks]

theorem marks_empty {depth mark : ℕ} (h : mark ≠ depth) (head outer : ℕ) :
    Marks depth head mark outer 0 := by
  simp [Marks, h]

/-- An enabled mark shows that there are tasks of its level. -/
theorem Marks.lt {depth head mark outer size : ℕ} (h : Marks depth head mark outer size)
    (hm : mark ≠ depth) (hs : size ≠ 0) : outer < size := by
  simp only [Marks, if_neg hm] at h
  omega

/-- A mark at the first task shows that there are no tasks of the outer levels. -/
theorem Marks.outer_eq_zero {depth head outer size : ℕ} (h : Marks depth head head outer size)
    (hh : head < depth) (hs : size ≤ depth) (h0 : size ≠ 0) : outer = 0 := by
  simp only [Marks, if_neg (Nat.ne_of_lt hh)] at h
  obtain h | h | ⟨hlt, hmark⟩ := h
  · exact absurd h h0
  · exact h
  · nth_rewrite 1 [← slot_zero hh] at hmark
    exact ((slot_inj hh (by omega) (by omega)).mp hmark).symm

theorem Marks.popFront {depth head head' mark outer size : ℕ} (h : Marks depth head mark outer size)
    (ho : outer ≤ size) (hs : size ≤ depth) (hh : head < depth)
    (hnext : 1 < size → head' = next depth head) :
    Marks depth head' mark (outer - 1) (size - 1) := by
  by_cases hout : outer ≤ 1
  · rw [show outer - 1 = 0 by omega]
    exact marks_zero ..
  · rw [hnext (by omega)]
    unfold Marks at h ⊢
    split_ifs at h ⊢
    · omega
    · obtain h | h | ⟨hlt, hmark⟩ := h
      · omega
      · omega
      · refine .inr (.inr ⟨by omega, ?_⟩)
        rw [slot_next hh (by omega), hmark]
        congr 1
        omega

theorem Marks.popBack {depth head mark outer size : ℕ}
    (h : Marks depth head mark outer (size + 1)) (hm : mark ≠ depth) (hs : size < depth)
    (hh : head < depth) :
    Marks depth head (if slot depth head size = mark then depth else mark) outer size := by
  have hlt := h.lt hm (by omega)
  simp only [Marks, if_neg hm] at h
  by_cases ho : outer = 0
  · rw [ho]
    exact marks_zero ..
  · obtain h | h | ⟨-, rfl⟩ := h
    · omega
    · omega
    · split_ifs with ha
      · rw [slot_inj hh hs (by omega)] at ha
        rw [ha]
        exact marks_disabled ..
      · rw [slot_inj hh hs (by omega)] at ha
        simp only [Marks, if_neg hm]
        exact .inr (.inr ⟨by omega, trivial⟩)

/-- A task is pushed, which enables the mark. -/
theorem Marks.push {depth head mark outer size : ℕ} (h : Marks depth head mark outer size)
    (ho : outer ≤ size) (hd : 0 < depth) :
    Marks depth head (if mark = depth then slot depth head size else mark) outer (size + 1) := by
  unfold Marks at h
  have hslot : slot depth head size ≠ depth := Nat.ne_of_lt (slot_lt hd _ _)
  split_ifs at h ⊢ with hm
  · obtain rfl | rfl := h
    · simp only [Marks, if_neg hslot]
      exact .inr (.inr ⟨by omega, trivial⟩)
    · exact marks_zero ..
  · simp only [Marks, if_neg hm]
    omega

/-! ### The frames -/

/-- What is saved in the frames is right for their levels. -/
def Saved (depth head : ℕ) (l : List ℕ) : List Frame → Prop
  | [] => True
  | .popBack om a b :: frames =>
    Marks depth head (if a then depth else om) (below (level frames) l) (below b l) ∧
      level frames ≤ b ∧ Saved depth head l frames
  | .full om b :: frames =>
    Marks depth head om (below (level frames) l) (below b l) ∧
      level frames ≤ b ∧ Saved depth head l frames
  | .wait _ :: frames => Saved depth head l frames

/-- A task of the innermost level is none of those that were there when the frames began. -/
theorem saved_append {depth head x : ℕ} (l : List ℕ) {frames : List Frame}
    (h : level frames ≤ x) :
    Saved depth head (l ++ [x]) frames ↔ Saved depth head l frames := by
  induction frames with
  | nil => rfl
  | cons f frames ih =>
    cases f with
    | wait b => exact ih h
    | popBack om a b =>
      have hb : b ≤ x := h
      simp only [Saved, below_append_of_le hb]
      refine and_congr_right' (and_congr_right fun hle => ?_) |>.trans (and_congr_left fun hs => ?_)
      · exact ih (Nat.le_trans hle hb)
      · rw [below_append_of_le (Nat.le_trans hs.1 hb)]
    | full om b =>
      have hb : b ≤ x := h
      simp only [Saved, below_append_of_le hb]
      refine and_congr_right' (and_congr_right fun hle => ?_) |>.trans (and_congr_left fun hs => ?_)
      · exact ih (Nat.le_trans hle hb)
      · rw [below_append_of_le (Nat.le_trans hs.1 hb)]

theorem below_le_below {b b' : ℕ} (h : b ≤ b') (l : List ℕ) : below b l ≤ below b' l := by
  refine List.countP_mono_left fun x _ hx => ?_
  simp only [decide_eq_true_eq] at hx ⊢
  omega

theorem Saved.popFront {depth head head' x : ℕ} {l : List ℕ} {frames : List Frame}
    (h : Saved depth head (x :: l) frames) (hl : (x :: l).Pairwise (· < ·))
    (hs : l.length < depth) (hh : head < depth)
    (hnext : 0 < l.length → head' = next depth head) : Saved depth head' l frames := by
  have hmarks {m b b' : ℕ} (hbb : b ≤ b')
      (hm : Marks depth head m (below b (x :: l)) (below b' (x :: l))) :
      Marks depth head' m (below b l) (below b' l) := by
    have hlen := below_le_length b' (x :: l)
    rw [List.length_cons] at hlen
    rw [below_tail hl, below_tail (b := b') hl]
    exact hm.popFront (below_le_below hbb _) (by omega) hh fun hn => hnext (by omega)
  induction frames with
  | nil => trivial
  | cons f frames ih =>
    cases f with
    | wait b => exact ih h
    | popBack om a b => exact ⟨hmarks h.2.1 h.1, h.2.1, ih h.2.2⟩
    | full om b => exact ⟨hmarks h.2.1 h.1, h.2.1, ih h.2.2⟩

/-! ### The operations -/

section
variable {depth : ℕ} {s : State}

theorem length_pending (s : State) : (s.pending depth).length = s.tq.size :=
  length_contents ..

theorem Described.next_tail (h : Described depth s) (hs : s.tq.size ≠ depth) :
    (if s.tq.size ≠ 0 then next depth s.tq.tail else s.tq.tail) =
      slot depth s.tq.head s.tq.size := by
  have hle := h.size_le
  rw [h.tail_eq]
  split_ifs with h0
  · rw [next_slot h.head_lt (by omega)]
    congr 1
    omega
  · rw [not_not.mp h0]

theorem Described.prev_tail (h : Described depth s) (hs : s.tq.size ≠ 0) :
    (if s.tq.size ≠ 1 then prev depth s.tq.tail else s.tq.tail) =
      slot depth s.tq.head (s.tq.size - 1 - 1) := by
  have hle := h.size_le
  rw [h.tail_eq]
  split_ifs with h1
  · rw [show s.tq.size - 1 = s.tq.size - 1 - 1 + 1 by omega, prev_slot h.head_lt (by omega)]
    rfl
  · rw [not_not.mp h1]

theorem Described.pending_back (h : Described depth s) (hs : s.tq.size ≠ 0) :
    s.pending depth =
      contents depth s.tq.head (s.tq.size - 1) s.tq.data ++ [s.tq.data s.tq.tail] := by
  rw [h.tail_eq, ← contents_succ, Nat.sub_add_cancel (by omega)]
  rfl

theorem Described.pending_front (h : Described depth s) (hs : s.tq.size ≠ 0) :
    s.pending depth = s.tq.data s.tq.head ::
      contents depth (if s.tq.size ≠ 1 then next depth s.tq.head else s.tq.head)
        (s.tq.size - 1) s.tq.data := by
  have hle := h.size_le
  have hpop : contents depth s.tq.head (s.tq.size - 1 + 1) s.tq.data = _ :=
    contents_pop h.head_lt (by omega) s.tq.data
  rw [Nat.sub_add_cancel (by omega)] at hpop
  rw [State.pending, hpop]
  split_ifs with h1
  · rfl
  · rw [not_not.mp h1]
    rfl

end

/-! ### The invariant -/

/-- What holds at every point of a run. -/
structure Inv (depth : ℕ) (s : State) : Prop extends Described depth s where
  once : ExactlyOnce depth s
  level_le : level s.frames ≤ s.spawned
  mark : Marks depth s.tq.head s.tq.mark (below (level s.frames) (s.pending depth)) s.tq.size
  saved : Saved depth s.tq.head (s.pending depth) s.frames

section
variable {depth : ℕ} {s : State}

theorem inv_init (hd : 0 < depth) : Inv depth {} where
  size_le := Nat.zero_le _
  head_lt := hd
  tail_eq := (slot_zero hd).symm
  sorted := List.Pairwise.nil
  once := List.Perm.nil
  level_le := Nat.le_refl 0
  mark := marks_zero ..
  saved := trivial

theorem Inv.lt_spawned (h : Inv depth s) {x : ℕ} (hx : x ∈ s.pending depth) : x < s.spawned :=
  List.mem_range.mp (h.once.subset (List.mem_append_right _ hx))

theorem State.below_le (depth : ℕ) (s : State) (b : ℕ) :
    below b (s.pending depth) ≤ s.tq.size := by
  have hlen := below_le_length b (s.pending depth)
  rwa [length_pending] at hlen

/-- The task at the back was pushed at the level of the owner if the mark is enabled. -/
theorem Inv.popsSince (h : Inv depth s) : PopsSince (level s.frames) depth s := by
  intro hback
  have hs : s.tq.size ≠ 0 ∧ s.tq.mark ≠ depth := by simpa [emptyBack] using hback
  have hlt := h.mark.lt hs.2 hs.1
  have hsorted := h.sorted
  rw [h.pending_back hs.1] at hlt hsorted
  refine le_last hsorted (Nat.lt_of_lt_of_eq hlt ?_)
  rw [length_contents]
  omega

/-- A frame is entered that does not change the queue but for the mark that it disables. -/
theorem Inv.wait (h : Inv depth s) (b : ℕ) :
    Inv depth { s with frames := .wait b :: s.frames } :=
  ⟨⟨h.size_le, h.head_lt, h.tail_eq, h.sorted⟩, h.once, h.level_le, h.mark, h.saved⟩

theorem Inv.finishWait (h : Inv depth s) {b : ℕ} {frames : List Frame}
    (hf : s.frames = .wait b :: frames) : Inv depth { s with frames := frames } := by
  obtain ⟨hdesc, honce, hlevel, hmark, hsaved⟩ := h
  rw [hf] at hlevel hmark hsaved
  exact ⟨⟨hdesc.size_le, hdesc.head_lt, hdesc.tail_eq, hdesc.sorted⟩, honce, hlevel, hmark, hsaved⟩

theorem perm_spawned {l l' : List ℕ} {n : ℕ} (h : l.Perm (List.range n)) (hl : l'.Perm (n :: l)) :
    l'.Perm (List.range (n + 1)) := by
  rw [List.range_succ]
  exact (hl.trans (h.cons n)).trans (List.perm_append_singleton n _).symm

theorem Inv.push (h : Inv depth s) (hd : 0 < depth) {tq : TaskQueue}
    (hpush : push depth s.tq s.spawned = some tq) :
    Inv depth { s with tq := tq, spawned := s.spawned + 1 } := by
  have hle := h.size_le
  have hfull : s.tq.size ≠ depth := by
    intro hfull
    simp [TaskQueues.push, hfull] at hpush
  simp only [TaskQueues.push, if_pos hfull, Option.some.injEq, h.next_tail hfull] at hpush
  subst hpush
  have hpending : contents depth s.tq.head (s.tq.size + 1)
      (Function.update s.tq.data (slot depth s.tq.head s.tq.size) s.spawned) =
      s.pending depth ++ [s.spawned] :=
    contents_push h.head_lt (by omega) s.tq.data s.spawned
  refine ⟨⟨by simp only; omega, h.head_lt, rfl, ?_⟩, ?_, Nat.le_succ_of_le h.level_le, ?_, ?_⟩
  all_goals simp only [ExactlyOnce, State.pending, hpending]
  · refine List.pairwise_append.mpr ⟨h.sorted, List.pairwise_singleton _ _, fun x hx y hy => ?_⟩
    obtain rfl := List.mem_singleton.mp hy
    exact h.lt_spawned hx
  · refine perm_spawned h.once ?_
    rw [← List.append_assoc]
    exact List.perm_append_singleton s.spawned _
  · rw [below_append_of_le h.level_le]
    exact h.mark.push (s.below_le depth _) hd
  · exact (saved_append _ h.level_le).mpr h.saved

theorem Inv.full (h : Inv depth s) :
    Inv depth
      { tq := full depth s.tq
        frames := .full s.tq.mark (s.spawned + 1) :: s.frames
        spawned := s.spawned + 1
        executed := s.spawned :: s.executed } := by
  have hbelow : below (s.spawned + 1) (s.pending depth) = s.tq.size := by
    rw [below_eq_length fun x hx => Nat.lt_succ_of_lt (h.lt_spawned hx), length_pending]
  refine ⟨⟨h.size_le, h.head_lt, h.tail_eq, h.sorted⟩, perm_spawned h.once (List.Perm.refl _),
    Nat.le_refl _, ?_, ?_, Nat.le_succ_of_le h.level_le, h.saved⟩
  · change Marks depth s.tq.head depth (below (s.spawned + 1) (s.pending depth)) s.tq.size
    rw [hbelow]
    exact marks_disabled ..
  · change Marks depth s.tq.head s.tq.mark _ (below (s.spawned + 1) (s.pending depth))
    rw [hbelow]
    exact h.mark

theorem Inv.popBack (h : Inv depth s) (hback : emptyBack depth s.tq = false) :
    Inv depth { s with
      tq := (popBack depth s.tq).1
      frames := .popBack s.tq.mark (s.tq.tail = s.tq.mark) s.spawned :: s.frames
      executed := (popBack depth s.tq).2 :: s.executed } := by
  obtain ⟨hs, hm⟩ : s.tq.size ≠ 0 ∧ s.tq.mark ≠ depth := by simpa [emptyBack] using hback
  have hle := h.size_le
  have hsince : level s.frames ≤ s.tq.data s.tq.tail := h.popsSince hback
  obtain ⟨n, hn⟩ := Nat.exists_eq_succ_of_ne_zero hs
  have hpending := h.pending_back hs
  rw [hn, Nat.succ_sub_one] at hpending
  have hsorted := hpending ▸ h.sorted
  have honce := h.once
  have hmark := h.mark
  have hsaved := h.saved
  rw [ExactlyOnce, hpending] at honce
  rw [hpending, below_append_of_le hsince, hn] at hmark
  rw [hpending, saved_append _ hsince] at hsaved
  -- the tasks that are left were all there when the task begins
  have hbelow : below s.spawned (contents depth s.tq.head n s.tq.data) = n := by
    rw [below_eq_length, length_contents]
    intro x hx
    exact h.lt_spawned (hpending ▸ List.mem_append_left _ hx)
  refine ⟨⟨?_, h.head_lt, ?_, ?_⟩, ?_, Nat.le_refl _, ?_, ?_, h.level_le, ?_⟩
  · simp only [TaskQueues.popBack]
    omega
  · simp only [TaskQueues.popBack]
    exact h.prev_tail hs
  all_goals simp only [TaskQueues.popBack, ExactlyOnce, State.pending, level, hn, Nat.succ_sub_one]
  · exact (List.pairwise_append.mp hsorted).1
  · refine List.Perm.trans ?_ honce
    rw [← List.append_assoc]
    exact (List.perm_append_singleton _ _).symm
  · rw [hbelow]
    exact marks_disabled ..
  · have htail := h.tail_eq
    rw [hn, Nat.succ_sub_one] at htail
    rw [hbelow]
    simp only [decide_eq_true_eq, htail]
    exact hmark.popBack hm (by omega) h.head_lt
  · exact hsaved

/-- The tasks that are left when a task returns were there when it began. -/
theorem State.below_began {b : ℕ}
    (hb : ¬∃ task ∈ s.pending depth, b ≤ task) : below b (s.pending depth) = s.tq.size := by
  rw [below_eq_length, length_pending]
  intro x hx
  by_contra hlt
  exact hb ⟨x, hx, Nat.not_lt.mp hlt⟩

/-- The owner goes back to a frame that it has entered before. -/
theorem Inv.finish (h : Inv depth s) {frames : List Frame} {m b : ℕ}
    (hb : ¬∃ task ∈ s.pending depth, b ≤ task) (hlevel : level frames ≤ s.spawned)
    (hm : s.tq.size ≠ 0 → Marks depth s.tq.head m (below (level frames) (s.pending depth))
      (below b (s.pending depth)))
    (hsaved : Saved depth s.tq.head (s.pending depth) frames) :
    Inv depth { s with tq := { s.tq with mark := m }, frames := frames } := by
  rw [State.below_began hb] at hm
  refine ⟨⟨h.size_le, h.head_lt, h.tail_eq, h.sorted⟩, h.once, hlevel, ?_, hsaved⟩
  change Marks depth s.tq.head m (below (level frames) (s.pending depth)) s.tq.size
  by_cases h0 : s.tq.size = 0
  · have houter := s.below_le depth (level frames)
    rw [show below (level frames) (s.pending depth) = 0 by omega]
    exact marks_zero ..
  · exact hm h0

theorem Inv.finishPopBack (h : Inv depth s) {om b : ℕ} {a : Bool} {frames : List Frame}
    (hf : s.frames = .popBack om a b :: frames) (hb : ¬∃ task ∈ s.pending depth, b ≤ task) :
    Inv depth { s with tq := afterPopBack depth s.tq om a, frames := frames } := by
  have hlevel := h.level_le
  have hsaved := h.saved
  rw [hf] at hlevel hsaved
  obtain ⟨hmark, hle, hsaved⟩ := hsaved
  refine h.finish hb (Nat.le_trans hle hlevel) (fun h0 => ?_) hsaved
  rwa [if_neg h0]

theorem Inv.finishFull (h : Inv depth s) {om b : ℕ} {frames : List Frame}
    (hf : s.frames = .full om b :: frames) (hb : ¬∃ task ∈ s.pending depth, b ≤ task) :
    Inv depth { s with tq := afterFull depth s.tq om, frames := frames } := by
  have hlevel := h.level_le
  have hsaved := h.saved
  have hinner := h.mark
  rw [hf] at hlevel hsaved hinner
  obtain ⟨hmark, hle, hsaved⟩ := hsaved
  have hlevel := Nat.le_trans hle hlevel
  by_cases hom : om = depth
  · rw [afterFull, if_neg (not_not.mpr hom)]
    refine h.finish hb hlevel (fun h0 => ?_) hsaved
    -- the mark that the task has left is disabled as well
    have hm : s.tq.mark = depth := by
      by_contra hm
      have hlt := hinner.lt hm h0
      rw [level, State.below_began hb] at hlt
      exact Nat.lt_irrefl _ hlt
    rw [hm.trans hom.symm]
    exact hmark
  · rw [afterFull, if_pos hom]
    refine h.finish hb hlevel (fun h0 => ?_) hsaved
    rwa [if_neg h0]

theorem Inv.popFront (h : Inv depth s) (hfront : emptyFront s.tq = false) :
    Inv depth { s with
      tq := (popFront depth s.tq).1
      executed := (popFront depth s.tq).2 :: s.executed } := by
  have hs : s.tq.size ≠ 0 := by simpa [emptyFront] using hfront
  have hle := h.size_le
  have hhead := h.head_lt
  obtain ⟨n, hn⟩ := Nat.exists_eq_succ_of_ne_zero hs
  have hpending := h.pending_front hs
  rw [hn, Nat.succ_sub_one] at hpending
  generalize hx : s.tq.data s.tq.head = x at hpending
  generalize hhead' : (if n.succ ≠ 1 then next depth s.tq.head else s.tq.head) = head' at hpending
  have hnext : 0 < n → head' = next depth s.tq.head := by
    intro hpos
    rw [← hhead', if_pos (by omega)]
  have hlt' : head' < depth := by
    rw [← hhead']
    split_ifs
    · exact next_lt hhead
    · exact hhead
  have hsorted := hpending ▸ h.sorted
  have honce := h.once
  have hmark := h.mark
  have hsaved := h.saved
  have hlen := s.below_le depth (level s.frames)
  rw [ExactlyOnce, hpending] at honce
  rw [hpending, hn] at hmark hlen
  rw [hpending] at hsaved
  have hmark' := hmark.popFront hlen (by omega) hhead fun hpos => hnext (by omega)
  rw [Nat.succ_sub_one, ← below_tail hsorted] at hmark'
  refine ⟨⟨?_, ?_, ?_, ?_⟩, ?_, h.level_le, ?_, ?_⟩
  all_goals
    simp only [TaskQueues.popFront, ExactlyOnce, State.pending, hn, Nat.succ_sub_one, hhead', hx]
  · omega
  · exact hlt'
  · have htail := h.tail_eq
    rw [hn, Nat.succ_sub_one] at htail
    rw [htail]
    by_cases h0 : n = 0
    · rw [← hhead', h0]
      rfl
    · rw [hnext (by omega), slot_next hhead (by omega), Nat.sub_add_cancel (by omega)]
  · exact (List.pairwise_cons.mp hsorted).2
  · exact List.perm_middle.symm.trans honce
  · by_cases h0 : n = 0
    · rw [h0]
      exact marks_empty (Nat.ne_of_lt (by simpa using hlt')) ..
    · by_cases ha : s.tq.head = s.tq.mark
      · rw [← ha] at hmark
        rw [below_tail hsorted, hmark.outer_eq_zero hhead (by omega) (by omega)]
        exact marks_zero ..
      · simpa [h0, ha] using hmark'
  · refine hsaved.popFront hsorted ?_ hhead fun hpos => hnext ?_
    · rw [length_contents]
      omega
    · rwa [length_contents] at hpos

theorem inv_async (h : Inv depth s) (hd : 0 < depth) : Inv depth (async depth s) := by
  unfold async
  cases hpush : push depth s.tq s.spawned with
  | some tq => exact h.push hd hpush
  | none => exact h.full

theorem inv_attempt (h : Inv depth s) (hd : 0 < depth) {a : Step} {s' : State}
    (hs : attempt depth s a = some s') : Inv depth s' := by
  cases a with
  | async =>
    simp only [attempt] at hs
    split at hs
    · simp at hs
    · obtain rfl := Option.some.inj hs
      exact inv_async h hd
  | wait =>
    simp only [attempt] at hs
    split at hs
    · simp at hs
    · obtain rfl := Option.some.inj hs
      exact h.wait s.spawned
  | popBack =>
    simp only [attempt] at hs
    split at hs
    · split_ifs at hs with hback
      obtain rfl := Option.some.inj hs
      exact h.popBack (by simpa using hback)
    · simp at hs
  | finish =>
    simp only [attempt] at hs
    split at hs
    · simp at hs
    · rename_i hf
      obtain rfl := Option.some.inj hs
      exact h.finishWait hf
    · rename_i hf
      split_ifs at hs with hb
      obtain rfl := Option.some.inj hs
      exact h.finishPopBack hf hb
    · rename_i hf
      split_ifs at hs with hb
      obtain rfl := Option.some.inj hs
      exact h.finishFull hf hb
  | popFront =>
    simp only [attempt] at hs
    split_ifs at hs with hfront
    obtain rfl := Option.some.inj hs
    exact h.popFront (by simpa using hfront)

theorem inv_step (h : Inv depth s) (hd : 0 < depth) (a : Step) : Inv depth (step depth s a) := by
  unfold step
  cases hs : attempt depth s a with
  | none => exact h
  | some s' => exact inv_attempt h hd hs

end

theorem inv_foldl {depth : ℕ} (hd : 0 < depth) (steps : List Step) :
    ∀ s, Inv depth s → Inv depth (steps.foldl (step depth) s) := by
  induction steps with
  | nil => exact fun _ h => h
  | cons a steps ih => exact fun s h => ih _ (inv_step h hd a)

theorem inv_run {depth : ℕ} (hd : 0 < depth) (steps : List Step) : Inv depth (run depth steps) :=
  inv_foldl hd steps _ (inv_init hd)

/-- Whatever the owner and the other threads do, every task is executed only once, the indexes
describe the tasks in the queue, and `pop_back` executes a task of the level of its owner only. -/
theorem levels {depth : ℕ} (hd : 0 < depth) (steps : List Step) :
    ExactlyOnce depth (run depth steps) ∧ Described depth (run depth steps) ∧
      PopsSince (level (run depth steps).frames) depth (run depth steps) :=
  have h := inv_run hd steps
  ⟨h.once, h.toDescribed, h.popsSince⟩

/-- A task that is executed by `async` as the queue is full pushes another one. -/
theorem levels_full :
    0 < 1 ∧ ExactlyOnce 1 (run 1 [.async, .async, .popFront, .async, .wait]) ∧
      Described 1 (run 1 [.async, .async, .popFront, .async, .wait]) ∧
      PopsSince (level (run 1 [.async, .async, .popFront, .async, .wait]).frames) 1
        (run 1 [.async, .async, .popFront, .async, .wait]) :=
  ⟨Nat.one_pos, levels Nat.one_pos _⟩

/-- A wait works through the tasks that were pushed before it began. -/
theorem not_popsSince_wait :
    ¬PopsSince (began (run 1 [.async, .wait]).frames) 1 (run 1 [.async, .wait]) := by
  intro h
  exact absurd (h rfl) (by decide)

end Build2.Libbuild2.TaskQueues
