import Build2.Libbuild2.Depdbs.Basic
import Mathlib.Data.List.Induction

/-! # Skipping to the end

`skip` looks for the end marker character by character. It also consumes the character after a
newline, so that of a run of newlines it tries every other one only, and it misses an end marker
that follows an even number of them. -/

namespace Build2.Libbuild2.Depdbs

open Build2.Lib.ByteString Build2.Lib.Files

/-! ### Reading to the end -/

/-- `read` until there is no next line, as many times as there can be lines. -/
def readToEnd : ℕ → Depdb → Depdb
  | 0, db => db
  | n + 1, db => if db.state = .read then readToEnd n (read db).1 else db

/-- The end marker comes after a newline. -/
def Marked (s : Bytes) : Prop := [nl, marker] <:+: s

/-- An end marker follows a run of an odd number of newlines. -/
def AfterOddRun (s : Bytes) : Prop :=
  ∃ a k b, s = a ++ List.replicate (2 * k + 1) nl ++ marker :: b ∧ a.getLast? ≠ some nl

theorem marked_cons {c : UInt8} {s : Bytes} :
    Marked (c :: s) ↔ (c = nl ∧ s.head? = some marker) ∨ Marked s := by
  rw [Marked, List.infix_cons_iff, List.cons_prefix_cons, Marked]
  refine or_congr (and_congr eq_comm ?_) Iff.rfl
  cases s <;> simp [eq_comm]

theorem not_marked_nil : ¬Marked [] := by simp [Marked]

theorem getline_marked {s line t : Bytes} (h : getline s = some (line, t)) :
    Marked s ↔ t.head? = some marker ∨ Marked t := by
  induction s generalizing line with
  | nil => simp [getline] at h
  | cons c s ih =>
    rw [getline] at h
    split_ifs at h with hc
    · obtain ⟨rfl, rfl⟩ := Prod.mk.inj (Option.some.inj h)
      rw [marked_cons, and_iff_right hc]
    · obtain ⟨r, hr, he⟩ := Option.map_eq_some_iff.mp h
      obtain ⟨rfl, rfl⟩ := Prod.mk.inj he
      rw [marked_cons, ← ih hr]
      simp [hc]

theorem getline_append {s line t : Bytes} (h : getline s = some (line, t)) :
    s = line ++ nl :: t ∧ nl ∉ line := by
  induction s generalizing line with
  | nil => simp [getline] at h
  | cons c s ih =>
    rw [getline] at h
    split_ifs at h with hc
    · obtain ⟨rfl, rfl⟩ := Prod.mk.inj (Option.some.inj h)
      exact ⟨by rw [hc]; rfl, List.not_mem_nil⟩
    · obtain ⟨r, hr, he⟩ := Option.map_eq_some_iff.mp h
      obtain ⟨rfl, rfl⟩ := Prod.mk.inj he
      obtain ⟨hs, hmem⟩ := ih hr
      refine ⟨congrArg (c :: ·) hs, ?_⟩
      rw [List.mem_cons, not_or]
      exact ⟨Ne.symm hc, hmem⟩

theorem not_marked_of_getline {s : Bytes} (h : getline s = none) : ¬Marked s := by
  induction s with
  | nil => exact not_marked_nil
  | cons c s ih =>
    rw [getline] at h
    split_ifs at h with hc
    rw [marked_cons]
    simp [hc, ih (Option.map_eq_none_iff.mp h)]

/-- `read` gets to the end marker without finding the database corrupt. -/
def ReadsToEnd (db : Depdb) : Prop := ∃ n, (readToEnd n db).state = .readEof

theorem readToEnd_of_ne {db : Depdb} (h : db.state ≠ .read) (n : ℕ) : readToEnd n db = db := by
  cases n with
  | zero => rfl
  | succ n => rw [readToEnd, if_neg h]

theorem readsToEnd_iff {db : Depdb} (h : db.state = .read) : ReadsToEnd db ↔ Marked db.input := by
  have hread : ∀ d : Depdb, d.state = .read → read d = readLine d := fun d hd => by
    rw [read, hd]
    rfl
  constructor
  · rintro ⟨n, hn⟩
    induction n generalizing db with
    | zero => simp [readToEnd, h] at hn
    | succ n ih =>
      rw [readToEnd, if_pos h, hread db h, readLine] at hn
      simp only [h] at hn
      cases hg : getline db.input with
      | none =>
        rw [hg, readToEnd_of_ne (by simp [change])] at hn
        simp [change] at hn
      | some r =>
        obtain ⟨line, t⟩ := r
        rw [hg] at hn
        rw [getline_marked hg]
        cases t with
        | nil =>
          rw [readToEnd_of_ne (by simp [change])] at hn
          simp [change] at hn
        | cons c t =>
          by_cases hc : c = marker
          · exact .inl (by rw [hc]; rfl)
          · simp only [hc, reduceCtorEq, if_false] at hn
            exact .inr (ih rfl hn)
  · intro hm
    induction hlen : db.input.length using Nat.strong_induction_on generalizing db with
    | _ len ih =>
      cases hg : getline db.input with
      | none => exact absurd hm (not_marked_of_getline hg)
      | some r =>
        obtain ⟨line, t⟩ := r
        have hshort : t.length < db.input.length := by
          rw [(getline_append hg).1]
          simp
          omega
        rw [getline_marked hg] at hm
        cases t with
        | nil => exact absurd hm (by simp [not_marked_nil])
        | cons c t =>
          by_cases hc : c = marker
          · refine ⟨1, ?_⟩
            rw [readToEnd, if_pos h, hread db h, readLine]
            simp [h, hg, hc, readToEnd]
          · have hstate : (readLine db).1.state = .read := by simp [readLine, h, hg, hc]
            have hinput : (readLine db).1.input = c :: t := by simp [readLine, h, hg, hc]
            obtain ⟨n, hn⟩ := ih (c :: t).length (hlen ▸ hshort) hstate
              (hinput ▸ hm.resolve_left (by simpa using hc)) (congrArg List.length hinput)
            refine ⟨n + 1, ?_⟩
            rw [readToEnd, if_pos h, hread db h]
            exact hn

/-! ### Skipping -/

theorem AfterOddRun.marked {s : Bytes} (h : AfterOddRun s) : Marked s := by
  obtain ⟨a, k, b, rfl, -⟩ := h
  refine ⟨a ++ List.replicate (2 * k) nl, b, ?_⟩
  rw [List.replicate_succ']
  simp

theorem not_afterOddRun_of_length {s : Bytes} (h : s.length ≤ 1) : ¬AfterOddRun s := by
  rintro ⟨a, k, b, rfl, -⟩
  simp only [List.length_append, List.length_replicate, List.length_cons] at h
  omega

/-- What does not end a run before a text does not matter to the runs in the text. -/
theorem afterOddRun_append {a s : Bytes} (h : AfterOddRun s) (ha : a.getLast? ≠ some nl) :
    AfterOddRun (a ++ s) := by
  obtain ⟨a', k, b, rfl, ha'⟩ := h
  refine ⟨a ++ a', k, b, by simp, ?_⟩
  cases a' using List.reverseRecOn with
  | nil => simpa using ha
  | append_singleton a' c => simpa [← List.append_assoc] using ha'

theorem afterOddRun_of_ne {c : UInt8} {s : Bytes} (hc : c ≠ nl) :
    AfterOddRun (c :: s) ↔ AfterOddRun s := by
  constructor
  · rintro ⟨a, k, b, he, ha⟩
    cases a with
    | nil =>
      rw [List.nil_append, List.replicate_succ, List.cons_append] at he
      exact absurd (List.cons.inj he).1 hc
    | cons d a =>
      refine ⟨a, k, b, (List.cons.inj he).2, ?_⟩
      cases a with
      | nil => simp
      | cons e a => simpa [List.getLast?_cons_cons] using ha
  · intro h
    exact afterOddRun_append (a := [c]) h (by simpa using hc)

/-- After a newline the next character does not matter either, whether it is one or not. -/
theorem afterOddRun_newline {d : UInt8} {s : Bytes} (hd : d ≠ marker) :
    AfterOddRun (nl :: d :: s) ↔ AfterOddRun s := by
  constructor
  · rintro ⟨a, k, b, he, ha⟩
    match a with
    | [] =>
      cases k with
      | zero =>
        have hd' : d = marker := by simpa using (List.cons.inj (List.cons.inj he).2).1
        exact absurd hd' hd
      | succ k =>
        -- a run that is shorter by two
        refine ⟨[], k, b, ?_, by simp⟩
        have hr : List.replicate (2 * (k + 1) + 1) nl =
            nl :: nl :: List.replicate (2 * k + 1) nl := by
          rw [show 2 * (k + 1) + 1 = 2 * k + 1 + 1 + 1 by omega, List.replicate_succ,
            List.replicate_succ]
        rw [hr] at he
        simpa using (List.cons.inj (List.cons.inj he).2).2
    | [e] =>
      have hen : e = nl := by simpa using (List.cons.inj he).1.symm
      exact absurd (by rw [hen]; rfl) ha
    | e :: f :: a =>
      refine ⟨a, k, b, (List.cons.inj (List.cons.inj he).2).2, ?_⟩
      cases a with
      | nil => simp
      | cons g a => simpa [List.getLast?_cons_cons] using ha
  · intro h
    by_cases hdn : d = nl
    · obtain ⟨a, k, b, rfl, ha⟩ := h
      subst hdn
      cases a with
      | nil =>
        refine ⟨[], k + 1, b, ?_, by simp⟩
        rw [show 2 * (k + 1) + 1 = 2 * k + 1 + 1 + 1 by omega, List.replicate_succ,
          List.replicate_succ]
        rfl
      | cons e a =>
        refine ⟨nl :: nl :: e :: a, k, b, by simp, ?_⟩
        simpa [List.getLast?_cons_cons] using ha
    · exact afterOddRun_append (a := [nl, d]) h (by simpa using hdn)

theorem skipLoop_iff (s : Bytes) : (skipLoop s).isSome = true ↔ AfterOddRun s := by
  induction s using skipLoop.induct with
  | case1 => simpa [skipLoop] using not_afterOddRun_of_length (by simp)
  | case2 c => simpa [skipLoop] using not_afterOddRun_of_length (by simp)
  | case3 s =>
    refine iff_of_true (by simp [skipLoop]) ⟨[], 0, s, rfl, by simp⟩
  | case4 d s hd ih =>
    rw [skipLoop, if_pos rfl, if_neg hd, ih, afterOddRun_newline hd]
  | case5 c d s hc ih =>
    rw [skipLoop, if_neg hc, ih, afterOddRun_of_ne hc]

/-! ### Positions -/

/-- A database in the read state at a position of its file. -/
structure At (f : Bytes) (db : Depdb) : Prop where
  state : db.state ≠ .write
  steps : db.steps = []
  tell : db.tell ≤ f.length
  input : db.input = f.drop db.tell

theorem at_read {f : Bytes} {db : Depdb} (h : At f db) (hs : (read db).1.state ≠ .write) :
    At f (read db).1 := by
  obtain ⟨hw, hsteps, htell, hin⟩ := h
  rw [read, if_neg hw, readLine] at hs ⊢
  by_cases he : db.state = .readEof
  · simp only [he, if_true]
    exact ⟨by simp, hsteps, htell, hin⟩
  · simp only [he, if_false] at hs ⊢
    cases hg : getline db.input with
    | none => simp [hg, change] at hs
    | some r =>
      obtain ⟨line, t⟩ := r
      cases t with
      | nil => simp [hg, change] at hs
      | cons c t =>
        simp only [hg] at hs ⊢
        obtain ⟨hl, -⟩ := getline_append hg
        rw [hin] at hl
        have hlen := congrArg List.length hl
        simp only [List.length_drop, List.length_append, List.length_cons] at hlen
        refine ⟨hs, hsteps, by simp only; omega, ?_⟩
        simp only [Nat.add_assoc]
        rw [← List.drop_drop, hl]
        simp

theorem state_read {db : Depdb} (h : db.state = .write) : (read db).1.state = .write := by
  rw [read, if_pos h]
  exact h

/-- The database after a number of lines have been read. -/
def afterReads (f : Bytes) (n : ℕ) : Depdb := (run (openDb (some f)) (List.replicate n .read)).1

theorem at_run {f : Bytes} {db : Depdb} (h : db.state = .write ∨ At f db) (n : ℕ) :
    (run db (List.replicate n .read)).1.state = .write ∨
      At f (run db (List.replicate n .read)).1 := by
  induction n generalizing db with
  | zero => exact h
  | succ n ih =>
    have hread : (read db).1.state = .write ∨ At f (read db).1 := by
      by_cases hw : (read db).1.state = .write
      · exact .inl hw
      · exact .inr (at_read (h.resolve_left fun hdb => hw (state_read hdb)) hw)
    exact ih hread

theorem at_afterReads {f : Bytes} {n : ℕ} (h : (afterReads f n).state = .read) :
    At f (afterReads f n) := by
  have hopen : (openDb (some f)).state = .write ∨ At f (openDb (some f)) := by
    by_cases hw : (openDb (some f)).state = .write
    · exact .inl hw
    · have hread : (openDb (some f)) =
          (read { state := .read, input := f, tell := 0, pos := 0, steps := [] }).1 := by
        rw [openDb] at hw ⊢
        dsimp only at hw ⊢
        split_ifs at hw ⊢ with hv
        · rfl
        · exact absurd (by simp only [write, overwrite]; split_ifs <;> simp_all [change]) hw
      rw [hread] at hw ⊢
      exact .inr (at_read ⟨by simp, rfl, Nat.zero_le _, rfl⟩ hw)
  refine (at_run hopen n).resolve_left fun hw => ?_
  rw [afterReads] at h
  rw [h] at hw
  simp at hw

/-- `skip` does what reading to the end does: it is true exactly if the end marker is reached, and
it leaves the database there, or else in the write state with the file truncated at the position. -/
structure SkipAgrees (f : Bytes) (db : Depdb) : Prop where
  result : (skip db).2 = true ↔ ReadsToEnd db
  valid : ReadsToEnd db → (skip db).1.state = .readEof
  corrupt : ¬ReadsToEnd db → (skip db).1.state = .write ∧ after f (skip db).1.steps = f.take db.tell

/-- `skip` agrees with reading unless every end marker after a newline follows an even number of
them. -/
theorem skipAgrees_iff (f : Bytes) (n : ℕ) (h : (afterReads f n).state = .read) :
    SkipAgrees f (afterReads f n) ↔
      (Marked (f.drop (afterReads f n).tell) → AfterOddRun (f.drop (afterReads f n).tell)) := by
  have hat := at_afterReads h
  have hend := readsToEnd_iff h
  generalize afterReads f n = db at h hat hend ⊢
  rw [← hat.input]
  have hloop := skipLoop_iff db.input
  have hne : db.state ≠ .readEof := by rw [h]; simp
  cases hl : skipLoop db.input with
  | some s =>
    rw [hl] at hloop
    have hodd : AfterOddRun db.input := hloop.mp rfl
    have hto : ReadsToEnd db := hend.mpr hodd.marked
    have hskip : (skip db).2 = true ∧ (skip db).1.state = .readEof := by
      simp [skip, hne, hl]
    exact iff_of_true ⟨iff_of_true hskip.1 hto, fun _ => hskip.2, fun hn => absurd hto hn⟩
      fun _ => hodd
  | none =>
    rw [hl] at hloop
    have hodd : ¬AfterOddRun db.input := fun ho => by simpa using hloop.mpr ho
    have hskip : skip db = (change { db with pos := db.tell } true, false) := by
      simp [skip, hne, hl]
    constructor
    · intro ha hm
      have hto := ha.result.mpr (hend.mpr hm)
      simp [hskip] at hto
    · intro himp
      have hto : ¬ReadsToEnd db := fun hto => hodd (himp (hend.mp hto))
      refine ⟨by simpa [hskip] using hto, fun ht => absurd ht hto, fun _ => ?_⟩
      rw [hskip]
      refine ⟨rfl, ?_⟩
      have htr := after_truncate (s := f) (t := []) hat.tell
      simpa [change, hat.steps, puts] using htr

/-- An empty line before the end marker. -/
def emptyLast : Bytes := version ++ [nl] ++ [ch 'a'] ++ [nl, nl, marker]

theorem skipAgrees_iff_line : SkipAgrees (version ++ [nl] ++ [ch 'a'] ++ [nl, marker])
    (afterReads (version ++ [nl] ++ [ch 'a'] ++ [nl, marker]) 0) :=
  (skipAgrees_iff _ 0 (by decide)).mpr fun _ => ⟨[ch 'a'], 0, [], by decide, by decide⟩

/-- The lines are read to the end marker, but it is not found when they are skipped. -/
theorem not_skipAgrees_emptyLast :
    (afterReads emptyLast 0).state = .read ∧ ¬SkipAgrees emptyLast (afterReads emptyLast 0) := by
  have hstate : (afterReads emptyLast 0).state = .read := by decide
  refine ⟨hstate, fun ha => ?_⟩
  have hto : ReadsToEnd (afterReads emptyLast 0) := ⟨2, by decide⟩
  exact absurd (ha.result.mpr hto) (by decide)

end Build2.Libbuild2.Depdbs
