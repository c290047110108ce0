import Mathlib.Data.List.Basic
import Mathlib.Order.Compare
import Mathlib.Tactic.SplitIfs

/-! # Texts of joined components

Components joined by a separator that is smaller than every element of a component are ordered as
the lists of the components (`compare_joined`), and dropping trailing components of the least kind
does not change how lists of equal length compare (`compare_trim`). -/

namespace Build2.Lib.Joined

variable {α : Type}

/-- Components, each followed by the separator. -/
def closed (sep : α) (xs : List (List α)) : List α := xs.flatMap fun x => x ++ [sep]

/-- Components joined by the separator. -/
def joined (sep : α) : List (List α) → List α
  | [] => []
  | [x] => x
  | x :: y :: ys => x ++ sep :: joined sep (y :: ys)

section

variable {sep : α}

@[simp] theorem closed_nil : closed sep [] = [] := rfl

@[simp] theorem closed_snoc (xs : List (List α)) (x : List α) :
    closed sep (xs ++ [x]) = closed sep xs ++ (x ++ [sep]) := by
  simp [closed]

/-- The components before the last one are closed by the separator. -/
theorem joined_snoc (x : List α) : ∀ xs : List (List α),
    joined sep (xs ++ [x]) = closed sep xs ++ x
  | [] => rfl
  | [y] => by simp [joined, closed]
  | y :: z :: zs => by
    have ih := joined_snoc x (z :: zs)
    show y ++ sep :: joined sep (z :: zs ++ [x]) = _
    rw [ih]
    simp [closed]

theorem closed_eq {xs : List (List α)} (h : xs ≠ []) : closed sep xs = joined sep xs ++ [sep] := by
  obtain ⟨ys, y, rfl⟩ := List.eq_nil_or_concat' xs |>.resolve_left h
  rw [closed_snoc, joined_snoc]
  simp

theorem joined_cons (x : List α) (xs : List (List α)) :
    joined sep (x :: xs) = x ++ if xs = [] then [] else sep :: joined sep xs := by
  cases xs with
  | nil => simp [joined]
  | cons y ys => rfl

theorem joined_ne_nil {xs : List (List α)} (h : ∀ x ∈ xs, x ≠ []) (hne : xs ≠ []) :
    joined sep xs ≠ [] := by
  obtain ⟨x, xs, rfl⟩ := List.exists_cons_of_ne_nil hne
  rw [joined_cons]
  exact List.append_ne_nil_of_left_ne_nil (h x (by simp)) _

theorem joined_eq_nil {xs : List (List α)} (h : ∀ x ∈ xs, x ≠ []) :
    joined sep xs = [] ↔ xs = [] := by
  refine ⟨fun he => ?_, fun he => by rw [he]; rfl⟩
  by_contra hne
  exact joined_ne_nil h hne he

theorem mem_joined {b : α} : ∀ {xs : List (List α)}, b ∈ joined sep xs → b = sep ∨ ∃ x ∈ xs, b ∈ x
  | [], h => by cases h
  | [x], h => Or.inr ⟨x, by simp, h⟩
  | x :: y :: ys, h => by
    rcases List.mem_append.mp h with h | h
    · exact Or.inr ⟨x, by simp, h⟩
    rcases List.mem_cons.mp h with h | h
    · exact Or.inl h
    · rcases mem_joined h with h | ⟨z, hz, hb⟩
      · exact Or.inl h
      · exact Or.inr ⟨z, List.mem_cons_of_mem _ hz, hb⟩

theorem mem_joined_of_mem {b : α} {x : List α} : ∀ {xs : List (List α)}, x ∈ xs → b ∈ x →
    b ∈ joined sep xs
  | [y], hx, hb => by rwa [List.mem_singleton.mp hx] at hb
  | y :: z :: zs, hx, hb => by
    rcases List.mem_cons.mp hx with rfl | hx
    · exact List.mem_append_left _ hb
    · exact List.mem_append_right _ (List.mem_cons_of_mem _ (mem_joined_of_mem hx hb))

theorem joined_initial {xs ys : List (List α)} (h : xs <+: ys) :
    joined sep xs <+: joined sep ys := by
  induction xs generalizing ys with
  | nil => exact List.nil_prefix
  | cons x xs ih =>
    obtain ⟨zs, rfl⟩ := h
    have hp := ih (List.prefix_append xs zs)
    rw [List.cons_append, joined_cons, joined_cons, List.prefix_append_right_inj]
    split_ifs with h1 h2 h2
    · exact List.nil_prefix
    · exact List.nil_prefix
    · rw [List.append_eq_nil_iff] at h2
      exact absurd h2.1 h1
    · exact (List.cons_prefix_cons).mpr ⟨rfl, hp⟩

end

/-- The components a text is split into have no separator. -/
theorem not_mem_of_mem_splitOn [BEq α] [LawfulBEq α] {sep : α} {s x : List α}
    (h : x ∈ s.splitOn sep) : sep ∉ x := by
  induction s generalizing x with
  | nil =>
    rw [List.mem_singleton.mp h]
    exact List.not_mem_nil
  | cons b s ih =>
    rw [List.splitOn_cons_eq_if_modifyHead] at h
    split_ifs at h with hb
    · rcases List.mem_cons.mp h with rfl | h
      · exact List.not_mem_nil
      · exact ih h
    obtain ⟨y, ys, hys⟩ := List.exists_cons_of_ne_nil (List.splitOn_ne_nil sep s)
    rw [hys, List.modifyHead_cons] at h
    rw [hys] at ih
    rcases List.mem_cons.mp h with rfl | h
    · rw [List.mem_cons, not_or]
      exact ⟨fun he => hb (by simp [he]), ih List.mem_cons_self⟩
    · exact ih (List.mem_cons_of_mem _ h)

theorem intercalate_snoc {sep : α} {xs : List (List α)} (x : List α) (h : xs ≠ []) :
    [sep].intercalate (xs ++ [x]) = [sep].intercalate xs ++ sep :: x := by
  induction xs with
  | nil => exact absurd rfl h
  | cons y xs ih =>
    rw [List.cons_append, List.intercalate_cons_of_ne_nil (by simp)]
    by_cases hxs : xs = []
    · subst hxs
      simp
    · rw [ih hxs, List.intercalate_cons_of_ne_nil hxs]
      simp

theorem intercalate_append {sep : α} {xs ys : List (List α)} (hx : xs ≠ []) (hy : ys ≠ []) :
    [sep].intercalate (xs ++ ys) = [sep].intercalate xs ++ sep :: [sep].intercalate ys := by
  induction xs with
  | nil => exact absurd rfl hx
  | cons x xs ih =>
    rw [List.cons_append, List.intercalate_cons_of_ne_nil (by simp [hy])]
    by_cases hxs : xs = []
    · subst hxs
      simp
    · rw [ih hxs, List.intercalate_cons_of_ne_nil hxs]
      simp

/-- **Components come first** just if their text does and a separator or nothing follows it. -/
theorem initial_iff [BEq α] [LawfulBEq α] {sep : α} {xs ys : List (List α)}
    (hx : ∀ x ∈ xs, sep ∉ x) (hy : ∀ y ∈ ys, sep ∉ y) (hxn : xs ≠ []) (hyn : ys ≠ []) :
    xs <+: ys ↔
      ∃ u, [sep].intercalate ys = [sep].intercalate xs ++ u ∧ (u = [] ∨ ∃ v, u = sep :: v) := by
  constructor
  · rintro ⟨zs, rfl⟩
    by_cases hz : zs = []
    · exact ⟨[], by simp [hz], Or.inl rfl⟩
    · exact ⟨_, intercalate_append hxn hz, Or.inr ⟨_, rfl⟩⟩
  · rintro ⟨u, hu, h⟩
    have hsx : ([sep].intercalate xs).splitOn sep = xs := List.splitOn_intercalate sep hx hxn
    have hsy : ([sep].intercalate ys).splitOn sep = ys := List.splitOn_intercalate sep hy hyn
    rcases h with rfl | ⟨v, rfl⟩
    · rw [List.append_nil] at hu
      have hxy : xs = ys := by rw [← hsx, ← hsy, hu]
      exact hxy ▸ List.prefix_rfl
    · refine ⟨v.splitOn sep, ?_⟩
      rw [← hsy, hu, List.splitOn_append_cons_self, hsx]

/-! ### The order -/

section

variable [Ord α] [Std.OrientedOrd α] {sep : α}

/-- Every element is greater than the separator. -/
def Above (sep : α) (x : List α) : Prop := ∀ b ∈ x, compare sep b = .lt

/-- What comes after a component: nothing or the separator and more. -/
def IsRest (sep : α) (u : List α) : Prop := u = [] ∨ ∃ v, u = sep :: v

theorem compare_append_rest : ∀ {x y u v : List α}, Above sep x → Above sep y → IsRest sep u →
    IsRest sep v → compare (x ++ u) (y ++ v) = (compare x y).then (compare u v)
  | [], [], u, v, _, _, _, _ => rfl
  | [], b :: y, u, v, _, hy, hu, _ => by
    have hlt := hy b (by simp)
    rcases hu with rfl | ⟨w, rfl⟩
    · rfl
    · show compare (sep :: w) (b :: (y ++ v)) = _
      rw [List.compare_cons_cons, hlt]
      rfl
  | a :: x, [], u, v, hx, _, _, hv => by
    have hgt : compare a sep = .gt := by
      rw [Std.OrientedOrd.eq_swap, hx a (by simp)]
      rfl
    rcases hv with rfl | ⟨w, rfl⟩
    · rfl
    · show compare (a :: (x ++ u)) (sep :: w) = _
      rw [List.compare_cons_cons, hgt]
      rfl
  | a :: x, b :: y, u, v, hx, hy, hu, hv => by
    have ih := compare_append_rest (fun c hc => hx c (List.mem_cons_of_mem _ hc))
      (fun c hc => hy c (List.mem_cons_of_mem _ hc)) hu hv
    rw [List.cons_append, List.cons_append, List.compare_cons_cons, List.compare_cons_cons, ih,
      Ordering.then_assoc]

/-- **Joined texts are ordered as the lists of their components.** -/
theorem compare_joined : ∀ {xs ys : List (List α)}, (∀ x ∈ xs, x ≠ [] ∧ Above sep x) →
    (∀ y ∈ ys, y ≠ [] ∧ Above sep y) → compare (joined sep xs) (joined sep ys) = compare xs ys
  | [], [], _, _ => rfl
  | [], y :: ys, _, hy => by
    obtain ⟨b, w, hb⟩ := List.exists_cons_of_ne_nil
      (show joined sep (y :: ys) ≠ [] from
        joined_ne_nil (fun y h => (hy y h).1) (List.cons_ne_nil y ys))
    rw [hb]
    rfl
  | x :: xs, [], hx, _ => by
    obtain ⟨b, w, hb⟩ := List.exists_cons_of_ne_nil
      (show joined sep (x :: xs) ≠ [] from
        joined_ne_nil (fun x h => (hx x h).1) (List.cons_ne_nil x xs))
    rw [hb]
    rfl
  | x :: xs, y :: ys, hx, hy => by
    have ih := compare_joined (fun z hz => hx z (List.mem_cons_of_mem _ hz))
      (fun z hz => hy z (List.mem_cons_of_mem _ hz))
    have hrest : ∀ zs : List (List α),
        IsRest sep (if zs = [] then [] else sep :: joined sep zs) := by
      intro zs
      split_ifs
      · exact Or.inl rfl
      · exact Or.inr ⟨_, rfl⟩
    rw [joined_cons, joined_cons, compare_append_rest (hx x (by simp)).2 (hy y (by simp)).2
      (hrest xs) (hrest ys), List.compare_cons_cons]
    congr 1
    split_ifs with h1 h2 h2
    · rw [h1, h2]
      rfl
    · obtain ⟨z, zs, rfl⟩ := List.exists_cons_of_ne_nil h2
      rw [h1]
      rfl
    · obtain ⟨z, zs, rfl⟩ := List.exists_cons_of_ne_nil h1
      rw [h2]
      rfl
    · have hs : compare sep sep = .eq := Std.ReflCmp.compare_self
      rw [List.compare_cons_cons, hs]
      exact ih

end

/-! ### Trailing components -/

section

variable {p : α → Bool}

/-- Drop the trailing elements of a kind. -/
def trim (p : α → Bool) : List α → List α
  | [] => []
  | x :: xs => if p x ∧ trim p xs = [] then [] else x :: trim p xs

theorem trim_snoc (x : α) (xs : List α) :
    trim p (xs ++ [x]) = if p x then trim p xs else xs ++ [x] := by
  induction xs with
  | nil =>
    simp [trim]
  | cons y ys ih =>
    rw [List.cons_append, trim, ih]
    by_cases hx : p x = true
    · simp only [hx, if_true]
      rfl
    · simp [hx]

theorem trim_initial (xs : List α) : trim p xs <+: xs := by
  induction xs with
  | nil => exact List.nil_prefix
  | cons x xs ih =>
    rw [trim]
    split_ifs
    · exact List.nil_prefix
    · exact List.cons_prefix_cons.mpr ⟨rfl, ih⟩

theorem trim_eq_nil {xs : List α} : trim p xs = [] ↔ ∀ x ∈ xs, p x = true := by
  induction xs with
  | nil => simp [trim]
  | cons x xs ih =>
    rw [trim, List.forall_mem_cons, ← ih]
    split_ifs with h
    · exact iff_of_true rfl h
    · exact iff_of_false nofun h

theorem trim_map {β : Type} {q : β → Bool} {f : α → β} (xs : List α) (h : ∀ x ∈ xs, q (f x) = p x) :
    trim q (xs.map f) = (trim p xs).map f := by
  induction xs with
  | nil => rfl
  | cons x xs ih =>
    have ih := ih fun y hy => h y (List.mem_cons_of_mem _ hy)
    by_cases hx : p x = true ∧ trim p xs = []
    · rw [List.map_cons, trim, trim, if_pos hx, ih, h x (by simp), if_pos ⟨hx.1, by simp [hx.2]⟩]
      rfl
    · rw [List.map_cons, trim, trim, if_neg hx, ih, h x (by simp), if_neg (by simpa using hx)]
      rfl

/-- **Trailing elements of the least kind do not matter to the order** of lists of equal length. -/
theorem compare_trim [Ord α] : ∀ {xs ys : List α}, xs.length = ys.length →
    (∀ x ∈ xs, ∀ y ∈ ys, (p x = true → p y = true → compare x y = .eq) ∧
      (p x = true → p y = false → compare x y = .lt) ∧
      (p x = false → p y = true → compare x y = .gt)) →
    compare (trim p xs) (trim p ys) = compare xs ys
  | [], [], _, _ => rfl
  | x :: xs, y :: ys, hl, h => by
    have hl' : xs.length = ys.length := by simpa using hl
    have ih := compare_trim hl'
      fun x hx y hy => h x (List.mem_cons_of_mem _ hx) y (List.mem_cons_of_mem _ hy)
    obtain ⟨h1, h2, h3⟩ := h x (by simp) y (by simp)
    rw [trim, trim, List.compare_cons_cons, ← ih]
    split_ifs with hx hy hy
    · rw [h1 hx.1 hy.1, hx.2, hy.2]
      rfl
    · rw [hx.2]
      by_cases hpy : p y = true
      · obtain ⟨z, zs, hz⟩ := List.exists_cons_of_ne_nil fun h => hy ⟨hpy, h⟩
        rw [h1 hx.1 hpy, hz]
        rfl
      · rw [h2 hx.1 (eq_false_of_ne_true hpy)]
        rfl
    · rw [hy.2]
      by_cases hpx : p x = true
      · obtain ⟨z, zs, hz⟩ := List.exists_cons_of_ne_nil fun h => hx ⟨hpx, h⟩
        rw [h1 hpx hy.1, hz]
        rfl
      · rw [h3 (eq_false_of_ne_true hpx) hy.1]
        rfl
    · rw [List.compare_cons_cons]

end

end Build2.Lib.Joined
