import Build2.Lib.Forest
import Build2.Libbutl.PathMap.Basic

/-! # The order of the keys

Keys that end with no separator of their own are in the lexicographic order of their texts with a
separator added, and there a key is a prefix of another exactly when the texts are. -/

namespace Build2.Libbutl.PathMap

open PathTraits Build2.Lib.Forest

variable {C : Type} [PathTraits C]

/-- The text of a key with a separator at its end. -/
def terminated (k : Path C) : List C := canonical k ++ [separator]

/-- A text that does not end with a separator. -/
def Bare (s : List C) : Prop := s.getLast? ≠ some separator

theorem bare_nil : Bare ([] : List C) := by simp [Bare]

theorem bare_of_cons {c : C} {s : List C} (h : Bare (c :: s)) : Bare s := by
  cases s with
  | nil => exact bare_nil
  | cons d s => simpa [Bare, List.getLast?_cons_cons] using h

theorem ne_nil_of_bare {c : C} {s : List C} (h : Bare (c :: s)) (hc : c = separator) : s ≠ [] := by
  rintro rfl
  simp [Bare, hc] at h

/-! ### Comparing texts -/

theorem traitsCompare_cons (c : C) (x y : List C) :
    traitsCompare (c :: x) (c :: y) = traitsCompare x y := by
  simp [traitsCompare]

theorem traitsCompare_of_ne {c d : C} (h : c ≠ d) (x y : List C) :
    traitsCompare (c :: x) (d :: y) = if c < d then -1 else 1 := by
  have hs : ¬(c = separator ∧ d = separator) := fun hs => h (hs.1.trans hs.2.symm)
  rcases lt_or_gt_of_ne h with hlt | hlt
  · simp [traitsCompare, hs, hlt]
  · simp [traitsCompare, hs, hlt]

theorem compare_nil_nil : compare ([] : List C) [] = 0 := by
  simp [compare, traitsCompare]

theorem compare_nil_cons (d : C) (y : List C) :
    compare [] (d :: y) =
      if d = separator then (if y = [] then 0 else -1) else if separator < d then -1 else 1 := by
  by_cases hd : d = separator
  · subst hd
    cases y <;> simp [compare, traitsCompare]
  · rcases lt_or_gt_of_ne (Ne.symm hd) with hlt | hlt
    · simp [compare, traitsCompare, hd, hlt]
    · simp [compare, traitsCompare, hd, hlt, hlt.asymm]

theorem compare_cons_nil (c : C) (x : List C) :
    compare (c :: x) [] =
      if c = separator then (if x = [] then 0 else 1) else if c < separator then -1 else 1 := by
  by_cases hc : c = separator
  · subst hc
    cases x <;> simp [compare, traitsCompare]
  · rcases lt_or_gt_of_ne hc with hlt | hlt
    · simp [compare, traitsCompare, hc, hlt]
    · simp [compare, traitsCompare, hc, hlt, hlt.asymm]

theorem compare_cons_self (c : C) (x y : List C) : compare (c :: x) (c :: y) = compare x y := by
  have hm : min (x.length + 1) (y.length + 1) = min x.length y.length + 1 := by omega
  simp only [compare, List.length_cons, hm, List.take_succ_cons, traitsCompare_cons,
    List.getElem?_cons_succ, Nat.add_lt_add_iff_right]
  split_ifs <;> first | rfl | omega

theorem compare_cons_of_ne {c d : C} (h : c ≠ d) (x y : List C) :
    compare (c :: x) (d :: y) = if c < d then -1 else 1 := by
  have hm : min (x.length + 1) (y.length + 1) = min x.length y.length + 1 := by omega
  simp only [compare, List.length_cons, hm, List.take_succ_cons, traitsCompare_of_ne h]
  split_ifs <;> simp_all

/-- The order is that of the texts with a separator at the end. -/
theorem compare_lt_iff {x y : List C} (hx : Bare x) (hy : Bare y) :
    compare x y < 0 ↔ x ++ [separator] < y ++ [separator] := by
  induction x generalizing y with
  | nil =>
    cases y with
    | nil => simp [compare_nil_nil]
    | cons d y =>
      rw [compare_nil_cons, List.nil_append, List.cons_append, List.cons_lt_cons_iff]
      by_cases hd : d = separator
      · have hne := ne_nil_of_bare hy hd
        cases y <;> simp_all
      · by_cases hlt : separator < d <;> simp [hd, hlt, Ne.symm hd]
  | cons c x ih =>
    cases y with
    | nil =>
      rw [compare_cons_nil, List.nil_append, List.cons_append, List.cons_lt_cons_iff]
      by_cases hc : c = separator
      · have hne := ne_nil_of_bare hx hc
        simp [hc, hne]
      · by_cases hlt : c < separator <;> simp [hc, hlt]
    | cons d y =>
      rw [List.cons_append, List.cons_append, List.cons_lt_cons_iff]
      by_cases hcd : c = d
      · subst hcd
        rw [compare_cons_self, ih (bare_of_cons hx) (bare_of_cons hy)]
        simp
      · rw [compare_cons_of_ne hcd]
        by_cases hlt : c < d <;> simp [hcd, hlt]

/-- Texts are equal when they are up to a separator at the end of one of them. -/
theorem compare_eq_zero_iff {x y : List C} :
    compare x y = 0 ↔ x = y ∨ y = x ++ [separator] ∨ x = y ++ [separator] := by
  induction x generalizing y with
  | nil =>
    cases y with
    | nil => simp [compare_nil_nil]
    | cons d y =>
      rw [compare_nil_cons]
      by_cases hd : d = separator
      · by_cases hy : y = [] <;> simp [hd, hy]
      · by_cases hlt : separator < d <;> simp [hd, hlt]
  | cons c x ih =>
    cases y with
    | nil =>
      rw [compare_cons_nil]
      by_cases hc : c = separator
      · by_cases hx : x = [] <;> simp [hc, hx]
      · by_cases hlt : c < separator <;> simp [hc, hlt]
    | cons d y =>
      by_cases hcd : c = d
      · subst hcd
        rw [compare_cons_self, ih]
        simp
      · rw [compare_cons_of_ne hcd]
        by_cases hlt : c < d <;> simp [hcd, hlt, Ne.symm hcd]

theorem compare_swap (x y : List C) : compare x y = -compare y x := by
  induction x generalizing y with
  | nil =>
    cases y with
    | nil => rw [compare_nil_nil]; rfl
    | cons d y =>
      rw [compare_nil_cons, compare_cons_nil]
      rcases lt_trichotomy d separator with h | rfl | h
      · simp [h.ne, h, h.asymm]
      · by_cases hy : y = [] <;> simp [hy]
      · simp [h.ne', h, h.asymm]
  | cons a x ih =>
    cases y with
    | nil =>
      rw [compare_nil_cons, compare_cons_nil]
      rcases lt_trichotomy a separator with h | rfl | h
      · simp [h.ne, h, h.asymm]
      · by_cases hx : x = [] <;> simp [hx]
      · simp [h.ne', h, h.asymm]
    | cons d y =>
      by_cases had : a = d
      · subst had
        rw [compare_cons_self, compare_cons_self]
        exact ih y
      · rw [compare_cons_of_ne had, compare_cons_of_ne (Ne.symm had)]
        rcases lt_or_gt_of_ne had with h | h
        · simp [h, h.asymm]
        · simp [h, h.asymm]

/-! ### Comparing keys -/

namespace ComparePrefix

variable {c : ComparePrefix C} {p k x y : List C}

/-- The key does not end with the delimiter, or it is the root directory. -/
def IsKey (c : ComparePrefix C) (k : List C) : Prop := Bare (c.canonical k)

/-- The text that is compared, with the delimiter at its end. -/
def closed (c : ComparePrefix C) (k : List C) : List C := c.canonical k ++ [separator]

theorem less_iff (hx : c.IsKey x) (hy : c.IsKey y) :
    c.less x y = true ↔ c.closed x < c.closed y := by
  rw [less, decide_eq_true_iff, compare_lt_iff hx hy]
  rfl

/-- **The empty key is everyone's prefix**, another key one up to a delimiter. -/
theorem isPrefix_iff : c.isPrefix p k = true ↔ c.canonical p = [] ∨ c.closed p <+: c.closed k := by
  simp only [isPrefix, closed, Bool.or_eq_true, Bool.and_eq_true, decide_eq_true_eq]
  generalize c.canonical p = p
  generalize c.canonical k = k
  rw [List.length_eq_zero_iff, List.prefix_concat_iff]
  refine or_congr_right ?_
  rcases lt_trichotomy p.length k.length with hlt | heq | hgt
  · have hlen : (k.take (p.length + 1)).length = p.length + 1 := by
      rw [List.length_take]
      omega
    rw [if_neg hlt.ne, compare_eq_zero_iff]
    constructor
    · rintro ⟨-, h | h | h⟩
      · exact absurd (congrArg List.length h) (by omega)
      · exact Or.inr (h ▸ List.take_prefix _ _)
      · exact absurd (congrArg List.length h) (by rw [List.length_append, hlen]; simp; omega)
    · rintro (h | h)
      · exact absurd (congrArg List.length h) (by simp; omega)
      · rw [List.prefix_iff_eq_take, List.length_append, List.length_singleton] at h
        exact ⟨hlt.le, Or.inr (Or.inl h.symm)⟩
  · rw [if_pos heq, List.take_of_length_le heq.ge, compare_eq_zero_iff]
    constructor
    · rintro ⟨-, h | h | h⟩
      · exact Or.inl (by rw [h])
      · exact absurd (congrArg List.length h) (by simp; omega)
      · exact absurd (congrArg List.length h) (by simp; omega)
    · rintro (h | h)
      · exact ⟨heq.le, Or.inl (List.append_cancel_right h)⟩
      · exact absurd h.length_le (by simp; omega)
  · refine iff_of_false (fun h => by omega) ?_
    rintro (h | h)
    · exact absurd (congrArg List.length h) (by simp; omega)
    · exact absurd h.length_le (by simp; omega)

end ComparePrefix

/-- A key of a map of directories: empty or absolute, with no separator at its end. -/
structure Tidy (k : Path C) : Prop where
  bare : Bare (canonical k)
  anchored : canonical k = [] ∨ (canonical k).head? = some separator

theorem less_iff {x y : Path C} (hx : Tidy x) (hy : Tidy y) :
    pathPrefix.less x y = true ↔ terminated x < terminated y :=
  ComparePrefix.less_iff hx.bare hy.bare

theorem isPrefix_iff {p k : Path C} (hk : Tidy k) :
    pathPrefix.isPrefix p k = true ↔ terminated p <+: terminated k := by
  rw [ComparePrefix.isPrefix_iff]
  refine ⟨fun h => h.elim (fun hp => ?_) id, Or.inr⟩
  change canonical p = [] at hp
  rw [terminated, hp, List.nil_append, terminated]
  rcases hk.anchored with h | h
  · rw [h, List.nil_append]
  · obtain ⟨t, ht⟩ := List.head?_eq_some_iff.mp h
    rw [ht]
    exact ⟨t ++ [separator], rfl⟩

/-! ### Outer keys -/

theorem canonical_of_not_root {k : Path C} (h : root k = false) : canonical k = k := by
  simp [canonical, h]

@[simp] theorem terminated_nil : terminated ([] : Path C) = [separator] := by
  simp [terminated, canonical, root]

@[simp] theorem terminated_root : terminated ([separator] : Path C) = [separator] := by
  simp [terminated, canonical, root]

theorem rfindSeparator_eq {s : Path C} {i n : ℕ} (hi : s[i]? = some separator) (hin : i < n)
    (h : ∀ j, i < j → j < n → s[j]? ≠ some separator) : rfindSeparator s n = some i := by
  induction n with
  | zero => omega
  | succ n ih =>
    by_cases he : i = n
    · subst he
      simp [rfindSeparator, hi]
    · have hs : s[n]?.any isSeparator = false := by
        rw [Bool.eq_false_iff, Ne, Option.any_eq_true]
        rintro ⟨c, hc, hsep⟩
        exact h n (by omega) (by omega) (by rw [hc, isSeparator_iff.mp hsep])
      rw [rfindSeparator, hs]
      exact ih (by omega) fun j hj hjn => h j hj (by omega)

theorem exists_last {α : Type*} {x : α} {l : List α} (h : x ∈ l) :
    ∃ a c, l = a ++ x :: c ∧ x ∉ c := by
  induction l with
  | nil => exact absurd h (List.not_mem_nil)
  | cons d l ih =>
    by_cases hl : x ∈ l
    · obtain ⟨a, c, rfl, hc⟩ := ih hl
      exact ⟨d :: a, c, rfl, hc⟩
    · obtain rfl := (List.mem_cons.mp h).resolve_right hl
      exact ⟨[], l, rfl, hl⟩

/-- What the searches rely on: a key as it is compared has, besides its own text, the prefixes that
the outer key has. -/
structure Lawful (c : ComparePrefix C) : Prop where
  canonical_nil : c.canonical [] = []
  outer : ∀ p, p ≠ [] → ∀ e : List C, e ≠ [] → Bare e →
    (e ++ [separator] <+: c.canonical p ++ [separator] ↔
      e = c.canonical p ∨ e ++ [separator] <+: c.canonical (c.outer p) ++ [separator])

theorem prefix_append_iff {e a b : List C} (hb : separator ∉ b) :
    e ++ [separator] <+: a ++ separator :: b ++ [separator] ↔
      e = a ++ separator :: b ∨ e ++ [separator] <+: a ++ [separator] := by
  have hab : a ++ separator :: b ++ [separator] = a ++ [separator] ++ (b ++ [separator]) := by simp
  constructor
  · intro h
    by_cases heq : e = a ++ separator :: b
    · exact Or.inl heq
    right
    rw [hab] at h
    rcases List.prefix_or_prefix_of_prefix h (List.prefix_append (a ++ [separator]) _) with
      h1 | ⟨t, h1⟩
    · exact h1
    · -- a longer one ends in what follows the delimiter
      obtain ⟨u, hu⟩ := h
      rw [← h1, List.append_assoc, List.append_cancel_left_eq] at hu
      rcases t.eq_nil_or_concat with rfl | ⟨t, d, rfl⟩
      · rw [List.append_nil] at h1
        rw [h1]
      · rw [List.concat_eq_append] at h1 hu
        have hd : d = separator := by
          have hl := congrArg List.getLast? h1
          rw [← List.append_assoc, List.getLast?_concat, List.getLast?_concat] at hl
          exact Option.some.inj hl
        subst hd
        rcases u.eq_nil_or_concat with rfl | ⟨u, x, rfl⟩
        · rw [List.append_nil] at hu
          have htb : t = b := List.append_cancel_right hu
          have h2 : a ++ separator :: b ++ [separator] = e ++ [separator] := by
            rw [← h1, htb]
            simp
          exact absurd (List.append_cancel_right h2).symm heq
        · rw [List.concat_eq_append, ← List.append_assoc] at hu
          have hbt := List.append_inj_left' hu rfl
          exact absurd (by rw [← hbt]; simp) hb
  · rintro (rfl | h)
    · exact List.prefix_rfl
    · rw [hab]
      exact h.trans (List.prefix_append _ _)

theorem prefix_iff_of_not_mem {e p : List C} (hp : separator ∉ p) :
    e ++ [separator] <+: p ++ [separator] ↔ e = p := by
  constructor
  · intro h
    rw [List.prefix_concat_iff] at h
    rcases h with h | h
    · exact List.append_cancel_right h
    · exact absurd (h.subset (by simp)) hp
  · rintro rfl
    exact List.prefix_rfl

theorem not_prefix_nil {e : List C} (he : e ≠ []) : ¬e ++ [separator] <+: [] ++ [separator] := by
  intro h
  have hl := h.length_le
  have hpos := List.length_pos_iff.mpr he
  simp only [List.length_append, List.length_singleton, List.length_nil] at hl
  omega

theorem rfindSeparator_spec (k : List C) :
    (rfindSeparator k k.length = none ∧ separator ∉ k) ∨
      ∃ a b, k = a ++ separator :: b ∧ separator ∉ b ∧
        rfindSeparator k k.length = some a.length := by
  by_cases h : separator ∈ k
  · obtain ⟨a, b, rfl, hb⟩ := exists_last h
    refine Or.inr ⟨a, b, rfl, hb, rfindSeparator_eq (by simp) (by simp) fun j hj _ he => hb ?_⟩
    rw [List.getElem?_append_right hj.le, List.getElem?_cons, if_neg (by omega)] at he
    exact List.mem_of_getElem? he
  · refine Or.inl ⟨?_, h⟩
    cases hf : rfindSeparator k k.length with
    | none => rfl
    | some p => exact absurd (List.mem_of_getElem? (rfindSeparator_lt hf).2) h

theorem lawful_stringPrefix : Lawful (stringPrefix : ComparePrefix C) := by
  refine ⟨rfl, fun p _ e he hb => ?_⟩
  show e ++ [separator] <+: p ++ [separator] ↔
    e = p ∨ e ++ [separator] <+: outerString p ++ [separator]
  rw [outerString]
  obtain ⟨hf, hn⟩ | ⟨a, b, rfl, hn, hf⟩ := rfindSeparator_spec p
  · rw [hf, prefix_iff_of_not_mem hn]
    exact ⟨Or.inl, fun h => h.resolve_right (not_prefix_nil he)⟩
  · rw [hf, prefix_append_iff hn]
    simp

theorem lawful_pathPrefix : Lawful (pathPrefix : ComparePrefix C) := by
  refine ⟨by simp [pathPrefix, canonical], fun p hp e he hb => ?_⟩
  show e ++ [separator] <+: canonical p ++ [separator] ↔ e = canonical p ∨
    e ++ [separator] <+: canonical (directory p) ++ [separator]
  by_cases hr : p = [separator]
  · subst hr
    have hd : directory ([separator] : List C) = [] := by
      simp [directory, size, root, rfindSeparator]
    have hc : canonical ([separator] : List C) = [] := by simp [canonical, root]
    have hn : canonical ([] : List C) = [] := by simp [canonical]
    rw [hd, hc, hn]
    exact iff_of_false (not_prefix_nil he) (not_or.mpr ⟨he, not_prefix_nil he⟩)
  have hroot : root p = false := by rwa [Bool.eq_false_iff, ne_eq, root_iff]
  rw [canonical_of_not_root hroot, directory, size, hroot, if_neg (by simp)]
  obtain ⟨hf, hn⟩ | ⟨a, b, rfl, hn, hf⟩ := rfindSeparator_spec p
  · have hc : canonical ([] : List C) = [] := by simp [canonical]
    rw [hf, prefix_iff_of_not_mem hn]
    dsimp only
    rw [hc]
    exact ⟨Or.inl, fun h => h.resolve_right (not_prefix_nil he)⟩
  · have htake : (a ++ separator :: b).take (a.length + 1) = a ++ [separator] := by
      rw [List.take_append, List.take_of_length_le (by omega)]
      simp
    have hinit : init (a ++ [separator]) = if a = [] then [separator] else a := by
      by_cases ha : a = [] <;> simp [init, ha]
    rw [hf, prefix_append_iff hn]
    dsimp only
    rw [htake, hinit]
    refine or_congr_right ?_
    by_cases ha : a = []
    · simp [ha, canonical, root]
    · rw [if_neg ha]
      by_cases har : a = [separator]
      · subst har
        have hc : canonical ([separator] : List C) = [] := by simp [canonical, root]
        rw [hc]
        have h2 := prefix_append_iff (a := []) (b := []) (e := e)
          (List.not_mem_nil (a := separator))
        refine h2.trans (or_iff_right ?_)
        rintro rfl
        exact hb (by simp)
      · have har' : root a = false := by rwa [Bool.eq_false_iff, ne_eq, root_iff]
        rw [canonical_of_not_root har']

end Build2.Libbutl.PathMap
