import Build2.Libbutl.PathMap.Order
import Mathlib.Data.List.Nodup
import Mathlib.Data.List.TakeWhile

/-! # Ranges and nearest entries

What the searches of a prefix map return, in terms of the keys with a delimiter at the end: `find`
the entry of the key, `find_sub` the entries that have the key as a prefix, and `find_sup` the entry
with the longest key that is a prefix. For the maps of directories this is the entry that is nearest
above the key. -/

namespace Build2.Libbutl.PathMap

open PathTraits Build2.Lib.Forest

/-! ### Runs in ordered lists -/

section

variable {α : Type*} {p : α → Bool} {l : List α}

/-- A test that only a first part of a list meets selects this part. -/
theorem takeWhile_eq_filter (h : l.Pairwise fun a b => p b = true → p a = true) :
    l.takeWhile p = l.filter p := by
  induction l with
  | nil => rfl
  | cons a l ih =>
    rw [List.pairwise_cons] at h
    by_cases ha : p a = true
    · rw [List.takeWhile_cons_of_pos ha, List.filter_cons_of_pos ha, ih h.2]
    · have hl : l.filter p = [] := List.filter_eq_nil_iff.mpr fun b hb hp => ha (h.1 b hb hp)
      rw [List.takeWhile_cons_of_neg ha, List.filter_cons_of_neg ha, hl]

theorem dropWhile_eq_filter (h : l.Pairwise fun a b => p b = true → p a = true) :
    l.dropWhile p = l.filter fun a => !p a := by
  induction l with
  | nil => rfl
  | cons a l ih =>
    rw [List.pairwise_cons] at h
    by_cases ha : p a = true
    · rw [List.dropWhile_cons_of_pos ha, List.filter_cons_of_neg (by simp [ha]), ih h.2]
    · have hl : l.filter (fun a => !p a) = l :=
        List.filter_eq_self.mpr fun b hb => by simpa using fun hp => ha (h.1 b hb hp)
      rw [List.dropWhile_cons_of_neg ha, List.filter_cons_of_pos (by simp [ha]), hl]

end

variable {C V : Type} [PathTraits C]

/-! ### The searches -/

/-- The entries are in the order of their keys, and `lower_bound` goes to the first one that does
not come before a key. For a text that is no key, it goes to some entry that does not. -/
structure Searched (c : ComparePrefix C) (entries : List (List C × V))
    (lowerBound : List C → List (List C × V)) : Prop where
  keys : ∀ e ∈ entries, c.IsKey e.1
  sorted : entries.Pairwise fun a b => c.closed a.1 < c.closed b.1
  found : ∀ p e l, lowerBound p = e :: l → e ∈ entries ∧ c.less e.1 p = false
  bound : ∀ k, c.IsKey k → lowerBound k = entries.dropWhile fun e => c.less e.1 k

/-- The entry whose key is the longest that is a prefix of a text, if any is. -/
def Longest (c : ComparePrefix C) (entries : List (List C × V)) (k : List C) :
    Option (List C × V) → Prop
  | some e => e ∈ entries ∧ c.isPrefix e.1 k = true ∧ ∀ e' ∈ entries,
      c.isPrefix e'.1 k = true → e' = e ∨ (c.canonical e'.1).length < (c.canonical e.1).length
  | none => ∀ e ∈ entries, c.isPrefix e.1 k = false

theorem pairwise_less {c : ComparePrefix C} {entries : List (List C × V)}
    (hkeys : ∀ e ∈ entries, c.IsKey e.1)
    (hsorted : entries.Pairwise fun a b => c.closed a.1 < c.closed b.1) {k : List C}
    (hk : c.IsKey k) : entries.Pairwise fun a b => c.less b.1 k = true → c.less a.1 k = true := by
  refine hsorted.imp_of_mem fun {a b} ha hb hab hbk => ?_
  rw [ComparePrefix.less_iff (hkeys b hb) hk] at hbk
  rw [ComparePrefix.less_iff (hkeys a ha) hk]
  exact hab.trans hbk

namespace Searched

variable {c : ComparePrefix C} {entries : List (List C × V)}
  {lowerBound : List C → List (List C × V)} {k p : List C} {e e' : List C × V}
  (hm : Searched c entries lowerBound)

include hm

theorem eq_of_canonical (he : e ∈ entries) (he' : e' ∈ entries)
    (heq : c.canonical e.1 = c.canonical e'.1) : e = e' := by
  have hnodup : (entries.map fun e => c.closed e.1).Nodup :=
    List.pairwise_map.mpr (hm.sorted.imp fun hlt => hlt.ne)
  exact List.inj_on_of_nodup_map hnodup he he' (by simp only [ComparePrefix.closed, heq])

section

variable (hk : c.IsKey k)

include hk

theorem lowerBound_eq : lowerBound k = entries.filter fun e => !c.less e.1 k :=
  (hm.bound k hk).trans (dropWhile_eq_filter (pairwise_less hm.keys hm.sorted hk))

theorem find_spec : match c.find lowerBound k with
    | some e => e ∈ entries ∧ c.canonical e.1 = c.canonical k
    | none => ∀ e ∈ entries, c.canonical e.1 ≠ c.canonical k := by
  have hmem : ∀ e, e ∈ lowerBound k ↔ e ∈ entries ∧ ¬c.closed e.1 < c.closed k := by
    intro e
    rw [lowerBound_eq hm hk, List.mem_filter]
    refine and_congr_right fun he => ?_
    rw [← ComparePrefix.less_iff (hm.keys e he) hk]
    simp
  have hsub : (lowerBound k).Sublist entries := by
    rw [lowerBound_eq hm hk]
    exact List.filter_sublist
  have hclosed : ∀ e : List C × V, c.canonical e.1 = c.canonical k → c.closed e.1 = c.closed k :=
    fun e h => by simp only [ComparePrefix.closed, h]
  rw [ComparePrefix.find]
  cases hl : lowerBound k with
  | nil =>
    intro e he heq
    have hin := (hmem e).mpr ⟨he, (hclosed e heq).not_lt⟩
    rw [hl] at hin
    exact List.not_mem_nil hin
  | cons e es =>
    rw [hl] at hmem hsub
    obtain ⟨he, hek⟩ := (hmem e).mp List.mem_cons_self
    dsimp only
    by_cases hlt : c.less k e.1 = true
    · rw [if_pos hlt]
      rw [ComparePrefix.less_iff hk (hm.keys e he)] at hlt
      intro e' he' heq
      have hsorted := List.pairwise_cons.mp (hm.sorted.sublist hsub)
      rcases List.mem_cons.mp ((hmem e').mpr ⟨he', (hclosed e' heq).not_lt⟩) with rfl | h
      · exact hlt.ne' (hclosed e' heq)
      · exact (hlt.trans (hsorted.1 e' h)).ne' (hclosed e' heq)
    · rw [if_neg hlt]
      rw [ComparePrefix.less_iff hk (hm.keys e he)] at hlt
      exact ⟨he, List.append_cancel_right (le_antisymm (not_lt.mp hlt) (not_lt.mp hek))⟩

/-- **`find_sub` returns a range** if the key is not compared as empty. -/
theorem findSub_eq (h0 : c.canonical k ≠ []) :
    c.findSub lowerBound k = entries.filter fun e => c.isPrefix k e.1 := by
  have hpre : ∀ e : List C × V, c.isPrefix k e.1 = true ↔ c.closed k <+: c.closed e.1 :=
    fun e => ComparePrefix.isPrefix_iff.trans (or_iff_right h0)
  rw [ComparePrefix.findSub, lowerBound_eq hm hk, takeWhile_eq_filter]
  · rw [List.filter_filter]
    refine List.filter_congr fun e he => ?_
    cases hp : c.isPrefix k e.1 with
    | false => rfl
    | true =>
      have hlt := not_lt_of_isPrefix ((hpre e).mp hp)
      rw [← ComparePrefix.less_iff (hm.keys e he) hk] at hlt
      simpa using hlt
  · refine (hm.sorted.sublist List.filter_sublist).imp_of_mem
      fun {a b} ha hb hab hp => ?_
    obtain ⟨ha, hka⟩ := List.mem_filter.mp ha
    have hka' : ¬c.closed a.1 < c.closed k := by
      rw [← ComparePrefix.less_iff (hm.keys a ha) hk]
      simpa using hka
    exact (hpre a).mpr (isPrefix_of_between hka' hab.not_gt ((hpre b).mp hp))

/-- **`find_sub` with the empty key** returns the entries that do not come before it. -/
theorem findSub_empty (h0 : c.canonical k = []) :
    c.findSub lowerBound k = entries.filter (fun e => c.isPrefix k e.1) ↔
      ∀ e ∈ entries, ∀ a s, c.canonical e.1 = a :: s → ¬a < separator := by
  have hall : ∀ e : List C × V, c.isPrefix k e.1 = true := fun e =>
    ComparePrefix.isPrefix_iff.mpr (Or.inl h0)
  have hself : entries.filter (fun e => c.isPrefix k e.1) = entries :=
    List.filter_eq_self.mpr fun e _ => hall e
  have hsub : c.findSub lowerBound k = lowerBound k := by
    rw [ComparePrefix.findSub, List.takeWhile_eq_self_iff]
    exact fun e _ => hall e
  rw [hself, hsub, lowerBound_eq hm hk, List.filter_eq_self]
  refine forall₂_congr fun e he => ?_
  rw [Bool.not_eq_true', ← Bool.not_eq_true, ComparePrefix.less_iff (hm.keys e he) hk,
    ComparePrefix.closed, ComparePrefix.closed, h0]
  cases c.canonical e.1 with
  | nil => simp
  | cons a s =>
    rw [List.nil_append, List.cons_append, List.cons_lt_cons_iff]
    simp

end

/-- What `find` returns is the entry that compares equal, for any text. -/
theorem closed_of_find (h : c.find lowerBound p = some e) :
    e ∈ entries ∧ (c.canonical e.1 = c.canonical p ∨ c.closed e.1 = c.canonical p) := by
  rw [ComparePrefix.find] at h
  cases hl : lowerBound p with
  | nil =>
    rw [hl] at h
    cases h
  | cons d es =>
    rw [hl] at h
    dsimp only at h
    split_ifs at h with hlt
    obtain rfl := Option.some.inj h
    obtain ⟨hd, hnl⟩ := hm.found _ _ _ hl
    refine ⟨hd, ?_⟩
    -- neither comes before the other
    simp only [ComparePrefix.less, decide_eq_false_iff_not, decide_eq_true_eq] at hnl hlt
    rw [compare_swap] at hlt
    have hzero : compare (c.canonical d.1) (c.canonical p) = 0 := by omega
    rcases compare_eq_zero_iff.mp hzero with he | he | he
    · exact Or.inl he
    · exact Or.inr he.symm
    · have hb := hm.keys d hd
      rw [ComparePrefix.IsKey, he] at hb
      exact absurd (by simp) hb

/-- An entry that the keys of all others are prefixes of is the longest. -/
theorem longer (he : e ∈ entries)
    (h : c.canonical e'.1 = [] ∨ c.closed e'.1 <+: c.closed e.1) (he' : e' ∈ entries) :
    e' = e ∨ (c.canonical e'.1).length < (c.canonical e.1).length := by
  by_cases heq : c.canonical e'.1 = c.canonical e.1
  · exact Or.inl (eq_of_canonical hm he' he heq)
  right
  rcases h with h | h
  · rw [h] at heq ⊢
    exact List.length_pos_iff.mpr (Ne.symm heq)
  · have hle := h.length_le
    simp only [ComparePrefix.closed, List.length_append, List.length_singleton] at hle
    refine lt_of_le_of_ne (by omega) fun hlen => heq ?_
    refine List.append_cancel_right (h.eq_of_length ?_)
    simp only [ComparePrefix.closed, List.length_append, hlen]

theorem longest_of_find (h : c.find lowerBound p = some e) : Longest c entries p (some e) := by
  obtain ⟨he, hcl⟩ := closed_of_find hm h
  refine ⟨he, ?_, fun e' he' hp => longer hm he ?_ he'⟩
  · rw [ComparePrefix.isPrefix_iff, ComparePrefix.closed, ComparePrefix.closed]
    rcases hcl with hcl | hcl
    · rw [hcl]
      exact Or.inr List.prefix_rfl
    · rw [← hcl]
      exact Or.inr (List.prefix_append _ _)
  · refine (ComparePrefix.isPrefix_iff.mp hp).imp_right fun hpre => ?_
    rcases hcl with hcl | hcl
    · rwa [ComparePrefix.closed, ComparePrefix.closed, ← hcl] at hpre
    · -- a key does not end with the delimiter
      rw [ComparePrefix.closed, ComparePrefix.closed, ← hcl, List.prefix_concat_iff] at hpre
      refine hpre.resolve_left fun heq => ?_
      have hb := hm.keys e' he'
      rw [ComparePrefix.IsKey, List.append_cancel_right heq] at hb
      exact hb (by simp [ComparePrefix.closed])

omit hm in
/-- What is looked for depends only on the keys that are prefixes. -/
theorem longest_congr {q : List C} {r : Option (List C × V)} (h : Longest c entries q r)
    (hpq : ∀ e ∈ entries, c.isPrefix e.1 p = c.isPrefix e.1 q) : Longest c entries p r := by
  cases r with
  | none => exact fun e he => (hpq e he).trans (h e he)
  | some e =>
    obtain ⟨he, hp, hl⟩ := h
    exact ⟨he, (hpq e he).trans hp, fun e' he' hp' => hl e' he' ((hpq e' he').symm.trans hp')⟩

/-- **The loop of `find_sup`** finds the longest key that is a prefix. -/
theorem longest_findOuter (hc : Lawful c) (n : ℕ) (hn : p.length ≤ n) :
    Longest c entries p ((c.find lowerBound p).or (c.findOuter lowerBound p)) := by
  have hempty : c.canonical ([] : List C) = [] := hc.canonical_nil
  induction n generalizing p with
  | zero =>
    obtain rfl : p = [] := List.length_eq_zero_iff.mp (Nat.le_zero.mp hn)
    rw [ComparePrefix.findOuter, dif_pos rfl, Option.or_none]
    have hk : c.IsKey [] := by
      rw [ComparePrefix.IsKey, hempty]
      exact bare_nil
    have hs := find_spec hm hk
    cases hf : c.find lowerBound [] with
    | some e => exact longest_of_find hm hf
    | none =>
      rw [hf] at hs
      intro e he
      rw [← Bool.not_eq_true, ComparePrefix.isPrefix_iff, ComparePrefix.closed,
        ComparePrefix.closed, hempty]
      have hne := hs e he
      rw [hempty] at hne
      exact not_or.mpr ⟨hne, not_prefix_nil hne⟩
  | succ n ih =>
    cases hf : c.find lowerBound p with
    | some e => exact longest_of_find hm hf
    | none =>
      by_cases hp : p = []
      · subst hp
        have h0 := ih (p := []) (Nat.zero_le n)
        rwa [hf] at h0
      have hlt := c.length_outer p hp
      rw [Option.none_or, ComparePrefix.findOuter, dif_neg hp]
      refine longest_congr (ih (p := c.outer p) (by omega)) fun e he => ?_
      rw [Bool.eq_iff_iff, ComparePrefix.isPrefix_iff, ComparePrefix.isPrefix_iff]
      by_cases h0 : c.canonical e.1 = []
      · simp [h0]
      · -- the key itself has been looked for
        have hself : c.canonical e.1 ≠ c.canonical p := by
          intro heq
          have hk : c.IsKey p := by
            have hb := hm.keys e he
            rwa [ComparePrefix.IsKey, heq] at hb
          have hs := find_spec hm hk
          rw [hf] at hs
          exact hs e he heq
        refine or_congr_right ((hc.outer p hp _ h0 (hm.keys e he)).trans ?_)
        exact or_iff_right hself

end Searched

/-! ### Directories -/

/-- Only the root is compared as another text. -/
theorem eq_of_terminated {x y : Path C} (hx : x ≠ [separator]) (hy : y ≠ [separator])
    (h : terminated x = terminated y) : x = y := by
  have hx' : root x = false := by rwa [Bool.eq_false_iff, Ne, root_iff]
  have hy' : root y = false := by rwa [Bool.eq_false_iff, Ne, root_iff]
  rw [terminated, terminated, canonical_of_not_root hx', canonical_of_not_root hy'] at h
  exact List.append_cancel_right h

/-- A path below the root that `normalized` and `absolute` accept, or the root itself. -/
structure IsDirectory (k : Path C) : Prop where
  absolute : absolute k = true
  normalized : normalized k = true
  bare : k = [separator] ∨ Bare k

theorem IsDirectory.tidy {k : Path C} (h : IsDirectory k) : Tidy k := by
  by_cases hk : k = [separator]
  · subst hk
    exact ⟨by simp [canonical, root, Bare], .inl (by simp [canonical, root])⟩
  · have hr : root k = false := by rwa [Bool.eq_false_iff, Ne, root_iff]
    rw [show Tidy k ↔ _ from ⟨fun h => And.intro h.bare h.anchored, fun h => ⟨h.1, h.2⟩⟩,
      canonical_of_not_root hr]
    refine ⟨h.bare.resolve_left hk, .inr ?_⟩
    have ha := h.absolute
    cases k with
    | nil => simp [PathMap.absolute] at ha
    | cons c k => simpa [PathMap.absolute] using ha

/-- What comes before a separator of a normalized path is normalized as well. -/
theorem normalizedFrom_append {component a c : List C}
    (h : normalizedFrom component (a ++ separator :: c) = true) :
    normalizedFrom component a = true ∧ Bare a := by
  induction a generalizing component with
  | nil =>
    simp only [List.nil_append, normalizedFrom, isSeparator_iff.mpr rfl, if_true] at h
    split_ifs at h with h1 h2
    exact ⟨by simpa [normalizedFrom] using h2, bare_nil⟩
  | cons d a ih =>
    rw [List.cons_append, normalizedFrom] at h
    rw [normalizedFrom]
    by_cases hd : isSeparator d = true
    · rw [if_pos hd] at h ⊢
      split_ifs at h with h1 h2
      obtain ⟨hn, hb⟩ := ih h
      cases a with
      | nil => simp at h1
      | cons e a =>
        refine ⟨?_, by simpa [Bare, List.getLast?_cons_cons] using hb⟩
        rw [if_neg (by simpa using h1), if_neg h2]
        exact hn
    · rw [if_neg hd] at h ⊢
      obtain ⟨hn, hb⟩ := ih h
      refine ⟨hn, ?_⟩
      cases a with
      | nil => simpa [Bare, isSeparator] using hd
      | cons e a => simpa [Bare, List.getLast?_cons_cons] using hb

/-- The directory of a path is what comes before its last separator, or the root. -/
theorem exists_directory {k : Path C} (h : IsDirectory k) (hk : k ≠ [separator]) :
    ∃ a c, k = a ++ separator :: c ∧ separator ∉ c ∧ Bare a ∧ normalized a = true ∧
      directory k = if a = [] then [separator] else a := by
  have hr : root k = false := by rwa [Bool.eq_false_iff, Ne, root_iff]
  have hmem : separator ∈ k := by
    have ha := h.absolute
    cases k with
    | nil => simp [PathMap.absolute] at ha
    | cons c k =>
      obtain rfl : c = separator := by simpa [PathMap.absolute] using ha
      exact List.mem_cons_self
  obtain ⟨a, c, rfl, hc⟩ := exists_last hmem
  obtain ⟨hn, hb⟩ := normalizedFrom_append h.normalized
  refine ⟨a, c, rfl, hc, hb, hn, ?_⟩
  have hfind : rfindSeparator (a ++ separator :: c) (size (a ++ separator :: c)) =
      some a.length := by
    rw [size, hr]
    refine rfindSeparator_eq (by simp) (by simp) fun j hj _ he => hc ?_
    rw [List.getElem?_append_right hj.le, List.getElem?_cons, if_neg (by omega)] at he
    exact List.mem_of_getElem? he
  have htake : (a ++ separator :: c).take (a.length + 1) = a ++ [separator] := by
    rw [List.take_append, List.take_of_length_le (by omega)]
    simp
  simp only [directory, hfind, htake, init, List.getLast?_concat, Option.any_some,
    isSeparator_iff.mpr rfl, if_true, List.dropLast_concat, List.length_append,
    List.length_singleton]
  cases a <;> simp

section

variable {k : Path C} (h : IsDirectory k) (hk : k ≠ [separator])
include h hk

theorem isDirectory_directory : IsDirectory (directory k) := by
  obtain ⟨a, c, rfl, -, hb, hn, hd⟩ := exists_directory h hk
  rw [hd]
  split_ifs with ha
  · exact ⟨by simp [PathMap.absolute],
      by simp [PathMap.normalized, normalizedFrom, PathMap.parent, PathMap.current], .inl rfl⟩
  · refine ⟨?_, hn, .inr hb⟩
    obtain ⟨d, a, rfl⟩ := List.exists_cons_of_ne_nil ha
    simpa [PathMap.absolute] using h.absolute

theorem terminated_directory :
    terminated (directory k) <+: terminated k ∧ terminated (directory k) ≠ terminated k ∧
      ∀ q : Path C, terminated q <+: terminated k → terminated q ≠ terminated k →
        terminated q <+: terminated (directory k) := by
  obtain ⟨a, c, hkac, hc, hb, -, hd⟩ := exists_directory h hk
  have hr : root k = false := by rwa [Bool.eq_false_iff, Ne, root_iff]
  have ht : terminated k = a ++ [separator] ++ (c ++ [separator]) := by
    rw [terminated, canonical_of_not_root hr, hkac]
    simp
  have hdt : terminated (directory k) = a ++ [separator] := by
    rw [hd]
    split_ifs with ha
    · simp [ha]
    · have har : root a = false := by
        rw [Bool.eq_false_iff, Ne, root_iff]
        rintro rfl
        simp [Bare] at hb
      rw [terminated, canonical_of_not_root har]
  rw [hdt]
  refine ⟨ht ▸ List.prefix_append _ _, ?_, fun q hq hne => ?_⟩
  · rw [ht]
    intro he
    simpa using congrArg List.length he
  · -- a longer one would end in what follows the last separator
    have hk' : terminated k = a ++ separator :: c ++ [separator] := by
      rw [ht]
      simp
    rw [hk'] at hq hne
    exact ((prefix_append_iff hc).mp hq).resolve_left fun he => hne (by rw [terminated, he])

end

/-! ### Entries -/

/-- Entries in the order of their keys. -/
structure Ordered (m : DirPathMap C V) : Prop where
  sorted : m.Pairwise fun a b => terminated a.1 < terminated b.1
  tidy : ∀ e ∈ m, Tidy e.1

theorem Ordered.eq_of_terminated {m : DirPathMap C V} (hm : Ordered m) {a b : Path C × V}
    (ha : a ∈ m) (hb : b ∈ m) (h : terminated a.1 = terminated b.1) : a = b := by
  have hnodup : (m.map fun e => terminated e.1).Nodup :=
    List.pairwise_map.mpr (hm.sorted.imp fun hlt => hlt.ne)
  exact List.inj_on_of_nodup_map hnodup ha hb h

theorem Ordered.searched {m : DirPathMap C V} (hm : Ordered m) :
    Searched pathPrefix m (lowerBound m) where
  keys := fun e he => (hm.tidy e he).bare
  sorted := hm.sorted
  found := fun p e l h => by
    have hmem : e ∈ lowerBound m p := h ▸ List.mem_cons_self
    refine ⟨(List.dropWhile_suffix _).mem hmem, ?_⟩
    have hhead := List.head?_dropWhile_not (fun e => pathPrefix.less e.1 p) m
    rw [← lowerBound, h] at hhead
    simpa using hhead
  bound := fun _ _ => rfl

theorem emplace_old {m : DirPathMap C V} {k : Path C} {v : V} {e : Path C × V}
    (h : find m k = some e) : emplace m k v = (m, e.1, false) := by
  rw [find, ComparePrefix.find] at h
  rw [emplace]
  cases hl : lowerBound m k with
  | nil => simp [hl] at h
  | cons d es =>
    rw [hl] at h
    dsimp only at h ⊢
    split_ifs at h ⊢ with hlt
    · obtain rfl := Option.some.inj h
      rfl

section

variable {m : DirPathMap C V} (hm : Ordered m) {k : Path C} (hk : Tidy k)
include hm hk

theorem find_spec :
    match find m k with
    | some e => e ∈ m ∧ terminated e.1 = terminated k
    | none => ∀ e ∈ m, terminated e.1 ≠ terminated k := by
  have hs := hm.searched.find_spec hk.bare
  rw [find]
  cases hf : pathPrefix.find (lowerBound m) k with
  | some e =>
    rw [hf] at hs
    exact ⟨hs.1, congrArg (· ++ [separator]) hs.2⟩
  | none =>
    rw [hf] at hs
    exact fun e he heq => hs e he (List.append_cancel_right heq)

theorem findSub_eq : findSub m k = m.filter fun e => pathPrefix.isPrefix k e.1 := by
  by_cases h0 : canonical k = []
  · -- no key of a directory comes before the root
    refine (hm.searched.findSub_empty hk.bare h0).mpr fun e he a s hes hlt => ?_
    rcases (hm.tidy e he).anchored with h | h
    · exact absurd (h.symm.trans hes) (by simp)
    · rw [show canonical e.1 = a :: s from hes] at h
      exact hlt.ne (Option.some.inj h)
  · exact hm.searched.findSub_eq hk.bare h0

theorem emplace_new {v : V} (h : find m k = none) :
    ∃ m', emplace m k v = (m', k, true) ∧ Ordered m' ∧ ∀ e, e ∈ m' ↔ e = (k, v) ∨ e ∈ m := by
  have hnot : ∀ e ∈ m, terminated e.1 ≠ terminated k := by
    have hs := find_spec hm hk
    rwa [h] at hs
  set before := m.takeWhile fun e => pathPrefix.less e.1 k with hbefore
  have happ : before ++ lowerBound m k = m := List.takeWhile_append_dropWhile
  have hem : emplace m k v = (before ++ (k, v) :: lowerBound m k, k, true) := by
    rw [find, ComparePrefix.find] at h
    rw [emplace]
    cases hl : lowerBound m k with
    | nil =>
      rw [hl, List.append_nil] at happ
      rw [happ]
    | cons d es =>
      rw [hl] at h
      have hd : pathPrefix.less k d.1 = true := by
        by_contra hd
        simp [hd] at h
      dsimp only
      rw [if_pos hd]
  have hless := pairwise_less hm.searched.keys hm.searched.sorted hk.bare
  have hlt : ∀ e ∈ before, terminated e.1 < terminated k := fun e he => by
    rw [hbefore, takeWhile_eq_filter hless] at he
    obtain ⟨hmem, hp⟩ := List.mem_filter.mp he
    exact (less_iff (hm.tidy _ hmem) hk).mp hp
  have hgt : ∀ e ∈ lowerBound m k, terminated k < terminated e.1 := fun e he => by
    rw [hm.searched.lowerBound_eq hk.bare] at he
    obtain ⟨hmem, hn⟩ := List.mem_filter.mp he
    rw [Bool.not_eq_true', ← Bool.not_eq_true, less_iff (hm.tidy _ hmem) hk] at hn
    exact lt_of_le_of_ne (not_lt.mp hn) (hnot e hmem).symm
  have hmem : ∀ e, e ∈ before ++ (k, v) :: lowerBound m k ↔ e = (k, v) ∨ e ∈ m := fun e => by
    conv_rhs => rw [← happ]
    rw [List.mem_append, List.mem_cons, List.mem_append]
    tauto
  refine ⟨_, hem, ⟨?_, fun e he => ?_⟩, hmem⟩
  · refine List.pairwise_append.mpr ⟨hm.sorted.sublist (List.takeWhile_sublist _),
      List.pairwise_cons.mpr ⟨hgt, hm.sorted.sublist (List.dropWhile_sublist _)⟩, ?_⟩
    intro a ha b hb
    rcases List.mem_cons.mp hb with rfl | hb
    · exact hlt a ha
    · exact (hlt a ha).trans (hgt b hb)
  · rcases (hmem e).mp he with rfl | he
    · exact hk
    · exact hm.tidy e he

end

/-! ### The nearest entry -/

/-- The entry at or above a key that has the longest key. -/
structure Nearest (m : DirPathMap C V) (k : Path C) (e : Path C × V) : Prop where
  mem : e ∈ m
  above : terminated e.1 <+: terminated k
  greatest : ∀ e' ∈ m, terminated e'.1 <+: terminated k → terminated e'.1 <+: terminated e.1

theorem nearest_findSup {m : DirPathMap C V} (hm : Ordered m)
    (hg : ∃ e ∈ m, terminated e.1 = [separator]) {k : Path C} (hk : IsDirectory k) :
    ∃ e, findSup m k = some e ∧ Nearest m k e := by
  have hpre : ∀ e : Path C × V,
      pathPrefix.isPrefix e.1 k = true ↔ terminated e.1 <+: terminated k :=
    fun e => isPrefix_iff hk.tidy
  have hlongest := hm.searched.longest_findOuter lawful_pathPrefix k.length le_rfl
  change Longest pathPrefix m k (findSup m k) at hlongest
  cases hf : findSup m k with
  | none =>
    rw [hf] at hlongest
    obtain ⟨g, hgm, hgk⟩ := hg
    have hgpre : terminated g.1 <+: terminated k := by
      have hroot : terminated ([] : Path C) <+: terminated k :=
        (isPrefix_iff hk.tidy).mp
          (ComparePrefix.isPrefix_iff.mpr (.inl lawful_pathPrefix.canonical_nil))
      rwa [terminated_nil, ← hgk] at hroot
    exact absurd ((hpre g).mpr hgpre) (by rw [hlongest g hgm]; exact Bool.false_ne_true)
  | some e =>
    rw [hf] at hlongest
    obtain ⟨hem, hek, hmax⟩ := hlongest
    refine ⟨e, rfl, hem, (hpre e).mp hek, fun e' he' h => ?_⟩
    -- of two prefixes the shorter one is a prefix of the other
    refine List.prefix_of_prefix_length_le h ((hpre e).mp hek) ?_
    rcases hmax e' he' ((hpre e').mpr h) with rfl | hlt
    · exact le_rfl
    · change (canonical e'.1).length < (canonical e.1).length at hlt
      simp only [terminated, List.length_append, List.length_singleton]
      omega

end Build2.Libbutl.PathMap
