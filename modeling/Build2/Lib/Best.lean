import Mathlib.Data.List.Induction
import Mathlib.Data.List.Nodup
import Mathlib.Order.Lattice

/-! # The best of each kind

A list is read from left to right, and for each key the element with the greatest weight is kept,
the first of several with this weight (`best`). The elements kept are those that all earlier ones of
their kind are below and no later one is above (`mem_best`). -/

namespace Build2.Lib.Best

variable {α κ ω : Type} [DecidableEq κ] [LinearOrder ω] (key : α → κ) (weight : α → ω)

/-- An element takes the place of the one of its kind that weighs less, or is added. -/
def keep (x : α) : List α → List α
  | [] => [x]
  | y :: ys =>
    if key y = key x then (if weight y < weight x then x else y) :: ys else y :: keep x ys

/-- The elements that are kept of a list. -/
def best (xs : List α) : List α := xs.foldl (fun ys x => keep key weight x ys) []

/-- The first of the elements of a kind with the greatest weight. -/
def IsBest (xs : List α) (x : α) : Prop :=
  ∃ pre suf, xs = pre ++ x :: suf ∧ (∀ y ∈ pre, key y = key x → weight y < weight x) ∧
    ∀ y ∈ suf, key y = key x → weight y ≤ weight x

variable {key weight} {x y z : α} {xs ys : List α}

theorem best_append (xs : List α) (x : α) :
    best key weight (xs ++ [x]) = keep key weight x (best key weight xs) := by
  simp [best]

omit [DecidableEq κ] in
theorem IsBest.mem (h : IsBest key weight xs x) : x ∈ xs := by
  obtain ⟨pre, suf, rfl, -⟩ := h
  simp

theorem map_key_keep (x : α) (ys : List α) :
    (keep key weight x ys).map key
      = if key x ∈ ys.map key then ys.map key else ys.map key ++ [key x] := by
  induction ys with
  | nil => rfl
  | cons y ys ih =>
    rw [keep, List.map_cons (l := ys)]
    by_cases hkey : key y = key x
    · have hmem : key x ∈ key y :: ys.map key := hkey ▸ List.mem_cons_self
      rw [if_pos hkey, if_pos hmem, List.map_cons]
      split_ifs
      · rw [hkey]
      · rfl
    · have hmem : key x ∈ key y :: ys.map key ↔ key x ∈ ys.map key :=
        List.mem_cons.trans (or_iff_right (Ne.symm hkey))
      rw [if_neg hkey, List.map_cons, ih]
      simp only [hmem]
      split_ifs
      · rfl
      · rfl

variable (key weight) in
theorem nodup_best (xs : List α) : ((best key weight xs).map key).Nodup := by
  induction xs using List.reverseRecOn with
  | nil => exact List.nodup_nil
  | append_singleton xs x ih =>
    rw [best_append, map_key_keep]
    split_ifs with hmem
    · exact ih
    · exact List.nodup_append.mpr
        ⟨ih, List.nodup_singleton _, fun a ha b hb => by
          rintro rfl
          exact hmem (List.mem_singleton.mp hb ▸ ha)⟩

theorem mem_keep (h : (ys.map key).Nodup) :
    z ∈ keep key weight x ys ↔ (z ∈ ys ∧ (key z = key x → weight x ≤ weight z)) ∨
      (z = x ∧ ∀ y ∈ ys, key y = key x → weight y < weight x) := by
  induction ys with
  | nil => simp [keep]
  | cons y ys ih =>
    rw [List.map_cons, List.nodup_cons] at h
    obtain ⟨hy, hys⟩ := h
    rw [keep]
    by_cases hkey : key y = key x
    · have hother : ∀ w ∈ ys, key w ≠ key x := fun w hw hwx =>
        hy (hkey.trans hwx.symm ▸ List.mem_map_of_mem hw)
      rw [if_pos hkey]
      by_cases hlt : weight y < weight x
      · have hle : ¬ weight x ≤ weight y := not_le.mpr hlt
        rw [if_pos hlt]
        grind
      · have hle : weight x ≤ weight y := not_lt.mp hlt
        rw [if_neg hlt]
        grind
    · rw [if_neg hkey, List.mem_cons, ih hys]
      grind

variable (key weight) in
theorem exists_best (hx : x ∈ xs) :
    ∃ b ∈ best key weight xs, key b = key x ∧ weight x ≤ weight b := by
  induction xs using List.reverseRecOn with
  | nil => cases hx
  | append_singleton xs y ih =>
    rw [best_append]
    have hmem : ∀ b, b ∈ keep key weight y (best key weight xs) ↔ _ := fun b =>
      mem_keep (nodup_best key weight xs)
    have hnew : (∃ b ∈ best key weight xs, key b = key y ∧ weight y ≤ weight b) ∨
        ∀ b ∈ best key weight xs, key b = key y → weight b < weight y := by
      by_cases h : ∃ b ∈ best key weight xs, key b = key y ∧ weight y ≤ weight b
      · exact .inl h
      · exact .inr fun b hb hkey => not_le.mp fun hle => h ⟨b, hb, hkey, hle⟩
    rcases List.mem_append.mp hx with hx | hx
    · obtain ⟨b, hb, hkey, hle⟩ := ih hx
      by_cases hby : key b = key y → weight y ≤ weight b
      · exact ⟨b, (hmem b).mpr (.inl ⟨hb, hby⟩), hkey, hle⟩
      · obtain ⟨hkeyy, hlt⟩ := Classical.not_imp.mp hby
        rcases hnew with ⟨c, hc, hcy, hyc⟩ | hall
        · exact ⟨c, (hmem c).mpr (.inl ⟨hc, fun _ => hyc⟩), hcy.trans (hkeyy.symm.trans hkey),
            le_trans hle (le_trans (le_of_lt (not_le.mp hlt)) hyc)⟩
        · exact ⟨y, (hmem y).mpr (.inr ⟨rfl, hall⟩), hkeyy.symm.trans hkey,
            le_trans hle (le_of_lt (not_le.mp hlt))⟩
    · obtain rfl := List.mem_singleton.mp hx
      rcases hnew with ⟨c, hc, hcy, hyc⟩ | hall
      · exact ⟨c, (hmem c).mpr (.inl ⟨hc, fun _ => hyc⟩), hcy, hyc⟩
      · exact ⟨x, (hmem x).mpr (.inr ⟨rfl, hall⟩), rfl, le_rfl⟩

omit [DecidableEq κ] in
theorem isBest_append : IsBest key weight (xs ++ [x]) z ↔
    (IsBest key weight xs z ∧ (key z = key x → weight x ≤ weight z)) ∨
      (z = x ∧ ∀ y ∈ xs, key y = key x → weight y < weight x) := by
  constructor
  · rintro ⟨pre, suf, hsplit, hpre, hsuf⟩
    rcases List.eq_nil_or_concat suf with rfl | ⟨suf, w, rfl⟩
    · obtain ⟨rfl, hx⟩ := List.append_inj' hsplit rfl
      obtain rfl : x = z := by simpa using hx
      exact .inr ⟨rfl, hpre⟩
    · rw [List.concat_eq_append, ← List.cons_append, ← List.append_assoc] at hsplit
      obtain ⟨rfl, hx⟩ := List.append_inj' hsplit rfl
      obtain rfl : x = w := by simpa using hx
      refine .inl ⟨⟨pre, suf, rfl, hpre, fun y hy => hsuf y (by simp [hy])⟩, fun hkey => ?_⟩
      exact hsuf x (by simp) hkey.symm
  · rintro (⟨⟨pre, suf, rfl, hpre, hsuf⟩, hle⟩ | ⟨rfl, hall⟩)
    · refine ⟨pre, suf ++ [x], by simp, hpre, fun y hy hkey => ?_⟩
      rcases List.mem_append.mp hy with hy | hy
      · exact hsuf y hy hkey
      · obtain rfl := List.mem_singleton.mp hy
        exact hle hkey.symm
    · exact ⟨xs, [], rfl, hall, nofun⟩

/-- **What is kept** is the best of each kind. -/
theorem mem_best : x ∈ best key weight xs ↔ IsBest key weight xs x := by
  induction xs using List.reverseRecOn generalizing x with
  | nil => exact ⟨nofun, fun h => h.mem⟩
  | append_singleton xs y ih =>
    rw [best_append, mem_keep (nodup_best key weight xs), isBest_append, ih]
    refine or_congr_right (and_congr_right fun _ => ⟨fun h w hw hkey => ?_, fun h b hb hkey => ?_⟩)
    · obtain ⟨b, hb, hbw, hle⟩ := exists_best key weight hw
      exact lt_of_le_of_lt hle (h b hb (hbw.trans hkey))
    · exact h b (ih.mp hb).mem hkey

end Build2.Lib.Best
