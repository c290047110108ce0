import Mathlib.Data.Finset.Card
import Mathlib.Tactic.Ring

/-! # Choices that narrow

A candidate is chosen among admissible ones. From time to time fewer of them are admissible and the
choice moves to another admissible candidate: to a greater one, or because the chosen one is not
admissible any more. This cannot go on for ever: `weight` gets less (`weight_lt`). -/

namespace Build2.Lib.Narrowing

variable {α : Type} [DecidableEq α] (gt : α → α → Prop) [DecidableRel gt] (N : ℕ)

/-- The weight of the choice `v` among `s`, of which there are at most `N`. First comes the number
of admissible candidates, then whether `v` is one, then how many are greater. -/
def weight (v : α) (s : Finset α) : ℕ :=
  s.card * (2 * N + 2) + ((if v ∈ s then 0 else N + 1) + (s.filter fun u => gt u v).card)

/-- More than any weight. -/
def top : ℕ := (N + 1) * (2 * N + 2)

variable {gt N} {v w : α} {s t : Finset α}

variable (gt v) in
theorem rest_lt (hN : s.card ≤ N) :
    (if v ∈ s then 0 else N + 1) + (s.filter fun u => gt u v).card < 2 * N + 2 := by
  have := Finset.card_filter_le s fun u => gt u v
  split_ifs <;> omega

theorem weight_lt_top (hN : s.card ≤ N) : weight gt N v s < top N := by
  have h := rest_lt gt v hN
  have hs : s.card * (2 * N + 2) ≤ N * (2 * N + 2) := Nat.mul_le_mul_right _ hN
  unfold weight top
  rw [Nat.add_mul, Nat.one_mul]
  omega

theorem weight_lt_of_card_lt (h : t.card < s.card) (hN : t.card ≤ N) :
    weight gt N w t < weight gt N v s := by
  have hr := rest_lt gt w hN
  have hs : (t.card + 1) * (2 * N + 2) ≤ s.card * (2 * N + 2) := Nat.mul_le_mul_right _ h
  unfold weight
  rw [Nat.add_mul, Nat.one_mul] at hs
  omega

/-- **A choice that moves** weighs less afterwards. -/
theorem weight_lt (hgt : ∀ x y z, gt x y → gt y z → gt x z) (hirr : ∀ x, ¬ gt x x) (hts : t ⊆ s)
    (hN : s.card ≤ N) (hw : w ∈ s) (hv : gt w v ∨ v ∉ t) :
    weight gt N w t < weight gt N v s := by
  have htN : t.card ≤ N := (Finset.card_le_card hts).trans hN
  rcases (Finset.card_le_card hts).lt_or_eq with h | h
  · exact weight_lt_of_card_lt h htN
  · -- all that was admissible still is
    obtain rfl : t = s := Finset.eq_of_subset_of_card_le hts h.ge
    unfold weight
    rw [if_pos hw]
    have hf := Finset.card_filter_le t fun u => gt u w
    by_cases hvt : v ∈ t
    · have hwv : gt w v := hv.resolve_right (not_not.mpr hvt)
      have hsub : (t.filter fun u => gt u w) ⊂ t.filter fun u => gt u v := by
        refine Finset.ssubset_iff_subset_ne.mpr ⟨fun u hu => ?_, fun he => ?_⟩
        · rw [Finset.mem_filter] at hu ⊢
          exact ⟨hu.1, hgt u w v hu.2 hwv⟩
        · have hmem : w ∈ t.filter fun u => gt u v := Finset.mem_filter.mpr ⟨hw, hwv⟩
          rw [← he, Finset.mem_filter] at hmem
          exact hirr w hmem.2
      have := Finset.card_lt_card hsub
      rw [if_pos hvt]
      omega
    · rw [if_neg hvt]
      omega

/-- A choice that stays, or moves to an equal one, does not weigh more. -/
theorem weight_le (hts : t ⊆ s) (hN : s.card ≤ N) (hv : v ∈ s → w ∈ s)
    (hgt : ∀ u, gt u w → gt u v) : weight gt N w t ≤ weight gt N v s := by
  rcases (Finset.card_le_card hts).lt_or_eq with h | h
  · exact (weight_lt_of_card_lt h (h.le.trans hN)).le
  · obtain rfl : t = s := Finset.eq_of_subset_of_card_le hts h.ge
    have hf : (t.filter fun u => gt u w).card ≤ (t.filter fun u => gt u v).card :=
      Finset.card_le_card fun u hu => by
        rw [Finset.mem_filter] at hu ⊢
        exact ⟨hu.1, hgt u hu.2⟩
    unfold weight
    by_cases hvt : v ∈ t
    · rw [if_pos hvt, if_pos (hv hvt)]
      omega
    · rw [if_neg hvt]
      split_ifs <;> omega

end Build2.Lib.Narrowing
