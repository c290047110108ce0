import Mathlib.Order.Compare
import Mathlib.Tactic.Ring
import Mathlib.Tactic.SplitIfs

/-! # Comparing part by part

A comparison as an `Ordering`, first by one part and then by another (`Ordering.then`), and how it
arises from numbers whose digits are the parts and from programs that test the parts in turn. -/

namespace Build2.Lib.Lex

theorem compare_mul_add {w a b x y : ℕ} (hx : x < w) (hy : y < w) :
    compare (w * a + x) (w * b + y) = (compare a b).then (compare x y) := by
  rcases lt_trichotomy a b with h | h | h
  · rw [compare_lt_iff_lt.mpr h, Ordering.lt_then, compare_lt_iff_lt]
    calc w * a + x < w * a + w := by omega
      _ = w * (a + 1) := by ring
      _ ≤ w * b := Nat.mul_le_mul_left _ h
      _ ≤ w * b + y := Nat.le_add_right _ _
  · subst h
    rw [compare_eq_iff_eq.mpr rfl, Ordering.eq_then]
    rcases lt_trichotomy x y with h | h | h
    · rw [compare_lt_iff_lt.mpr h, compare_lt_iff_lt]; omega
    · rw [h, compare_eq_iff_eq.mpr rfl, compare_eq_iff_eq.mpr rfl]
    · rw [compare_gt_iff_gt.mpr h, compare_gt_iff_gt]; omega
  · rw [compare_gt_iff_gt.mpr h, Ordering.gt_then, compare_gt_iff_gt]
    calc w * b + y < w * b + w := by omega
      _ = w * (b + 1) := by ring
      _ ≤ w * a := Nat.mul_le_mul_left _ h
      _ ≤ w * a + x := Nat.le_add_right _ _

/-- The test a program makes of one part before it goes on to the next. -/
theorem compare_ite (m n : ℕ) (o : Ordering) :
    (if m ≠ n then if m < n then Ordering.lt else .gt else o) = (compare m n).then o := by
  rcases lt_trichotomy m n with h | h | h
  · rw [if_pos h.ne, if_pos h, compare_lt_iff_lt.mpr h, Ordering.lt_then]
  · rw [if_neg (not_not.mpr h), compare_eq_iff_eq.mpr h, Ordering.eq_then]
  · rw [if_pos h.ne', if_neg h.not_gt, compare_gt_iff_gt.mpr h, Ordering.gt_then]

theorem ordering_ext {o p : Ordering} (h1 : o = .lt ↔ p = .lt) (h2 : o = .eq ↔ p = .eq) :
    o = p := by
  cases o <;> cases p <;> simp_all

/-- A part may be compared by any other number that sorts the pairs in the same way. -/
theorem then_congr {a b a' b' x y : ℕ} (h1 : a < b ∨ a = b ∧ x < y ↔ a' < b' ∨ a' = b' ∧ x < y)
    (h2 : a = b ∧ x = y ↔ a' = b' ∧ x = y) :
    (compare a b).then (compare x y) = (compare a' b').then (compare x y) := by
  refine ordering_ext ?_ ?_
  · simpa only [Ordering.then_eq_lt, compare_lt_iff_lt, compare_eq_iff_eq] using h1
  · simpa only [Ordering.then_eq_eq, compare_eq_iff_eq] using h2

end Build2.Lib.Lex
