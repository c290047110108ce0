import Build2.Lib.ByteString
import Build2.Lib.Lex
import Mathlib.Data.Nat.Digits.Lemmas

/-! # Decimal numerals

The value of a run of digits (`value`), the numeral a number is printed as (`decimal`), and how the
two meet: `value_decimal`, the length of a numeral, and the order of numerals of equal length. -/

namespace Build2.Lib.Decimal

open Build2.Lib.ByteString Build2.Lib.Lex

/-- The number a digit stands for. -/
def digitVal (b : UInt8) : ℕ := b.toNat - 48

/-- The value of a run of digits. -/
def value (ds : Bytes) : ℕ := ds.foldl (fun n d => 10 * n + digitVal d) 0

/-- The digit of a number below ten. -/
def digitChar (d : ℕ) : UInt8 := UInt8.ofNat (48 + d)

/-- The numeral of a number, without leading zeros. -/
def decimal (n : ℕ) : Bytes :=
  if n = 0 then [ch '0'] else ((Nat.digits 10 n).map digitChar).reverse

/-- A non-empty run of digits. -/
def Numeral (ds : Bytes) : Prop := ds ≠ [] ∧ ∀ d ∈ ds, isDigit d = true

theorem Numeral.isDigit_hd {ds : Bytes} (h : Numeral ds) : isDigit (hd ds) = true := by
  obtain ⟨d, ds, rfl⟩ := List.exists_cons_of_ne_nil h.1
  exact h.2 d (by simp)

instance (ds : Bytes) : Decidable (Numeral ds) :=
  decidable_of_iff (ds ≠ [] ∧ ds.all isDigit = true) (by simp [Numeral])

theorem isDigit_iff {b : UInt8} : isDigit b = true ↔ 48 ≤ b.toNat ∧ b.toNat ≤ 57 := by
  simp only [isDigit, Bool.and_eq_true, decide_eq_true_eq, UInt8.le_iff_toNat_le]
  exact Iff.rfl

theorem digitVal_lt {b : UInt8} (h : isDigit b = true) : digitVal b < 10 := by
  have := isDigit_iff.mp h
  unfold digitVal; omega

theorem toNat_digitChar {d : ℕ} (h : d < 10) : (digitChar d).toNat = 48 + d := by
  unfold digitChar
  rw [UInt8.toNat_ofNat']
  exact Nat.mod_eq_of_lt (by omega)

theorem isDigit_digitChar {d : ℕ} (h : d < 10) : isDigit (digitChar d) = true := by
  rw [isDigit_iff, toNat_digitChar h]; omega

theorem digitVal_digitChar {d : ℕ} (h : d < 10) : digitVal (digitChar d) = d := by
  unfold digitVal; rw [toNat_digitChar h]; omega

theorem digitVal_inj {a b : UInt8} (ha : isDigit a = true) (hb : isDigit b = true)
    (h : digitVal a = digitVal b) : a = b := by
  have h1 := isDigit_iff.mp ha
  have h2 := isDigit_iff.mp hb
  unfold digitVal at h
  exact UInt8.toNat_inj.mp (by omega)

/-! ### The value of a run -/

theorem foldl_value (ds : Bytes) (n : ℕ) :
    ds.foldl (fun n d => 10 * n + digitVal d) n = 10 ^ ds.length * n + value ds := by
  induction ds generalizing n with
  | nil => simp [value]
  | cons d ds ih =>
    have h : value (d :: ds) = 10 ^ ds.length * (10 * 0 + digitVal d) + value ds := ih _
    rw [List.foldl_cons, ih, h, List.length_cons]
    ring

@[simp] theorem value_nil : value [] = 0 := rfl

theorem value_cons (d : UInt8) (ds : Bytes) :
    value (d :: ds) = 10 ^ ds.length * digitVal d + value ds := by
  rw [value, List.foldl_cons, foldl_value]; simp

theorem value_append (ds es : Bytes) :
    value (ds ++ es) = 10 ^ es.length * value ds + value es := by
  rw [value, List.foldl_append, foldl_value]; rfl

theorem value_lt : ∀ {ds : Bytes}, (∀ d ∈ ds, isDigit d = true) → value ds < 10 ^ ds.length
  | [], _ => by simp
  | d :: ds, h => by
    have h1 := digitVal_lt (h d (by simp))
    have h2 := value_lt fun e he => h e (List.mem_cons_of_mem _ he)
    rw [value_cons, List.length_cons, pow_succ]
    calc 10 ^ ds.length * digitVal d + value ds
        < 10 ^ ds.length * digitVal d + 10 ^ ds.length := by omega
      _ = 10 ^ ds.length * (digitVal d + 1) := by ring
      _ ≤ 10 ^ ds.length * 10 := Nat.mul_le_mul_left _ h1

@[simp] theorem value_replicate_zero (k : ℕ) : value (List.replicate k (ch '0')) = 0 := by
  induction k with
  | zero => rfl
  | succ k ih => rw [List.replicate_succ, value_cons, ih]; rfl

theorem value_pad (k : ℕ) (ds : Bytes) : value (List.replicate k (ch '0') ++ ds) = value ds := by
  rw [value_append]; simp

theorem value_eq_zero_iff {ds : Bytes} (h : ∀ d ∈ ds, isDigit d = true) :
    value ds = 0 ↔ ∀ d ∈ ds, d = ch '0' := by
  induction ds with
  | nil => simp
  | cons d ds ih =>
    have hd := h d (by simp)
    rw [value_cons, Nat.add_eq_zero_iff, ih fun e he => h e (List.mem_cons_of_mem _ he)]
    have hz : 10 ^ ds.length * digitVal d = 0 ↔ d = ch '0' := by
      rw [Nat.mul_eq_zero]
      constructor
      · rintro (h0 | h0)
        · exact absurd h0 (by positivity)
        · exact digitVal_inj hd (by decide) (by rw [h0]; rfl)
      · rintro rfl; exact Or.inr rfl
    simp [hz]

/-! ### The numeral of a number -/

theorem digits_lt {n d : ℕ} (h : d ∈ Nat.digits 10 n) : d < 10 := Nat.digits_lt_base (by decide) h

theorem decimal_ne_nil (n : ℕ) : decimal n ≠ [] := by
  unfold decimal
  split_ifs with h
  · simp
  · simp [Nat.digits_ne_nil_iff_ne_zero.mpr h]

theorem isDigit_decimal {n : ℕ} : ∀ d ∈ decimal n, isDigit d = true := by
  intro d hd
  unfold decimal at hd
  split_ifs at hd with h
  · rw [List.mem_singleton.mp hd]; decide
  · simp only [List.mem_reverse, List.mem_map] at hd
    obtain ⟨e, he, rfl⟩ := hd
    exact isDigit_digitChar (digits_lt he)

theorem numeral_decimal (n : ℕ) : Numeral (decimal n) := ⟨decimal_ne_nil n, isDigit_decimal⟩

theorem value_map_digitChar : ∀ l : List ℕ, (∀ d ∈ l, d < 10) →
    value (l.map digitChar).reverse = Nat.ofDigits 10 l
  | [], _ => rfl
  | d :: l, h => by
    rw [List.map_cons, List.reverse_cons, value_append, value_map_digitChar l
      fun e he => h e (List.mem_cons_of_mem _ he), Nat.ofDigits_cons, value_cons,
      digitVal_digitChar (h d (by simp))]
    simp; ring

/-- **A number is the value of its numeral.** -/
@[simp] theorem value_decimal (n : ℕ) : value (decimal n) = n := by
  unfold decimal
  split_ifs with h
  · rw [h]; rfl
  · rw [value_map_digitChar _ fun d hd => digits_lt hd, Nat.ofDigits_digits]

/-- A numeral has at most `k` digits exactly when the number is below `10 ^ k`. -/
theorem length_decimal_le {n k : ℕ} (hk : 1 ≤ k) : (decimal n).length ≤ k ↔ n < 10 ^ k := by
  unfold decimal
  split_ifs with h
  · subst h
    simp only [List.length_singleton, hk, true_iff]
    positivity
  · rw [List.length_reverse, List.length_map, Nat.digits_length_le_iff (by decide)]

theorem decimal_of_hd {n : ℕ} (h : hd (decimal n) = ch '0') : decimal n = [ch '0'] := by
  obtain ⟨d, ds, hds⟩ := List.exists_cons_of_ne_nil (decimal_ne_nil n)
  rw [hds, hd_cons] at h
  subst h
  cases ds with
  | nil => exact hds
  | cons e ds =>
    have hdig : ∀ d ∈ e :: ds, isDigit d = true := fun d hd =>
      isDigit_decimal d (by rw [hds]; exact List.mem_cons_of_mem _ hd)
    have hval : value (e :: ds) = n := by
      rw [← value_decimal n, hds, ← value_pad 1 (e :: ds)]
      rfl
    have hlen := (length_decimal_le (show 1 ≤ (e :: ds).length by simp)).mpr (hval ▸ value_lt hdig)
    rw [hds, List.length_cons] at hlen
    omega

/-! ### The order of numerals of equal length -/

theorem compare_digit {a b : UInt8} (ha : isDigit a = true) (hb : isDigit b = true) :
    compare a b = compare (digitVal a) (digitVal b) := by
  have h1 := isDigit_iff.mp ha
  have h2 := isDigit_iff.mp hb
  have hlt : a < b ↔ digitVal a < digitVal b := by
    rw [UInt8.lt_iff_toNat_lt]
    unfold digitVal; omega
  have heq : a = b ↔ digitVal a = digitVal b := ⟨congrArg _, digitVal_inj ha hb⟩
  show compareOfLessAndEq a b = compareOfLessAndEq (digitVal a) (digitVal b)
  unfold compareOfLessAndEq
  simp only [hlt, heq]

/-- **Runs of equally many digits are ordered as their values.** -/
theorem compare_of_length_eq : ∀ {ds es : Bytes}, ds.length = es.length →
    (∀ d ∈ ds, isDigit d = true) → (∀ d ∈ es, isDigit d = true) →
    compare ds es = compare (value ds) (value es)
  | [], [], _, _, _ => rfl
  | d :: ds, e :: es, hl, hds, hes => by
    have hl' : ds.length = es.length := by simpa using hl
    have h1 := value_lt fun x hx => hds x (List.mem_cons_of_mem _ hx)
    have h2 := value_lt fun x hx => hes x (List.mem_cons_of_mem _ hx)
    rw [List.compare_cons_cons, compare_digit (hds d (by simp)) (hes e (by simp)),
      compare_of_length_eq hl' (fun x hx => hds x (List.mem_cons_of_mem _ hx))
        fun x hx => hes x (List.mem_cons_of_mem _ hx), value_cons, value_cons, hl']
    rw [hl'] at h1
    exact (compare_mul_add h1 h2).symm

end Build2.Lib.Decimal
