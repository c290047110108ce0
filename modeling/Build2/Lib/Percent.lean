import Build2.Lib.ByteString
import Mathlib.Data.List.Infix
import Mathlib.Data.UInt

/-! # Percent-encoding

Some bytes of a string are written as `%` and two hexadecimal digits, and `%` always is. What is
written decodes to the string (`decode_encode`); a part of what is written, read from its start,
decodes to a part of the string (`decode_of_isPrefix`). -/

namespace Build2.Lib.Percent

open Build2.Lib.ByteString

/-- `isxdigit`. -/
def isXdigit (b : UInt8) : Bool :=
  isDigit b || (ch 'a' ≤ b && b ≤ ch 'f') || (ch 'A' ≤ b && b ≤ ch 'F')

/-- The value of a hexadecimal digit. -/
def hexVal (b : UInt8) : ℕ :=
  if isDigit b then b.toNat - 48 else if ch 'a' ≤ b then b.toNat - 87 else b.toNat - 55

/-- The digit of a number below 16. -/
def hexDigit (n : ℕ) : UInt8 := if n < 10 then UInt8.ofNat (48 + n) else UInt8.ofNat (55 + n)

/-- The byte that two hexadecimal digits stand for. -/
def byte (x y : UInt8) : UInt8 := UInt8.ofNat (16 * hexVal x + hexVal y)

/-- Encodes `%` and the bytes of a class. -/
def encode (f : UInt8 → Bool) (s : Bytes) : Bytes :=
  s.flatMap fun c =>
    if c = ch '%' || f c then [ch '%', hexDigit (c.toNat / 16), hexDigit (c.toNat % 16)] else [c]

/-- Decodes the escape sequences of a string, if all are complete. -/
def decode : Bytes → Option Bytes
  | [] => some []
  | c :: s =>
    if c = ch '%' then
      match s with
      | x :: y :: s => if isXdigit x && isXdigit y then (decode s).map (byte x y :: ·) else none
      | _ => none
    else (decode s).map (c :: ·)

variable {f : UInt8 → Bool} {b c x y : UInt8} {s t u w : Bytes}

/-! ### Digits -/

theorem isXdigit_iff : isXdigit b = true ↔
    (48 ≤ b.toNat ∧ b.toNat ≤ 57) ∨ (97 ≤ b.toNat ∧ b.toNat ≤ 102) ∨
      (65 ≤ b.toNat ∧ b.toNat ≤ 70) := by
  simp only [isXdigit, isDigit, Bool.or_eq_true, Bool.and_eq_true, decide_eq_true_eq,
    UInt8.le_iff_toNat_le]
  exact or_assoc

theorem toNat_hexDigit {n : ℕ} (h : n < 16) :
    (hexDigit n).toNat = if n < 10 then 48 + n else 55 + n := by
  unfold hexDigit
  split_ifs <;> simp only [UInt8.toNat_ofNat'] <;> omega

theorem isXdigit_hexDigit {n : ℕ} (h : n < 16) : isXdigit (hexDigit n) = true := by
  rw [isXdigit_iff, toNat_hexDigit h]
  split_ifs <;> omega

theorem hexVal_hexDigit {n : ℕ} (h : n < 16) : hexVal (hexDigit n) = n := by
  have hd : isDigit (hexDigit n) = true ↔ n < 10 := by
    simp only [isDigit, Bool.and_eq_true, decide_eq_true_eq, UInt8.le_iff_toNat_le,
      toNat_hexDigit h]
    have h0 : (ch '0').toNat = 48 := rfl
    have h9 : (ch '9').toNat = 57 := rfl
    split_ifs <;> omega
  unfold hexVal
  by_cases hn : n < 10
  · rw [if_pos (hd.mpr hn), toNat_hexDigit h, if_pos hn]
    omega
  · have ha : ¬ ch 'a' ≤ hexDigit n := by
      rw [UInt8.le_iff_toNat_le, toNat_hexDigit h, if_neg hn]
      have : (ch 'a').toNat = 97 := rfl
      omega
    rw [if_neg (mt hd.mp hn), if_neg ha, toNat_hexDigit h, if_neg hn]
    omega

theorem byte_hexDigit (c : UInt8) :
    byte (hexDigit (c.toNat / 16)) (hexDigit (c.toNat % 16)) = c := by
  have hc : c.toNat < 256 := c.toNat_lt
  rw [byte, hexVal_hexDigit (by omega), hexVal_hexDigit (by omega), Nat.div_add_mod,
    UInt8.ofNat_toNat]

theorem isXdigit_percent : isXdigit (ch '%') = false := by decide

/-! ### Decoding -/

@[simp] theorem decode_nil : decode [] = some [] := rfl

theorem decode_cons (h : c ≠ ch '%') : decode (c :: s) = (decode s).map (c :: ·) := by
  rcases s with _ | ⟨x, _ | ⟨y, s⟩⟩ <;> simp [decode, h]

theorem decode_escape (hx : isXdigit x = true) (hy : isXdigit y = true) :
    decode (ch '%' :: x :: y :: s) = (decode s).map (byte x y :: ·) := by
  simp [decode, hx, hy]

/-- **What decodes**: nothing, a byte and the rest, or an escape sequence and the rest. -/
theorem decode_cases (h : decode s = some w) : (s = [] ∧ w = []) ∨
    (∃ c s' w', s = c :: s' ∧ c ≠ ch '%' ∧ w = c :: w' ∧ decode s' = some w') ∨
    ∃ x y s' w', s = ch '%' :: x :: y :: s' ∧ isXdigit x = true ∧ isXdigit y = true ∧
      w = byte x y :: w' ∧ decode s' = some w' := by
  cases s with
  | nil =>
    cases h
    exact Or.inl ⟨rfl, rfl⟩
  | cons c s =>
    right
    by_cases hc : c = ch '%'
    · right
      subst hc
      rcases s with _ | ⟨x, _ | ⟨y, s⟩⟩
      · simp [decode] at h
      · simp [decode] at h
      · by_cases hxy : (isXdigit x && isXdigit y) = true
        · obtain ⟨hx, hy⟩ := Bool.and_eq_true_iff.mp hxy
          rw [decode_escape hx hy, Option.map_eq_some_iff] at h
          obtain ⟨w', hw, rfl⟩ := h
          exact ⟨x, y, s, w', rfl, hx, hy, rfl, hw⟩
        · simp [decode, hxy] at h
    · left
      rw [decode_cons hc, Option.map_eq_some_iff] at h
      obtain ⟨w', hw, rfl⟩ := h
      exact ⟨c, s, w', rfl, hc, rfl, hw⟩

theorem decode_of_not_mem (h : ch '%' ∉ s) : decode s = some s := by
  induction s with
  | nil => rfl
  | cons c s ih =>
    rw [List.mem_cons, not_or] at h
    rw [decode_cons (Ne.symm h.1), ih h.2]
    rfl

theorem decode_eq_nil (h : decode s = some []) : s = [] := by
  rcases decode_cases h with ⟨rfl, -⟩ | ⟨c, s, w, rfl, hc, hw, -⟩ | ⟨x, y, s, w, rfl, hx, hy, hw, -⟩
  · rfl
  · cases hw
  · cases hw

/-- **What an escape sequence stands for is decoded.** Hexadecimal digits are not `%`, so every
`%` starts an escape sequence. -/
theorem byte_mem_decode (h : decode (t ++ ch '%' :: x :: y :: u) = some w) : byte x y ∈ w := by
  induction hk : t.length using Nat.strongRecOn generalizing t w with
  | ind k ih =>
  subst hk
  rcases decode_cases h with ⟨hs, -⟩ | ⟨c, s', w', hs, hc, rfl, hw⟩ |
    ⟨x', y', s', w', hs, hx, hy, rfl, hw⟩
  · simp at hs
  · cases t with
    | nil => exact absurd (List.cons.inj hs).1.symm hc
    | cons a t =>
      obtain ⟨rfl, rfl⟩ := List.cons.inj hs
      exact List.mem_cons_of_mem _ (ih t.length (by simp) hw rfl)
  · have hne : ∀ {z : UInt8}, isXdigit z = true → z ≠ ch '%' := fun hz =>
      ne_of_class hz isXdigit_percent
    rcases t with _ | ⟨a, _ | ⟨b, _ | ⟨c, t⟩⟩⟩
    · simp only [List.nil_append, List.cons.injEq, true_and] at hs
      obtain ⟨rfl, rfl, -⟩ := hs
      exact List.mem_cons_self
    · simp only [List.cons_append, List.nil_append, List.cons.injEq] at hs
      exact absurd hs.2.1.symm (hne hx)
    · simp only [List.cons_append, List.nil_append, List.cons.injEq] at hs
      exact absurd hs.2.2.1.symm (hne hy)
    · simp only [List.cons_append, List.cons.injEq] at hs
      obtain ⟨-, -, -, rfl⟩ := hs
      exact List.mem_cons_of_mem _ (ih t.length (by simp; omega) hw rfl)

/-- **What is decoded** stands in the text or is what one of its escape sequences stands for. -/
theorem mem_decode (h : decode s = some w) (hb : b ∈ w) :
    (b ∈ s ∧ b ≠ ch '%') ∨ ∃ t x y u, s = t ++ ch '%' :: x :: y :: u ∧ b = byte x y := by
  induction hk : s.length using Nat.strongRecOn generalizing s w with
  | ind k ih =>
  subst hk
  rcases decode_cases h with ⟨rfl, rfl⟩ | ⟨c, s, w, rfl, hc, rfl, hw⟩ |
    ⟨x, y, s, w, rfl, hx, hy, rfl, hw⟩
  · cases hb
  · rcases List.mem_cons.mp hb with rfl | hb
    · exact Or.inl ⟨List.mem_cons_self, hc⟩
    · rcases ih s.length (by simp) hw hb rfl with ⟨h1, h2⟩ | ⟨t, x, y, u, rfl, rfl⟩
      · exact Or.inl ⟨List.mem_cons_of_mem _ h1, h2⟩
      · exact Or.inr ⟨c :: t, x, y, u, rfl, rfl⟩
  · rcases List.mem_cons.mp hb with rfl | hb
    · exact Or.inr ⟨[], x, y, s, rfl, rfl⟩
    · rcases ih s.length (by simp; omega) hw hb rfl with ⟨h1, h2⟩ | ⟨t, x', y', u, rfl, rfl⟩
      · exact Or.inl ⟨List.mem_cons_of_mem _ (List.mem_cons_of_mem _ (List.mem_cons_of_mem _ h1)),
          h2⟩
      · exact Or.inr ⟨ch '%' :: x :: y :: t, x', y', u, rfl, rfl⟩

/-! ### Encoding -/

@[simp] theorem encode_nil : encode f [] = [] := rfl

theorem encode_append (s t : Bytes) : encode f (s ++ t) = encode f s ++ encode f t :=
  List.flatMap_append

theorem encode_cons_plain (hc : c ≠ ch '%') (hf : f c = false) :
    encode f (c :: s) = c :: encode f s := by
  simp [encode, List.flatMap_cons, hc, hf]

theorem encode_cons_escape (h : c = ch '%' ∨ f c = true) : encode f (c :: s) =
    ch '%' :: hexDigit (c.toNat / 16) :: hexDigit (c.toNat % 16) :: encode f s := by
  rcases h with rfl | h <;> simp [encode, List.flatMap_cons, *]

/-- **What is written is read back.** -/
theorem decode_encode (f : UInt8 → Bool) (s : Bytes) : decode (encode f s) = some s := by
  induction s with
  | nil => rfl
  | cons c s ih =>
    by_cases h : c = ch '%' ∨ f c = true
    · have hc : c.toNat < 256 := c.toNat_lt
      rw [encode_cons_escape h, decode_escape (isXdigit_hexDigit (by omega))
        (isXdigit_hexDigit (by omega)), byte_hexDigit, ih]
      rfl
    · rw [not_or, Bool.not_eq_true] at h
      rw [encode_cons_plain h.1 h.2, decode_cons h.1, ih]
      rfl

theorem encode_of_plain (h : ∀ c ∈ s, c ≠ ch '%' ∧ f c = false) : encode f s = s := by
  induction s with
  | nil => rfl
  | cons c s ih =>
    rw [encode_cons_plain (h c List.mem_cons_self).1 (h c List.mem_cons_self).2,
      ih fun b hb => h b (List.mem_cons_of_mem _ hb)]

/-- **What is written** is made of `%`, digits and the bytes that are written as they are. -/
theorem mem_encode (h : b ∈ encode f s) :
    b = ch '%' ∨ isXdigit b = true ∨ (b ∈ s ∧ b ≠ ch '%' ∧ f b = false) := by
  induction s with
  | nil => cases h
  | cons c s ih =>
    by_cases hc : c = ch '%' ∨ f c = true
    · have h256 : c.toNat < 256 := c.toNat_lt
      rw [encode_cons_escape hc] at h
      simp only [List.mem_cons] at h
      rcases h with rfl | rfl | rfl | h
      · exact Or.inl rfl
      · exact Or.inr (Or.inl (isXdigit_hexDigit (by omega)))
      · exact Or.inr (Or.inl (isXdigit_hexDigit (by omega)))
      · exact (ih h).imp_right (Or.imp_right fun h => ⟨List.mem_cons_of_mem _ h.1, h.2⟩)
    · rw [not_or, Bool.not_eq_true] at hc
      rw [encode_cons_plain hc.1 hc.2] at h
      rcases List.mem_cons.mp h with rfl | h
      · exact Or.inr (Or.inr ⟨List.mem_cons_self, hc⟩)
      · exact (ih h).imp_right (Or.imp_right fun h => ⟨List.mem_cons_of_mem _ h.1, h.2⟩)

theorem eq_of_percent_not_mem (h : ch '%' ∉ encode f s) : encode f s = s := by
  have h1 := decode_encode f s
  rw [decode_of_not_mem h] at h1
  exact Option.some.inj h1

theorem encode_eq_nil (h : encode f s = []) : s = [] := by
  have h1 := decode_encode f s
  rw [h] at h1
  exact (Option.some.inj h1).symm

/-- **A part of what is written**, read from its start, decodes to a part of the string. -/
theorem decode_of_isPrefix (ht : t <+: encode f s) (h : decode t = some w) : w <+: s := by
  induction s generalizing t w with
  | nil =>
    obtain rfl : t = [] := List.prefix_nil.mp ht
    cases h
    exact List.prefix_rfl
  | cons c s ih =>
    by_cases hc : c = ch '%' ∨ f c = true
    · have h256 : c.toNat < 256 := c.toNat_lt
      rw [encode_cons_escape hc] at ht
      rcases decode_cases h with ⟨rfl, rfl⟩ | ⟨c', t', w', rfl, hc', rfl, hw⟩ |
        ⟨x, y, t', w', rfl, hx, hy, rfl, hw⟩
      · exact List.nil_prefix
      · exact absurd (List.cons_prefix_cons.mp ht).1 hc'
      · simp only [List.cons_prefix_cons, true_and] at ht
        obtain ⟨rfl, rfl, ht⟩ := ht
        rw [byte_hexDigit]
        exact List.cons_prefix_cons.mpr ⟨rfl, ih ht hw⟩
    · rw [not_or, Bool.not_eq_true] at hc
      rw [encode_cons_plain hc.1 hc.2] at ht
      rcases decode_cases h with ⟨rfl, rfl⟩ | ⟨c', t', w', rfl, hc', rfl, hw⟩ |
        ⟨x, y, t', w', rfl, hx, hy, rfl, hw⟩
      · exact List.nil_prefix
      · obtain ⟨rfl, ht'⟩ := List.cons_prefix_cons.mp ht
        exact List.cons_prefix_cons.mpr ⟨rfl, ih ht' hw⟩
      · exact absurd (List.cons_prefix_cons.mp ht).1.symm hc.1

end Build2.Lib.Percent
