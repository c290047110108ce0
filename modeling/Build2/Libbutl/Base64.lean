import Build2.Lib.ByteString
import Mathlib.Data.Nat.Bitwise

/-! # Base64

`base64_encode` and `base64_decode` of `base64.cxx`. A `char` is signed, so the bytes from 128 on
are negative. Decoding what has been encoded gives the bytes back, across the lines that long output
is split into (`decode_base64_encode`). -/

namespace Build2.Libbutl.Base64

/-- The character of an ASCII code. -/
def char (c : Char) : Int8 := c.toUInt8.toInt8

def newline : Int8 := char '\n'

def pad : Int8 := char '='

/-- `codes`. -/
def codes : List Int8 :=
  (['A', 'B', 'C', 'D', 'E', 'F', 'G', 'H', 'I', 'J', 'K', 'L', 'M', 'N', 'O', 'P', 'Q', 'R', 'S',
    'T', 'U', 'V', 'W', 'X', 'Y', 'Z', 'a', 'b', 'c', 'd', 'e', 'f', 'g', 'h', 'i', 'j', 'k', 'l',
    'm', 'n', 'o', 'p', 'q', 'r', 's', 't', 'u', 'v', 'w', 'x', 'y', 'z', '0', '1', '2', '3', '4',
    '5', '6', '7', '8', '9', '+', '/']).map char

def code (i : ℕ) : Int8 := codes.getD i 0

/-- A `char` as an `unsigned char`. -/
def unsigned (c : Int8) : ℕ := c.toUInt8.toNat

/-- The line break in front of a group. -/
def lineBreak (n : ℕ) : List Int8 := if n ≠ 0 ∧ n % 19 = 0 then [newline] else []

/-- The loop of `base64_encode`, from the group `n` on. -/
def encodeFrom : ℕ → List Int8 → List Int8
  | _, [] => []
  | n, [a] =>
    lineBreak n ++ [code (unsigned a >>> 2 &&& 0x3F), code (unsigned a <<< 4 &&& 0x30), pad, pad]
  | n, [a, b] =>
    lineBreak n ++ [code (unsigned a >>> 2 &&& 0x3F),
      code (unsigned a <<< 4 &&& 0x30 ||| unsigned b >>> 4 &&& 0xF),
      code (unsigned b <<< 2 &&& 0x3C), pad]
  | n, a :: b :: c :: s =>
    lineBreak n ++ [code (unsigned a >>> 2 &&& 0x3F),
      code (unsigned a <<< 4 &&& 0x30 ||| unsigned b >>> 4 &&& 0xF),
      code (unsigned b <<< 2 &&& 0x3C ||| unsigned c >>> 6 &&& 0x3),
      code (unsigned c &&& 0x3F)] ++ encodeFrom (n + 1) s

/-- `base64_encode`. -/
def encode (v : List Int8) : List Int8 := encodeFrom 0 v

/-- `index`, promoted to `int`, or `invalid_argument`. -/
def index (c : Int8) : Option ℕ :=
  if c = char '/' then some 63
  else if c = char '+' then some 62
  else if char 'A' ≤ c ∧ c ≤ char 'Z' then some (c - char 'A').toNatClampNeg
  else if char 'a' ≤ c ∧ c ≤ char 'z' then some (c - char 'a' + 26).toNatClampNeg
  else if char '0' ≤ c ∧ c ≤ char '9' then some (c - char '0' + 52).toNatClampNeg
  else none

/-- The three bytes of a group: the `int` values are converted to `char`. -/
def byte1 (i1 i2 : ℕ) : Int8 := Int8.ofNat (i1 <<< 2 ||| i2 >>> 4)

def byte2 (i2 i3 : ℕ) : Int8 := Int8.ofNat (i2 <<< 4 ||| i3 >>> 2)

def byte3 (i3 i4 : ℕ) : Int8 := Int8.ofNat (i3 <<< 6 ||| i4)

/-- `base64_decode`, or `invalid_argument`. -/
def decode : List Int8 → Option (List Int8)
  | [] => some []
  | c :: s =>
    if c = newline then decode s
    else
      match s with
      | [] => none
      | c2 :: s =>
        match index c, index c2 with
        | some i1, some i2 =>
          match s with
          | [] => none
          | c3 :: s =>
            if c3 = pad then
              match s with
              | [] => none
              | c4 :: s => if c4 ≠ pad ∨ s ≠ [] then none else some [byte1 i1 i2]
            else
              match index c3 with
              | none => none
              | some i3 =>
                match s with
                | [] => none
                | c4 :: s =>
                  if c4 = pad then
                    if s ≠ [] then none else some [byte1 i1 i2, byte2 i2 i3]
                  else
                    match index c4 with
                    | none => none
                    | some i4 =>
                      (decode s).map fun v => byte1 i1 i2 :: byte2 i2 i3 :: byte3 i3 i4 :: v
        | _, _ => none

/-! ### The six-bit numbers of a group -/

variable {a b i1 i2 i3 i4 n k j : ℕ} {c : Int8}

theorem unsigned_lt (c : Int8) : unsigned c < 256 := c.toUInt8.toNat_lt

theorem ofNat_eq (h : n % 256 = unsigned c) : Int8.ofNat n = c := by
  have hbyte : UInt8.ofNat n = c.toUInt8 := UInt8.toNat_inj.mp (UInt8.toNat_ofNat'.trans h)
  exact Int8.toBitVec.inj (congrArg UInt8.toBitVec hbyte)

theorem code_spec : ∀ i < 64, index (code i) = some i ∧ code i ≠ newline ∧ code i ≠ pad := by
  decide

theorem low_eq : a <<< k &&& ((2 ^ j - 1) <<< k) = a % 2 ^ j * 2 ^ k := by
  rw [← Nat.shiftLeft_and_distrib, Nat.and_two_pow_sub_one_eq_mod, Nat.shiftLeft_eq]

theorem join_eq (hb : b < 2 ^ k) : a <<< k ||| b = a * 2 ^ k + b := by
  rw [← Nat.shiftLeft_add_eq_or_of_lt hb, Nat.shiftLeft_eq]

/-- The first number of a group, -/
theorem first_eq (ha : a < 256) : a >>> 2 &&& 0x3F = a / 4 := by
  have hmod : a >>> 2 &&& 0x3F = a >>> 2 % 64 := Nat.and_two_pow_sub_one_eq_mod (a >>> 2) 6
  have hdiv : a >>> 2 = a / 4 := Nat.shiftRight_eq_div_pow a 2
  omega

/-- the part of the second one that is from the first byte, -/
theorem second_eq : a <<< 4 &&& 0x30 = a % 4 * 16 := low_eq (k := 4) (j := 2)

/-- the part of the third one that is from the second byte, -/
theorem third_eq : b <<< 2 &&& 0x3C = b % 16 * 4 := low_eq (k := 2) (j := 4)

/-- the second number, -/
theorem second_join (hb : b < 256) :
    a <<< 4 &&& 0x30 ||| b >>> 4 &&& 0xF = a % 4 * 16 + b / 16 := by
  have hmod : b >>> 4 &&& 0xF = b >>> 4 % 16 := Nat.and_two_pow_sub_one_eq_mod (b >>> 4) 4
  have hdiv : b >>> 4 = b / 16 := Nat.shiftRight_eq_div_pow b 4
  have hlow : b >>> 4 &&& 0xF = b / 16 := by omega
  have hjoin : (a % 4) <<< 4 ||| b / 16 = a % 4 * 16 + b / 16 := join_eq (k := 4) (by omega)
  rw [second_eq, hlow, ← hjoin, Nat.shiftLeft_eq]

/-- and the third one. -/
theorem third_join {d : ℕ} (hd : d < 256) :
    b <<< 2 &&& 0x3C ||| d >>> 6 &&& 0x3 = b % 16 * 4 + d / 64 := by
  have hmod : d >>> 6 &&& 0x3 = d >>> 6 % 4 := Nat.and_two_pow_sub_one_eq_mod (d >>> 6) 2
  have hdiv : d >>> 6 = d / 64 := Nat.shiftRight_eq_div_pow d 6
  have hlow : d >>> 6 &&& 0x3 = d / 64 := by omega
  have hjoin : (b % 16) <<< 2 ||| d / 64 = b % 16 * 4 + d / 64 := join_eq (k := 2) (by omega)
  rw [third_eq, hlow, ← hjoin, Nat.shiftLeft_eq]

theorem fourth_eq : a &&& 0x3F = a % 64 := Nat.and_two_pow_sub_one_eq_mod a 6

/-! ### The bytes of a group -/

theorem byte1_eq (h2 : i2 < 64) (h : i1 * 4 + i2 / 16 = unsigned c) : byte1 i1 i2 = c := by
  have hdiv : i2 >>> 4 = i2 / 16 := Nat.shiftRight_eq_div_pow i2 4
  have hjoin : i1 <<< 2 ||| i2 >>> 4 = i1 * 4 + i2 >>> 4 := join_eq (k := 2) (by omega)
  have hlt := unsigned_lt c
  exact ofNat_eq (by omega)

theorem byte2_eq (h3 : i3 < 64) (h : (i2 * 16 + i3 / 4) % 256 = unsigned c) : byte2 i2 i3 = c := by
  have hdiv : i3 >>> 2 = i3 / 4 := Nat.shiftRight_eq_div_pow i3 2
  have hjoin : i2 <<< 4 ||| i3 >>> 2 = i2 * 16 + i3 >>> 2 := join_eq (k := 4) (by omega)
  exact ofNat_eq (by omega)

theorem byte3_eq (h4 : i4 < 64) (h : (i3 * 64 + i4) % 256 = unsigned c) : byte3 i3 i4 = c := by
  have hjoin : i3 <<< 6 ||| i4 = i3 * 64 + i4 := join_eq (k := 6) (by omega)
  exact ofNat_eq (by omega)

/-! ### Decoding -/

variable {s : List Int8}

theorem decode_lineBreak (n : ℕ) (s : List Int8) : decode (lineBreak n ++ s) = decode s := by
  unfold lineBreak
  split_ifs
  · rw [List.singleton_append, decode.eq_def]
    exact if_pos rfl
  · rfl

theorem decode_two (h1 : i1 < 64) (h2 : i2 < 64) :
    decode [code i1, code i2, pad, pad] = some [byte1 i1 i2] := by
  obtain ⟨hi1, hnl, -⟩ := code_spec i1 h1
  obtain ⟨hi2, -, -⟩ := code_spec i2 h2
  simp [decode, hi1, hi2, hnl]

theorem decode_three (h1 : i1 < 64) (h2 : i2 < 64) (h3 : i3 < 64) :
    decode [code i1, code i2, code i3, pad] = some [byte1 i1 i2, byte2 i2 i3] := by
  obtain ⟨hi1, hnl, -⟩ := code_spec i1 h1
  obtain ⟨hi2, -, -⟩ := code_spec i2 h2
  obtain ⟨hi3, -, hpad⟩ := code_spec i3 h3
  simp [decode, hi1, hi2, hi3, hnl, hpad]

theorem decode_four (h1 : i1 < 64) (h2 : i2 < 64) (h3 : i3 < 64) (h4 : i4 < 64) :
    decode ([code i1, code i2, code i3, code i4] ++ s) =
      (decode s).map fun v => byte1 i1 i2 :: byte2 i2 i3 :: byte3 i3 i4 :: v := by
  obtain ⟨hi1, hnl, -⟩ := code_spec i1 h1
  obtain ⟨hi2, -, -⟩ := code_spec i2 h2
  obtain ⟨hi3, -, hpad3⟩ := code_spec i3 h3
  obtain ⟨hi4, -, hpad4⟩ := code_spec i4 h4
  simp [decode, hi1, hi2, hi3, hi4, hnl, hpad3, hpad4]

theorem decode_encodeFrom : ∀ (v : List Int8) (n : ℕ), decode (encodeFrom n v) = some v
  | [], _ => rfl
  | [x], n => by
    have hx := unsigned_lt x
    rw [encodeFrom, decode_lineBreak, first_eq hx, second_eq, decode_two (by omega) (by omega),
      byte1_eq (c := x) (by omega) (by omega)]
  | [x, y], n => by
    have hx := unsigned_lt x
    have hy := unsigned_lt y
    rw [encodeFrom, decode_lineBreak, first_eq hx, second_join hy, third_eq,
      decode_three (by omega) (by omega) (by omega), byte1_eq (c := x) (by omega) (by omega),
      byte2_eq (c := y) (by omega) (by omega)]
  | x :: y :: z :: v, n => by
    have hx := unsigned_lt x
    have hy := unsigned_lt y
    have hz := unsigned_lt z
    rw [encodeFrom, List.append_assoc, decode_lineBreak, first_eq hx, second_join hy, third_join hz,
      fourth_eq, decode_four (by omega) (by omega) (by omega) (by omega),
      decode_encodeFrom v (n + 1), byte1_eq (c := x) (by omega) (by omega),
      byte2_eq (c := y) (by omega) (by omega), byte3_eq (c := z) (by omega) (by omega)]
    rfl

/-- **Decoding gives back what has been encoded.** -/
theorem decode_base64_encode (v : List Int8) : decode (encode v) = some v := decode_encodeFrom v 0

end Build2.Libbutl.Base64
