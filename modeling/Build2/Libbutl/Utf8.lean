import Build2.Lib.ByteString
import Mathlib.Tactic.SplitIfs

/-! # UTF-8 validation

The types of Unicode codepoints and the validator of `libbutl` that takes a byte string one byte at
a time. Its state is either between two byte sequences or inside of one. -/

namespace Build2.Libbutl.Utf8

open Build2.Lib.ByteString

/-! ### Types of codepoints -/

/-- `codepoint_types`, a set of flags. -/
abbrev CodepointTypes := UInt16

namespace CodepointTypes

def none : CodepointTypes := 0x00
def graphic : CodepointTypes := 0x01
def format : CodepointTypes := 0x02
def control : CodepointTypes := 0x04
def privateUse : CodepointTypes := 0x08
def nonCharacter : CodepointTypes := 0x10
def reserved : CodepointTypes := 0x20
def any : CodepointTypes := 0x3f

/-- `to_string (codepoint_types)`. -/
def toString (t : CodepointTypes) : String :=
  if t = graphic then "graphic"
  else if t = format then "format"
  else if t = control then "control"
  else if t = privateUse then "private-use"
  else if t = nonCharacter then "noncharacter"
  else if t = reserved then "reserved"
  else ""

end CodepointTypes

/-- `cn_rs`. -/
def controlRanges : List (UInt32 × UInt32) := [(0x00, 0x1F), (0x7F, 0x9F)]

/-- `fr_rs`. -/
def formatRanges : List (UInt32 × UInt32) :=
  [(0x000AD, 0x000AD), (0x00600, 0x00605), (0x0061C, 0x0061C), (0x006DD, 0x006DD),
    (0x0070F, 0x0070F), (0x008E2, 0x008E2), (0x0180E, 0x0180E), (0x0200B, 0x0200F),
    (0x0202A, 0x0202E), (0x02060, 0x02064), (0x02066, 0x0206F), (0x0FEFF, 0x0FEFF),
    (0x0FFF9, 0x0FFFB), (0x110BD, 0x110BD), (0x110CD, 0x110CD), (0x13430, 0x13438),
    (0x1BCA0, 0x1BCA3), (0x1D173, 0x1D17A), (0xE0001, 0xE0001), (0xE0020, 0xE007F)]

/-- `pr_rs`. -/
def privateUseRanges : List (UInt32 × UInt32) := [(0x00E000, 0x00F8FF), (0x0F0000, 0x10FFFF)]

/-- `nc_rs`. -/
def nonCharacterRanges : List (UInt32 × UInt32) := [(0xFDD0, 0xFDEF)]

/-- `rs_rs`. -/
def reservedRanges : List (UInt32 × UInt32) :=
  [(0x30000, 0xE0000), (0xE0002, 0xE001F), (0xE0080, 0xE00FF), (0xE01F0, 0xEFFFF)]

/-- `ct_ranges`. -/
def codepointTypeRanges : List (CodepointTypes × List (UInt32 × UInt32)) :=
  [(.control, controlRanges), (.format, formatRanges), (.privateUse, privateUseRanges),
    (.nonCharacter, nonCharacterRanges), (.reserved, reservedRanges)]

/-- The range that contains the codepoint or lies to the right of it, and whether it contains it. -/
def inRanges (c : UInt32) (rs : List (UInt32 × UInt32)) : Bool :=
  match rs.find? fun r => ¬ r.2 < c with
  | some r => r.1 ≤ c
  | none => false

/-- `codepoint_type_lookup`. -/
def codepointTypeLookup (c : UInt32) : CodepointTypes :=
  match codepointTypeRanges.find? fun rs => inRanges c rs.2 with
  | some rs => rs.1
  | none => .graphic

/-- `codepoint_type`. -/
def codepointType (c : UInt32) : CodepointTypes :=
  if 0x20 ≤ c ∧ c ≤ 0x7E then .graphic
  else if c > 0x10FFFF ∨ (0xD800 ≤ c ∧ c ≤ 0xDFFF) then .none
  else if c &&& 0xFFFF ≥ 0xFFFE then .nonCharacter
  else codepointTypeLookup c

/-! ### The validator -/

/-- A range that a second byte must belong to. -/
def Range : Type := {r : UInt8 × UInt8 // 0x80 ≤ r.1 ∧ r.2 ≤ 0xBF}
  deriving DecidableEq

/-- Inside of a byte sequence: `seq_size_`, `seq_index_`, `codepoint_` and `byte2_range_`. -/
structure Seq where
  size : Nat
  index : Nat
  codepoint : UInt32
  byte2Range : Range
  index_lt : index < size
  deriving DecidableEq

/-- The range that the next byte must belong to. -/
def Seq.range (s : Seq) : UInt8 × UInt8 := if s.index = 1 then s.byte2Range.1 else (0x80, 0xBF)

/-- What `validate` says of a byte: whether it is valid and whether it is the last of a sequence. -/
inductive Verdict
  | part (seq : Seq)
  | last (codepoint : UInt32)
  | invalid (what : String)
  | undesired (what : String)
  deriving DecidableEq

/-- `utf8_validator`: the codepoints it lets pass. -/
structure Validator where
  types : CodepointTypes
  whitelist : List UInt32

/-- The lambda `byte_error`. -/
def byteError (index : Nat) (b : UInt8) : String :=
  let digit (n : UInt8) : String := String.singleton ("0123456789ABCDEF".toList.getD n.toNat '0')
  "invalid UTF-8 sequence " ++ ["first", "second", "third", "forth"].getD index "" ++ " byte (0x" ++
    digit (b >>> 4 &&& 0xF) ++ digit (b &&& 0xF) ++
    (if 0x20 ≤ b ∧ b ≤ 0x7E then " '" ++ String.singleton (Char.ofNat b.toNat) ++ "'"
      else "") ++ ")"

/-- The lambda `belongs`. -/
def belongs (c l r : UInt8) : Bool := l ≤ c && c ≤ r

/-- The range of the second byte of a sequence of two, if the first byte is valid. -/
def range2 (b : UInt8) : Option Range :=
  if belongs b 0xC2 0xDF then some ⟨(0x80, 0xBF), by decide⟩ else none

/-- The range of the second byte of a sequence of three, if the first byte is valid. -/
def range3 (b : UInt8) : Option Range :=
  if b = 0xE0 then some ⟨(0xA0, 0xBF), by decide⟩
  else if belongs b 0xE1 0xEC then some ⟨(0x80, 0xBF), by decide⟩
  else if b = 0xED then some ⟨(0x80, 0x9F), by decide⟩
  else if belongs b 0xEE 0xEF then some ⟨(0x80, 0xBF), by decide⟩
  else none

/-- The range of the second byte of a sequence of four, if the first byte is valid. -/
def range4 (b : UInt8) : Option Range :=
  if b = 0xF0 then some ⟨(0x90, 0xBF), by decide⟩
  else if belongs b 0xF1 0xF3 then some ⟨(0x80, 0xBF), by decide⟩
  else if b = 0xF4 then some ⟨(0x80, 0x8F), by decide⟩
  else none

/-- The first byte of a sequence of at least two. -/
def firstByte (b : UInt8) (size : Nat) (h : 1 < size) (codepoint : UInt32) :
    Option Range → Verdict
  | some r => .part ⟨size, 1, codepoint, r, h⟩
  | none => .invalid (byteError 0 b)

/-- The end of a byte sequence: the check of the decoded codepoint. -/
def Validator.complete (val : Validator) (codepoint : UInt32) : Verdict :=
  if val.types = .any then .last codepoint
  else if codepoint ∈ val.whitelist then .last codepoint
  else if codepointType codepoint &&& val.types ≠ .none then .last codepoint
  else .undesired ("invalid Unicode codepoint (" ++ (codepointType codepoint).toString ++ ")")

/-- `utf8_validator::validate`, between two sequences or inside of one. -/
def Validator.validate (val : Validator) (b : UInt8) : Option Seq → Verdict
  | none =>
    if b < 0x80 then val.complete b.toUInt32
    else if b < 0xE0 then firstByte b 2 (by decide) (b &&& 0x1F).toUInt32 (range2 b)
    else if b < 0xF0 then firstByte b 3 (by decide) (b &&& 0xF).toUInt32 (range3 b)
    else if b < 0xF8 then firstByte b 4 (by decide) (b &&& 0x7).toUInt32 (range4 b)
    else if b < 0xFE then
      .invalid ((if b < 0xFC then "5" else "6") ++ "-byte length UTF-8 sequence")
    else .invalid (byteError 0 b)
  | some s =>
    if belongs b s.range.1 s.range.2 then
      let codepoint := s.codepoint <<< 6 ||| (b &&& 0x3F).toUInt32
      if h : s.index + 1 = s.size then val.complete codepoint
      else .part ⟨s.size, s.index + 1, codepoint, s.byte2Range,
        Nat.lt_of_le_of_ne s.index_lt h⟩
    else .invalid (byteError s.index b)

/-- The state after a valid byte. -/
def Verdict.next : Verdict → Option (Option Seq)
  | .part s => some (some s)
  | .last _ => some none
  | .invalid _ => none
  | .undesired _ => none

/-- The second result of `validate`: the byte is the last of a sequence. -/
def Verdict.isLast : Verdict → Bool
  | .part _ => false
  | .last _ => true
  | .invalid _ => false
  | .undesired _ => true

/-- The description of an invalid byte. -/
def Verdict.what : Verdict → String
  | .invalid w => w
  | .undesired w => w
  | _ => ""

/-! ### Lemmas -/

section

variable {val : Validator} {b : UInt8} {s : Option Seq}

theorem Verdict.isLast_of_next {v : Verdict} (h : v.next = some s) : v.isLast = s.isNone := by
  cases v with
  | part q => cases h; rfl
  | last c => cases h; rfl
  | invalid w => cases h
  | undesired w => cases h

/-- Inside of a sequence only continuation bytes are valid. -/
theorem Seq.bounds_of_belongs {s : Seq} (h : belongs b s.range.1 s.range.2 = true) :
    0x80 ≤ b.toNat ∧ b.toNat ≤ 0xBF := by
  have hr : 0x80 ≤ s.range.1 ∧ s.range.2 ≤ 0xBF := by
    unfold Seq.range
    split_ifs
    · exact s.byte2Range.2
    · decide
  simp only [belongs, Bool.and_eq_true, decide_eq_true_eq, UInt8.le_iff_toNat_le] at h hr
  exact ⟨hr.1.trans h.1, h.2.trans hr.2⟩

theorem Validator.next_validate_some {q : Seq}
    (hb : ¬ (0x80 ≤ b.toNat ∧ b.toNat ≤ 0xBF)) : (val.validate b (some q)).next = none := by
  have h : belongs b q.range.1 q.range.2 = false :=
    eq_false_of_ne_true fun h => hb (Seq.bounds_of_belongs h)
  simp only [Validator.validate, h]
  rfl

theorem Validator.next_validate_ff : (val.validate 0xFF s).next = none := by
  cases s with
  | none => rfl
  | some q => exact next_validate_some (by decide)

theorem Validator.next_complete {c : UInt32} {s' : Option Seq}
    (h : (val.complete c).next = some s') : s' = none := by
  unfold Validator.complete at h
  split_ifs at h <;> cases h <;> rfl

/-- An ASCII character is a sequence of its own. -/
theorem Validator.eq_none_of_ascii (hb : b < 0x80) {s' : Option Seq}
    (h : (val.validate b s).next = some s') : s = none ∧ s' = none := by
  cases s with
  | none =>
    simp only [Validator.validate, if_pos hb] at h
    exact ⟨rfl, next_complete h⟩
  | some q =>
    rw [UInt8.lt_iff_toNat_lt] at hb
    rw [next_validate_some (by
      intro h
      exact absurd h.1 (Nat.not_le.mpr hb))] at h
    cases h

end

end Build2.Libbutl.Utf8
