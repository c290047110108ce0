import Build2.Libbutl.Utf8
import Mathlib.Algebra.Group.Nat.Defs

/-! # Well-formed UTF-8

The validator that lets all codepoints pass accepts just the encodings of lists of characters and
decodes them (`decode_eq_some_iff`). `Sequence` is the table of well-formed byte sequences that it
checks. -/

namespace Build2.Libbutl.Utf8

open Build2.Lib.ByteString

variable {val : Validator} {b c : UInt8} {s t : Bytes} {st st' : Option Seq} {l : List UInt32}

namespace Validator

/-- The state after a string if all its bytes are valid. -/
def run (val : Validator) (st : Option Seq) : Bytes → Option (Option Seq)
  | [] => some st
  | b :: s =>
    match (val.validate b st).next with
    | some st' => val.run st' s
    | none => none

/-- The codepoints of a string if all its bytes are valid and the last one ends a sequence. -/
def decodeFrom (val : Validator) (st : Option Seq) : Bytes → Option (List UInt32)
  | [] => if st = none then some [] else none
  | b :: s =>
    match val.validate b st with
    | .part q => val.decodeFrom (some q) s
    | .last codepoint => (val.decodeFrom none s).map (codepoint :: ·)
    | .invalid _ => none
    | .undesired _ => none

def decode (val : Validator) (s : Bytes) : Option (List UInt32) := val.decodeFrom none s

/-- The loop of `utf8_length_impl`: `r` sequences have ended so far. -/
def lengthFrom (val : Validator) (r : ℕ) (st : Option Seq) : Bytes → Except String ℕ
  | [] => if st = none then .ok r else .error "incomplete UTF-8 sequence"
  | b :: s =>
    match val.validate b st with
    | .part q => val.lengthFrom r (some q) s
    | .last _ => val.lengthFrom (r + 1) none s
    | .invalid what => .error what
    | .undesired what => .error what

/-- `utf8_length_impl`. -/
def utf8LengthImpl (val : Validator) (s : Bytes) : Except String ℕ := val.lengthFrom 0 none s

/-- `utf8`. -/
def utf8 (val : Validator) (s : Bytes) : Bool := (val.utf8LengthImpl s).isOk

theorem run_append : val.run st (s ++ t) = (val.run st s).bind (val.run · t) := by
  induction s generalizing st with
  | nil => rfl
  | cons b s ih =>
    rw [List.cons_append, run, run]
    cases (val.validate b st).next with
    | none => rfl
    | some st' => exact ih

theorem isOk_lengthFrom (r : ℕ) :
    (val.lengthFrom r st s).isOk = true ↔ val.run st s = some none := by
  induction s generalizing r st with
  | nil =>
    rw [lengthFrom, run, Option.some_inj]
    split_ifs with h
    · exact iff_of_true rfl h
    · exact iff_of_false (by simp [Except.isOk, Except.toBool]) h
  | cons b s ih =>
    rw [lengthFrom, run]
    cases val.validate b st with
    | part q => exact ih r
    | last codepoint => exact ih (r + 1)
    | invalid what => simp [Verdict.next, Except.isOk, Except.toBool]
    | undesired what => simp [Verdict.next, Except.isOk, Except.toBool]

/-- **A string is accepted** if the validator is between two sequences after it. -/
theorem utf8_iff : val.utf8 s = true ↔ val.run none s = some none := isOk_lengthFrom 0

theorem exists_decodeFrom : (∃ l, val.decodeFrom st s = some l) ↔ val.run st s = some none := by
  induction s generalizing st with
  | nil =>
    rw [decodeFrom, run, Option.some_inj]
    split_ifs with h
    · exact iff_of_true ⟨[], rfl⟩ h
    · exact iff_of_false (by simp) h
  | cons b s ih =>
    rw [decodeFrom, run]
    cases val.validate b st with
    | part q => exact ih
    | last codepoint =>
      refine Iff.trans ?_ ih
      simp [Option.map_eq_some_iff]
    | invalid what => simp [Verdict.next]
    | undesired what => simp [Verdict.next]

theorem utf8_iff_decode : val.utf8 s = true ↔ ∃ l, val.decode s = some l :=
  utf8_iff.trans exists_decodeFrom.symm

end Validator

/-! ### The table of sequences -/

/-- `codepoint_` with the next byte of the sequence. -/
def extend (c : UInt32) (b : UInt8) : UInt32 := c <<< 6 ||| (b &&& 0x3F).toUInt32

/-- **The well-formed byte sequences** and what they are decoded to. -/
inductive Sequence : Bytes → UInt32 → Prop
  | one {b : UInt8} (h : b < 0x80) : Sequence [b] b.toUInt32
  | two {b b1 : UInt8} {r : Range} (h : range2 b = some r) (h1 : belongs b1 r.1.1 r.1.2 = true) :
      Sequence [b, b1] (extend (b &&& 0x1F).toUInt32 b1)
  | three {b b1 b2 : UInt8} {r : Range} (h : range3 b = some r)
      (h1 : belongs b1 r.1.1 r.1.2 = true) (h2 : belongs b2 0x80 0xBF = true) :
      Sequence [b, b1, b2] (extend (extend (b &&& 0xF).toUInt32 b1) b2)
  | four {b b1 b2 b3 : UInt8} {r : Range} (h : range4 b = some r)
      (h1 : belongs b1 r.1.1 r.1.2 = true) (h2 : belongs b2 0x80 0xBF = true)
      (h3 : belongs b3 0x80 0xBF = true) :
      Sequence [b, b1, b2, b3] (extend (extend (extend (b &&& 0x7).toUInt32 b1) b2) b3)

theorem belongs_iff {l r : UInt8} :
    belongs b l r = true ↔ l.toNat ≤ b.toNat ∧ b.toNat ≤ r.toNat := by
  simp [belongs, UInt8.le_iff_toNat_le]

theorem range2_bounds {r : Range} (h : range2 b = some r) :
    0xC2 ≤ b.toNat ∧ b.toNat ≤ 0xDF ∧ r.1.1.toNat = 0x80 ∧ r.1.2.toNat = 0xBF := by
  unfold range2 at h
  split_ifs at h with hb
  rw [belongs_iff] at hb
  obtain rfl := Option.some.inj h
  exact ⟨hb.1, hb.2, rfl, rfl⟩

theorem range3_bounds {r : Range} (h : range3 b = some r) :
    0xE0 ≤ b.toNat ∧ b.toNat ≤ 0xEF ∧
      r.1.1.toNat = (if b.toNat = 0xE0 then 0xA0 else 0x80) ∧
      r.1.2.toNat = (if b.toNat = 0xED then 0x9F else 0xBF) := by
  unfold range3 at h
  split_ifs at h with h1 h2 h3 h4
  · obtain rfl := Option.some.inj h
    subst h1
    decide
  · rw [belongs_iff] at h2
    obtain rfl := Option.some.inj h
    have h2' : 0xE1 ≤ b.toNat ∧ b.toNat ≤ 0xEC := h2
    rw [if_neg (by omega), if_neg (by omega)]
    exact ⟨by omega, by omega, rfl, rfl⟩
  · obtain rfl := Option.some.inj h
    subst h3
    decide
  · rw [belongs_iff] at h4
    obtain rfl := Option.some.inj h
    have h4' : 0xEE ≤ b.toNat ∧ b.toNat ≤ 0xEF := h4
    rw [if_neg (by omega), if_neg (by omega)]
    exact ⟨by omega, by omega, rfl, rfl⟩

theorem range4_bounds {r : Range} (h : range4 b = some r) :
    0xF0 ≤ b.toNat ∧ b.toNat ≤ 0xF4 ∧
      r.1.1.toNat = (if b.toNat = 0xF0 then 0x90 else 0x80) ∧
      r.1.2.toNat = (if b.toNat = 0xF4 then 0x8F else 0xBF) := by
  unfold range4 at h
  split_ifs at h with h1 h2 h3
  · obtain rfl := Option.some.inj h
    subst h1
    decide
  · rw [belongs_iff] at h2
    obtain rfl := Option.some.inj h
    have h2' : 0xF1 ≤ b.toNat ∧ b.toNat ≤ 0xF3 := h2
    rw [if_neg (by omega), if_neg (by omega)]
    exact ⟨by omega, by omega, rfl, rfl⟩
  · obtain rfl := Option.some.inj h
    subst h3
    decide

namespace Validator

theorem validate_none : val.validate b none =
    if b.toNat < 0x80 then val.complete b.toUInt32
    else if b.toNat < 0xE0 then firstByte b 2 (by decide) (b &&& 0x1F).toUInt32 (range2 b)
    else if b.toNat < 0xF0 then firstByte b 3 (by decide) (b &&& 0xF).toUInt32 (range3 b)
    else if b.toNat < 0xF8 then firstByte b 4 (by decide) (b &&& 0x7).toUInt32 (range4 b)
    else if b.toNat < 0xFE then
      .invalid ((if b.toNat < 0xFC then "5" else "6") ++ "-byte length UTF-8 sequence")
    else .invalid (byteError 0 b) := by
  simp only [validate, UInt8.lt_iff_toNat_lt]
  rfl

theorem validate_two {r : Range} (h : range2 b = some r) :
    val.validate b none = .part ⟨2, 1, (b &&& 0x1F).toUInt32, r, by decide⟩ := by
  have hb := range2_bounds h
  rw [validate_none, if_neg (by omega), if_pos (by omega), h]
  rfl

theorem validate_three {r : Range} (h : range3 b = some r) :
    val.validate b none = .part ⟨3, 1, (b &&& 0xF).toUInt32, r, by decide⟩ := by
  have hb := range3_bounds h
  rw [validate_none, if_neg (by omega), if_neg (by omega), if_pos (by omega), h]
  rfl

theorem validate_four {r : Range} (h : range4 b = some r) :
    val.validate b none = .part ⟨4, 1, (b &&& 0x7).toUInt32, r, by decide⟩ := by
  have hb := range4_bounds h
  rw [validate_none, if_neg (by omega), if_neg (by omega), if_neg (by omega), if_pos (by omega), h]
  rfl

theorem validate_first (val : Validator) (b : UInt8) :
    (b < 0x80 ∧ val.validate b none = val.complete b.toUInt32) ∨
    (∃ r, range2 b = some r ∧
      val.validate b none = .part ⟨2, 1, (b &&& 0x1F).toUInt32, r, by decide⟩) ∨
    (∃ r, range3 b = some r ∧
      val.validate b none = .part ⟨3, 1, (b &&& 0xF).toUInt32, r, by decide⟩) ∨
    (∃ r, range4 b = some r ∧
      val.validate b none = .part ⟨4, 1, (b &&& 0x7).toUInt32, r, by decide⟩) ∨
    ∃ what, val.validate b none = .invalid what := by
  by_cases h : b < 0x80
  · exact Or.inl ⟨h, if_pos h⟩
  cases h2 : range2 b with
  | some r => exact Or.inr (Or.inl ⟨r, rfl, validate_two h2⟩)
  | none =>
    cases h3 : range3 b with
    | some r => exact Or.inr (Or.inr (Or.inl ⟨r, rfl, validate_three h3⟩))
    | none =>
      cases h4 : range4 b with
      | some r => exact Or.inr (Or.inr (Or.inr (Or.inl ⟨r, rfl, validate_four h4⟩)))
      | none =>
        refine Or.inr (Or.inr (Or.inr (Or.inr ?_)))
        rw [validate, if_neg h, h2, h3, h4]
        split_ifs <;> exact ⟨_, rfl⟩

/-- The validator lets all codepoints pass. -/
def Any (val : Validator) : Prop := val.types = .any

theorem Any.complete (hv : val.Any) (c : UInt32) : val.complete c = .last c := if_pos hv

theorem Any.decodeFrom_last (hv : val.Any) {q : Seq} (h : q.index + 1 = q.size) :
    val.decodeFrom (some q) s = some l ↔
      ∃ b t l', s = b :: t ∧ belongs b q.range.1 q.range.2 = true ∧
        l = extend q.codepoint b :: l' ∧ val.decode t = some l' := by
  cases s with
  | nil => simp [decodeFrom]
  | cons b t =>
    rw [decodeFrom, validate]
    by_cases hb : belongs b q.range.1 q.range.2 = true
    · rw [if_pos hb, dif_pos h, hv.complete]
      show Option.map _ (val.decode t) = some l ↔ _
      rw [Option.map_eq_some_iff]
      constructor
      · rintro ⟨l', hl', rfl⟩
        exact ⟨b, t, l', rfl, hb, rfl, hl'⟩
      · rintro ⟨b', t', l', hs, -, rfl, hl'⟩
        obtain ⟨rfl, rfl⟩ := List.cons.inj hs
        exact ⟨l', hl', rfl⟩
    · rw [if_neg hb]
      refine iff_of_false (by simp) ?_
      rintro ⟨b', t', l', hs, hb', -⟩
      obtain ⟨rfl, rfl⟩ := List.cons.inj hs
      exact hb hb'

theorem decodeFrom_part {q : Seq} (h : q.index + 1 < q.size) :
    val.decodeFrom (some q) s = some l ↔
      ∃ b t, s = b :: t ∧ belongs b q.range.1 q.range.2 = true ∧
        val.decodeFrom (some ⟨q.size, q.index + 1, extend q.codepoint b, q.byte2Range, h⟩) t =
          some l := by
  cases s with
  | nil => simp [decodeFrom]
  | cons b t =>
    rw [decodeFrom, validate]
    by_cases hb : belongs b q.range.1 q.range.2 = true
    · rw [if_pos hb, dif_neg (Nat.ne_of_lt h)]
      constructor
      · exact fun hl => ⟨b, t, rfl, hb, hl⟩
      · rintro ⟨b', t', hs, -, hl⟩
        obtain ⟨rfl, rfl⟩ := List.cons.inj hs
        exact hl
    · rw [if_neg hb]
      refine iff_of_false (by simp) ?_
      rintro ⟨b', t', hs, hb', -⟩
      obtain ⟨rfl, rfl⟩ := List.cons.inj hs
      exact hb hb'

/-- **A string is decoded sequence by sequence.** -/
theorem Any.decode_cons (hv : val.Any) :
    val.decode (b :: s) = some l ↔
      ∃ bs cp t l', Sequence bs cp ∧ b :: s = bs ++ t ∧ l = cp :: l' ∧ val.decode t = some l' := by
  have hdec : ∀ b s, val.decode (b :: s) =
      match val.validate b none with
      | .part q => val.decodeFrom (some q) s
      | .last codepoint => (val.decode s).map (codepoint :: ·)
      | .invalid _ => none
      | .undesired _ => none := fun _ _ => rfl
  constructor
  · intro h
    rw [hdec] at h
    obtain ⟨hb, hq⟩ | ⟨r, hr, hq⟩ | ⟨r, hr, hq⟩ | ⟨r, hr, hq⟩ | ⟨what, hq⟩ := validate_first val b
    · rw [hq, hv.complete, Option.map_eq_some_iff] at h
      obtain ⟨l', hl', rfl⟩ := h
      exact ⟨[b], _, s, l', .one hb, rfl, rfl, hl'⟩
    · rw [hq] at h
      obtain ⟨b1, t, l', rfl, h1, rfl, hl'⟩ := (hv.decodeFrom_last rfl).mp h
      exact ⟨[b, b1], _, t, l', .two hr h1, rfl, rfl, hl'⟩
    · rw [hq] at h
      obtain ⟨b1, t1, rfl, h1, h⟩ := (decodeFrom_part (by simp)).mp h
      obtain ⟨b2, t, l', rfl, h2, rfl, hl'⟩ := (hv.decodeFrom_last rfl).mp h
      exact ⟨[b, b1, b2], _, t, l', .three hr h1 h2, rfl, rfl, hl'⟩
    · rw [hq] at h
      obtain ⟨b1, t1, rfl, h1, h⟩ := (decodeFrom_part (by simp)).mp h
      obtain ⟨b2, t2, rfl, h2, h⟩ := (decodeFrom_part (by simp)).mp h
      obtain ⟨b3, t, l', rfl, h3, rfl, hl'⟩ := (hv.decodeFrom_last rfl).mp h
      exact ⟨[b, b1, b2, b3], _, t, l', .four hr h1 h2 h3, rfl, rfl, hl'⟩
    · rw [hq] at h
      cases h
  · rintro ⟨bs, cp, t, l', hseq, hs, rfl, hl'⟩
    rw [hs]
    cases hseq with
    | one hb =>
      rw [List.singleton_append, hdec, validate, if_pos hb, hv.complete]
      simp [hl']
    | two hr h1 =>
      rw [List.cons_append, hdec, validate_two hr]
      exact (hv.decodeFrom_last rfl).mpr ⟨_, t, l', rfl, h1, rfl, hl'⟩
    | three hr h1 h2 =>
      rw [List.cons_append, hdec, validate_three hr]
      exact (decodeFrom_part (by simp)).mpr ⟨_, _, rfl, h1,
        (hv.decodeFrom_last rfl).mpr ⟨_, t, l', rfl, h2, rfl, hl'⟩⟩
    | four hr h1 h2 h3 =>
      rw [List.cons_append, hdec, validate_four hr]
      exact (decodeFrom_part (by simp)).mpr ⟨_, _, rfl, h1,
        (decodeFrom_part (by simp)).mpr ⟨_, _, rfl, h2,
          (hv.decodeFrom_last rfl).mpr ⟨_, t, l', rfl, h3, rfl, hl'⟩⟩⟩

end Validator

/-! ### The encodings of characters -/

theorem exists_range2 (h : 0xC2 ≤ b.toNat ∧ b.toNat ≤ 0xDF) : ∃ r, range2 b = some r := by
  refine ⟨_, if_pos ?_⟩
  rw [belongs_iff]
  exact h

theorem exists_range3 (h : 0xE0 ≤ b.toNat ∧ b.toNat ≤ 0xEF) : ∃ r, range3 b = some r := by
  unfold range3
  split_ifs with h1 h2 h3 h4
  · exact ⟨_, rfl⟩
  · exact ⟨_, rfl⟩
  · exact ⟨_, rfl⟩
  · exact ⟨_, rfl⟩
  · rw [← UInt8.toNat_inj] at h1 h3
    rw [belongs_iff] at h2 h4
    have h1' : b.toNat ≠ 0xE0 := h1
    have h2' : ¬(0xE1 ≤ b.toNat ∧ b.toNat ≤ 0xEC) := h2
    have h3' : b.toNat ≠ 0xED := h3
    have h4' : ¬(0xEE ≤ b.toNat ∧ b.toNat ≤ 0xEF) := h4
    omega

theorem exists_range4 (h : 0xF0 ≤ b.toNat ∧ b.toNat ≤ 0xF4) : ∃ r, range4 b = some r := by
  unfold range4
  split_ifs with h1 h2 h3
  · exact ⟨_, rfl⟩
  · exact ⟨_, rfl⟩
  · exact ⟨_, rfl⟩
  · rw [← UInt8.toNat_inj] at h1 h3
    rw [belongs_iff] at h2
    have h1' : b.toNat ≠ 0xF0 := h1
    have h2' : ¬(0xF1 ≤ b.toNat ∧ b.toNat ≤ 0xF3) := h2
    have h3' : b.toNat ≠ 0xF4 := h3
    omega

theorem toNat_low {m : UInt8} (k : ℕ) (hm : m.toNat = 2 ^ k - 1) :
    (b &&& m).toUInt32.toNat = b.toNat % 2 ^ k := by
  rw [UInt8.toNat_toUInt32, UInt8.toNat_and, hm, Nat.and_two_pow_sub_one_eq_mod]

theorem toNat_extend {c : UInt32} (h : c.toNat < 2 ^ 26) :
    (extend c b).toNat = c.toNat * 64 + b.toNat % 64 := by
  have hb : (b &&& 0x3F).toUInt32.toNat = b.toNat % 64 := toNat_low 6 rfl
  have hs : (c <<< 6).toNat = c.toNat <<< 6 := by
    rw [UInt32.toNat_shiftLeft]
    show c.toNat <<< 6 % 2 ^ 32 = _
    rw [Nat.shiftLeft_eq]
    omega
  rw [extend, UInt32.toNat_or, hb, hs, ← Nat.shiftLeft_add_eq_or_of_lt (by omega), Nat.shiftLeft_eq]

/-- What a sequence of two bytes is decoded to, -/
theorem toNat_two (b b1 : UInt8) : (extend (b &&& 0x1F).toUInt32 b1).toNat =
    b.toNat % 32 * 64 + b1.toNat % 64 := by
  have hb : (b &&& 0x1F).toUInt32.toNat = b.toNat % 32 := toNat_low 5 rfl
  rw [toNat_extend (by omega), hb]

/-- one of three -/
theorem toNat_three (b b1 b2 : UInt8) : (extend (extend (b &&& 0xF).toUInt32 b1) b2).toNat =
    (b.toNat % 16 * 64 + b1.toNat % 64) * 64 + b2.toNat % 64 := by
  have hb : (b &&& 0xF).toUInt32.toNat = b.toNat % 16 := toNat_low 4 rfl
  have h1 := toNat_extend (b := b1) (c := (b &&& 0xF).toUInt32) (by omega)
  rw [toNat_extend (by omega), h1, hb]

/-- and one of four. -/
theorem toNat_four (b b1 b2 b3 : UInt8) :
    (extend (extend (extend (b &&& 0x7).toUInt32 b1) b2) b3).toNat =
      ((b.toNat % 8 * 64 + b1.toNat % 64) * 64 + b2.toNat % 64) * 64 + b3.toNat % 64 := by
  have hb : (b &&& 0x7).toUInt32.toNat = b.toNat % 8 := toNat_low 3 rfl
  have h1 := toNat_extend (b := b1) (c := (b &&& 0x7).toUInt32) (by omega)
  have h2 := toNat_extend (b := b2) (c := extend (b &&& 0x7).toUInt32 b1) (by omega)
  rw [toNat_extend (by omega), h2, h1, hb]

theorem tail_bounds (h : belongs b 0x80 0xBF = true) : 0x80 ≤ b.toNat ∧ b.toNat ≤ 0xBF := by
  rw [belongs_iff] at h
  exact h

theorem ofNat_eq {n : ℕ} (h : n = b.toNat) : UInt8.ofNat n = b := by
  rw [h, UInt8.ofNat_toNat]

/-- **A well-formed sequence is the encoding of the character** that it is decoded to. -/
theorem Sequence.encodes {bs : Bytes} {cp : UInt32} (h : Sequence bs cp) :
    ∃ c : Char, bs = String.utf8EncodeChar c ∧ cp = c.val := by
  cases h with
  | one hb =>
    rename_i b
    rw [UInt8.lt_iff_toNat_lt] at hb
    have hb' : b.toNat < 0x80 := hb
    have hv : b.toUInt32.toNat = b.toNat := UInt8.toNat_toUInt32 b
    refine ⟨⟨b.toUInt32, Or.inl (by rw [hv]; omega)⟩, ?_, rfl⟩
    simp only [String.utf8EncodeChar, hv]
    rw [if_pos (by omega), ofNat_eq rfl]
  | two hr h1 =>
    rename_i b b1 r
    have hb := range2_bounds hr
    rw [belongs_iff] at h1
    have hv := toNat_two b b1
    generalize extend (b &&& 0x1F).toUInt32 b1 = cp at hv
    refine ⟨⟨cp, Or.inl (by rw [hv]; omega)⟩, ?_, rfl⟩
    simp only [String.utf8EncodeChar, hv]
    rw [if_neg (by omega), if_pos (by omega), ofNat_eq (b := b) (by omega),
      ofNat_eq (b := b1) (by omega)]
  | three hr h1 h2 =>
    rename_i b b1 b2 r
    have hb := range3_bounds hr
    have h2 := tail_bounds h2
    rw [belongs_iff, hb.2.2.1, hb.2.2.2] at h1
    have hv := toNat_three b b1 b2
    generalize extend (extend (b &&& 0xF).toUInt32 b1) b2 = cp at hv
    have hvalid : cp.toNat.isValidChar := by
      show _ < _ ∨ _ < _ ∧ _ < _
      rw [hv]
      split_ifs at h1 <;> omega
    have hrange : 0x7FF < cp.toNat ∧ cp.toNat ≤ 0xFFFF := by
      split_ifs at h1 <;> omega
    refine ⟨⟨cp, hvalid⟩, ?_, rfl⟩
    simp only [String.utf8EncodeChar]
    rw [if_neg (by omega), if_neg (by omega), if_pos (by omega), hv, ofNat_eq (b := b) (by omega),
      ofNat_eq (b := b1) (by split_ifs at h1 <;> omega), ofNat_eq (b := b2) (by omega)]
  | four hr h1 h2 h3 =>
    rename_i b b1 b2 b3 r
    have hb := range4_bounds hr
    have h2 := tail_bounds h2
    have h3 := tail_bounds h3
    rw [belongs_iff, hb.2.2.1, hb.2.2.2] at h1
    have hv := toNat_four b b1 b2 b3
    generalize extend (extend (extend (b &&& 0x7).toUInt32 b1) b2) b3 = cp at hv
    have hrange : 0xFFFF < cp.toNat ∧ cp.toNat < 0x110000 := by
      split_ifs at h1 <;> omega
    have hvalid : cp.toNat.isValidChar := Or.inr ⟨by omega, hrange.2⟩
    have h1' : 0x80 ≤ b1.toNat ∧ b1.toNat ≤ 0xBF := by split_ifs at h1 <;> omega
    refine ⟨⟨cp, hvalid⟩, ?_, rfl⟩
    simp only [String.utf8EncodeChar]
    rw [if_neg (by omega), if_neg (by omega), if_neg (by omega), hv, ofNat_eq (b := b) (by omega),
      ofNat_eq (b := b1) (by omega), ofNat_eq (b := b2) (by omega), ofNat_eq (b := b3) (by omega)]

theorem exists_byte {n : ℕ} (h : n < 256) : ∃ b : UInt8, UInt8.ofNat n = b ∧ b.toNat = n :=
  ⟨_, rfl, by rw [UInt8.toNat_ofNat']; omega⟩

theorem belongs_tail (h : 0x80 ≤ b.toNat ∧ b.toNat ≤ 0xBF) : belongs b 0x80 0xBF = true := by
  rw [belongs_iff]
  exact h

/-- **The encoding of a character** is a well-formed sequence. -/
theorem sequence_char (c : Char) : Sequence (String.utf8EncodeChar c) c.val := by
  have hvalid : c.val.toNat < 0xD800 ∨ 0xDFFF < c.val.toNat ∧ c.val.toNat < 0x110000 := c.valid
  generalize hn : c.val.toNat = n at hvalid
  have hcp : ∀ cp : UInt32, cp.toNat = n → cp = c.val := fun cp h =>
    UInt32.toNat_inj.mp (h.trans hn.symm)
  simp only [String.utf8EncodeChar, hn]
  split_ifs with h1 h2 h3
  · obtain ⟨b, hb, hbn⟩ := exists_byte (n := n) (by omega)
    rw [hb, ← hcp b.toUInt32 (by rw [UInt8.toNat_toUInt32, hbn])]
    refine .one (UInt8.lt_iff_toNat_lt.mpr ?_)
    show b.toNat < 0x80
    omega
  · obtain ⟨b, hb, hbn⟩ := exists_byte (n := n / 64 % 0x20 + 0xc0) (by omega)
    obtain ⟨b1, hb1, hbn1⟩ := exists_byte (n := n % 0x40 + 0x80) (by omega)
    obtain ⟨r, hr⟩ := exists_range2 (b := b) (by omega)
    have hrb := range2_bounds hr
    rw [hb, hb1, ← hcp _ ((toNat_two b b1).trans (by omega))]
    refine .two hr ?_
    rw [belongs_iff]
    omega
  · obtain ⟨b, hb, hbn⟩ := exists_byte (n := n / 4096 % 0x10 + 0xe0) (by omega)
    obtain ⟨b1, hb1, hbn1⟩ := exists_byte (n := n / 64 % 0x40 + 0x80) (by omega)
    obtain ⟨b2, hb2, hbn2⟩ := exists_byte (n := n % 0x40 + 0x80) (by omega)
    obtain ⟨r, hr⟩ := exists_range3 (b := b) (by omega)
    have hrb := range3_bounds hr
    rw [hb, hb1, hb2, ← hcp _ ((toNat_three b b1 b2).trans (by omega))]
    refine .three hr ?_ (belongs_tail (b := b2) (by omega))
    rw [belongs_iff, hrb.2.2.1, hrb.2.2.2]
    split_ifs <;> omega
  · obtain ⟨b, hb, hbn⟩ := exists_byte (n := n / 262144 % 0x08 + 0xf0) (by omega)
    obtain ⟨b1, hb1, hbn1⟩ := exists_byte (n := n / 4096 % 0x40 + 0x80) (by omega)
    obtain ⟨b2, hb2, hbn2⟩ := exists_byte (n := n / 64 % 0x40 + 0x80) (by omega)
    obtain ⟨b3, hb3, hbn3⟩ := exists_byte (n := n % 0x40 + 0x80) (by omega)
    obtain ⟨r, hr⟩ := exists_range4 (b := b) (by omega)
    have hrb := range4_bounds hr
    rw [hb, hb1, hb2, hb3, ← hcp _ ((toNat_four b b1 b2 b3).trans (by omega))]
    refine .four hr ?_ (belongs_tail (b := b2) (by omega)) (belongs_tail (b := b3) (by omega))
    rw [belongs_iff, hrb.2.2.1, hrb.2.2.2]
    split_ifs <;> omega

/-- **The validator accepts just the encodings of characters** and decodes them. -/
theorem Validator.Any.decode_eq_some_iff (hv : val.Any) :
    val.decode s = some l ↔
      ∃ cs : List Char, s = cs.flatMap String.utf8EncodeChar ∧ l = cs.map Char.val := by
  constructor
  · intro h
    induction hn : s.length using Nat.strong_induction_on generalizing s l with
    | h n ih =>
      cases s with
      | nil =>
        obtain rfl : [] = l := Option.some.inj h
        exact ⟨[], rfl, rfl⟩
      | cons b s =>
        obtain ⟨bs, cp, t, l', hseq, hs, rfl, hl'⟩ := hv.decode_cons.mp h
        obtain ⟨c, rfl, rfl⟩ := hseq.encodes
        have hlen : t.length < n := by
          have hpos := List.length_pos_iff.mpr (String.utf8EncodeChar_ne_nil (c := c))
          rw [← hn, hs, List.length_append]
          omega
        obtain ⟨cs, rfl, rfl⟩ := ih t.length hlen hl' rfl
        exact ⟨c :: cs, hs, rfl⟩
  · rintro ⟨cs, rfl, rfl⟩
    induction cs with
    | nil => rfl
    | cons c cs ih =>
      rw [List.flatMap_cons, List.map_cons]
      obtain ⟨b, bs, hb⟩ := List.exists_cons_of_ne_nil (String.utf8EncodeChar_ne_nil (c := c))
      rw [hb, List.cons_append]
      exact hv.decode_cons.mpr
        ⟨_, _, _, _, hb ▸ sequence_char c, rfl, rfl, ih⟩

end Build2.Libbutl.Utf8
