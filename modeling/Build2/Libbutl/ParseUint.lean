import Build2.Lib.Decimal
import Build2.Lib.Stateful

/-! # Reading unsigned numbers

`parse_uint64` of `standard-version.cxx` and the C library's `strtoull` it calls. `strtoull` skips
white space, takes a sign and reports a value that does not fit in 64 bits through the thread's
`errno`, which it otherwise leaves alone. -/

namespace Build2.Libbutl.ParseUint

open Build2.Lib.ByteString Build2.Lib.Decimal Build2.Lib.Stateful
  Build2.Lib.Stateful.Comp

/-- How a call ends when it does not return. -/
inductive Fault
  | invalidArgument (what : String)
  | logicError (what : String)
  | assertion
  deriving DecidableEq, Repr

/-- The values of `errno` that the code tells apart. -/
inductive Errno
  | zero
  | erange
  deriving DecidableEq, Repr

/-- A call made by a thread. -/
abbrev Call (α : Type) : Type := Comp Errno Fault α

/-- The outcome of a call made first in a fresh process. -/
def fresh {α : Type} (x : Call α) : Except Fault α := x.eval .zero

/-- What `strtoull` returns and where it stops. -/
structure Conversion where
  value : ℕ
  stop : Bytes
  overflow : Bool

/-- A sign. -/
def isSign (b : UInt8) : Bool := b = ch '-' || b = ch '+'

/-- `strtoull (b, &e, 10)`. -/
def strtoull (b : Bytes) : Conversion :=
  let t := b.dropWhile isSpace
  let u := if isSign (hd t) then t.tail else t
  let ds := u.takeWhile isDigit
  if ds = [] then ⟨0, b, false⟩
  else if 2 ^ 64 ≤ value ds then ⟨2 ^ 64 - 1, u.dropWhile isDigit, true⟩
  else
    ⟨if hd t = ch '-' then (2 ^ 64 - value ds) % 2 ^ 64 else value ds, u.dropWhile isDigit, false⟩

/-- `parse_uint64`: the number read at `s` and the position after it, or else `false`. -/
def parseUint64 (s : Bytes) (min max : ℕ) : Comp Errno Unit (ℕ × Bytes) := fun errno =>
  if isSign (hd s) then (.error (), errno)
  else
    let c := strtoull s
    let errno := if c.overflow then .erange else errno
    if errno = .erange ∨ c.stop = s ∨ c.value < min ∨ max < c.value then (.error (), errno)
    else (.ok (c.value, c.stop), errno)

/-- `parse_uint16`, with its default bounds where the call gives none. -/
def parseUint16 (s : Bytes) (min max : ℕ) : Comp Errno Unit (ℕ × Bytes) := parseUint64 s min max

/-- `parse_uint32`. -/
def parseUint32 (s : Bytes) (min max : ℕ) : Comp Errno Unit (ℕ × Bytes) := parseUint64 s min max

/-! ### The shape of a number -/

/-- What `strtoull` sees at a position: white space, a sign and digits, each possibly absent, and
what follows. -/
structure Shape (s sp sg ds r : Bytes) : Prop where
  split : s = sp ++ (sg ++ (ds ++ r))
  space : ∀ b ∈ sp, isSpace b = true
  sign : sg = [] ∨ sg = [ch '+'] ∨ sg = [ch '-']
  digits : ∀ d ∈ ds, isDigit d = true
  stop : Stops isDigit r
  first : Stops isSpace (sg ++ (ds ++ r))
  unsigned : sg = [] → isSign (hd (ds ++ r)) = false

theorem isSign_of_isDigit {b : UInt8} (h : isDigit b = true) : isSign b = false := by
  simp only [isSign, Bool.or_eq_false_iff, decide_eq_false_iff_not]
  exact ⟨ne_of_class h (by decide), ne_of_class h (by decide)⟩

theorem isSign_of_isSpace {b : UInt8} (h : isSpace b = true) : isSign b = false := by
  simp only [isSign, Bool.or_eq_false_iff, decide_eq_false_iff_not]
  exact ⟨ne_of_class h (by decide), ne_of_class h (by decide)⟩

theorem isSpace_of_isSign {b : UInt8} (h : isSign b = true) : isSpace b = false := by
  simp only [isSign, Bool.or_eq_true, decide_eq_true_eq] at h
  rcases h with rfl | rfl <;> decide

theorem isSign_sign {sg : Bytes} (h : sg = [ch '+'] ∨ sg = [ch '-']) :
    ∃ b, sg = [b] ∧ isSign b = true := by
  rcases h with rfl | rfl
  · exact ⟨_, rfl, by decide⟩
  · exact ⟨_, rfl, by decide⟩

theorem exists_shape (s : Bytes) : ∃ sp sg ds r, Shape s sp sg ds r := by
  obtain ⟨sp, t, rfl, hsp, ht⟩ := exists_run isSpace s
  by_cases hsg : isSign (hd t) = true
  · have hne : hd t ≠ 0 := by
      rintro h; rw [h] at hsg; revert hsg; decide
    have htl := eq_cons_of_hd rfl hne
    obtain ⟨ds, r, hu, hds, hr⟩ := exists_run isDigit t.tail
    refine ⟨sp, [hd t], ds, r, ⟨?_, hsp, ?_, hds, hr, ?_, fun h => absurd h (by simp)⟩⟩
    · rw [← hu, List.singleton_append, ← htl]
    · simp only [isSign, Bool.or_eq_true, decide_eq_true_eq] at hsg
      rcases hsg with h | h <;> rw [h] <;> simp
    · rw [← hu, List.singleton_append, ← htl]; exact ht
  · obtain ⟨ds, r, rfl, hds, hr⟩ := exists_run isDigit t
    exact ⟨sp, [], ds, r, ⟨rfl, hsp, Or.inl rfl, hds, hr, ht, fun _ => by simpa using hsg⟩⟩

section

variable {s sp sg ds r : Bytes}

theorem Shape.tail_eq (h : Shape s sp sg ds r) :
    (if isSign (hd (sg ++ (ds ++ r))) then (sg ++ (ds ++ r)).tail else sg ++ (ds ++ r)) =
      ds ++ r := by
  rcases h.sign with h0 | h1
  · subst h0
    simp [h.unsigned rfl]
  · obtain ⟨b, rfl, hb⟩ := isSign_sign h1
    simp [hb]

theorem Shape.neg_iff (h : Shape s sp sg ds r) :
    hd (sg ++ (ds ++ r)) = ch '-' ↔ sg = [ch '-'] := by
  rcases h.sign with h0 | h0 | h0
  · subst h0
    have := h.unsigned rfl
    simp only [isSign, Bool.or_eq_false_iff, decide_eq_false_iff_not] at this
    simp [this.1]
  · subst h0
    simp only [List.singleton_append, hd_cons]
    decide
  · subst h0; simp

/-- The value of a number of this shape. -/
def Shape.val (_ : Shape s sp sg ds r) : ℕ :=
  if sg = [ch '-'] then (2 ^ 64 - value ds) % 2 ^ 64 else value ds

theorem Shape.strtoull_eq (h : Shape s sp sg ds r) :
    strtoull s = if ds = [] then ⟨0, s, false⟩
      else if 2 ^ 64 ≤ value ds then ⟨2 ^ 64 - 1, r, true⟩
      else ⟨if sg = [ch '-'] then (2 ^ 64 - value ds) % 2 ^ 64 else value ds, r, false⟩ := by
  have hdrop : s.dropWhile isSpace = sg ++ (ds ++ r) := by
    rw [h.split]; exact dropWhile_run h.space h.first
  unfold strtoull
  simp only [hdrop, h.tail_eq, takeWhile_run h.digits h.stop, dropWhile_run h.digits h.stop,
    h.neg_iff]

theorem Shape.stop_ne (h : Shape s sp sg ds r) (hne : ds ≠ []) : r ≠ s := by
  intro he
  have hl := congrArg List.length h.split
  have := List.length_pos_iff.mpr hne
  rw [← he] at hl
  simp only [List.length_append] at hl
  omega

end

/-! ### What the parsers accept -/

/-- **A number as the code reads it**: digits, or digits after white space and an optional sign,
with the value `strtoull` gives them. -/
def LaxNumber (t : Bytes) (n : ℕ) : Prop :=
  ∃ sp sg ds, t = sp ++ (sg ++ ds) ∧ (∀ b ∈ sp, isSpace b = true) ∧
    (sg = [] ∨ sp ≠ [] ∧ (sg = [ch '+'] ∨ sg = [ch '-'])) ∧ Numeral ds ∧ value ds < 2 ^ 64 ∧
    n = if sg = [ch '-'] then (2 ^ 64 - value ds) % 2 ^ 64 else value ds

/-- **A number as the grammar has it**: a run of digits and its value. -/
def Number (t : Bytes) (n : ℕ) : Prop := Numeral t ∧ value t = n

theorem Number.lax {t : Bytes} {n : ℕ} (h : Number t n) (hn : n < 2 ^ 64) : LaxNumber t n :=
  ⟨[], [], t, rfl, by simp, Or.inl rfl, h.1, by rw [h.2]; exact hn, by simp [h.2]⟩

/-- How a number may start. -/
def isLead (b : UInt8) : Bool := isSpace b || isDigit b

theorem LaxNumber.lead {t : Bytes} {n : ℕ} (h : LaxNumber t n) : isLead (hd t) = true := by
  obtain ⟨sp, sg, ds, rfl, hsp, hsg, hds, -, -⟩ := h
  by_cases h0 : sp = []
  · obtain rfl : sg = [] := hsg.resolve_right fun h => h.1 h0
    obtain ⟨d, ds, rfl⟩ := List.exists_cons_of_ne_nil hds.1
    simp [h0, isLead, hds.2 d (by simp)]
  · obtain ⟨b, sp, rfl⟩ := List.exists_cons_of_ne_nil h0
    simp [isLead, hsp b (by simp)]

theorem LaxNumber.ne_nil {t : Bytes} {n : ℕ} (h : LaxNumber t n) : t ≠ [] := by
  rintro rfl
  exact absurd h.lead (by decide)

theorem LaxNumber.hd_append_ne {t : Bytes} {n : ℕ} (h : LaxNumber t n) (r : Bytes) {c : UInt8}
    (hc : isLead c = false) : hd (t ++ r) ≠ c := by
  rw [hd_append h.ne_nil]
  exact ne_of_class h.lead hc

theorem number_decimal (n : ℕ) : Number (decimal n) n := ⟨numeral_decimal n, value_decimal n⟩

theorem Number.solid {t : Bytes} {n : ℕ} (h : Number t n) : ∀ b ∈ t, isSpace b = false :=
  fun b hb => isSpace_of_isDigit (h.1.2 b hb)

theorem LaxNumber.number {t : Bytes} {n : ℕ} (h : LaxNumber t n)
    (ht : ∀ b ∈ t, isSpace b = false) : Number t n := by
  obtain ⟨sp, sg, ds, rfl, hsp, hsg, hds, -, hn⟩ := h
  have hsp0 : sp = [] := by
    cases sp with
    | nil => rfl
    | cons b sp => exact absurd (hsp b (by simp)) (by rw [ht b (by simp)]; nofun)
  obtain rfl : sg = [] := hsg.resolve_right fun h => h.1 hsp0
  subst hsp0
  exact ⟨hds, by simpa using hn.symm⟩

theorem LaxNumber.numeral {t : Bytes} {n : ℕ} (h : LaxNumber t n) (hd : isDigit (hd t) = true) :
    Numeral t := by
  obtain ⟨sp, sg, ds, rfl, hsp, hsg, hds, -, -⟩ := h
  cases sp with
  | nil =>
    obtain rfl : sg = [] := hsg.resolve_right fun h => h.1 rfl
    exact hds
  | cons b sp =>
    have := hsp b (by simp)
    rw [show isSpace b = false from isSpace_of_isDigit hd] at this
    cases this

/-- Skipping blanks in front of a number leaves a number, or else a sign and digits. -/
theorem LaxNumber.dropBlanks {t : Bytes} {n : ℕ} (h : LaxNumber t n) (r : Bytes) :
    (isBlank (hd t) = true ∧ ∃ b ds, isSign b = true ∧ Numeral ds ∧
        (t ++ r).dropWhile isBlank = b :: (ds ++ r)) ∨
      ∃ t', LaxNumber t' n ∧ (t ++ r).dropWhile isBlank = t' ++ r := by
  obtain ⟨sp, sg, ds, rfl, hsp, hsg, hds, hlt, hn⟩ := h
  obtain ⟨bl, sp', rfl, hbl, hsp'⟩ := exists_run isBlank sp
  have hdig : isDigit (hd (ds ++ r)) = true := by
    rw [hd_append hds.1]
    exact hds.isDigit_hd
  have hdrop : ∀ u, Stops isBlank u → (bl ++ u).dropWhile isBlank = u := fun u hu =>
    dropWhile_run hbl hu
  cases sp' with
  | cons b sp' =>
    refine Or.inr ⟨b :: sp' ++ (sg ++ ds), ⟨b :: sp', sg, ds, rfl, fun b' hb' => hsp b' (by
      rw [List.mem_append]; exact Or.inr hb'), ?_, hds, hlt, hn⟩, ?_⟩
    · exact hsg.imp_right fun h => ⟨nofun, h.2⟩
    · simpa using hdrop (b :: sp' ++ (sg ++ ds) ++ r) (stops_cons.mpr (stops_cons.mp hsp'))
  | nil =>
    rcases hsg with rfl | ⟨hne, h1⟩
    · refine Or.inr ⟨ds, ⟨[], [], ds, rfl, by simp, Or.inl rfl, hds, hlt, hn⟩, ?_⟩
      have hu := hdrop (ds ++ r) (stops_of_hd (isBlank_of_not_isSpace (isSpace_of_isDigit hdig)))
      simpa using hu
    · obtain ⟨b, rfl, hb⟩ := isSign_sign h1
      have hu := hdrop (b :: (ds ++ r))
        (stops_cons.mpr (isBlank_of_not_isSpace (isSpace_of_isSign hb)))
      obtain ⟨a, bl, rfl⟩ := List.exists_cons_of_ne_nil (by simpa using hne : bl ≠ [])
      refine Or.inl ⟨hbl a (by simp), b, ds, hb, hds, ?_⟩
      have he : a :: bl ++ [] ++ ([b] ++ ds) ++ r = a :: bl ++ b :: (ds ++ r) := by simp
      rw [he, hu]

theorem steady_parseUint64 (s : Bytes) (min max : ℕ) : Steady .zero (parseUint64 s min max) := by
  intro e n e' h
  unfold parseUint64 at h ⊢
  by_cases h1 : isSign (hd s) = true
  · rw [if_pos h1] at h; cases h
  rw [if_neg h1] at h ⊢
  -- an overflow would have left `ERANGE` behind
  by_cases h2 : (strtoull s).overflow = true
  · simp [h2] at h
  by_cases h3 : e = .erange
  · simp [h2, h3] at h
  simp only [h2, h3, Bool.false_eq_true, if_false, false_or, reduceCtorEq] at h ⊢
  split_ifs at h ⊢
  · cases h
  · rw [Prod.mk.injEq] at h
    rw [h.1]

theorem Shape.parseUint64_eq {s sp sg ds r : Bytes} (h : Shape s sp sg ds r) (min max : ℕ) :
    (parseUint64 s min max).eval .zero =
      if isSign (hd s) = true ∨ ds = [] ∨ 2 ^ 64 ≤ value ds ∨ h.val < min ∨ max < h.val then
        .error ()
      else .ok (h.val, r) := by
  unfold Comp.eval parseUint64
  rw [h.strtoull_eq]
  by_cases h1 : isSign (hd s) = true
  · simp [h1]
  by_cases h2 : ds = []
  · simp [h1, h2]
  have hv : (if sg = [ch '-'] then (2 ^ 64 - value ds) % 2 ^ 64 else value ds) = h.val := rfl
  by_cases h3 : 2 ^ 64 ≤ value ds
  · rw [if_pos (Or.inr (Or.inr (Or.inl h3))), if_neg h1, if_neg h2, if_pos h3]
    rfl
  simp only [h1, h2, h3, hv, h.stop_ne h2, if_false, false_or, reduceCtorEq, Bool.false_eq_true]
  split_ifs <;> rfl

/-- White space, a sign that is not in front of everything, and digits. -/
def IsScanned (sp sg ds : Bytes) : Prop :=
  (∀ b ∈ sp, isSpace b = true) ∧ (sg = [] ∨ sp ≠ [] ∧ (sg = [ch '+'] ∨ sg = [ch '-'])) ∧ Numeral ds

theorem IsScanned.shape {sp sg ds r : Bytes} (h : IsScanned sp sg ds) (hr : Stops isDigit r) :
    Shape (sp ++ (sg ++ ds) ++ r) sp sg ds r ∧ ¬ isSign (hd (sp ++ (sg ++ ds) ++ r)) = true := by
  obtain ⟨hsp, hsg, hds⟩ := h
  have hdig : isDigit (hd (ds ++ r)) = true := by
    rw [hd_append hds.1]
    exact hds.isDigit_hd
  constructor
  · refine ⟨by simp, hsp, by tauto, hds.2, hr, ?_, fun _ => isSign_of_isDigit hdig⟩
    rcases hsg with rfl | ⟨-, h1⟩
    · exact stops_of_hd (isSpace_of_isDigit hdig)
    · obtain ⟨b, rfl, hb⟩ := isSign_sign h1
      simpa using isSpace_of_isSign hb
  · by_cases hsp0 : sp = []
    · obtain rfl : sg = [] := hsg.resolve_right fun h => h.1 hsp0
      simp [hsp0, isSign_of_isDigit hdig]
    · obtain ⟨b, sp, rfl⟩ := List.exists_cons_of_ne_nil hsp0
      simp [isSign_of_isSpace (hsp b (by simp))]

/-- A sign in front of everything is rejected before anything is scanned. -/
theorem Shape.isScanned {s sp sg ds r : Bytes} (h : Shape s sp sg ds r)
    (h1 : ¬ isSign (hd s) = true) (h2 : ds ≠ []) : IsScanned sp sg ds := by
  refine ⟨h.space, ?_, h2, h.digits⟩
  rcases h.sign with h0 | h0
  · exact Or.inl h0
  · refine Or.inr ⟨?_, h0⟩
    rintro rfl
    obtain ⟨b, rfl, hb⟩ := isSign_sign h0
    rw [h.split] at h1
    exact h1 (by simpa using hb)

/-- **What `parse_uint64` accepts** when `errno` is zero. -/
theorem parseUint64_eq_ok {s : Bytes} {min max n : ℕ} {r : Bytes} :
    (parseUint64 s min max).eval .zero = .ok (n, r) ↔
      ∃ t, s = t ++ r ∧ LaxNumber t n ∧ min ≤ n ∧ n ≤ max ∧ Stops isDigit r := by
  constructor
  · intro h
    obtain ⟨sp, sg, ds, r', hs⟩ := exists_shape s
    rw [hs.parseUint64_eq] at h
    split_ifs at h with hc
    obtain ⟨rfl, rfl⟩ : hs.val = n ∧ r' = r := by simpa using h
    simp only [not_or, not_le, not_lt] at hc
    obtain ⟨h1, h2, h3, h4, h5⟩ := hc
    obtain ⟨h6, h7, h8⟩ := hs.isScanned h1 h2
    exact ⟨sp ++ (sg ++ ds), by rw [hs.split]; simp, ⟨sp, sg, ds, rfl, h6, h7, h8, h3, rfl⟩, h4, h5,
      hs.stop⟩
  · rintro ⟨_, rfl, ⟨sp, sg, ds, rfl, hsp, hsg, hds, hlt, rfl⟩, hmin, hmax, hr⟩
    obtain ⟨hs, hsign⟩ := IsScanned.shape ⟨hsp, hsg, hds⟩ hr
    rw [hs.parseUint64_eq, if_neg]
    · rfl
    simp only [not_or, not_le, not_lt]
    exact ⟨hsign, hds.1, hlt, hmin, hmax⟩

/-! ### Numbers that do not fit -/

/-- A number that does not fit in 64 bits. -/
def Excess (t : Bytes) : Prop :=
  ∃ sp sg ds, t = sp ++ (sg ++ ds) ∧ IsScanned sp sg ds ∧ 2 ^ 64 ≤ value ds

/-- **A number that does not fit starts here.** -/
def Overruns (s : Bytes) : Prop := ∃ t r, s = t ++ r ∧ Excess t ∧ Stops isDigit r

theorem Overruns.lead {s : Bytes} (h : Overruns s) : isLead (hd s) = true := by
  obtain ⟨_, r, rfl, ⟨sp, sg, ds, rfl, ⟨hsp, hsg, hds⟩, -⟩, -⟩ := h
  by_cases h0 : sp = []
  · obtain rfl : sg = [] := hsg.resolve_right fun h => h.1 h0
    obtain ⟨d, ds, rfl⟩ := List.exists_cons_of_ne_nil hds.1
    simp [h0, isLead, hds.2 d (by simp)]
  · obtain ⟨b, sp, rfl⟩ := List.exists_cons_of_ne_nil h0
    simp [isLead, hsp b (by simp)]

/-- **`parse_uint64` leaves `ERANGE` behind at a number that does not fit.** -/
theorem spoils_parseUint64 {s : Bytes} {min max : ℕ} :
    Spoils .zero (parseUint64 s min max) ↔ Overruns s := by
  have key : Spoils .zero (parseUint64 s min max) ↔
      ¬ isSign (hd s) = true ∧ (strtoull s).overflow = true := by
    unfold Spoils parseUint64
    by_cases h1 : isSign (hd s) = true
    · simp [h1]
    by_cases h2 : (strtoull s).overflow = true
    · simp [h1, h2]
    · simp only [h1, h2]
      split_ifs <;> simp
  rw [key]
  constructor
  · rintro ⟨h1, h2⟩
    obtain ⟨sp, sg, ds, r, hs⟩ := exists_shape s
    rw [hs.strtoull_eq] at h2
    split_ifs at h2 with h3 h4
    exact ⟨sp ++ (sg ++ ds), r, by rw [hs.split]; simp,
      ⟨sp, sg, ds, rfl, hs.isScanned h1 h3, h4⟩, hs.stop⟩
  · rintro ⟨_, r, rfl, ⟨sp, sg, ds, rfl, hsc, hge⟩, hr⟩
    obtain ⟨hs, hsign⟩ := hsc.shape hr
    rw [hs.strtoull_eq, if_neg hsc.2.2.1, if_pos hge]
    exact ⟨hsign, rfl⟩

/-- Once `ERANGE` is there, nothing is a number. -/
theorem parseUint64_erange (s : Bytes) (min max : ℕ) :
    parseUint64 s min max .erange = (.error (), .erange) := by
  unfold parseUint64
  split_ifs <;> simp_all

end Build2.Libbutl.ParseUint
