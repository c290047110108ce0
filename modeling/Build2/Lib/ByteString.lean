import Mathlib.Data.List.Basic
import Mathlib.Data.List.TakeWhile

/-! # Byte strings

A C++ string is a list of bytes, and a position in it is the suffix that starts there: `s[p]` is
`hd`, the terminating NUL included. A scanner that reads a maximal run of a class of bytes splits
the suffix at the first byte that `Stops` the class. -/

namespace Build2.Lib.ByteString

/-- A string of bytes. -/
abbrev Bytes := List UInt8

/-- The byte of an ASCII character. -/
def ch (c : Char) : UInt8 := c.toUInt8

/-- The bytes of an ASCII text. -/
def str (cs : List Char) : Bytes := cs.map ch

-- What is said of the bytes of a string is decided byte by byte, not by running over all bytes.
instance (priority := 2000) decidableForallByte {P : UInt8 → Prop} [DecidablePred P] (s : Bytes) :
    Decidable (∀ c ∈ s, P c) := List.decidableBAll P s

instance (priority := 2000) decidableForallLast {P : UInt8 → Prop} [DecidablePred P]
    (o : Option UInt8) : Decidable (∀ c ∈ o, P c) := Option.decidableForallMem o

/-- The byte at a position: the head of the suffix, NUL at the end. -/
def hd (s : Bytes) : UInt8 := s.headD 0

@[simp] theorem hd_nil : hd [] = 0 := rfl

@[simp] theorem hd_cons (b : UInt8) (s : Bytes) : hd (b :: s) = b := rfl

theorem hd_append {s : Bytes} (h : s ≠ []) (t : Bytes) : hd (s ++ t) = hd s := by
  obtain ⟨b, s, rfl⟩ := List.exists_cons_of_ne_nil h
  rfl

theorem eq_cons_of_hd {s : Bytes} {b : UInt8} (h : hd s = b) (hb : b ≠ 0) : s = b :: s.tail := by
  cases s with
  | nil => exact absurd h.symm hb
  | cons a s => rw [← h]; rfl

/-! ### Classes of bytes -/

/-- `isspace`. -/
def isSpace (b : UInt8) : Bool := b = ch ' ' || (9 ≤ b && b ≤ 13)

/-- A space or a tab. -/
def isBlank (b : UInt8) : Bool := b = ch ' ' || b = ch '\t'

/-- `isdigit`. -/
def isDigit (b : UInt8) : Bool := ch '0' ≤ b && b ≤ ch '9'

/-- `isalpha`. -/
def isAlpha (b : UInt8) : Bool := (ch 'a' ≤ b && b ≤ ch 'z') || (ch 'A' ≤ b && b ≤ ch 'Z')

/-- `isalnum`. -/
def isAlnum (b : UInt8) : Bool := isAlpha b || isDigit b

/-- `tolower`. -/
def toLower (b : UInt8) : UInt8 := if ch 'A' ≤ b && b ≤ ch 'Z' then b + 32 else b

theorem isAlnum_of_isDigit {b : UInt8} (h : isDigit b = true) : isAlnum b = true := by
  simp [isAlnum, h]

theorem toNat_le_of_isSpace {b : UInt8} (h : isSpace b = true) : b.toNat ≤ 32 := by
  simp only [isSpace, Bool.or_eq_true, Bool.and_eq_true, decide_eq_true_eq,
    UInt8.le_iff_toNat_le] at h
  have h13 : (13 : UInt8).toNat = 13 := rfl
  rcases h with rfl | h
  · decide
  · omega

theorem le_toNat_of_isAlnum {b : UInt8} (h : isAlnum b = true) : 48 ≤ b.toNat := by
  simp only [isAlnum, isAlpha, isDigit, Bool.or_eq_true, Bool.and_eq_true, decide_eq_true_eq,
    UInt8.le_iff_toNat_le] at h
  have h0 : (ch '0').toNat = 48 := rfl
  have ha : (ch 'a').toNat = 97 := rfl
  have hA : (ch 'A').toNat = 65 := rfl
  omega

theorem isSpace_of_isAlnum {b : UInt8} (h : isAlnum b = true) : isSpace b = false := by
  by_contra hs
  have := toNat_le_of_isSpace (eq_true_of_ne_false hs)
  have := le_toNat_of_isAlnum h
  omega

theorem isSpace_of_isDigit {b : UInt8} (h : isDigit b = true) : isSpace b = false :=
  isSpace_of_isAlnum (isAlnum_of_isDigit h)

theorem isSpace_of_isBlank {b : UInt8} (h : isBlank b = true) : isSpace b = true := by
  simp only [isBlank, Bool.or_eq_true, decide_eq_true_eq] at h
  rcases h with rfl | rfl <;> decide

theorem isBlank_of_not_isSpace {b : UInt8} (h : isSpace b = false) : isBlank b = false := by
  by_contra hb
  rw [isSpace_of_isBlank (eq_true_of_ne_false hb)] at h
  cases h

theorem ne_of_class {p : UInt8 → Bool} {b c : UInt8} (hb : p b = true) (hc : p c = false) :
    b ≠ c := by
  rintro rfl
  rw [hb] at hc
  cases hc

/-! ### Maximal runs -/

section Runs

variable {α : Type} {p : α → Bool}

/-- The list does not go on with the class. -/
def Stops (p : α → Bool) (t : List α) : Prop := ∀ b ∈ t.head?, p b = false

@[simp] theorem stops_nil : Stops p [] := by simp [Stops]

@[simp] theorem stops_cons {b : α} {t : List α} : Stops p (b :: t) ↔ p b = false := by
  simp [Stops]

theorem takeWhile_run {s t : List α} (hs : ∀ b ∈ s, p b = true) (ht : Stops p t) :
    (s ++ t).takeWhile p = s := by
  rw [List.takeWhile_append_of_pos hs]
  cases t with
  | nil => simp
  | cons b t => simp [stops_cons.mp ht]

theorem dropWhile_run {s t : List α} (hs : ∀ b ∈ s, p b = true) (ht : Stops p t) :
    (s ++ t).dropWhile p = t := by
  rw [List.dropWhile_append_of_pos hs]
  cases t with
  | nil => rfl
  | cons b t => simp [stops_cons.mp ht]

theorem stops_dropWhile (s : List α) : Stops p (s.dropWhile p) := by
  intro b hb
  have h := List.head?_dropWhile_not p s
  rw [Option.mem_def.mp hb] at h
  exact h

/-- Every list is a run and a rest that stops it. -/
theorem exists_run (p : α → Bool) (s : List α) :
    ∃ r t, s = r ++ t ∧ (∀ b ∈ r, p b = true) ∧ Stops p t :=
  ⟨s.takeWhile p, s.dropWhile p, List.takeWhile_append_dropWhile.symm,
    fun _ hb => List.mem_takeWhile_imp hb, stops_dropWhile s⟩

theorem dropWhile_of_stops {t : List α} (ht : Stops p t) : t.dropWhile p = t := by
  simpa using dropWhile_run (s := []) (by simp) ht

end Runs

theorem stops_of_hd {p : UInt8 → Bool} {t : Bytes} (h : p (hd t) = false) : Stops p t := by
  cases t with
  | nil => simp
  | cons b t => simpa using h

end Build2.Lib.ByteString
