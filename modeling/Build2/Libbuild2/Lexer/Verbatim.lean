import Build2.Libbuild2.Lexer.Foreign

/-! # Foreign blocks are verbatim

The lines of closing braces are described on the text that the scanner delivers (`Closes`,
`Splits`). Each loop of the lexer is followed on the text that is still to come: the character in
hand and what the scanner gives after it (`Pending`). -/

namespace Build2.Libbuild2.Lexer

open Build2.Lib.ByteString Build2.Libbutl.Utf8 Build2.Libbutl.CharScanner

/-! ### Lines of closing braces -/

/-- A newline, a comment or the end of the input. -/
def AtEnd (r : Result) (t : Bytes) : Prop :=
  (t = [] ∧ r = .eos) ∨ ∃ u, t = lf :: u ∨ t = ch '#' :: u

/-- The text starts with a line of `n` closing braces, and goes on with `after`. -/
def Closes (n : ℕ) (r : Result) (t after : Bytes) : Prop :=
  ∃ a b, t = a ++ (List.replicate n (ch '}') ++ (b ++ after)) ∧
    (∀ x ∈ a, isBlank x = true) ∧ (∀ x ∈ b, isBlank x = true) ∧ AtEnd r after

/-- The position behind `p` is the first of a line, for a text that starts at one or not. -/
def LineStart (first : Bool) (p : Bytes) : Prop :=
  (p.getLast?.map fun b => decide (b = lf)).getD first = true

/-- The first line of closing braces comes behind `body`, and `after` is what follows it. -/
structure Splits (n : ℕ) (r : Result) (first : Bool) (t body after : Bytes) : Prop where
  split : ∃ rest, t = body ++ rest ∧ Closes n r rest after
  start : LineStart first body
  least : ∀ p q, t = p ++ q → p.length < body.length → LineStart first p → ∀ a, ¬Closes n r q a

section Lines

variable {n : ℕ} {r : Result} {first : Bool} {b : UInt8} {t u w body after : Bytes}

theorem isBlank_brace : isBlank (ch '}') = false := by decide

theorem stops_atEnd (h : AtEnd r t) : Stops isBlank t := by
  rcases h with ⟨rfl, -⟩ | ⟨u, rfl | rfl⟩
  · exact stops_nil
  · exact stops_cons.mpr (by decide)
  · exact stops_cons.mpr (by decide)

/-- A line of closing braces is found by skipping blanks. -/
theorem closes_iff (hn : n ≠ 0) : Closes n r t after ↔
    ∃ v, t.dropWhile isBlank = List.replicate n (ch '}') ++ v ∧ after = v.dropWhile isBlank ∧
      AtEnd r after := by
  constructor
  · rintro ⟨a, b, rfl, ha, hb, he⟩
    have hstop : Stops isBlank (List.replicate n (ch '}') ++ (b ++ after)) := by
      obtain ⟨k, rfl⟩ := Nat.exists_eq_succ_of_ne_zero hn
      exact stops_cons.mpr isBlank_brace
    exact ⟨b ++ after, dropWhile_run ha hstop, (dropWhile_run hb (stops_atEnd he)).symm, he⟩
  · rintro ⟨v, ht, rfl, he⟩
    refine ⟨t.takeWhile isBlank, v.takeWhile isBlank, ?_, fun x hx => List.mem_takeWhile_imp hx,
      fun x hx => List.mem_takeWhile_imp hx, he⟩
    rw [List.takeWhile_append_dropWhile, ← ht, List.takeWhile_append_dropWhile]

theorem Closes.unique (hn : n ≠ 0) {a : Bytes} (h : Closes n r t after) (h' : Closes n r t a) :
    after = a := by
  obtain ⟨v, hv, rfl, -⟩ := (closes_iff hn).mp h
  obtain ⟨v', hv', rfl, -⟩ := (closes_iff hn).mp h'
  rw [hv, List.append_cancel_left_eq] at hv'
  rw [hv']

theorem not_closes_nil (hn : n ≠ 0) : ¬ Closes n r [] after := by
  rintro ⟨a, b, h, -⟩
  have h1 := List.append_eq_nil_iff.mp h.symm
  have h2 := (List.append_eq_nil_iff.mp h1.2).1
  exact hn (by simpa using h2)

theorem lineStart_cons : LineStart first (b :: w) ↔ LineStart (decide (b = lf)) w := by
  unfold LineStart
  cases w with
  | nil => rfl
  | cons c w =>
    rw [List.getLast?_cons_cons, List.getLast?_eq_some_getLast (List.cons_ne_nil c w)]
    rfl

/-- No character is in a line of closing braces where the text does not start with one. -/
theorem splits_cons (hno : ¬ (first = true ∧ ∃ a, Closes n r (b :: t) a)) :
    Splits n r first (b :: t) body after ↔
      ∃ body', body = b :: body' ∧ Splits n r (decide (b = lf)) t body' after := by
  constructor
  · rintro ⟨⟨rest, hrest, hc⟩, hstart, hleast⟩
    cases body with
    | nil =>
      obtain rfl : b :: t = rest := hrest
      exact absurd ⟨hstart, after, hc⟩ hno
    | cons x body' =>
      obtain ⟨rfl, rfl⟩ := List.cons.inj hrest
      refine ⟨body', rfl, ⟨rest, rfl, hc⟩, lineStart_cons.mp hstart, fun p q hpq hlt hp => ?_⟩
      exact hleast (b :: p) q (by rw [hpq]; rfl) (Nat.succ_lt_succ hlt) (lineStart_cons.mpr hp)
  · rintro ⟨body', rfl, ⟨rest, rfl, hc⟩, hstart, hleast⟩
    refine ⟨⟨rest, rfl, hc⟩, lineStart_cons.mpr hstart, fun p q hpq hlt hp a ha => ?_⟩
    cases p with
    | nil =>
      obtain rfl : b :: (body' ++ rest) = q := hpq
      exact hno ⟨hp, a, ha⟩
    | cons x p =>
      obtain ⟨rfl, hpq'⟩ := List.cons.inj hpq
      exact hleast p q hpq' (Nat.lt_of_succ_lt_succ hlt) (lineStart_cons.mp hp) a ha

theorem not_splits_nil (hn : n ≠ 0) : ¬ Splits n r first [] body after := by
  rintro ⟨⟨rest, hrest, hc⟩, -⟩
  rw [(List.append_eq_nil_iff.mp hrest.symm).2] at hc
  exact not_closes_nil hn hc

theorem splits_append (hn : n ≠ 0) (hno : ¬ (first = true ∧ ∃ a, Closes n r (w ++ t) a))
    (hw : ∀ x ∈ w, x ≠ lf) :
    Splits n r first (w ++ t) body after ↔
      ∃ body', body = w ++ body' ∧ Splits n r false t body' after := by
  induction w generalizing first body with
  | nil =>
    have hfalse : Splits n r first t body after ↔ Splits n r false t body after := by
      cases t with
      | nil => exact iff_of_false (not_splits_nil hn) (not_splits_nil hn)
      | cons b t => rw [splits_cons hno, splits_cons fun h => by cases h.1]
    rw [List.nil_append, hfalse]
    exact ⟨fun h => ⟨body, rfl, h⟩, fun ⟨_, hb, h⟩ => by rw [hb]; exact h⟩
  | cons x w ih =>
    have hx : decide (x = lf) = false := decide_eq_false (hw x List.mem_cons_self)
    have hno' : ¬ (first = true ∧ ∃ a, Closes n r (x :: (w ++ t)) a) := hno
    rw [List.cons_append, splits_cons hno']
    constructor
    · rintro ⟨body', rfl, h⟩
      rw [hx, ih (fun h => by cases h.1) fun y hy => hw y (List.mem_cons_of_mem _ hy)] at h
      obtain ⟨body'', rfl, h⟩ := h
      exact ⟨body'', rfl, h⟩
    · rintro ⟨body', rfl, h⟩
      refine ⟨w ++ body', rfl, ?_⟩
      rw [hx, ih (fun h => by cases h.1) fun y hy => hw y (List.mem_cons_of_mem _ hy)]
      exact ⟨body', rfl, h⟩

end Lines

/-! ### Getting and peeking -/

/-- The text still to come: the character in hand, and what the scanner gives after it. -/
inductive Pending (r : Result) : XChar → Scanner → Bytes → Prop
  | ended {c : XChar} {s : Scanner} : c.result = .eos → r = .eos → Pending r c s []
  | char {c : XChar} {s : Scanner} {b : UInt8} {t : Bytes} : c.result = .char b → s.Sound →
      s.view.Gives t r → Pending r c s (b :: t)

/-- An invalid character has been reached. -/
def Fails {α : Type} (x : Except Fault α) : Prop :=
  ∃ what line column, x = .error (.failed what line column)

section Calls

variable {r : Result} {c : XChar} {s : Scanner} {b : UInt8} {t : Bytes}

theorem eos_of_char (h : c.result = .char b) : c.eos = false :=
  eq_false_of_ne_true fun he => by
    rw [(Scanner.eos_eq c).mp he] at h
    cases h

end Calls

/-! ### The loops -/

section Loops

variable {r : Result}

/-- What the loop over the characters has to come to. -/
structure Reads (n : ℕ) (r : Result) (first : Bool) (t lexeme : Bytes) (x : Except Fault Block) :
    Prop where
  closed : ∀ body after, Splits n r first t body after → ∃ line column s,
    x = .ok (.closed (lexeme ++ body) line column s) ∧ s.Sound ∧ s.view.Gives after r
  unclosed : (¬ ∃ body after, Splits n r first t body after) → r = .eos →
    ∃ c s, x = .ok (.unclosed c s)
  invalid : (¬ ∃ body after, Splits n r first t body after) → r = .invalid → Fails x

/-- Behind characters of a line that is no line of closing braces. -/
theorem Reads.append {n : ℕ} {first : Bool} {w t lexeme : Bytes} {x : Except Fault Block}
    (hn : n ≠ 0) (hno : ¬ (first = true ∧ ∃ a, Closes n r (w ++ t) a)) (hw : ∀ b ∈ w, b ≠ lf)
    (h : Reads n r false t (lexeme ++ w) x) : Reads n r first (w ++ t) lexeme x where
  closed body after hs := by
    obtain ⟨body', rfl, hs'⟩ := (splits_append hn hno hw).mp hs
    rw [← List.append_assoc]
    exact h.closed body' after hs'
  unclosed hs := h.unclosed fun ⟨body, after, hs'⟩ =>
    hs ⟨_, after, (splits_append hn hno hw).mpr ⟨body, rfl, hs'⟩⟩
  invalid hs := h.invalid fun ⟨body, after, hs'⟩ =>
    hs ⟨_, after, (splits_append hn hno hw).mpr ⟨body, rfl, hs'⟩⟩

theorem Reads.cons {n : ℕ} {b : UInt8} {t lexeme : Bytes} {x : Except Fault Block}
    (h : Reads n r (decide (b = lf)) t (lexeme ++ [b]) x) : Reads n r false (b :: t) lexeme x where
  closed body after hs := by
    obtain ⟨body', rfl, hs'⟩ := (splits_cons fun h => by cases h.1).mp hs
    rw [List.append_cons]
    exact h.closed body' after hs'
  unclosed hs := h.unclosed fun ⟨body, after, hs'⟩ =>
    hs ⟨_, after, (splits_cons fun h => by cases h.1).mpr ⟨body, rfl, hs'⟩⟩
  invalid hs := h.invalid fun ⟨body, after, hs'⟩ =>
    hs ⟨_, after, (splits_cons fun h => by cases h.1).mpr ⟨body, rfl, hs'⟩⟩

theorem Reads.nil {n : ℕ} {first : Bool} {lexeme : Bytes} {x : Except Fault Block} (hn : n ≠ 0)
    (ho : r = .eos → ∃ c s, x = .ok (.unclosed c s)) (hi : r = .invalid → Fails x) :
    Reads n r first [] lexeme x where
  closed _ _ h := absurd h (not_splits_nil hn)
  unclosed _ := ho
  invalid _ := hi

end Loops

/-! ### The call -/

/-- The scanner of a lexer over the bytes of a stream. -/
def scan (bytes : Bytes) : Scanner := Scanner.open' (.ofBytes bytes) lexerValidator true

end Build2.Libbuild2.Lexer
