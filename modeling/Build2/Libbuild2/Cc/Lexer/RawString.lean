import Build2.Lib.Occurrence
import Build2.Libbuild2.Cc.Lexer.Characters

/-! # Raw string literals

`cc::lexer` at a raw string literal: its prefix, its delimiter, the raw characters up to the first
terminator and the suffix. The raw characters are read as documented unless one of them is a byte
0xFF that the scanner takes for the end of the stream. -/

namespace Build2.Libbuild2.Cc

open Build2.Lib.ByteString Build2.Lib.Occurrence Build2.Libbutl.CharScanner

/-- A failure with its location. -/
structure Failure where
  line : ℕ
  column : ℕ
  what : String

/-- The characters of an identifier, those that `char_flags` has. -/
def identifierChar (c : UInt8) : Bool := isAlnum c || c = ch '_'

theorem ne_zero_of_identifierChar {c : UInt8} (h : identifierChar c = true) : c ≠ 0 := by
  rintro rfl
  exact absurd h (by decide)

theorem ne_backslash_of_identifierChar {c : UInt8} (h : identifierChar c = true) :
    c ≠ ch '\\' := by
  rintro rfl
  exact absurd h (by decide)

namespace Lexer

/-! ### The prefix -/

/-- The identifier characters that the get area begins with, got at once. -/
def identifierBuffer (s : Lexer) : Bytes × Lexer :=
  let w := s.scanner.fast.takeWhile identifierChar
  (w, { s with
    scanner := { s.scanner with
      stream := { s.scanner.stream with
        area := s.scanner.stream.area.drop w.length
        offset := s.scanner.stream.offset + w.length }
      column := s.scanner.column + w.length }
    cs := s.cs ++ w })

theorem left_identifierBuffer (s : Lexer) : s.identifierBuffer.2.left ≤ s.left := by
  unfold identifierBuffer left rest Stream.rest
  simp only [List.length_append, List.length_drop]
  omega

/-- The rest of an identifier, and the character behind it. -/
def identifier (id : Bytes) (s : Lexer) : Bytes × XChar × Lexer :=
  let c := (s.peek true).1
  let buffer := ((s.peek true).2.gethPeeked c).identifierBuffer
  if identifierChar c.char then buffer.2.identifier (id ++ [c.char] ++ buffer.1)
  else (id, c, (s.peek true).2)
termination_by s.left
decreasing_by
  rename_i h
  have hc := eos_of_char (c := (s.peek true).1) rfl (ne_zero_of_identifierChar h)
  exact (left_identifierBuffer _).trans_lt (left_peek true s hc)

/-- The letter of a raw string, behind `i` characters of a prefix. -/
def rawLetter (id : Bytes) (c : UInt8) (i : ℕ) : ℕ × Bool :=
  if c = ch '"' ∧ i < id.length ∧ id.getD i 0 = ch 'R' then (i + 1, true) else (i, false)

/-- How many characters of an identifier before a quote are a prefix of a literal, and whether the
literal is a raw string. -/
def literalPrefix (id : Bytes) (c : UInt8) : ℕ × Bool :=
  if hd id = ch 'u' then rawLetter id c (if 1 < id.length ∧ id.getD 1 0 = ch '8' then 2 else 1)
  else if hd id = ch 'L' ∨ hd id = ch 'U' then rawLetter id c 1
  else if hd id = ch 'R' ∧ c = ch '"' then (1, true)
  else (0, false)

theorem rawLetter_iff {id : Bytes} {i : ℕ} : rawLetter id (ch '"') i = (id.length, true) ↔
    i + 1 = id.length ∧ id.getD i 0 = ch 'R' := by
  unfold rawLetter
  split_ifs with h
  · simp only [Prod.mk.injEq, and_true]
    exact ⟨fun hlen => ⟨hlen, h.2.2⟩, fun hlen => hlen.1⟩
  · simp only [Prod.mk.injEq, Bool.false_eq_true, and_false, false_iff]
    rintro ⟨hlen, hr⟩
    exact h ⟨rfl, by omega, hr⟩

/-- **The encoding prefixes** of raw string literals. -/
theorem literalPrefix_iff {id : Bytes} : literalPrefix id (ch '"') = (id.length, true) ↔
    id ∈ [str ['R'], str ['L', 'R'], str ['U', 'R'], str ['u', 'R'], str ['u', '8', 'R']] := by
  constructor
  · intro h
    unfold literalPrefix at h
    split_ifs at h with hu h8 hl hr
    · rw [rawLetter_iff] at h
      match id, h with
      | [a, b, c], h =>
        obtain rfl : a = ch 'u' := hu
        obtain rfl : b = ch '8' := h8.2
        obtain rfl : c = ch 'R' := h.2
        decide
    · rw [rawLetter_iff] at h
      match id, h with
      | [a, b], h =>
        obtain rfl : a = ch 'u' := hu
        obtain rfl : b = ch 'R' := h.2
        decide
    · rw [rawLetter_iff] at h
      match id, h with
      | [a, b], h =>
        obtain rfl : b = ch 'R' := h.2
        obtain rfl | rfl : a = ch 'L' ∨ a = ch 'U' := hl
        · decide
        · decide
    · match id, h with
      | [a], _ =>
        obtain rfl : a = ch 'R' := hr.1
        decide
    · exact absurd (congrArg Prod.snd h) Bool.false_ne_true
  · intro h
    simp only [List.mem_cons, List.not_mem_nil, or_false] at h
    rcases h with rfl | rfl | rfl | rfl | rfl
    · decide
    · decide
    · decide
    · decide
    · decide

/-- The lexer behind the opening quote of a raw string literal, and the quote, if the token that
begins with `c` is one. -/
def rawOpening (c : XChar) (s : Lexer) : Option (XChar × Lexer) :=
  if identifierChar c.char then
    let (id, c, s) := s.identifier [c.char]
    if c.char = ch '"' ∧ literalPrefix id c.char = (id.length, true) then some (c, s.gethPeeked c)
    else none
  else none

/-! ### The literal -/

/-- The delimiter, with what ends it. -/
def rawDelimiter (l : Failure) (d : Bytes) (s : Lexer) : Except Failure (Bytes × Lexer) :=
  let c := (s.geth true).1
  if c.eos = true ∨ c.char = ch '"' ∨ c.char = ch ')' ∨ c.char = ch '\\' ∨ c.char = ch ' ' then
    .error l
  else if c.char = ch '(' then .ok (d, (s.geth true).2)
  else rawDelimiter l (d ++ [c.char]) (s.geth true).2
termination_by s.left
decreasing_by
  rename_i h _
  exact left_geth true s (eq_false_of_ne_true fun he => h (Or.inl he))

/-- The raw characters, from a position in the terminator. -/
def rawCharacters (l : Failure) (d : Bytes) (i : ℕ) (s : Lexer) : Except Failure Lexer :=
  let c := (s.geth false).1
  if c.eos = true then .error l
  else
    -- at a mismatch from the beginning
    let i := if d[i]? ≠ some c.char ∧ i ≠ 0 then 0 else i
    if d[i]? = some c.char then
      if i + 1 = d.length then .ok (s.geth false).2
      else rawCharacters l d (i + 1) (s.geth false).2
    else rawCharacters l d i (s.geth false).2
termination_by s.left
decreasing_by
  · rename_i h _ _
    exact left_geth false s (eq_false_of_ne_true h)
  · rename_i h _
    exact left_geth false s (eq_false_of_ne_true h)

/-- The loop of `literal_suffix`. -/
def suffixLoop (s : Lexer) : Lexer :=
  let c := (s.peek true).1
  if identifierChar c.char then ((s.peek true).2.gethPeeked c).suffixLoop else (s.peek true).2
termination_by s.left
decreasing_by
  rename_i h
  exact left_peek true s (eos_of_char rfl (ne_zero_of_identifierChar h))

/-- `literal_suffix`. -/
def literalSuffix (s : Lexer) (c : XChar) : Lexer := (s.gethPeeked c).suffixLoop

/-- What `raw_string_literal` does behind the terminator. -/
def suffix (s : Lexer) : Lexer :=
  let c := (s.peek true).1
  if c.char = ch '_' || isAlpha c.char then (s.peek true).2.literalSuffix c else (s.peek true).2

/-- The failure of `raw_string_literal` behind the quote `c`. -/
def rawFailure (c : XChar) : Failure := ⟨c.line, c.column, "invalid raw string literal"⟩

/-- `raw_string_literal`, behind the quote `c`. -/
def rawStringLiteral (s : Lexer) (c : XChar) : Except Failure Lexer := do
  let (d, s) ← rawDelimiter (rawFailure c) [ch ')'] s
  let s ← rawCharacters (rawFailure c) (d ++ [ch '"']) 0 s
  pure s.suffix

/-! ### Before the raw characters -/

section

variable {s s' : Lexer} {c q : XChar} {l : Failure} {d d' : Bytes}

theorem Ready.gethPeeked (h : Ready s) (hc : (s.peek true).1.eos = false)
    (hb : (s.peek true).1.char ≠ ch '\\') : Ready ((s.peek true).2.gethPeeked (s.peek true).1) := by
  obtain ⟨t, ht, hpeek⟩ := h.peek hc hb
  rw [hpeek] at hc ⊢
  have hready := (ht.scannerGet hc).1
  exact ⟨hready.fd, hready.filled, hready.unget, hready.unpeek, hready.eos⟩

theorem Ready.identifierBuffer (h : Ready s) : Ready s.identifierBuffer.2 := by
  refine ⟨h.fd, fun ha => h.filled fun hnil => ha ?_, h.unget, h.unpeek, h.eos⟩
  show s.scanner.stream.area.drop _ = []
  rw [hnil, List.drop_nil]

theorem Ready.identifier {id : Bytes} (h : Ready s) {b : UInt8} (hb : b ≠ 0) (hslash : b ≠ ch '\\')
    (hc : (s.identifier id).2.1.char = b) :
    Ready ((s.identifier id).2.2.gethPeeked (s.identifier id).2.1) := by
  fun_induction Lexer.identifier id s with
  | case1 id s c buffer hid ih =>
    have hready := h.gethPeeked (eos_of_char rfl (ne_zero_of_identifierChar hid))
      (ne_backslash_of_identifierChar hid)
    exact ih hready.identifierBuffer hc
  | case2 id s c hid =>
    exact h.gethPeeked (eos_of_char hc hb) fun he => hslash (hc.symm.trans he)

theorem Ready.rawOpening (h : Ready s) (ho : s.rawOpening c = some (q, s')) : Ready s' := by
  unfold Lexer.rawOpening at ho
  dsimp only at ho
  split_ifs at ho with hid hq
  obtain ⟨rfl, rfl⟩ := Prod.mk.inj (Option.some.inj ho)
  exact h.identifier (by decide) (by decide) hq.1

/-- The delimiter is behind the lexer, and has no closing parenthesis. -/
theorem Ready.rawDelimiter (h : Ready s) (hd : rawDelimiter l d s = .ok (d', s')) :
    Ready s' ∧ ∃ w, d' = d ++ w ∧ ch ')' ∉ w := by
  fun_induction Lexer.rawDelimiter l d s with
  | case1 d s c hc => cases hd
  | case2 d s c hc hopen =>
    obtain ⟨rfl, rfl⟩ := Prod.mk.inj (Except.ok.inj hd)
    simp only [not_or] at hc
    exact ⟨h.geth (eq_false_of_ne_true hc.1) hc.2.2.2.1, [], (List.append_nil _).symm, by simp⟩
  | case3 d s c hc hopen ih =>
    simp only [not_or] at hc
    obtain ⟨hready, w, rfl, hw⟩ := ih (h.geth (eq_false_of_ne_true hc.1) hc.2.2.2.1) hd
    refine ⟨hready, c.char :: w, by simp, ?_⟩
    intro hmem
    rcases List.mem_cons.mp hmem with he | hmem
    · exact hc.2.2.1 he.symm
    · exact hw hmem

end

/-! ### The raw characters -/

/-- No 0xFF in front of `t` is misread. -/
def Legible (s : Lexer) (t : Bytes) : Prop :=
  ∀ p q, s.rest = p ++ 0xFF :: q → t.length ≤ q.length → s.scanner.stream.Boundary (0xFF :: q)

section

variable {s : Lexer} {l : Failure} {w t r : Bytes} {b : UInt8} {i : ℕ}

theorem legible_iff {s' : Lexer} (hr : s.rest = b :: r) (hok : ¬ Misread s.scanner.stream s.rest)
    (hs : Behind s r s') : Legible s t ↔ Legible s' t := by
  obtain ⟨-, hr', hbound⟩ := hs
  constructor
  · rintro h p q hpq hq
    have hlen : (0xFF :: q).length ≤ r.length := by
      rw [← hr', hpq, List.length_append]
      omega
    rw [hbound _ hlen]
    exact h (b :: p) q (by rw [hr, ← hr', hpq]; rfl) hq
  · rintro h p q hpq hq
    cases p with
    | nil =>
      by_contra hnot
      have hff : hd s.rest = 0xFF := by rw [hpq]; rfl
      exact hok ⟨hff, by rwa [hpq]⟩
    | cons a p =>
      have hpr : r = p ++ 0xFF :: q := (List.cons.inj (hr.symm.trans hpq)).2
      rw [← hbound _ (by rw [hpr, List.length_append]; omega)]
      exact h p q (hr'.trans hpr) hq

/-- The raw characters end behind the text that the search finds, unless a byte before is
misread. -/
theorem rawCharacters_search (d : Bytes) : ∀ (r : Bytes) (i : ℕ) (s : Lexer), Ready s → s.rest = r →
    (search d i r = none → rawCharacters l d i s = .error l) ∧
      ∀ t, search d i r = some t →
        (Legible s t → ∃ s', rawCharacters l d i s = .ok s' ∧ Ready s' ∧ s'.rest = t) ∧
          (¬ Legible s t → rawCharacters l d i s = .error l) := by
  intro r
  induction r with
  | nil =>
    intro i s h hr
    have heos := h.geth_eos (Or.inl hr)
    have herror : rawCharacters l d i s = .error l := by
      rw [rawCharacters]
      exact if_pos heos
    exact ⟨fun _ => herror, fun t ht => by cases ht⟩
  | cons b r ih =>
    intro i s h hr
    by_cases hok : Misread s.scanner.stream s.rest
    · have heos := h.geth_eos (Or.inr hok)
      have herror : rawCharacters l d i s = .error l := by
        rw [rawCharacters]
        exact if_pos heos
      refine ⟨fun _ => herror, fun t ht => ⟨fun hleg => absurd ?_ hok.2, fun _ => herror⟩⟩
      obtain rfl : b = 0xFF := by
        have hff := hok.1
        rw [hr] at hff
        exact hff
      rw [hr]
      exact hleg [] r hr (Nat.le_of_lt_succ (length_search ht))
    · obtain ⟨heos, hchar, hbehind⟩ := h.geth_byte hr hok (Or.inl rfl)
      have hleg : ∀ t, Legible s t ↔ Legible (s.geth false).2 t :=
        fun t => legible_iff hr hok hbehind
      obtain ⟨hready, hrest, -⟩ := hbehind
      have hi : (if d[i]? ≠ some b ∧ i ≠ 0 then 0 else i) = if d[i]? ≠ some b then 0 else i := by
        by_cases h0 : i = 0
        · rw [h0, ite_self, ite_self]
        · simp only [ne_eq, h0, not_false_eq_true, and_true]
      rw [rawCharacters, heos, if_neg Bool.false_ne_true, hchar, hi, search]
      generalize (if d[i]? ≠ some b then 0 else i) = j
      dsimp only
      split_ifs with hj hlast
      · refine ⟨fun hnone => (by cases hnone), fun t ht => ?_⟩
        obtain rfl := Option.some.inj ht
        refine ⟨fun _ => ⟨_, rfl, hready, hrest⟩, fun hno => absurd ?_ hno⟩
        rw [hleg]
        intro p q hpq hq
        have := congrArg List.length hpq
        rw [hrest, List.length_append, List.length_cons] at this
        omega
      · simp only [hleg]
        exact ih _ _ hready hrest
      · simp only [hleg]
        exact ih _ _ hready hrest

/-- **The raw characters** end behind the first terminator, unless a byte before is misread. -/
theorem Ready.rawCharacters {a : UInt8} (h : Ready s) (ha : a ∉ w) :
    (firstAfter (a :: w) s.rest = none → rawCharacters l (a :: w) 0 s = .error l) ∧
      ∀ t, firstAfter (a :: w) s.rest = some t →
        (Legible s t → ∃ s', rawCharacters l (a :: w) 0 s = .ok s' ∧ Ready s' ∧ s'.rest = t) ∧
          (¬ Legible s t → rawCharacters l (a :: w) 0 s = .error l) := by
  have heq := search_eq ha s.rest 0 (Nat.zero_le _)
  rw [List.take_zero, List.nil_append] at heq
  rw [← heq]
  exact rawCharacters_search _ _ _ _ h rfl

end

/-! ### The suffix -/

theorem length_spliced_le (t : Bytes) : (spliced t).length ≤ t.length := by
  fun_induction spliced t with
  | case1 => exact le_rfl
  | case2 r _ ih =>
    have := length_behindCr_le r
    simp only [List.length_cons]
    omega
  | case3 r _ _ ih =>
    rw [List.length_tail] at ih
    simp only [List.length_cons]
    omega
  | case4 => exact le_rfl
  | case5 => exact le_rfl

theorem length_tail_spliced {t : Bytes} (h : hd (spliced t) ≠ 0) :
    (spliced t).tail.length < t.length := by
  have hne : spliced t ≠ [] := by
    intro hnil
    rw [hnil] at h
    exact h rfl
  have := length_spliced_le t
  have := List.length_pos_of_ne_nil hne
  rw [List.length_tail]
  omega

/-- The bytes behind the rest of an identifier, line continuations removed in front of each. -/
def identifierEnd (t : Bytes) : Bytes :=
  if identifierChar (hd (spliced t)) then identifierEnd (spliced t).tail else spliced t
termination_by t.length
decreasing_by
  rename_i h
  exact length_tail_spliced (ne_zero_of_identifierChar h)

/-- The bytes behind the suffix of a literal. -/
def suffixEnd (t : Bytes) : Bytes :=
  if hd (spliced t) = ch '_' || isAlpha (hd (spliced t)) then identifierEnd (spliced t).tail
  else spliced t

section

variable {s : Lexer} {t : Bytes} {p : XChar × Lexer}

/-- No 0xFF and no end is told apart from what the scanner gives for it. -/
theorem Peeks.test (h : Peeks t p) {f : UInt8 → Bool} (h0 : f 0 = false) (hff : f 0xFF = false) :
    f p.1.char = f (hd t) := by
  rcases h.char with hc | ⟨hc, ht⟩
  · rw [hc]
  · rw [hc, ht, h0, hff]

theorem Peeks.gethPeeked (h : Peeks t p) (h0 : p.1.char ≠ 0) (hb : p.1.char ≠ ch '\\') :
    Steady (p.2.gethPeeked p.1) ∧ (p.2.gethPeeked p.1).rest = t.tail := by
  obtain ⟨s', hs', rfl, rfl⟩ := h.scanner hb
  obtain ⟨hsteady, hrest⟩ := hs'.scannerGet (eos_of_char rfl h0)
  exact ⟨⟨hsteady.unget, hsteady.unpeek, hsteady.eos⟩, hrest⟩

theorem Steady.suffixLoop (h : Steady s) : s.suffixLoop.ahead = identifierEnd s.rest := by
  fun_induction Lexer.suffixLoop s with
  | case1 s c hid ih =>
    have hpeek := h.peek
    obtain ⟨hsteady, hrest⟩ := hpeek.gethPeeked (ne_zero_of_identifierChar hid)
      (ne_backslash_of_identifierChar hid)
    have hid' := hid
    rw [hpeek.test (f := identifierChar) (by decide) (by decide)] at hid'
    rw [identifierEnd, if_pos hid', ih hsteady, hrest]
  | case2 s c hid =>
    have hpeek := h.peek
    have hid' := hid
    rw [hpeek.test (f := identifierChar) (by decide) (by decide)] at hid'
    rw [identifierEnd, if_neg hid', hpeek.ahead]

/-- **The suffix** of the literal is behind the lexer. -/
theorem Steady.suffix (h : Steady s) : s.suffix.ahead = suffixEnd s.rest := by
  have hpeek := h.peek
  have htest := hpeek.test (f := fun c => c = ch '_' || isAlpha c) (by decide) (by decide)
  unfold Lexer.suffix suffixEnd
  dsimp only at htest ⊢
  rw [htest]
  split_ifs with halpha
  · rw [← htest] at halpha
    have hid : identifierChar (s.peek true).1.char = true := by
      simp only [identifierChar, isAlnum, Bool.or_eq_true] at halpha ⊢
      tauto
    obtain ⟨hsteady, hrest⟩ := hpeek.gethPeeked (ne_zero_of_identifierChar hid)
      (ne_backslash_of_identifierChar hid)
    rw [← hrest]
    exact hsteady.suffixLoop
  · exact hpeek.ahead

end

/-! ### Raw string literals -/

/-- The literal with the terminator `d`, of which `s` is at the raw characters, ends at its first
terminator, with a suffix, and fails if there is none. -/
def Reads (d : Bytes) (s : Lexer) (r : Except Failure Lexer) : Prop :=
  match firstAfter d s.rest with
  | some t => ∃ s', r = .ok s' ∧ s'.ahead = suffixEnd t
  | none => ∃ l, r = .error l

section

variable {s s₀ s₁ : Lexer} {c q : XChar} {d : Bytes}

/-- **A raw string literal** is read up to its first terminator and its suffix, and fails without a
terminator, if and only if no 0xFF up to the terminator is misread. -/
theorem rawStringLiteral_iff (h : Ready s) (ho : s.rawOpening c = some (q, s₀))
    (hd : rawDelimiter (rawFailure q) [ch ')'] s₀ = .ok (d, s₁)) :
    Reads (d ++ [ch '"']) s₁ (s₀.rawStringLiteral q) ↔
      ∀ t, firstAfter (d ++ [ch '"']) s₁.rest = some t → s₁.Legible t := by
  obtain ⟨hready, w, rfl, hw⟩ := (h.rawOpening ho).rawDelimiter hd
  have ha : ch ')' ∉ w ++ [ch '"'] := by
    intro hmem
    rcases List.mem_append.mp hmem with hmem | hmem
    · exact hw hmem
    · exact absurd hmem (by decide)
  have hlit : s₀.rawStringLiteral q = (do
      let s ← rawCharacters (rawFailure q) (ch ')' :: (w ++ [ch '"'])) 0 s₁
      pure s.suffix) := by
    unfold rawStringLiteral
    rw [hd]
    rfl
  obtain ⟨hnone, hsome⟩ := hready.rawCharacters (l := rawFailure q) ha
  rw [hlit]
  unfold Reads
  simp only [List.cons_append, List.nil_append]
  cases hf : firstAfter (ch ')' :: (w ++ [ch '"'])) s₁.rest with
  | none =>
    rw [hnone hf]
    exact ⟨fun _ => nofun, fun _ => ⟨_, rfl⟩⟩
  | some t =>
    obtain ⟨hok, herror⟩ := hsome t hf
    constructor
    · rintro ⟨s', hs', -⟩ t ht
      obtain rfl := Option.some.inj ht
      by_contra hno
      rw [herror hno] at hs'
      cases hs'
    · intro hleg
      obtain ⟨s', hs', hready', hrest⟩ := hok (hleg t rfl)
      rw [hs']
      exact ⟨_, rfl, by rw [← hrest]; exact hready'.steady.suffix⟩

end

section

variable {s : Lexer} {b : UInt8} {r : Bytes}

theorem not_misread {is : Stream} (hr : s.rest = b :: r) (hb : b ≠ 0xFF) : ¬ Misread is s.rest := by
  rintro ⟨hff, -⟩
  rw [hr] at hff
  exact hb hff

theorem Ready.rawOpening_prefix {c : XChar} (h : Ready s) (hc : c.char = ch 'R')
    (hr : s.rest = ch '"' :: r) :
    ∃ q s₀, s.rawOpening c = some (q, s₀) ∧ Behind s r s₀ := by
  have hok : ¬ Misread s.scanner.stream s.rest := not_misread hr (by decide)
  obtain ⟨heos, hchar⟩ := h.scannerPeek_byte hr hok
  have hpeek := h.steady.peek_new (e := true) (Or.inr (by rw [hchar]; decide))
  have hid : s.identifier [c.char] = ([ch 'R'], s.scannerPeek.1, s.scannerPeek.2) := by
    rw [Lexer.identifier, hpeek, hchar, hc]
    rfl
  refine ⟨s.scannerPeek.1, s.scannerPeek.2.gethPeeked s.scannerPeek.1, ?_, h.behind hr heos rfl⟩
  unfold Lexer.rawOpening
  rw [hid, hc]
  dsimp only
  rw [hchar]
  rfl

theorem Ready.rawDelimiter_nil {l : Failure} {d : Bytes} (h : Ready s)
    (hr : s.rest = ch '(' :: r) : ∃ s₁, s.rawDelimiter l d = .ok (d, s₁) ∧ Behind s r s₁ := by
  have hok : ¬ Misread s.scanner.stream s.rest := not_misread hr (by decide)
  obtain ⟨heos, hchar, hbehind⟩ := h.geth_byte (e := true) hr hok (Or.inr (by decide))
  refine ⟨_, ?_, hbehind⟩
  rw [Lexer.rawDelimiter, hchar, heos]
  rfl

end

/-- The lexer of a file that is read at once. -/
def ofChunk (c : Chunk) : Lexer := ⟨.open' (.ofChunks [c]) ⟨.any, []⟩ false, none, []⟩

theorem ready_ofChunk (c : Chunk) : Ready (ofChunk c) :=
  ⟨rfl, fun ha => absurd rfl ha, rfl, rfl, rfl⟩

theorem rest_ofChunk (c : Chunk) : (ofChunk c).rest = c.1 := by
  obtain ⟨b, hb⟩ := c
  simp [ofChunk, Lexer.rest, Stream.rest, Stream.ofChunks, Scanner.open']

/-- A file that begins with a raw string literal without a delimiter. -/
def rawFile (x : Bytes) : Chunk := ⟨ch 'R' :: ch '"' :: ch '(' :: x, List.cons_ne_nil _ _⟩

/-- The lexer behind the first character of such a file. -/
def atRaw (x : Bytes) : XChar × Lexer := (ofChunk (rawFile x)).geth true

theorem exists_raw (x : Bytes) : (atRaw x).2.Ready ∧ ∃ q s₀ s₁,
    (atRaw x).2.rawOpening (atRaw x).1 = some (q, s₀) ∧
      s₀.rawDelimiter (rawFailure q) [ch ')'] = .ok ([ch ')'], s₁) ∧ Ready s₁ ∧ s₁.rest = x ∧
        ∀ t, t.length ≤ x.length →
          (s₁.scanner.stream.Boundary t ↔ (Stream.ofChunks [rawFile x]).Boundary t) := by
  have hr := rest_ofChunk (rawFile x)
  have hok : ¬ Misread (ofChunk (rawFile x)).scanner.stream (ofChunk (rawFile x)).rest :=
    not_misread hr (by decide)
  obtain ⟨-, hchar, h1, hr1, hb1⟩ :=
    (ready_ofChunk (rawFile x)).geth_byte (e := true) hr hok (Or.inr (by decide))
  obtain ⟨q, s₀, ho, h2, hr2, hb2⟩ := h1.rawOpening_prefix hchar hr1
  obtain ⟨s₁, hd, h3, hr3, hb3⟩ := h2.rawDelimiter_nil (l := rawFailure q) (d := [ch ')']) hr2
  refine ⟨h1, q, s₀, s₁, ho, hd, h3, hr3,
    fun t ht => (hb3 t ht).trans ((hb2 t ?_).trans (hb1 t ?_))⟩
  · rw [List.length_cons]
    omega
  · rw [List.length_cons, List.length_cons]
    omega

/-- The file `R"(a)"`. -/
theorem rawStringLiteral_iff_plain : ∃ q s₀ s₁,
    (atRaw (str ['a', ')', '"'])).2.rawOpening (atRaw (str ['a', ')', '"'])).1 = some (q, s₀) ∧
      s₀.rawDelimiter (rawFailure q) [ch ')'] = .ok ([ch ')'], s₁) ∧
      Reads ([ch ')'] ++ [ch '"']) s₁ (s₀.rawStringLiteral q) := by
  obtain ⟨hready, q, s₀, s₁, ho, hd, -, hrest, -⟩ := exists_raw (str ['a', ')', '"'])
  refine ⟨q, s₀, s₁, ho, hd, (rawStringLiteral_iff hready ho hd).mpr fun t _ p r hpr _ => ?_⟩
  have hmem : (0xFF : UInt8) ∈ str ['a', ')', '"'] := by
    rw [← hrest, hpr]
    simp
  exact absurd hmem (by decide)

/-- In the file `R"(ÿ)"` in Latin-1 the literal has a terminator, but is taken to be
unterminated. -/
theorem rawStringLiteral_not_reads : ∃ q s₀ s₁,
    (atRaw (0xFF :: str [')', '"'])).2.rawOpening (atRaw (0xFF :: str [')', '"'])).1 =
        some (q, s₀) ∧
      s₀.rawDelimiter (rawFailure q) [ch ')'] = .ok ([ch ')'], s₁) ∧
      firstAfter ([ch ')'] ++ [ch '"']) s₁.rest = some [] ∧
      s₀.rawStringLiteral q = .error (rawFailure q) ∧
      ¬ Reads ([ch ')'] ++ [ch '"']) s₁ (s₀.rawStringLiteral q) := by
  obtain ⟨-, q, s₀, s₁, ho, hd, h, hrest, hbound⟩ := exists_raw (0xFF :: str [')', '"'])
  have hfirst : firstAfter ([ch ')'] ++ [ch '"']) s₁.rest = some [] := by
    rw [hrest]
    decide
  have hno : ¬ s₁.Legible [] := by
    intro hleg
    have hb := hleg [] _ hrest (Nat.zero_le _)
    rw [hbound _ le_rfl] at hb
    obtain ⟨k, hk⟩ := hb
    cases k with
    | zero => exact absurd (congrArg List.length hk) (by decide)
    | succ k => exact absurd (congrArg List.length hk) (by simp [Stream.ofChunks])
  have herror : s₀.rawStringLiteral q = .error (rawFailure q) := by
    have := ((h.rawCharacters (l := rawFailure q) (w := [ch '"']) (by decide)).2 [] hfirst).2 hno
    unfold rawStringLiteral
    rw [hd]
    dsimp only [bind, Except.bind]
    rw [List.singleton_append, this]
  refine ⟨q, s₀, s₁, ho, hd, hfirst, herror, fun hreads => ?_⟩
  unfold Reads at hreads
  rw [hfirst, herror] at hreads
  obtain ⟨s', hs', -⟩ := hreads
  cases hs'

end Lexer

end Build2.Libbuild2.Cc
