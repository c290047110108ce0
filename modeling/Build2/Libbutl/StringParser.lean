import Build2.Lib.ByteString

/-! # Splitting quoted strings

`parse_quoted` and `unquote` of `string-parser.cxx`. Unquoting while a string is split is the same
as splitting it and unquoting what it is split into (`parseQuoted_true`). -/

namespace Build2.Libbutl.StringParser

open Build2.Lib.ByteString

/-- `invalid_string`. Its description is always the one of an unterminated quoted string. -/
structure InvalidString where
  position : ℕ

/-- The characters that begin a quoted substring. -/
def isQuote (c : UInt8) : Bool := c = ch '"' || c = ch '\''

/-- A string that has been read, the quoting mode behind it and the characters that are left. -/
structure Word where
  value : Bytes
  quoting : Option UInt8
  rest : Bytes

/-- The word with more characters in front. -/
def Word.add (w : Word) (s : Bytes) : Word := { w with value := s ++ w.value }

/-- What is kept of a quote. -/
def keptQuote (unquote : Bool) (c : UInt8) : Bytes := if unquote then [] else [c]

/-- The loop of `parse_quoted_position` over the characters of a string, in a quoting mode. -/
def word (unquote : Bool) : Option UInt8 → Bytes → Word
  | q, [] => ⟨[], q, []⟩
  | none, c :: s =>
    if isBlank c then ⟨[], none, c :: s⟩
    else if isQuote c then (word unquote (some c) s).add (keptQuote unquote c)
    else (word unquote none s).add [c]
  | some q, c :: s =>
    if c = q then (word unquote none s).add (keptQuote unquote c)
    else (word unquote (some q) s).add [c]

theorem length_rest_le (u : Bool) : ∀ (q : Option UInt8) (s : Bytes),
    (word u q s).rest.length ≤ s.length
  | q, [] => by
    cases q <;> exact Nat.le_refl 0
  | none, c :: s => by
    rw [word]
    split_ifs
    · exact Nat.le_refl _
    · exact Nat.le_succ_of_le (length_rest_le u (some c) s)
    · exact Nat.le_succ_of_le (length_rest_le u none s)
  | some q, c :: s => by
    rw [word]
    split_ifs
    · exact Nat.le_succ_of_le (length_rest_le u none s)
    · exact Nat.le_succ_of_le (length_rest_le u (some q) s)

theorem length_rest_lt {u : Bool} {c : UInt8} {s : Bytes} (hc : isBlank c = false) :
    (word u none (c :: s)).rest.length < (c :: s).length := by
  rw [word, if_neg (by rw [hc]; exact Bool.false_ne_true)]
  split_ifs
  · exact Nat.lt_succ_of_le (length_rest_le u (some c) s)
  · exact Nat.lt_succ_of_le (length_rest_le u none s)

theorem isBlank_of_dropWhile {s t : Bytes} {c : UInt8} (h : s.dropWhile isBlank = c :: t) :
    isBlank c = false := by
  have hne : s.dropWhile isBlank ≠ [] := by rw [h]; exact List.cons_ne_nil c t
  have hhead := List.head_dropWhile_not isBlank hne
  simpa only [h, List.head_cons, Bool.not_eq_true] using hhead

/-- The loop of `parse_quoted_position`, for the characters that are left of those of a string of
the length `n`. -/
def splitFrom (unquote : Bool) (n : ℕ) (s : Bytes) : Except InvalidString (List (Bytes × ℕ)) :=
  match _h : s.dropWhile isBlank with
  | [] => .ok []
  | c :: t =>
    match (word unquote none (c :: t)).quoting with
    | some _ => .error ⟨n - (word unquote none (c :: t)).rest.length⟩
    | none =>
      (splitFrom unquote n (word unquote none (c :: t)).rest).map fun r =>
        ((word unquote none (c :: t)).value, n - (c :: t).length) :: r
  termination_by s.length
  decreasing_by
    have hlt := length_rest_lt (u := unquote) (s := t) (isBlank_of_dropWhile _h)
    have hle := (List.dropWhile_suffix isBlank (l := s)).length_le
    rw [_h] at hle
    exact hlt.trans_le hle

/-- `parse_quoted_position`. -/
def parseQuotedPosition (s : Bytes) (unquote : Bool) : Except InvalidString (List (Bytes × ℕ)) :=
  splitFrom unquote s.length s

/-- `parse_quoted`. -/
def parseQuoted (s : Bytes) (unquote : Bool) : Except InvalidString (List Bytes) :=
  (parseQuotedPosition s unquote).map fun r => r.map Prod.fst

/-- The loop of `unquote`, in a quoting mode. -/
def unquoteFrom : Option UInt8 → Bytes → Bytes
  | _, [] => []
  | none, c :: s => if isQuote c then unquoteFrom (some c) s else c :: unquoteFrom none s
  | some q, c :: s => if c = q then unquoteFrom none s else c :: unquoteFrom (some q) s

/-- `unquote`. -/
def unquote (s : Bytes) : Bytes := unquoteFrom none s

/-- A string that is unquoted while it is read. -/
theorem word_true : ∀ (q : Option UInt8) (s : Bytes), word true q s =
    { word false q s with value := unquoteFrom q (word false q s).value }
  | q, [] => by
    cases q <;> rfl
  | none, c :: s => by
    rw [word, word]
    by_cases hb : isBlank c = true
    · rw [if_pos hb, if_pos hb]
      rfl
    · rw [if_neg hb, if_neg hb]
      by_cases hq : isQuote c = true
      · rw [if_pos hq, if_pos hq, word_true (some c) s]
        simp [Word.add, keptQuote, unquoteFrom, hq]
      · rw [if_neg hq, if_neg hq, word_true none s]
        simp [Word.add, unquoteFrom, hq]
  | some q, c :: s => by
    rw [word, word]
    by_cases hq : c = q
    · rw [if_pos hq, if_pos hq, word_true none s]
      simp [Word.add, keptQuote, unquoteFrom, hq]
    · rw [if_neg hq, if_neg hq, word_true (some q) s]
      simp [Word.add, unquoteFrom, hq]

theorem splitFrom_true (n : ℕ) (s : Bytes) : splitFrom true n s =
    (splitFrom false n s).map fun r => r.map fun x => (unquote x.1, x.2) := by
  induction hm : s.length using Nat.strong_induction_on generalizing s with
  | _ m ih =>
  rw [splitFrom, splitFrom]
  split
  · rfl
  · next c t hs =>
    rw [word_true]
    dsimp only
    split
    · rfl
    · have hlt := length_rest_lt (u := false) (s := t) (isBlank_of_dropWhile hs)
      have hle := (List.dropWhile_suffix isBlank (l := s)).length_le
      rw [hs] at hle
      rw [ih _ (hm ▸ hlt.trans_le hle) _ rfl]
      cases splitFrom false n (word false none (c :: t)).rest with
      | error e => rfl
      | ok r => rfl

/-- **Unquoting the strings while splitting is splitting and unquoting them**, with the same errors
at the same positions. -/
theorem parseQuoted_true (s : Bytes) :
    parseQuoted s true = (parseQuoted s false).map fun r => r.map unquote := by
  unfold parseQuoted parseQuotedPosition
  rw [splitFrom_true]
  cases splitFrom false s.length s with
  | error e => rfl
  | ok r => simp [Except.map]

end Build2.Libbutl.StringParser
