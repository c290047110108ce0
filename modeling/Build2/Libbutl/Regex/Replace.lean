import Build2.Lib.ByteString

/-! # Replacement of regex matches

`regex_replace_match_results`, which expands a format string for a match, and the functions that
replace the matches of a string. The matches are those of the standard library: sub-matches are
pairs of positions in the string. -/

namespace Build2.Libbutl.Regex

open Build2.Lib.ByteString

/-- `sub_match`. -/
structure SubMatch where
  first : ℕ
  second : ℕ
  matched : Bool := true
  deriving DecidableEq, Repr

/-- `match_results`: the whole match, the sub-expressions and the text around the match. -/
structure Results where
  whole : SubMatch
  groups : List SubMatch
  before : SubMatch
  after : SubMatch
  deriving DecidableEq, Repr

/-- The text between two positions of the string `x`. -/
def slice (x : Bytes) (b e : ℕ) : Bytes := (x.drop b).take (e - b)

def SubMatch.text (x : Bytes) (m : SubMatch) : Bytes := slice x m.first m.second

/-- The character case of a locale. The dollar sign is not a letter. -/
structure Locale where
  upper : UInt8 → UInt8
  lower : UInt8 → UInt8
  upper_dollar : ∀ c, upper c = ch '$' ↔ c = ch '$'
  lower_dollar : ∀ c, lower c = ch '$' ↔ c = ch '$'

/-- `case_conv`. -/
inductive CaseConv
  | none
  | upper
  | lower
  | upperOnce
  | lowerOnce
  deriving DecidableEq, Repr

structure State where
  mode : CaseConv
  r : Bytes
  deriving DecidableEq, Repr

/-- The characters of the references to the text before and after the match. -/
def backquote : UInt8 := 96

def quote : UInt8 := 39

/-- The digit of a character. -/
def digit (c : UInt8) : Option ℕ :=
  if ch '0' ≤ c ∧ c ≤ ch '9' then some (c.toNat - (ch '0').toNat) else none

/-- `fmt[i + k]`, seen from position `i` of the format: NUL at its end and nothing after it. -/
def peek (s : Bytes) (k : ℕ) : Option UInt8 := if k ≤ s.length then some (s.getD k 0) else none

section

variable (l : Locale)

/-- `conv_chr`: a character as the mode has it, and the mode after it. -/
def convChr (mode : CaseConv) (c : UInt8) : UInt8 × CaseConv :=
  match mode with
  | .upperOnce => (l.upper c, .none)
  | .upper => (l.upper c, .upper)
  | .lowerOnce => (l.lower c, .none)
  | .lower => (l.lower c, .lower)
  | .none => (c, .none)

def appendChr (st : State) (c : UInt8) : State :=
  ⟨(convChr l st.mode c).2, st.r ++ [(convChr l st.mode c).1]⟩

def appendStr (st : State) (t : Bytes) : State :=
  if st.mode = .none then ⟨st.mode, st.r ++ t⟩ else t.foldl (appendChr l) st

variable (x : Bytes) (m : Results)

/-- Append a sub-match by its index. Unmatched sub-expressions and indices that are too great are
ignored. -/
def appendGroup (st : State) (si : ℕ) : State :=
  match (m.whole :: m.groups)[si]? with
  | some g => if g.matched then appendStr l st (g.text x) else st
  | none => st

/-- The loop body at a dollar sign: the state and by how much the position has moved. -/
def dollar (st : State) (s : Bytes) : Option (State × ℕ) := do
  let c ← peek s 1
  if c = ch '$' then pure (appendChr l st c, 1)
  else if c = ch '&' then pure (appendStr l st (m.whole.text x), 1)
  else if c = backquote then pure (appendStr l st (m.before.text x), 1)
  else if c = quote then pure (appendStr l st (m.after.text x), 1)
  else
    match digit c with
    | none => pure (appendChr l st (ch '$'), 0)
    | some si => do
      let c ← peek s 2
      match digit c with
      | some d =>
        if 0 < si * 10 + d then pure (appendGroup l x m st (si * 10 + d), 2)
        else pure (appendChr l st (ch '$'), 1)
      | none =>
        if 0 < si then pure (appendGroup l x m st si, 1) else pure (appendChr l st (ch '$'), 0)

/-- The loop body at a backslash. -/
def backslash (st : State) (s : Bytes) : Option (State × ℕ) := do
  let c ← peek s 1
  if c = ch '\\' then pure (appendChr l st c, 1)
  else if c = ch 'n' then pure (appendChr l st (ch '\n'), 1)
  else if c = ch 'u' then pure (⟨.upperOnce, st.r⟩, 1)
  else if c = ch 'l' then pure (⟨.lowerOnce, st.r⟩, 1)
  else if c = ch 'U' then pure (⟨.upper, st.r⟩, 1)
  else if c = ch 'L' then pure (⟨.lower, st.r⟩, 1)
  else if c = ch 'E' then pure (⟨.none, st.r⟩, 1)
  else
    match digit c with
    | some si => if 0 < si then pure (appendGroup l x m st si, 1) else pure (st, 0)
    | none => pure (st, 0)

/-- The loop body. -/
def step (st : State) (s : Bytes) : Option (State × ℕ) :=
  if hd s = ch '$' then dollar l x m st s
  else if hd s = ch '\\' then backslash l x m st s
  else some (appendChr l st (hd s), 0)

/-- The loop, from a position of the format on. -/
def loop (st : State) (s : Bytes) : Option State :=
  match _h : s with
  | [] => some st
  | c :: t => (step l x m st (c :: t)).bind fun p => loop p.1 (t.drop p.2)
termination_by s.length
decreasing_by simp only [List.length_drop, List.length_cons]; omega

/-- `regex_replace_match_results`. There is no result if a character after the end of the format is
read. -/
def replaceMatchResults (fmt : Bytes) : Option Bytes :=
  (loop l x m ⟨.none, []⟩ fmt).map State.r

end

end Build2.Libbutl.Regex
