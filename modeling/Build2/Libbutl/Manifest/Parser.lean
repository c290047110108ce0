import Build2.Libbutl.Manifest.Text

/-! # The manifest parser

`manifest_parser` of `libbutl` without a filter, on the characters that its scanner delivers. A
position in the text is the suffix of the characters that starts there. -/

namespace Build2.Libbutl.Manifest

open Build2.Lib.ByteString
open CharScanner (cr lf)

/-! ### Pairs and errors -/

/-- `manifest_name_value`. -/
structure NameValue where
  name : Bytes
  value : Bytes
  nameLine : Nat
  nameColumn : Nat
  valueLine : Nat
  valueColumn : Nat
  startPos : Nat
  colonPos : Nat
  endPos : Nat

/-- The name and the value. -/
def NameValue.pair (r : NameValue) : Bytes × Bytes := (r.name, r.value)

/-- `manifest_parsing`, with the line, the column and the description, and a failed assertion. -/
inductive Fault
  | parsing (line column : Nat) (description : String)
  | assertion

/-- `s_`. -/
inductive State
  | start
  | body
  | ended
  deriving DecidableEq

/-- `manifest_parser`: the source and the rest of its characters, `s_` and `version_`. -/
structure Parser where
  src : Source
  rest : Bytes
  state : State
  version : Bytes

def fail {α : Type} (line column : Nat) (description : String) : Except Fault α :=
  .error (.parsing line column description)

/-- What `peek` throws once the characters are used up. -/
def checkEnd (src : Source) (what : String) (s : Bytes) : Except Fault Unit :=
  match s, src.invalid with
  | [], some w => fail (src.loc []).line (src.loc []).column ("invalid " ++ what ++ ": " ++ w)
  | _, _ => pure ()

/-! ### Spaces and names -/

/-- The loop of `skip_spaces`: `start` is whether the spaces start a line, `comment` whether the
loop over a comment is running, `lp` the start of the line. -/
def skipLoop (src : Source) (start comment : Bool) (lp : Nat) : Bytes → Bytes × Nat
  | [] => ([], lp)
  | c :: s =>
    if comment = true ∧ c ≠ lf then skipLoop src start true lp s
    else if isBlank c then skipLoop src start false lp s
    else if c = lf then
      if start then skipLoop src start false ((src.loc (c :: s)).position + 1) s else (c :: s, lp)
    else if c = ch '#' then
      if start then skipLoop src start true lp s else (c :: s, lp)
    else (c :: s, lp)

/-- `skip_spaces`. -/
def skipSpaces (src : Source) (s : Bytes) : Except Fault (Bytes × Nat) := do
  let r := skipLoop src ((src.loc s).column = 1) false (src.loc s).position s
  checkEnd src "manifest" r.1
  pure r

/-- A character that does not end a name. -/
def isNameChar (c : UInt8) : Bool :=
  ¬ (c = ch ':' ∨ c = ch ' ' ∨ c = ch '\t' ∨ c = lf)

/-- `parse_name`: the name and the rest. -/
def parseName (src : Source) (s : Bytes) : Except Fault (Bytes × Bytes) := do
  checkEnd src "manifest name" (s.dropWhile isNameChar)
  pure (s.takeWhile isNameChar, s.dropWhile isNameChar)

/-! ### Values -/

/-- `n` after the character `c` of the value `v`. -/
def valueSize (ml : Bool) (v : Bytes) (n : Nat) (c : UInt8) : Nat :=
  if ml = false ∧ isBlank c = false then v.length + 1 else n

/-- The loop of `parse_value`: the value, `n`, and the rest. -/
def valueLoop (ml nl : Bool) (v : Bytes) (n : Nat) : Bytes → (Bytes × Nat) × Bytes
  | [] => ((v, n), [])
  | c :: s =>
    -- the special sequence that starts with a special newline
    if nl = true ∧ c = ch '\\' ∧ (s = [] ∨ hd s = lf) then
      if ml then ((v, n), s) else valueLoop ml false (v ++ [lf]) (v.length + 1) s.tail
    else if c = lf ∧ ml = false then ((v, n), c :: s)
    else if c = lf ∧ hd s = ch '\\' then
      if s.tail = [] ∨ hd s.tail = lf then ((v, n), s.tail)
      else valueLoop ml false (v ++ [lf]) n s
    -- the newline escape sequence
    else if c = ch '\\' ∧ (s = [] ∨ hd s = lf) then valueLoop ml (s ≠ []) v n s.tail
    else if c = ch '\\' ∧ hd s = ch '\\' then
      if hd s.tail = lf then valueLoop ml false (v ++ [ch '\\']) (v.length + 1) s.tail
      else valueLoop ml false (v ++ [ch '\\']) (v.length + 1) s
    else valueLoop ml false (v ++ [c]) (valueSize ml v n c) s
termination_by s => s.length

/-- The multi-line mode introductor: the mode and the rest behind it. -/
def introductor : Bytes → Bool × Bytes
  | [] => (false, [])
  | c :: s =>
    if c = ch '\\' then
      if s = [] then (true, c :: s) else if hd s = lf then (true, s.tail) else (false, c :: s)
    else (false, c :: s)

/-- `parse_value`: the value, its place, and the rest. -/
def parseValue (src : Source) (s : Bytes) : Except Fault (Bytes × Loc × Bytes) := do
  let (ml, s) := introductor s
  let ((v, n), r) := valueLoop ml ml [] 0 s
  checkEnd src "manifest value" r
  pure (if ml then v else v.take n, src.loc s, r)

/-! ### The parser -/

namespace Parser

/-- The end of `parse_next`: whether the pair makes sense in the state, and the parser behind the
newline at the start of `r`. -/
def accept (p : Parser) (nv : NameValue) (r : Bytes) : Except Fault (NameValue × Parser) :=
  if p.state = .start then
    if nv.name ≠ [] then fail nv.nameLine nv.nameColumn "format version pair expected"
    else if nv.value = [] then
      if p.version = [] then fail nv.valueLine nv.valueColumn "format version value expected"
      else pure ({ nv with value := p.version }, { p with rest := r.tail, state := .body })
    else if nv.value ≠ str ['1'] then
      fail nv.valueLine nv.valueColumn ("unsupported format version " ++
        String.ofList (nv.value.map fun b => Char.ofNat b.toNat))
    else pure (nv, { p with rest := r.tail, state := .body, version := nv.value })
  else if nv.name = [] then .error .assertion
  else pure (nv, { p with rest := r.tail, state := .body })

/-- The part of `parse_next` behind the name. -/
def parsePair (p : Parser) (startPos : Nat) (l : Loc) (name s : Bytes) :
    Except Fault (NameValue × Parser) := do
  let (s, _) ← skipSpaces p.src s
  match s with
  | [] =>
    if name ≠ [] then
      fail (p.src.loc []).line (p.src.loc []).column "':' expected after name"
    else pure (⟨[], [], l.line, l.column, l.line, l.column, startPos, startPos, startPos⟩,
      { p with rest := [], state := .ended })
  | c :: s' =>
    if c ≠ ch ':' then fail (p.src.loc s).line (p.src.loc s).column "':' expected after name"
    else
      let (s', _) ← skipSpaces p.src s'
      let (value, vl, r) ← parseValue p.src s'
      if r ≠ [] ∧ hd r ≠ lf then .error .assertion
      else p.accept ⟨name, value, l.line, l.column, vl.line, vl.column, startPos,
        (p.src.loc s).position, (p.src.loc r).position⟩ r

/-- `parse_next`. -/
def parseNext (p : Parser) : Except Fault (NameValue × Parser) :=
  if p.state = .ended then
    let l := p.src.loc p.rest
    pure (⟨[], [], l.line, l.column, l.line, l.column, l.position, l.position, l.position⟩, p)
  else do
    let (s, startPos) ← skipSpaces p.src p.rest
    let l := p.src.loc s
    if p.state = .body ∧ hd s = ch ':' then
      pure (⟨[], [], l.line, l.column, l.line, l.column, startPos, l.position, l.position⟩,
        { p with rest := s, state := .start })
    else
      let (name, s) ← parseName p.src s
      p.parsePair startPos l name s

/-- A parser at the start of a text. -/
def ofText (text : Bytes) : Parser := ⟨.of text, (Source.of text).chars, .start, []⟩

end Parser

end Build2.Libbutl.Manifest
