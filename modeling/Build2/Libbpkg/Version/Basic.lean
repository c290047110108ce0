import Build2.Libbutl.StandardVersion.Constraint

/-! # Package versions

The class `version` of `libbpkg`: the parser of `version::data_type` with its canonical parts, the
constructors, the order and the string representation. -/

namespace Build2.Libbpkg

open Build2.Lib.ByteString Build2.Lib.Decimal Build2.Libbutl.ParseUint

/-- A `version` object. The default values are those of the empty version. -/
structure Version where
  epoch : ℕ := 0
  upstream : Bytes := []
  release : Option Bytes := some []
  revision : Option ℕ := none
  iteration : ℕ := 0
  canonicalUpstream : Bytes := []
  canonicalRelease : Bytes := []
  deriving DecidableEq, Repr

namespace Version

/-- `throw invalid_argument (d)`. -/
def badArg {α : Type} (d : String) : Except Fault α := .error (.invalidArgument d)

/-! ### Canonical parts -/

/-- `canonical_part`: the text and its length without the trailing digit-only zero components. -/
structure CanonicalPart where
  text : Bytes := []
  len : ℕ := 0
  deriving DecidableEq, Repr

/-- `canonical_part::final`. -/
def CanonicalPart.final (p : CanonicalPart) : Bytes := p.text.take p.len

/-- A zero digit. -/
def isZero (b : UInt8) : Bool := b = ch '0'

/-- `canonical_part::add`. -/
def CanonicalPart.add (p : CanonicalPart) (comp : Bytes) (numeric : Bool) :
    Except Fault CanonicalPart :=
  let text := if p.text ≠ [] then p.text ++ [ch '.'] else p.text
  if numeric then
    if 16 < comp.length then badArg "16 digits maximum allowed in a component"
    else
      let text := text ++ (List.replicate (16 - comp.length) (ch '0') ++ comp)
      pure ⟨text, if comp.all isZero then p.len else text.length⟩
  else
    let text := text ++ comp.map toLower
    pure ⟨text, text.length⟩

/-! ### Parsing -/

/-- `version::data_type::parse`. -/
inductive Parse
  | full
  | upstream
  | release
  deriving DecidableEq, Repr

/-- What is being parsed. -/
inductive Mode
  | epoch
  | upstream
  | release
  | revision
  deriving DecidableEq, Repr

/-- `version::data_type`. -/
structure DataType where
  epoch : ℕ := 0
  upstream : Bytes := []
  release : Option Bytes := none
  revision : Option ℕ := none
  canonicalUpstream : Bytes := []
  canonicalRelease : Bytes := []
  deriving DecidableEq, Repr

/-- The state of the parser between two characters. -/
structure Scan where
  mode : Mode
  /-- The epoch, once it has been parsed. -/
  ep : Option ℕ := none
  canonUpstream : CanonicalPart := {}
  canonRelease : CanonicalPart := {}
  /-- The component from its begin `cb`. -/
  comp : Bytes := []
  /-- The upstream or release part from its begin `ub` or `rb`. -/
  part : Bytes := []
  /-- The upstream part up to its end `ue`. -/
  upstream : Bytes := []
  /-- The release part up to its end `re`. -/
  release : Bytes := []
  deriving DecidableEq, Repr

/-- The component has digits only. -/
def Scan.numeric (st : Scan) : Bool := st.comp.all isDigit

/-- `uint16`: the number `stoull` reads, if it fits. -/
def uint16 (s : Bytes) (what : String) : Except Fault ℕ :=
  if value s ≤ 65535 then pure (value s) else badArg (what ++ " should be 2-byte unsigned integer")

/-- Append the component to the canonical part of the mode and advance the end of the part. -/
def Scan.addComponent (st : Scan) : Except Fault Scan :=
  match st.mode with
  | .upstream => do
    let c ← st.canonUpstream.add st.comp st.numeric
    pure { st with canonUpstream := c, upstream := st.part }
  | .release => do
    let c ← st.canonRelease.add st.comp st.numeric
    pure { st with canonRelease := c, release := st.part }
  | _ => .error .assertion

/-- Process the epoch or the component that ends at a separator. -/
def Scan.endComponent (st : Scan) : Except Fault Scan :=
  if st.mode = .epoch then
    if !st.numeric then badArg "epoch should be 2-byte unsigned integer"
    else do
      let ep ← uint16 st.comp "epoch"
      pure { st with ep := some ep }
  else st.addComponent

/-- A separator `c` as a message shows it. -/
def unexpected (c : UInt8) (what : String) : String :=
  "unexpected '" ++ String.singleton (Char.ofNat c.toNat) ++ what

/-- One of the characters that end a component. -/
def isSeparator (c : UInt8) : Bool := c = ch '+' || c = ch '-' || c = ch '.'

/-- Switch the mode after the separator `c`. -/
def Scan.switch (st : Scan) (c : UInt8) : Scan :=
  if c = ch '+' then { st with mode := .revision, comp := [] }
  else if c = ch '-' then
    if st.mode = .epoch then { st with mode := .upstream, comp := [], part := [], upstream := [] }
    else { st with mode := .release, comp := [], part := [], release := [] }
  else { st with comp := [], part := st.part ++ [c] }

/-- One character. -/
def step (pr : Parse) (st : Scan) (c : UInt8) : Except Fault Scan :=
  if isSeparator c then
    if c ≠ ch '.' ∧ pr ≠ .full then badArg (unexpected c "' character")
    else if st.mode = .revision ∨ (c = ch '-' ∧ st.mode = .release) ∨
        (c ≠ ch '-' ∧ st.mode = .epoch) ∨ st.comp = [] then
      badArg (unexpected c "' character position")
    else do
      let st ← st.endComponent
      pure (st.switch c)
  else if !isAlnum c then badArg "alpha-numeric characters expected in a component"
  else pure { st with comp := st.comp ++ [c], part := st.part ++ [c] }

/-- The state before the first character of `v`, and where that is. -/
def Scan.start (pr : Parse) (v : Bytes) : Scan × Bytes :=
  match pr with
  | .full => if hd v = ch '+' then ({ mode := .epoch }, v.tail) else ({ mode := .upstream }, v)
  | .upstream => ({ mode := .upstream }, v)
  | .release => ({ mode := .release }, v)

/-- Parse the last component: the revision, if that is it. -/
def Scan.last (st : Scan) (foldZeroRev : Bool) : Except Fault (Scan × Option ℕ) :=
  if st.mode = .revision then
    if !st.numeric then badArg "revision should be 2-byte unsigned integer"
    else do
      let rev ← uint16 st.comp "revision"
      pure (st, if rev ≠ 0 ∨ foldZeroRev = false then some rev else none)
  else if st.comp ≠ [] then do
    let st ← st.addComponent
    pure (st, none)
  else pure (st, none)

/-- `default_epoch`. -/
def defaultEpoch (canonicalUpstream : Bytes) (release : Option Bytes) : ℕ :=
  if canonicalUpstream = [] ∧ release = none then 0 else 1

/-- The original and canonical parts of what has been parsed. -/
def Scan.parts (st : Scan) (pr : Parse) (revision : Option ℕ) : DataType :=
  let up := pr ≠ .release ∧ st.canonUpstream.text ≠ []
  let rel := st.canonRelease.text ≠ []
  { upstream := if up ∧ pr = .full then st.upstream else []
    canonicalUpstream := if up then st.canonUpstream.final else []
    release :=
      if pr ≠ .full then none
      else if rel then some st.release
      else if st.mode = .release then some []
      else none
    canonicalRelease :=
      if pr = .upstream then []
      else if rel then st.canonRelease.final
      else if st.mode = .release then []
      else str ['~']
    revision := revision }

/-- The end of the string. -/
def Scan.finish (st : Scan) (pr : Parse) (foldZeroRev : Bool) : Except Fault DataType :=
  if st.mode = .epoch ∨ (st.comp = [] ∧ st.mode ≠ .release ∧ pr ≠ .upstream) then
    badArg "unexpected end"
  else do
    let (st, revision) ← st.last foldZeroRev
    let d := st.parts pr revision
    if pr = .full then
      let epoch := st.ep.getD (defaultEpoch d.canonicalUpstream d.release)
      if epoch = 0 ∧ d.canonicalUpstream = [] ∧ d.canonicalRelease = [] then
        if d.revision.isSome then .error .assertion else badArg "empty version"
      else pure { d with epoch := epoch }
    else pure d

/-- `version::data_type (v, pr, fold_zero_rev)`, `v` absent for `nullptr`. -/
def DataType.parse (v : Option Bytes) (pr : Parse) (foldZeroRev : Bool) : Except Fault DataType :=
  if foldZeroRev ∧ pr ≠ .full then .error .assertion
  else
    match v with
    | none =>
      if pr = .release then pure { canonicalRelease := str ['~'] } else .error .assertion
    | some v => do
      let st ← (Scan.start pr v).2.foldlM (step pr) (Scan.start pr v).1
      st.finish pr foldZeroRev

/-- The characters of a string up to the first NUL. -/
def cString (s : Bytes) : Bytes := s.takeWhile (· ≠ 0)

/-- `version (v, fold_zero_revision)`. -/
def ofString (v : Bytes) (foldZeroRevision : Bool) : Except Fault Version := do
  let d ← DataType.parse (some (cString v)) .full foldZeroRevision
  pure ⟨d.epoch, d.upstream, d.release, d.revision, 0, d.canonicalUpstream, d.canonicalRelease⟩

/-- `version (epoch, upstream, release, revision, iteration)`. -/
def ofParts (e : ℕ) (u : Bytes) (l : Option Bytes) (r : Option ℕ) (i : ℕ) :
    Except Fault Version := do
  let up ← DataType.parse (some (cString u)) .upstream false
  let rel ← DataType.parse (l.map cString) .release false
  if u = [] then
    if e ≠ 0 then badArg "epoch for empty version"
    else if l ≠ some [] then badArg "not-empty release for empty version"
    else if r.isSome then badArg "revision for empty version"
    else if i ≠ 0 then badArg "iteration for empty version"
    else pure ⟨e, u, l, r, i, up.canonicalUpstream, rel.canonicalRelease⟩
  else if l = some [] ∧ (r.isSome ∨ i ≠ 0) then badArg "revision for earliest possible release"
  else pure ⟨e, u, l, r, i, up.canonicalUpstream, rel.canonicalRelease⟩

/-! ### The order and the string representation -/

def empty (v : Version) : Bool := v.upstream = []

/-- `effective_revision`. -/
def effectiveRevision (v : Version) : ℕ := v.revision.getD 0

/-- An absent revision is less than any other. -/
def revisionLt : Option ℕ → Option ℕ → Bool
  | none, some _ => true
  | some m, some n => m < n
  | _, none => false

/-- `compare`, its sign as an `Ordering`. -/
def compare (x y : Version) (ignoreRevision ignoreIteration : Bool) : Ordering :=
  if x.epoch ≠ y.epoch then
    if x.epoch < y.epoch then .lt else .gt
  else
    (Ord.compare x.canonicalUpstream y.canonicalUpstream).then <|
    (Ord.compare x.canonicalRelease y.canonicalRelease).then <|
    if ignoreRevision then .eq
    else if x.revision ≠ y.revision then
      if revisionLt x.revision y.revision then .lt else .gt
    else if !ignoreIteration && x.iteration ≠ y.iteration then
      if x.iteration < y.iteration then .lt else .gt
    else .eq

/-- `x.compare (y)`. -/
def cmp (x y : Version) : Ordering := x.compare y false false

/-- `string`. -/
def string (v : Version) (ignoreRevision ignoreIteration : Bool) : Except Fault Bytes :=
  if v.empty then .error (.logicError "empty version")
  else
    pure <|
      (if v.epoch ≠ defaultEpoch v.canonicalUpstream v.release then
        str ['+'] ++ decimal v.epoch ++ str ['-'] ++ v.upstream
      else v.upstream) ++
      (match v.release with
        | some l => ch '-' :: l
        | none => []) ++
      if ignoreRevision then []
      else
        (match v.revision with
          | some r => ch '+' :: decimal r
          | none => []) ++
        if !ignoreIteration && v.iteration ≠ 0 then ch '#' :: decimal v.iteration else []

end Version

end Build2.Libbpkg
