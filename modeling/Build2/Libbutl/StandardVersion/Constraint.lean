import Build2.Libbutl.StandardVersion.Parse

/-! # Standard version constraints

The class `standard_version_constraint`: its parser, which may complete the version `$` from the
version of a dependent package, the printer and the test of a version. -/

namespace Build2.Libbutl.StandardVersion

open Build2.Lib.ByteString Build2.Lib.Stateful Build2.Libbutl.ParseUint

/-- A `standard_version_constraint` object. -/
structure Constraint where
  minVersion : Option StandardVersion
  maxVersion : Option StandardVersion
  minOpen : Bool
  maxOpen : Bool
  deriving DecidableEq, Repr

/-- An endpoint is absent or a version that is neither empty nor a stub. -/
def validEndpoint : Option StandardVersion → Bool
  | some v => !v.empty && !v.stub
  | none => true

/-- `standard_version_constraint (mnv, mno, mxv, mxo)`. -/
def Constraint.ofVersions (mnv : Option StandardVersion) (mno : Bool)
    (mxv : Option StandardVersion) (mxo : Bool) : Call Constraint :=
  if !((mnv.isSome || mxv.isSome) && validEndpoint mnv && validEndpoint mxv &&
      (mnv.isSome || mno) && (mxv.isSome || mxo)) then
    Comp.fail .assertion
  else
    match mnv, mxv with
    | some mn, some mx =>
      if mn.cmp mx = .gt then bail "min version is greater than max version"
      else if mn.cmp mx = .eq ∧ (mno ∨ mxo) then bail "equal version endpoints not closed"
      else if mn.cmp mx = .eq ∧ mn.earliest then bail "equal version endpoints are earliest"
      else pure ⟨mnv, mxv, mno, mxo⟩
    | _, _ => pure ⟨mnv, mxv, mno, mxo⟩

/-- `standard_version_constraint (v)`. -/
def Constraint.ofVersion (v : StandardVersion) : Call Constraint :=
  Constraint.ofVersions (some v) false (some v) false

/-- `shortcut_max_version`: the right endpoint of the range of a shortcut operator. -/
def shortcutMaxVersion (c : UInt8) (version : StandardVersion) (ignoreOverflow : Bool) :
    Call StandardVersion :=
  if c ≠ ch '~' ∧ c ≠ ch '^' then Comp.fail .assertion
  else if c = ch '~' ∨ (c = ch '^' ∧ version.major = 0) then
    if version.minor = 99999 then
      if ignoreOverflow then pure emptyVersion else bail "invalid minor version"
    else
      ofEpochSnapshotString version.epoch
        (version.major * 100000000000000 + (version.minor + 1) * 1000000000 - 10000 + 1) [] 0
        .earliest
  else
    if version.major = 99999 then
      if ignoreOverflow then pure emptyVersion else bail "invalid major version"
    else
      ofEpochSnapshotString version.epoch
        ((version.major + 1) * 100000000000000 - 10000 + 1) [] 0 .earliest

/-- A failure reported as that of a part of the constraint. -/
def within (what : String) : Fault → Fault
  | .invalidArgument m => .invalidArgument (what ++ m)
  | e => e

/-- The dependent version to complete a constraint with, its revision stripped. -/
def dependentVersion (v : StandardVersion) : Call StandardVersion :=
  if v.latestSnapshot then bail "dependent version is latest snapshot"
  else if v.stub then bail "dependent version is stub"
  else pure { v with revision := 0 }

/-- An endpoint: the dependent version for `$`, if there is one, or else a version. -/
def parseEndpoint (t : Bytes) (v : Option StandardVersion) (f : Flags) : Call StandardVersion :=
  match v with
  | some v => if t = [ch '$'] then dependentVersion v else ofString t f
  | none => ofString t f

/-- Neither a blank nor a closing bracket. -/
def isMaxVersion (b : UInt8) : Bool := !(isBlank b || b = ch ']' || b = ch ')')

/-- Not a closing bracket. -/
def isNotClosing (b : UInt8) : Bool := !(b = ch ']' || b = ch ')')

/-- A range, from the position after the opening bracket. -/
def parseRange (s : Bytes) (minOpen : Bool) (v : Option StandardVersion) : Call Constraint :=
  let s := s.dropWhile isBlank
  if s = [] then bail "no min version"
  else do
    let minVersion ← (parseEndpoint (s.takeWhile fun b => !isBlank b) v .earliest).mapError
      (within "invalid min version: ")
    let s := (s.dropWhile fun b => !isBlank b).dropWhile isBlank
    if s = [] then bail "no max version"
    else do
      let maxVersion ← (parseEndpoint (s.takeWhile isMaxVersion) v .earliest).mapError
        (within "invalid max version: ")
      let s := (s.dropWhile isMaxVersion).dropWhile isNotClosing
      if s = [] then bail "no closing bracket"
      else if s.tail ≠ [] then bail "junk after constraint"
      else Constraint.ofVersions (some minVersion) minOpen (some maxVersion) (hd s = ch ')')

/-- The endpoints that `~$` and `^$` are completed with, the right one empty if it is still to be
derived from the left one. -/
def completeShortcut (c : UInt8) (dv : StandardVersion) :
    Call (StandardVersion × StandardVersion) :=
  let minor := if c = ch '^' ∧ dv.major ≠ 0 then 0 else dv.minor
  if dv.release then do
    let minVersion ← ofComponents dv.epoch dv.major minor 0 0 0
    pure (minVersion, emptyVersion)
  else if dv.final ∨ (dv.snapshot ∧ dv.patch ≠ 0) then do
    let minVersion ← ofComponents dv.epoch dv.major minor 0
      (if dv.patch ≠ 0 ∨ (c = ch '^' ∧ dv.minor ≠ 0) then 0 else 1) 0
    pure (minVersion, emptyVersion)
  else if !(dv.snapshot && dv.patch = 0) then Comp.fail .assertion
  else do
    let pr := dv.preRelease.getD 0
    let minVersion ← ofSnapshotComponents dv.epoch dv.major dv.minor 0 pr 1 [] 0
    let maxVersion ← ofComponents dv.epoch dv.major dv.minor 0 (pr + 1) 0
    pure (minVersion, maxVersion)

/-- The endpoints of a shortcut constraint. -/
def shortcutEndpoints (c : UInt8) (t : Bytes) (v : Option StandardVersion) :
    Call (StandardVersion × StandardVersion) := do
  let (minVersion, maxVersion) ←
    match v with
    | some v =>
      if t = [ch '$'] then do
        let dv ← dependentVersion v
        completeShortcut c dv
      else do
        let minVersion ← ofString t .earliest
        pure (minVersion, emptyVersion)
    | none => do
      let minVersion ← ofString t .earliest
      pure (minVersion, emptyVersion)
  if maxVersion.empty then do
    let maxVersion ← shortcutMaxVersion c minVersion false
    pure (minVersion, maxVersion)
  else pure (minVersion, maxVersion)

/-- A shortcut, from the position after the operator `c`. -/
def parseShortcut (c : UInt8) (s : Bytes) (v : Option StandardVersion) : Call Constraint :=
  let s := s.dropWhile isBlank
  if s = [] then bail "no version"
  else do
    let (minVersion, maxVersion) ← (shortcutEndpoints c s v).mapError (within "invalid version: ")
    -- the constructor is not expected to throw
    (Constraint.ofVersions (some minVersion) false (some maxVersion) true).mapError fun
      | .invalidArgument _ => .assertion
      | e => e

/-- The comparison operators. -/
inductive Comparison
  | eq
  | lt
  | gt
  | le
  | ge
  deriving DecidableEq, Repr

/-- The comparison at the start of a constraint and the position after it. -/
def parseComparison (s : Bytes) : Option (Comparison × Bytes) :=
  if s.take 2 = [ch '=', ch '='] then some (.eq, s.drop 2)
  else if s.take 2 = [ch '>', ch '='] then some (.ge, s.drop 2)
  else if s.take 2 = [ch '<', ch '='] then some (.le, s.drop 2)
  else if s.take 1 = [ch '>'] then some (.gt, s.drop 1)
  else if s.take 1 = [ch '<'] then some (.lt, s.drop 1)
  else none

/-- A comparison with a version. -/
def parseOperation (s : Bytes) (v : Option StandardVersion) : Call Constraint :=
  match parseComparison s with
  | none => bail "invalid constraint"
  | some (operation, s) =>
    let s := s.dropWhile isBlank
    if s = [] then bail "no version"
    else do
      let cv ← (parseEndpoint s v (if operation ≠ .eq then .earliest else .none)).mapError
        (within "invalid version: ")
      match operation with
      | .eq => Constraint.ofVersion cv
      | .lt => Constraint.ofVersions none true (some cv) true
      | .le => Constraint.ofVersions none true (some cv) false
      | .gt => Constraint.ofVersions (some cv) true none true
      | .ge => Constraint.ofVersions (some cv) false none true

/-- `parse_constraint`, `v` the version of the dependent package if one is given. -/
def parseConstraint (s : Bytes) (v : Option StandardVersion) : Call Constraint :=
  if v.any empty then bail "dependent version is empty"
  else if v.any earliest then bail "dependent version is earliest"
  else if hd s = ch '(' ∨ hd s = ch '[' then parseRange s.tail (hd s = ch '(') v
  else if hd s = ch '~' ∨ hd s = ch '^' then parseShortcut (hd s) s.tail v
  else parseOperation s v

/-- `standard_version_constraint (s)`. -/
def Constraint.ofString (s : Bytes) : Call Constraint := parseConstraint s none

/-- `standard_version_constraint (s, dependent_version)`. -/
def Constraint.ofDependent (s : Bytes) (v : StandardVersion) : Call Constraint :=
  parseConstraint s (some v)

/-- `string`: as a shortcut where the right endpoint is that of one. -/
def Constraint.string (c : Constraint) : Call Bytes :=
  match c.minVersion, c.maxVersion with
  | none, none => Comp.fail .assertion
  | none, some mx => pure (str (if c.maxOpen then ['<', ' '] else ['<', '=', ' ']) ++ mx.string)
  | some mn, none => pure (str (if c.minOpen then ['>', ' '] else ['>', '=', ' ']) ++ mn.string)
  | some mn, some mx =>
    let range := ch (if c.minOpen then '(' else '[') :: (mn.string ++ ch ' ' :: (mx.string ++
      [ch (if c.maxOpen then ')' else ']')]))
    if mn.cmp mx = .eq then pure (str ['=', '=', ' '] ++ mn.string)
    else if !c.minOpen && c.maxOpen then do
      -- an endpoint that cannot be formed is empty, which no right endpoint is
      let caret ← shortcutMaxVersion (ch '^') mn true
      if caret.cmp mx = .eq then pure (ch '^' :: mn.string)
      else do
        let tilde ← shortcutMaxVersion (ch '~') mn true
        if tilde.cmp mx = .eq then pure (ch '~' :: mn.string) else pure range
    else pure range

/-- `satisfies`. -/
def Constraint.satisfies (c : Constraint) (v : StandardVersion) : Bool :=
  (match c.minVersion with
    | some mn => if c.minOpen then v.cmp mn = .gt else v.cmp mn ≠ .lt
    | none => true) &&
  (match c.maxVersion with
    | some mx => if c.maxOpen then v.cmp mx = .lt else v.cmp mx ≠ .gt
    | none => true)

end Build2.Libbutl.StandardVersion
