import Build2.Libbpkg.Version.Basic

/-! # Package version constraints

The class `version_constraint`: its parser, which keeps the version `$` of the dependent package as
an empty version, and its completion. Shortcut operators go through standard version constraints. -/

namespace Build2.Libbpkg

open Build2.Lib.ByteString Build2.Lib.Stateful Build2.Libbutl Build2.Libbutl.ParseUint
open StandardVersion (Comparison isMaxVersion isNotClosing parseComparison bail within)

/-- A `version_constraint` object. -/
structure VersionConstraint where
  minVersion : Option Version
  maxVersion : Option Version
  minOpen : Bool
  maxOpen : Bool
  deriving DecidableEq, Repr

namespace VersionConstraint

/-- `empty`. -/
def empty (c : VersionConstraint) : Bool := c.minVersion.isNone && c.maxVersion.isNone

/-- `complete`: no endpoint refers to the dependent package. -/
def complete (c : VersionConstraint) : Bool :=
  (c.minVersion.all fun v => !v.empty) && c.maxVersion.all fun v => !v.empty

/-- A call that does not look at `errno`. -/
def pureCall {α : Type} (x : Except Fault α) : Call α := fun errno => (x, errno)

/-- `version_constraint (mnv, mno, mxv, mxo)`. -/
def ofVersions (mnv : Option Version) (mno : Bool) (mxv : Option Version) (mxo : Bool) :
    Except Fault VersionConstraint :=
  if !((mnv.isSome || mxv.isSome) && (mnv.isSome || mno) && (mxv.isSome || mxo)) then
    .error .assertion
  else
    match mnv, mxv with
    | some mn, some mx =>
      let mxe := mx.empty
      -- any revision of X is in (X+Y X] and [X+Y X]
      if mn.cmp mx = .gt ∧ mxe = false ∧
          ¬ (mxo = false ∧ mx.revision = none ∧ mx.compare mn true false = .eq) then
        .error (.invalidArgument "min version is greater than max version")
      else if mn.cmp mx = .eq ∧ ((mxe = false ∧ (mno ∨ mxo)) ∨ (mxe ∧ mno ∧ mxo)) then
        .error (.invalidArgument "equal version endpoints not closed")
      else if mn.cmp mx = .eq ∧ mxe = false ∧ mx.release = some [] then
        .error (.invalidArgument "equal version endpoints are earliest")
      else pure ⟨mnv, mxv, mno, mxo⟩
    | _, _ => pure ⟨mnv, mxv, mno, mxo⟩

/-- `version_constraint (v)`. -/
def ofVersion (v : Version) : Except Fault VersionConstraint :=
  ofVersions (some v) false (some v) false

/-- An endpoint, empty for the version of the dependent package. -/
def parseEndpoint (t : Bytes) (what : String) : Call Version :=
  if t = [ch '$'] then pure {}
  else (pureCall (Version.ofString t false)).mapError (within what)

/-- A range, from the position after the opening bracket. -/
def parseRange (s : Bytes) (minOpen : Bool) : Call VersionConstraint :=
  let s := s.dropWhile isBlank
  if s = [] then bail "no min version specified"
  else if (s.dropWhile fun b => !isBlank b) = [] then bail "no max version specified"
  else do
    let minVersion ← parseEndpoint (s.takeWhile fun b => !isBlank b) "invalid min version: "
    let s := (s.dropWhile fun b => !isBlank b).dropWhile isBlank
    if s = [] then bail "no max version specified"
    else if s.dropWhile isMaxVersion = [] then bail "invalid version range"
    else do
      let maxVersion ← parseEndpoint (s.takeWhile isMaxVersion) "invalid max version: "
      let s := (s.dropWhile isMaxVersion).dropWhile isNotClosing
      if s = [] then bail "invalid version range"
      else if s.tail ≠ [] then bail "unexpected text after version range"
      else pureCall (ofVersions (some minVersion) minOpen (some maxVersion) (hd s = ch ')'))

/-- The package version constraint with the endpoints of a standard one. Any standard version is
expected to be a package version. -/
def convert (vc : StandardVersion.Constraint) : Call VersionConstraint :=
  match vc.minVersion, vc.maxVersion with
  | some mn, some mx =>
    (pureCall do
      let mnv ← Version.ofString mn.string true
      let mxv ← Version.ofString mx.string true
      ofVersions (some mnv) vc.minOpen (some mxv) vc.maxOpen).mapError fun
        | .invalidArgument _ => .assertion
        | e => e
  | _, _ => Comp.fail .assertion

/-- A shortcut of operator `c`. -/
def parseShortcut (c : UInt8) (s : Bytes) : Call VersionConstraint :=
  if s.dropWhile isBlank = [ch '$'] then
    pureCall (ofVersions (some {}) (c = ch '~') (some {}) (c = ch '^'))
  else do
    let vc ← StandardVersion.Constraint.ofString (c :: s)
    convert vc

/-- A comparison with a version. -/
def parseOperation (s : Bytes) : Call VersionConstraint :=
  match parseComparison s with
  | none => bail "invalid version comparison"
  | some (operation, s) =>
    let s := s.dropWhile isBlank
    if s = [] then bail "no version specified"
    else (pureCall do
      let v ← if s = [ch '$'] then pure {} else Version.ofString s false
      match operation with
      | .eq => ofVersion v
      | .lt => ofVersions none true (some v) true
      | .le => ofVersions none true (some v) false
      | .gt => ofVersions (some v) true none true
      | .ge => ofVersions (some v) false none true).mapError (within "invalid version: ")

/-- `version_constraint (s)`. -/
def ofString (s : Bytes) : Call VersionConstraint :=
  if hd s = ch '(' ∨ hd s = ch '[' then parseRange s.tail (hd s = ch '(')
  else if hd s = ch '~' ∨ hd s = ch '^' then parseShortcut (hd s) s.tail
  else parseOperation s

/-! ### Completion -/

/-- The endpoints are the empty version, and one of them is open. -/
def isShortcut (c : VersionConstraint) : Bool :=
  match c.minVersion, c.maxVersion with
  | some mn, some mx => mn.empty && mx.cmp mn = .eq && (c.minOpen || c.maxOpen)
  | _, _ => false

/-- `effective`. -/
def effective (c : VersionConstraint) (v : Version) : Call VersionConstraint :=
  if v.empty then bail "dependent version is empty"
  else if v.release = some [] then bail "dependent version is earliest"
  else do
    -- strip the revision and the iteration
    let v ← pureCall (Version.ofParts v.epoch v.upstream v.release none 0)
    if c.isShortcut then do
      if c.minOpen ∧ c.maxOpen then Comp.fail .assertion
      else do
        let vs ← pureCall (v.string false false)
        match ← StandardVersion.parseStandardVersion vs ⟨false, true⟩ with
        | none => bail "dependent version is not standard"
        | some sv => do
          let vc ← StandardVersion.Constraint.ofDependent
            [ch (if c.minOpen then '~' else '^'), ch '$'] sv
          convert vc
    else
      let complete (x : Option Version) := x.map fun x => if x.empty then v else x
      pureCall (ofVersions (complete c.minVersion) c.minOpen (complete c.maxVersion) c.maxOpen)

end VersionConstraint

end Build2.Libbpkg
