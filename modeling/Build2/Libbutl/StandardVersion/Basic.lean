import Build2.Libbutl.ParseUint

/-! # Standard versions

The class `standard_version`: its fields, the accessors that decode the packed number
`AAAAABBBBBCCCCCDDDE`, the order, and the string representations. -/

namespace Build2.Libbutl

open Build2.Lib.ByteString Build2.Lib.Decimal Build2.Libbutl.ParseUint

/-- A `standard_version` object. The default values are those of the empty version. -/
structure StandardVersion where
  epoch : ℕ := 1
  version : ℕ := 0
  snapshotSn : ℕ := 0
  snapshotId : Bytes := []
  revision : ℕ := 0
  deriving DecidableEq, Repr

namespace StandardVersion

/-- `standard_version::flags`. -/
structure Flags where
  allowEarliest : Bool
  allowStub : Bool
  deriving DecidableEq, Repr

/-- No flag. -/
def Flags.none : Flags := ⟨false, false⟩

/-- The flag `allow_earliest`. -/
def Flags.earliest : Flags := ⟨true, false⟩

/-- `uint64_t (~0)`, the version number of a stub. -/
def stubVersion : ℕ := 2 ^ 64 - 1

/-- `latest_sn`, the snapshot number of `z`. -/
def latestSn : ℕ := 2 ^ 64 - 1

/-- The version created by the default constructor. -/
def emptyVersion : StandardVersion := {}

/-! ### Predicates and accessors -/

def empty (v : StandardVersion) : Bool := v.version = 0

def stub (v : StandardVersion) : Bool := v.version = stubVersion

def snapshot (v : StandardVersion) : Bool := v.snapshotSn ≠ 0

/-- `AAAAABBBBBCCCCCDDD` with the one that a pre-release has borrowed given back. -/
def unborrowed (v : StandardVersion) : ℕ :=
  let e := v.version % 10
  let w := v.version / 10
  let ab := w % 1000
  if ab ≠ 0 ∨ e = 1 then w + (1000 - ab) else w

def major (v : StandardVersion) : ℕ := v.unborrowed / 10000000000000 % 100000

def minor (v : StandardVersion) : ℕ := v.unborrowed / 100000000 % 100000

def patch (v : StandardVersion) : ℕ := v.unborrowed / 1000 % 100000

def release (v : StandardVersion) : Bool := v.version % 10000 = 0

/-- The `DDD` part of a pre-release. -/
def preRelease (v : StandardVersion) : Option ℕ :=
  if v.release || v.stub then none else some (v.version / 10 % 1000)

def alpha (v : StandardVersion) : Option ℕ :=
  match v.preRelease with
  | some pr => if pr < 500 then some pr else none
  | none => none

def beta (v : StandardVersion) : Option ℕ :=
  match v.preRelease with
  | some pr => if 500 ≤ pr then some (pr - 500) else none
  | none => none

def final (v : StandardVersion) : Bool := v.release || !(v.snapshot || v.stub)

def earliest (v : StandardVersion) : Bool := v.version % 10000 = 1 && !v.snapshot && !v.stub

def latestSnapshot (v : StandardVersion) : Bool := v.snapshot && v.snapshotSn = latestSn

/-- `compare`, its sign as an `Ordering`. -/
def compare (x y : StandardVersion) (ignoreRevision : Bool) : Ordering :=
  if x.epoch ≠ y.epoch then
    if x.epoch < y.epoch then .lt else .gt
  else if x.version ≠ y.version then
    if x.version < y.version then .lt else .gt
  else if x.snapshotSn ≠ y.snapshotSn then
    if x.snapshotSn < y.snapshotSn then .lt else .gt
  else if !ignoreRevision && x.revision ≠ y.revision then
    if x.revision < y.revision then .lt else .gt
  else .eq

/-- `x.compare (y)`, the revisions included. -/
def cmp (x y : StandardVersion) : Ordering := x.compare y false

/-! ### String representations -/

def stringPreRelease (v : StandardVersion) : Bytes :=
  if (v.alpha.isSome && !v.earliest) || v.beta.isSome then
    let ab := v.version / 10 % 1000
    if ab < 500 then str ['a', '.'] ++ decimal ab else str ['b', '.'] ++ decimal (ab - 500)
  else []

def stringVersion (v : StandardVersion) : Bytes :=
  if v.empty then []
  else if v.stub then str ['0']
  else
    decimal v.major ++ str ['.'] ++ decimal v.minor ++ str ['.'] ++ decimal v.patch ++
      if v.alpha.isSome || v.beta.isSome then
        str ['-'] ++ v.stringPreRelease ++ if v.snapshot then str ['.'] else []
      else []

def stringSnapshot (v : StandardVersion) : Bytes :=
  if v.snapshot then
    (if v.snapshotSn = latestSn then str ['z'] else decimal v.snapshotSn) ++
      if v.snapshotId ≠ [] then str ['.'] ++ v.snapshotId else []
  else []

def stringProject (v : StandardVersion) (rev : Bool) : Bytes :=
  v.stringVersion ++ (if v.snapshot then v.stringSnapshot else []) ++
    if rev && v.revision ≠ 0 then str ['+'] ++ decimal v.revision else []

def string (v : StandardVersion) : Bytes :=
  (if v.epoch ≠ 1 && !v.stub then str ['+'] ++ decimal v.epoch ++ str ['-'] else []) ++
    v.stringProject true

end StandardVersion

end Build2.Libbutl
