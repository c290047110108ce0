import Build2.Libbutl.StandardVersion.Basic

/-! # Parsing a standard version

`check_version`, `parse_snapshot`, `parse_version` and the public constructors. A position in the
string is the suffix that starts there, so that `s[++p]` is `hd s.tail`. -/

namespace Build2.Libbutl.StandardVersion

open Build2.Lib.ByteString Build2.Lib.Decimal Build2.Lib.Stateful Build2.Libbutl.ParseUint

/-- `throw invalid_argument (m)`, which is also how a parser bails out. -/
def bail {α : Type} (m : String) : Call α := Comp.fail (.invalidArgument m)

/-- A number, or else bail out. -/
def orBail {α : Type} (x : Comp Errno Unit α) (m : String) : Call α :=
  x.mapError fun _ => .invalidArgument m

/-- The test of `check_version`: the version number, whether it is of a snapshot, the flags. -/
def validVersion (vr : ℕ) (sn : Bool) (fl : Flags) : Bool :=
  if vr = stubVersion ∧ fl.allowStub then !sn
  else
    let e := vr % 10
    let ab := vr / 10 % 1000
    vr < 10000000000000000000 &&
      (if !fl.allowEarliest then e = if sn then 1 else 0 else e = 1 || (e = 0 && !sn)) &&
      (if ab ≠ 0 then ab ≠ 500 || sn else true) &&
      vr / 10000 ≠ 0

/-- `check_version`. -/
def checkVersion (vr : ℕ) (sn : Bool) (fl : Flags) : Call Unit :=
  if validVersion vr sn fl then pure () else bail "invalid standard version"

/-- `parse_snapshot`: the snapshot number and id, and the position after them. -/
def parseSnapshot (s : Bytes) : Call (ℕ × Bytes × Bytes) :=
  if hd s = ch 'z' then pure (latestSn, [], s.tail)
  else do
    let (sn, s) ← orBail (parseUint64 s 1 (latestSn - 1)) "invalid snapshot number"
    if hd s = ch '.' then
      let id := s.tail.takeWhile isAlnum
      if id = [] ∨ 16 < id.length then bail "invalid snapshot id"
      else pure (sn, id, s.tail.dropWhile isAlnum)
    else pure (sn, [], s)

/-- The epoch in front of a version, if there is one. -/
def parseEpoch (s : Bytes) : Call (Option ℕ × Bytes) :=
  if hd s = ch '+' then do
    let (epoch, s) ← orBail (parseUint16 s.tail 1 65535) "invalid epoch"
    if hd s = ch '-' then pure (some epoch, s.tail) else bail "'-' expected after epoch"
  else pure (none, s)

/-- What the pre-release part of a version says. -/
structure PreRelease where
  ab : ℕ := 0
  snapshotSn : ℕ := 0
  snapshotId : Bytes := []
  earliest : Bool := false
  deriving DecidableEq, Repr

/-- The `DDD` of a pre-release letter and number. -/
def ddd (k : UInt8) (num : ℕ) : ℕ := if k = ch 'b' then num + 500 else num

/-- The number and the snapshot of a pre-release, after the letter `k` and the dot. -/
def parsePreReleaseNumber (k : UInt8) (s : Bytes) : Call (PreRelease × Bytes) := do
  let (num, s) ← orBail (parseUint16 s 0 499) "invalid pre-release"
  let ab := ddd k num
  if hd s = ch '.' then do
    let (sn, id, s) ← parseSnapshot s.tail
    pure ({ ab := ab, snapshotSn := sn, snapshotId := id }, s)
  else if ab = 0 ∨ ab = 500 then bail "invalid final pre-release"
  else pure ({ ab := ab }, s)

/-- The pre-release part of a version, if there is one. -/
def parsePreRelease (s : Bytes) (f : Flags) : Call (PreRelease × Bytes) :=
  if hd s ≠ ch '-' then pure ({}, s)
  else if hd s.tail = 0 ∧ f.allowEarliest then pure ({ earliest := true }, s.tail)
  else if hd s.tail ≠ ch 'a' ∧ hd s.tail ≠ ch 'b' then bail "'a' or 'b' expected in pre-release"
  else if hd s.tail.tail ≠ ch '.' then bail "'.' expected after pre-release letter"
  else parsePreReleaseNumber (hd s.tail) s.tail.tail.tail

/-- The end of a version: the revision, if there is one, and nothing after it. -/
def parseEnd (s : Bytes) (earliest : Bool) : Call ℕ :=
  if hd s = ch '+' then
    if earliest then Comp.fail .assertion
    else do
      let (revision, s) ← orBail (parseUint16 s.tail 1 65535) "invalid revision"
      if s ≠ [] then bail "junk after version" else pure revision
  else if s ≠ [] then bail "junk after version"
  else pure 0

/-- The version number of a release. -/
def releaseNumber (ma mi bf : ℕ) : ℕ := ma * 100000000000000 + mi * 1000000000 + bf * 10000

/-- The version number of a release, adjusted for the pre-release part. -/
def adjust (version : ℕ) (pr : PreRelease) : ℕ :=
  let version :=
    if pr.ab ≠ 0 ∨ pr.snapshotSn ≠ 0 ∨ pr.earliest then version - (10000 - pr.ab * 10)
    else version
  if pr.snapshotSn ≠ 0 ∨ pr.earliest then version + 1 else version

/-- A version that is not a stub, from the position after its major component. -/
def parseNormal (s : Bytes) (f : Flags) (epoch : Option ℕ) (ma : ℕ) : Call StandardVersion :=
  if hd s ≠ ch '.' then bail "'.' expected after major version"
  else do
    let (mi, s) ← orBail (parseUint32 s.tail 0 99999) "invalid minor version"
    if hd s ≠ ch '.' then bail "'.' expected after minor version"
    else do
      let (bf, s) ← orBail (parseUint32 s.tail 0 99999) "invalid patch version"
      if releaseNumber ma mi bf = 0 then bail "0.0.0 version"
      else do
        let (pr, s) ← parsePreRelease s f
        let revision ← parseEnd s pr.earliest
        let version := adjust (releaseNumber ma mi bf) pr
        pure ⟨epoch.getD 1, version, pr.snapshotSn, pr.snapshotId, revision⟩

/-- `parse_version`. -/
def parseVersion (s : Bytes) (f : Flags) : Call StandardVersion := do
  let (epoch, s) ← parseEpoch s
  let (ma, s) ← orBail (parseUint32 s 0 99999) "invalid major version"
  if f.allowStub ∧ epoch = none ∧ ma = 0 ∧ (s = [] ∨ hd s = ch '+') then do
    let revision ← parseEnd s false
    pure { epoch := 0, version := stubVersion, revision := revision }
  else parseNormal s f epoch ma

/-- `parse_standard_version`: nothing where `parse_version` gives a reason for a failure. -/
def parseStandardVersion (s : Bytes) (f : Flags) : Call (Option StandardVersion) :=
  Comp.handle (do let v ← parseVersion s f; pure (some v)) fun
    | .invalidArgument _ => pure none
    | e => Comp.fail e

/-! ### Constructors -/

/-- `standard_version (s, f)`. -/
def ofString (s : Bytes) (f : Flags) : Call StandardVersion := parseVersion s f

/-- `standard_version (v, f)`. -/
def ofNumber (v : ℕ) (f : Flags) : Call StandardVersion := do
  checkVersion v false f
  pure { version := v }

/-- `standard_version (v, s, f)`, the snapshot given as a string. -/
def ofSnapshotString (v : ℕ) (s : Bytes) (f : Flags) : Call StandardVersion := do
  checkVersion v (s ≠ []) f
  if s ≠ [] then do
    let (sn, id, s) ← parseSnapshot s
    if s ≠ [] then bail "junk after snapshot"
    else pure { version := v, snapshotSn := sn, snapshotId := id }
  else pure { version := v }

/-- `standard_version (e, v, s, r, f)`. -/
def ofEpochSnapshotString (e v : ℕ) (s : Bytes) (r : ℕ) (f : Flags) : Call StandardVersion := do
  let x ← ofSnapshotString v s f
  if x.stub ∧ e ≠ 0 then bail "epoch for stub"
  else pure { x with epoch := e, revision := r }

/-- `standard_version (ep, vr, sn, si, rv, fl)`. -/
def ofSnapshot (ep vr sn : ℕ) (si : Bytes) (rv : ℕ) (fl : Flags) : Call StandardVersion := do
  let x : StandardVersion := ⟨ep, vr, sn, si, rv⟩
  checkVersion vr true fl
  if x.stub ∧ ep ≠ 0 then bail "epoch for stub"
  else if x.stub ∧ sn ≠ 0 then bail "snapshot for stub"
  else if si ≠ [] ∧ (16 < si.length ∨ sn = 0 ∨ sn = latestSn) then bail "invalid snapshot"
  else pure x

/-- `standard_version (ep, mj, mi, pa, pr, rv)`. -/
def ofComponents (ep mj mi pa pr rv : ℕ) : Call StandardVersion :=
  ofEpochSnapshotString ep
    ((releaseNumber mj mi pa + pr * 10 + (2 ^ 64 - if pr ≠ 0 then 10000 else 0)) % 2 ^ 64)
    [] rv .none

/-- `standard_version (ep, mj, mi, pa, pr, sn, si, rv)`. -/
def ofSnapshotComponents (ep mj mi pa pr sn : ℕ) (si : Bytes) (rv : ℕ) : Call StandardVersion :=
  ofSnapshot ep ((releaseNumber mj mi pa + pr * 10 + 1 + (2 ^ 64 - 10000)) % 2 ^ 64) sn si rv .none

end Build2.Libbutl.StandardVersion
