import Build2.Libbpkg.VersionConstraint.Basic

/-! # Constraint satisfaction

The two functions `satisfies` of `bpkg`, of a version and of a constraint, and the predicate on
stored versions that `query_available` makes of a constraint. -/

namespace Build2.Bpkg

open Build2.Lib.ByteString Build2.Libbpkg Build2.Libbutl.ParseUint

/-- `wildcard_version (0, "0", nullopt, nullopt, 0)`. -/
def wildcardVersion : Version := ⟨0, str ['0'], none, none, 0, [], str ['~']⟩

/-! ### In memory -/

/-- The version is not before the min endpoint `m`. -/
def atMin (v m : Version) (isOpen : Bool) : Bool :=
  let i := v.compare m (!m.revision.isSome) false
  if isOpen then i = .gt else i ≠ .lt

/-- The version is not after the max endpoint `m`. -/
def atMax (v m : Version) (isOpen : Bool) : Bool :=
  let i := v.compare m (!m.revision.isSome) false
  if isOpen then i = .lt else i ≠ .gt

/-- `satisfies (v, c)` of a version. An absent revision means the zero revision in the version and
any revision in the constraint. -/
def satisfiesVersion (v : Version) (c : VersionConstraint) : Except Fault Bool :=
  if c.empty || !c.complete then .error .assertion
  else if v.cmp wildcardVersion = .eq then pure true
  else do
    let ev ← Version.ofParts v.epoch v.upstream v.release (some v.effectiveRevision) v.iteration
    pure ((c.minVersion.all fun m => atMin ev m c.minOpen) &&
      c.maxVersion.all fun m => atMax ev m c.maxOpen)

/-- `norm`: the endpoint with the revision that an absent one translates into. -/
def norm (v : Version) (isMin isOpen : Bool) : Except Fault Version :=
  if v.revision.isSome ∨ v.release = some [] then pure v
  else
    Version.ofParts v.epoch v.upstream v.release
      (some (if (isMin && !isOpen) || (!isMin && isOpen) then 0 else 65535)) v.iteration

/-- The min endpoint of `l` is not before that of `r`. -/
def minWithin (l r : VersionConstraint) : Except Fault Bool :=
  match l.minVersion, r.minVersion with
  | some lm, some rm => do
    let lv ← norm lm true l.minOpen
    let rv ← norm rm true r.minOpen
    let i := lv.compare rv false false
    pure (if l.minOpen then i ≠ .lt else if r.minOpen then i = .gt else i ≠ .lt)
  | some _, none => pure true
  | none, rm => pure rm.isNone

/-- The max endpoint of `l` is not after that of `r`. -/
def maxWithin (l r : VersionConstraint) : Except Fault Bool :=
  match l.maxVersion, r.maxVersion with
  | some lm, some rm => do
    let lv ← norm lm false l.maxOpen
    let rv ← norm rm false r.maxOpen
    let i := lv.compare rv false false
    pure (if l.maxOpen then i ≠ .gt else if r.maxOpen then i = .lt else i ≠ .gt)
  | some _, none => pure true
  | none, rm => pure rm.isNone

/-- `satisfies (l, r)` of constraints. -/
def satisfies (l r : VersionConstraint) : Except Fault Bool :=
  if l.empty || !l.complete || r.empty || !r.complete then .error .assertion
  else do
    let s ← minWithin l r
    if s then maxWithin l r else pure s

/-! ### In the database -/

/-- `canonical_version`, the version as it is stored. -/
structure CanonicalVersion where
  epoch : ℕ
  canonicalUpstream : Bytes
  canonicalRelease : Bytes
  revision : ℕ
  iteration : ℕ
  deriving DecidableEq, Repr

/-- `canonical_version (v)`. -/
def canonicalVersion (v : Version) : CanonicalVersion where
  epoch := v.epoch
  canonicalUpstream := v.canonicalUpstream
  canonicalRelease := v.canonicalRelease
  revision := v.effectiveRevision
  iteration := v.iteration

section

variable (x y : CanonicalVersion) (revision iteration : Bool)

/-- The order of `TEXT` columns. -/
def textLt (s t : Bytes) : Bool := compare s t = .lt

/-- The epoch and the canonical parts are equal. -/
def sameParts : Bool :=
  x.epoch = y.epoch && x.canonicalUpstream = y.canonicalUpstream &&
    x.canonicalRelease = y.canonicalRelease

/-- The epoch and the canonical upstream part are less. -/
def upstreamLt : Bool :=
  x.epoch < y.epoch || (x.epoch = y.epoch && textLt x.canonicalUpstream y.canonicalUpstream)

/-- The upstream parts are equal and the release part is less. -/
def releaseLt : Bool :=
  x.epoch = y.epoch && x.canonicalUpstream = y.canonicalUpstream &&
    textLt x.canonicalRelease y.canonicalRelease

/-- `compare_version_eq`. -/
def compareVersionEq : Except Fault Bool :=
  if !(revision || !iteration) then .error .assertion
  else
    pure <|
      if !revision then sameParts x y
      else if !iteration then sameParts x y && x.revision = y.revision
      else sameParts x y && x.revision = y.revision && x.iteration = y.iteration

/-- `compare_version_lt`. -/
def compareVersionLt : Except Fault Bool :=
  if !(revision || !iteration) then .error .assertion
  else
    pure <|
      upstreamLt x y || releaseLt x y ||
      (revision && ((sameParts x y && x.revision < y.revision) ||
        (iteration && (sameParts x y && x.revision = y.revision && x.iteration < y.iteration))))

/-- `compare_version_le`. -/
def compareVersionLe : Except Fault Bool :=
  if !(revision || !iteration) then .error .assertion
  else
    pure <|
      upstreamLt x y ||
      if !revision then releaseLt x y || sameParts x y
      else
        releaseLt x y ||
        if !iteration then sameParts x y && x.revision ≤ y.revision
        else (sameParts x y && x.revision < y.revision) ||
          (sameParts x y && x.revision = y.revision && x.iteration ≤ y.iteration)

/-- `compare_version_gt`: the other way round. -/
def compareVersionGt : Except Fault Bool := compareVersionLt y x revision iteration

/-- `compare_version_ge`. -/
def compareVersionGe : Except Fault Bool := compareVersionLe y x revision iteration

end

/-- The predicate on stored versions that `query_available` makes of a constraint. -/
def queryAvailable (c : VersionConstraint) (vm : CanonicalVersion) : Except Fault Bool :=
  if !c.complete then .error .assertion
  else do
    let qs ← compareVersionEq vm (canonicalVersion wildcardVersion) false false
    match c.minVersion, c.maxVersion with
    | some mn, some mx =>
      if mn.cmp mx = .eq then do
        let qr ← compareVersionEq vm (canonicalVersion mn) mn.revision.isSome false
        pure (qr || qs)
      else do
        let qr ← queryMin mn
        let qr' ← queryMax mx
        pure (qr && qr' || qs)
    | some mn, none => do
      let qr ← queryMin mn
      pure (qr || qs)
    | none, some mx => do
      let qr ← queryMax mx
      pure (qr || qs)
    | none, none => pure true
where
  queryMin (v : Version) : Except Fault Bool :=
    if c.minOpen then compareVersionGt vm (canonicalVersion v) v.revision.isSome false
    else compareVersionGe vm (canonicalVersion v) v.revision.isSome false
  queryMax (v : Version) : Except Fault Bool :=
    if c.maxOpen then compareVersionLt vm (canonicalVersion v) v.revision.isSome false
    else compareVersionLe vm (canonicalVersion v) v.revision.isSome false

end Build2.Bpkg
