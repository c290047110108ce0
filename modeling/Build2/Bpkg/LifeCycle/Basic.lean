import Build2.Bpkg.PkgBuild.Basic

/-! # The operations on selected packages

A record of the database is what `bpkg` knows of a selected package, and `pkg_fetch`, `pkg_unpack`,
`pkg_checkout`, `pkg_configure`, `pkg_disfigure` and `pkg_purge` rewrite it. How each filesystem
action and each invocation of the build system ends is an argument. The operations are not
simulated. -/

namespace Build2.Bpkg.LifeCycle

open Build2.Lib.ByteString Build2.Libbpkg
open PkgBuild (PackageName Dependency DependencyAlternatives PackageState PackageSubstate)

/-- The location of a repository fragment. The root fragment has the empty one. -/
inductive RepositoryLocation
  | root
  | pkg
  | dir
  | git (fragment : Bytes)
  deriving DecidableEq, Repr

namespace RepositoryLocation

def archiveBased : RepositoryLocation → Bool
  | pkg => true
  | _ => false

def directoryBased : RepositoryLocation → Bool
  | dir => true
  | _ => false

def versionControlBased : RepositoryLocation → Bool
  | git _ => true
  | _ => false

end RepositoryLocation

/-- `package_prerequisites`. -/
abbrev PackagePrerequisites := AList fun _ : PackageName => Option VersionConstraint

/-- A `selected_package`, with its name as it is spelled. Paths are relative to the configuration
or absolute. -/
structure SelectedPackage where
  spelling : Bytes
  version : Version
  state : PackageState
  substate : PackageSubstate
  holdPackage : Bool
  holdVersion : Bool
  repositoryFragment : RepositoryLocation
  archive : Option Bytes
  purgeArchive : Bool
  srcRoot : Option Bytes
  purgeSrc : Bool
  manifestChecksum : Option Bytes
  outRoot : Option Bytes
  prerequisites : PackagePrerequisites

/-- The selected packages by name. -/
abbrev Database := AList fun _ : PackageName => SelectedPackage

/-- How an operation ends when it does not succeed: an assertion, or an exception that nothing
catches, or `failed`, with what is committed to the database then. -/
inductive Failure
  | assertion
  | failed (committed : Database)

namespace SelectedPackage

/-- `name`, the object id. -/
def name (p : SelectedPackage) : PackageName := .ofString p.spelling

def external (p : SelectedPackage) : Bool :=
  p.repositoryFragment ≠ .root && p.repositoryFragment.directoryBased ||
    p.repositoryFragment = .root && p.archive.isNone

/-- The state from which a package is replaced or purged. -/
def replaceable (p : SelectedPackage) : Bool := p.state = .fetched || p.state = .unpacked

end SelectedPackage

/-- The directory `<name>-<version>`. -/
def versionedDirectory (spelling : Bytes) (v : Version) : Except Failure Bytes :=
  match v.string false false with
  | .ok s => .ok (spelling ++ ch '-' :: s)
  | .error _ => .error .assertion

/-- The `out_root` that `pkg_configure` calculates. -/
def SelectedPackage.outputDirectory (p : SelectedPackage) : Except Failure Bytes :=
  if p.external then .ok p.spelling else versionedDirectory p.spelling p.version

namespace Database

variable (db : Database)

/-- `db.find`. -/
def find (n : PackageName) : Option SelectedPackage := db.lookup n

/-- `db.persist`, which throws if there is an object with this id. -/
def persist (p : SelectedPackage) : Except Failure Database :=
  if (db.find p.name).isSome then .error .assertion else .ok (AList.insert p.name p db)

/-- `db.update`. -/
def update (p : SelectedPackage) : Database := AList.insert p.name p db

/-- `db.erase`. -/
def erase (p : SelectedPackage) : Database := AList.erase p.name db

/-- The `package_dependent`s of a package. -/
def dependents (n : PackageName) : List (PackageName × Option VersionConstraint) :=
  db.entries.filterMap fun e => (e.2.prerequisites.lookup n).map fun c => (e.1, c)

end Database

/-! ### Purging -/

/-- How the actions of `pkg_purge_fs` end. It may fail to tell whether a file exists. -/
structure PurgeActions where
  existsSrc : Option Bool
  rmSrc : Bool
  existsArchive : Option Bool
  rmArchive : Bool
  deriving Repr

/-- The object is removed if it exists. -/
def removed (isThere : Option Bool) (rm : Bool) : Bool := isThere.any fun b => !b || rm

/-- The source directory in `pkg_purge_fs`. -/
def purgeSource (db : Database) (p : SelectedPackage) (fs : PurgeActions) :
    Except Failure SelectedPackage :=
  if p.purgeSrc && p.srcRoot.isNone then .error .assertion
  else if p.purgeSrc && !removed fs.existsSrc fs.rmSrc then
    .error (.failed (Database.update db { p with state := .broken }))
  else .ok { p with purgeSrc := false, srcRoot := none, manifestChecksum := none }

/-- The archive in `pkg_purge_fs`. -/
def purgeArchiveFile (db : Database) (p : SelectedPackage) (fs : PurgeActions) :
    Except Failure SelectedPackage :=
  if p.purgeArchive && p.archive.isNone then .error .assertion
  else if p.purgeArchive && !removed fs.existsArchive fs.rmArchive then
    .error (.failed (Database.update db { p with state := .broken }))
  else .ok { p with purgeArchive := false, archive := none }

/-- `pkg_purge_fs`. -/
def pkgPurgeFs (db : Database) (p : SelectedPackage) (archive : Bool) (fs : PurgeActions) :
    Except Failure SelectedPackage :=
  if !p.replaceable then .error .assertion
  else do
    let p ← purgeSource db p fs
    if archive then purgeArchiveFile db p fs else pure p

/-- What is left on the filesystem of a broken package. -/
structure LeftBehind where
  out : Option Bool
  src : Option Bool
  archive : Option Bool
  deriving Repr

/-- The objects of a broken package that have to be gone are. -/
def cleanedUp (p : SelectedPackage) (fs : LeftBehind) : Except Failure Bool :=
  if p.outRoot.isSome && fs.out ≠ some false then .ok false
  else if p.purgeSrc && p.srcRoot.isNone then .error .assertion
  else if p.purgeSrc && fs.src ≠ some false then .ok false
  else if p.purgeArchive && p.archive.isNone then .error .assertion
  else .ok !(p.purgeArchive && fs.archive ≠ some false)

/-- `pkg_purge`. -/
def pkgPurge (db : Database) (n : PackageName) (keep force : Bool) (fs : PurgeActions)
    (left : LeftBehind) : Except Failure Database :=
  match db.find n with
  | none => .error (.failed db)
  | some p =>
    if p.replaceable then
      if p.state = .unpacked ∧ keep = true ∧ p.archive = none then .error (.failed db)
      else if p.outRoot.isSome then .error .assertion
      else do
        let p ← pkgPurgeFs db p (!keep) fs
        if !keep then return db.erase p
        else if p.state ≠ .fetched then return db.update { p with state := .fetched }
        else return db
    else if p.state = .broken then
      if !force || keep then .error (.failed db)
      else do
        if ← cleanedUp p left then return db.erase p else throw (.failed db)
    else .error (.failed db)

/-- Make way for a package with this name, for `pkg_fetch`, `pkg_unpack` and `pkg_checkout`: the
selected package is cleaned up, and erased if its name is spelled differently. -/
def makeWay (db : Database) (spelling : Bytes) (fs : PurgeActions) :
    Except Failure (Database × Option SelectedPackage) :=
  match db.find (.ofString spelling) with
  | none => .ok (db, none)
  | some p => do
    let p ← pkgPurgeFs db p true fs
    return if p.spelling ≠ spelling then (db.erase p, none) else (db, some p)

/-- The existing package, if any, may be replaced: `pkg_fetch_check`, `pkg_unpack_check` and the
same check in `pkg_checkout`. -/
def mayReplace (db : Database) (n : PackageName) (replace : Bool) : Bool :=
  (db.find n).all fun p => replace && p.replaceable

/-! ### Disfiguring -/

/-- How a process ends. -/
inductive Exit
  | success
  | failure
  | abnormal
  deriving DecidableEq, Repr

/-- How the actions of `pkg_disfigure` end. -/
structure DisfigureActions where
  existsOut : Option Bool
  build : Exit
  rmOut : Bool
  existsAfter : Option Bool
  deriving Repr

/-- The output directory is gone unless it is the source directory or not cleaned. -/
def outGone (sameRoot clean : Bool) (fs : DisfigureActions) : Bool :=
  sameRoot || !clean || fs.existsAfter = some false

/-- The actions of `pkg_disfigure` succeed. -/
def disfigured (external sameRoot clean : Bool) (fs : DisfigureActions) : Bool :=
  match fs.existsOut with
  | none => false
  | some false => outGone sameRoot clean fs
  | some true =>
    if !external then fs.build = .success && outGone sameRoot clean fs
    else if clean then fs.rmOut && outGone sameRoot true fs
    else
      match fs.build with
      | .success => outGone sameRoot false fs
      | .failure => fs.rmOut && outGone sameRoot true fs
      | .abnormal => false

/-- `pkg_disfigure (c, o, t, p, clean, simulate)`, with what it leaves in `p`. -/
def disfigure (db : Database) (p : SelectedPackage) (clean : Bool) (fs : DisfigureActions) :
    Except Failure (SelectedPackage × Database) :=
  if ¬(p.state = .configured ∨ p.state = .broken) then .error .assertion
  else if p.state = .configured && !(Database.dependents db p.name).isEmpty then
    .error (.failed db)
  else if p.substate = .system then
    .ok ({ p with state := .transient, substate := .none }, Database.erase db p)
  else if p.srcRoot.isNone || p.outRoot.isNone then .error .assertion
  else if disfigured p.external (p.srcRoot = p.outRoot) clean fs then
    let p := { p with prerequisites := ∅, outRoot := none, state := .unpacked }
    .ok (p, Database.update db p)
  else
    .error (.failed (Database.update db { p with prerequisites := ∅, state := .broken }))

/-- `pkg_disfigure`, the command. -/
def pkgDisfigure (db : Database) (n : PackageName) (keepOut : Bool) (fs : DisfigureActions) :
    Except Failure Database :=
  match db.find n with
  | none => .error (.failed db)
  | some p =>
    if p.state ≠ .configured then .error (.failed db)
    else do
      let (p, db) ← disfigure db p (!keepOut) fs
      if p.state = .unpacked ∨ p.state = .transient then return db else throw .assertion

/-! ### Prerequisites -/

/-- The build system and `bpkg` itself. The version of the former may not be determined. -/
structure Tools where
  build2 : Option Version
  bpkg : Version
  isAvailable : ∀ v ∈ build2, IsAvailable v
  bpkgIsAvailable : IsAvailable bpkg

/-- `satisfies` of a version and an optional constraint. -/
def versionSatisfies (v : Version) (c : Option VersionConstraint) : Except Failure Bool :=
  match c with
  | none => .ok true
  | some c => (satisfiesVersion v c).mapError fun _ => .assertion

/-- `satisfies` of optional constraints. -/
def constraintSatisfies (l r : Option VersionConstraint) : Except Failure Bool :=
  match l, r with
  | some l, some r => (satisfies l r).mapError fun _ => .assertion
  | some _, none => .ok true
  | none, r => .ok r.isNone

/-- The packages that stand for the tools in a build-time dependency. -/
def isTool (n : PackageName) : Bool := n = .build2 || n = .bpkg

/-- `satisfy_build2` and `satisfy_bpkg`. -/
def satisfyTool (db : Database) (tools : Tools) (d : Dependency) : Except Failure Unit :=
  if d.constraint.isNone then .ok ()
  else
    match if d.name = .build2 then tools.build2 else some tools.bpkg with
    | none => .error (.failed db)
    | some v => do
      if ← versionSatisfies v d.constraint then pure () else throw (.failed db)

/-- The package is configured in a version that satisfies the constraint. -/
def isConfigured (db : Database) (d : Dependency) : Except Failure Bool :=
  match db.find d.name with
  | none => .ok false
  | some dp =>
    if dp.state ≠ .configured then .ok false else versionSatisfies dp.version d.constraint

/-- The first of the alternatives that is satisfied. -/
def chooseAlternative (db : Database) (tools : Tools) (buildtime : Bool) :
    List Dependency → Except Failure (Option Dependency)
  | [] => .ok none
  | d :: ds =>
    if buildtime && isTool d.name then do
      satisfyTool db tools d
      return some d
    else do
      if ← isConfigured db d then return some d else chooseAlternative db tools buildtime ds

/-- Capture the constraint of a dependency. Of two on a package the stricter one is kept. -/
def capture (db : Database) (r : PackagePrerequisites) (d : Dependency) :
    Except Failure PackagePrerequisites :=
  match r.lookup d.name with
  | none => .ok (r.insert d.name d.constraint)
  | some c => do
    let s1 ← constraintSatisfies c d.constraint
    let s2 ← constraintSatisfies d.constraint c
    if !s1 && !s2 then throw (.failed db)
    else return if s2 && !s1 then r.insert d.name d.constraint else r

/-- `pkg_configure_prerequisites`, from what is captured so far. -/
def pkgConfigurePrerequisites (db : Database) (tools : Tools) (r : PackagePrerequisites) :
    List DependencyAlternatives → Except Failure PackagePrerequisites
  | [] => .ok r
  | da :: deps =>
    if da.conditional then .error .assertion
    else do
      match ← chooseAlternative db tools da.buildtime da.alternatives with
      | none => throw (.failed db)
      | some d =>
        if da.buildtime && isTool d.name then pkgConfigurePrerequisites db tools r deps
        else
          let r ← capture db r d
          pkgConfigurePrerequisites db tools r deps

/-! ### Configuring -/

/-- What is used of a verified package manifest. Its constraints are complete. -/
structure PackageManifest where
  spelling : Bytes
  version : Version
  dependencies : List DependencyAlternatives
  isAvailable : IsAvailable version
  isComplete : ∀ da ∈ dependencies, ∀ d ∈ da.alternatives, ∀ c ∈ d.constraint, IsComplete c

/-- `pkg_configure (c, o, t, p, deps, vars, simulate)`. If the build system fails the package is
disfigured. -/
def configure (db : Database) (tools : Tools) (p : SelectedPackage)
    (deps : List DependencyAlternatives) (ran : Bool) (fs : DisfigureActions) :
    Except Failure Database :=
  if p.state ≠ .unpacked ∨ p.srcRoot = none then .error .assertion
  else do
    let out ← p.outputDirectory
    if !p.prerequisites.entries.isEmpty then throw .assertion
    let r ← pkgConfigurePrerequisites db tools ∅ deps
    if ran then
      return db.update { p with prerequisites := r, outRoot := some out, state := .configured }
    else
      let (_, db) ← disfigure db
        { p with prerequisites := r, outRoot := some out, state := .broken } true fs
      throw (.failed db)

/-- `pkg_configure`, the command, with a package that is not a system one. -/
def pkgConfigure (db : Database) (n : PackageName) (tools : Tools) (m : Option PackageManifest)
    (ran : Bool) (fs : DisfigureActions) : Except Failure Database :=
  match db.find n with
  | none => .error (.failed db)
  | some p =>
    if p.state ≠ .unpacked then .error (.failed db)
    else if p.srcRoot = none then .error .assertion
    else
      match m with
      | none => .error (.failed db)
      | some m => configure db tools p m.dependencies ran fs

/-- A version that the user may specify. -/
abbrev PackageVersion := { v : Version // IsAvailable v }

/-- `pkg_configure_system`. -/
def pkgConfigureSystem (db : Database) (spelling : Bytes) (v : Version) :
    Except Failure Database :=
  db.persist
    { spelling := spelling, version := v, state := .configured, substate := .system,
      holdPackage := false, holdVersion := false, repositoryFragment := .root, archive := none,
      purgeArchive := false, srcRoot := none, purgeSrc := false, manifestChecksum := none,
      outRoot := none, prerequisites := ∅ }

/-- `pkg_configure`, the command, with a system package. -/
def pkgConfigureSys (db : Database) (spelling : Bytes) (v : Option PackageVersion) (known : Bool) :
    Except Failure Database :=
  if (db.find (.ofString spelling)).isSome then .error (.failed db)
  else if !known then .error (.failed db)
  else pkgConfigureSystem db spelling (v.elim wildcardVersion Subtype.val)

/-! ### Fetching, unpacking and checking out -/

/-- Where a package is in a repository fragment. -/
structure PackageLocation where
  repositoryFragment : RepositoryLocation
  isLocal : Bool
  location : Bytes
  deriving DecidableEq, Repr

/-- What is used of an `available_package`. The checksum may not be present if no repository of the
package is an archive-based one. -/
structure AvailablePackage where
  locations : List PackageLocation
  sha256sum : Option Bytes
  summed : ∀ l ∈ locations, l.repositoryFragment.archiveBased = true → sha256sum.isSome = true

/-- The location in a repository fragment of the kind `based`, a local one if there is one. -/
def AvailablePackage.pick (ap : AvailablePackage) (based : RepositoryLocation → Bool) :
    Option PackageLocation :=
  (ap.locations.find? fun l => based l.repositoryFragment && l.isLocal).or
    (ap.locations.find? fun l => based l.repositoryFragment)

/-- `pkg_fetch (c, t, n, v, a, rl, purge, simulate)`. -/
def fetch (db : Database) (spelling : Bytes) (v : Version) (a : Bytes) (rl : RepositoryLocation)
    (purge : Bool) (fs : PurgeActions) : Except Failure Database := do
  match ← makeWay db spelling fs with
  | (db, some p) =>
    return db.update
      { p with version := v, state := .fetched, repositoryFragment := rl, archive := some a,
               purgeArchive := purge }
  | (db, none) =>
    db.persist
      { spelling := spelling, version := v, state := .fetched, substate := .none,
        holdPackage := false, holdVersion := false, repositoryFragment := rl, archive := some a,
        purgeArchive := purge, srcRoot := none, purgeSrc := false, manifestChecksum := none,
        outRoot := none, prerequisites := ∅ }

/-- `pkg_fetch` of an existing archive. -/
def pkgFetchExisting (db : Database) (m : Option PackageManifest) (a : Bytes)
    (replace purge : Bool) (fs : PurgeActions) : Except Failure Database :=
  match m with
  | none => .error (.failed db)
  | some m =>
    if !mayReplace db (.ofString m.spelling) replace then .error (.failed db)
    else fetch db m.spelling m.version a .root purge fs

/-- `pkg_fetch` from a repository. The checksum is that of the archive, if it is fetched. -/
def pkgFetch (db : Database) (spelling : Bytes) (v : PackageVersion) (replace : Bool)
    (ap : Option AvailablePackage) (sha256sum : Option Bytes) (fs : PurgeActions) :
    Except Failure Database :=
  if !mayReplace db (.ofString spelling) replace then .error (.failed db)
  else
    match ap.bind fun ap => (ap.pick RepositoryLocation.archiveBased).map fun l => (ap, l) with
    | none => .error (.failed db)
    | some (ap, pl) =>
      match sha256sum, ap.sha256sum with
      | none, _ => .error (.failed db)
      | some _, none => .error .assertion
      | some s, some sum =>
        if s ≠ sum then .error (.failed db)
        else fetch db spelling v.1 pl.location pl.repositoryFragment true fs

/-- `pkg_unpack (o, c, t, n, v, d, rl, purge, simulate)`: select an external package. -/
def unpack (db : Database) (spelling : Bytes) (v : Version) (d : Bytes) (rl : RepositoryLocation)
    (purge : Bool) (mc : Option Bytes) (fs : PurgeActions) : Except Failure Database :=
  match mc with
  | none => .error (.failed db)
  | some mc => do
    let (db, p) ← makeWay db spelling fs
    let q : SelectedPackage :=
      match p with
      | some p =>
        { p with version := v, state := .unpacked, repositoryFragment := rl, srcRoot := some d,
                 purgeSrc := purge, manifestChecksum := some mc }
      | none =>
        { spelling := spelling, version := v, state := .unpacked, substate := .none,
          holdPackage := false, holdVersion := false, repositoryFragment := rl, archive := none,
          purgeArchive := false, srcRoot := some d, purgeSrc := purge, manifestChecksum := some mc,
          outRoot := none, prerequisites := ∅ }
    if !q.external then throw .assertion
    if p.isSome then return db.update q else db.persist q

/-- `package_iteration`, which fails if the package `clashes` with one of a repository. The manifest
has the checksum `mc`, and the directory is not that of the selected package if it is `moved`. -/
def packageIteration (db : Database) (n : PackageName) (v : Version) (clashes : Bool) (mc : Bytes)
    (moved : Bool) : Except Failure (Option Version) :=
  if clashes then .error (.failed db)
  else
    match db.find n with
    | none => .ok none
    | some p =>
      if p.srcRoot.isNone || v.compare p.version false true ≠ .eq then .ok none
      else
        match p.manifestChecksum with
        | none => .error .assertion
        | some c =>
          if mc = c ∧ ¬(p.external = true ∧ moved = true) then .ok (some p.version)
          else
            match Version.ofParts v.epoch v.upstream v.release v.revision
              ((p.version.iteration + 1) % 2 ^ 32) with
            | .ok v => .ok (some v)
            | .error _ => .error .assertion

/-- `pkg_unpack` of an existing directory. -/
def pkgUnpackExisting (db : Database) (m : Option PackageManifest) (d : Bytes)
    (replace purge clashes : Bool) (mc : Option Bytes) (moved : Bool) (fs : PurgeActions) :
    Except Failure Database :=
  match m, mc with
  | some m, some mc =>
    if !mayReplace db (.ofString m.spelling) replace then .error (.failed db)
    else do
      let v ← packageIteration db (.ofString m.spelling) m.version clashes mc moved
      unpack db m.spelling (v.getD m.version) d .root purge (some mc) fs
  | _, _ => .error (.failed db)

/-- `pkg_unpack` from a directory-based repository, of which `path` is the directory. -/
def pkgUnpackDirectory (db : Database) (spelling : Bytes) (v : PackageVersion) (replace : Bool)
    (ap : Option AvailablePackage) (path : PackageLocation → Bytes) (mc : Option Bytes)
    (fs : PurgeActions) : Except Failure Database :=
  if !mayReplace db (.ofString spelling) replace then .error (.failed db)
  else
    match ap.bind fun ap => ap.locations.find? fun l => l.repositoryFragment.directoryBased with
    | none => .error (.failed db)
    | some pl => unpack db spelling v.1 (path pl) pl.repositoryFragment false mc fs

/-- `pkg_unpack` from the archive. The checksum is that of the manifest, if it is extracted. -/
def pkgUnpack (db : Database) (n : PackageName) (existsDir : Option Bool) (mc : Option Bytes) :
    Except Failure Database :=
  match db.find n with
  | none => .error (.failed db)
  | some p =>
    if p.state ≠ .fetched then .error (.failed db)
    else if p.archive.isNone then .error .assertion
    else do
      let d ← versionedDirectory p.spelling p.version
      match existsDir, mc with
      | some false, some mc =>
        return db.update
          { p with srcRoot := some d, purgeSrc := true, manifestChecksum := some mc,
                   state := .unpacked }
      | _, _ => throw (.failed db)

/-- How the actions of `pkg_checkout` end: those up to the verification of the package, with the
manifest, and those after it, with the checksum. -/
structure CheckoutActions where
  checkedOut : Option PackageManifest
  distributed : Option Bytes

/-- `pkg_checkout`. -/
def pkgCheckout (db : Database) (spelling : Bytes) (v : PackageVersion) (replace : Bool)
    (ap : Option AvailablePackage) (tools : Tools) (co : CheckoutActions) (fs : PurgeActions) :
    Except Failure Database :=
  if !mayReplace db (.ofString spelling) replace then .error (.failed db)
  else
    match ap.bind fun ap => ap.pick RepositoryLocation.versionControlBased, co.checkedOut with
    | some pl, some m => do
      let d ← versionedDirectory spelling v.1
      let _ ← pkgConfigurePrerequisites db tools ∅ m.dependencies
      match co.distributed with
      | none => throw (.failed db)
      | some mc =>
        match ← makeWay db spelling fs with
        | (db, some p) =>
          return db.update
            { p with version := v.1, state := .unpacked,
                     repositoryFragment := pl.repositoryFragment, srcRoot := some d,
                     purgeSrc := true, manifestChecksum := some mc }
        | (db, none) =>
          db.persist
            { spelling := spelling, version := v.1, state := .unpacked, substate := .none,
              holdPackage := false, holdVersion := false,
              repositoryFragment := pl.repositoryFragment, archive := none, purgeArchive := false,
              srcRoot := some d, purgeSrc := true, manifestChecksum := some mc, outRoot := none,
              prerequisites := ∅ }
    | _, _ => .error (.failed db)

/-! ### Runs -/

/-- An operation, with its arguments and with how its actions end. -/
inductive Operation
  | fetchExisting (m : Option PackageManifest) (a : Bytes) (replace purge : Bool)
      (fs : PurgeActions)
  | fetch (spelling : Bytes) (v : PackageVersion) (replace : Bool) (ap : Option AvailablePackage)
      (sha256sum : Option Bytes) (fs : PurgeActions)
  | unpackExisting (m : Option PackageManifest) (d : Bytes) (replace purge clashes : Bool)
      (mc : Option Bytes) (moved : Bool) (fs : PurgeActions)
  | unpackDirectory (spelling : Bytes) (v : PackageVersion) (replace : Bool)
      (ap : Option AvailablePackage) (path : PackageLocation → Bytes) (mc : Option Bytes)
      (fs : PurgeActions)
  | unpack (n : PackageName) (existsDir : Option Bool) (mc : Option Bytes)
  | checkout (spelling : Bytes) (v : PackageVersion) (replace : Bool)
      (ap : Option AvailablePackage) (tools : Tools) (co : CheckoutActions) (fs : PurgeActions)
  | configure (n : PackageName) (tools : Tools) (m : Option PackageManifest) (ran : Bool)
      (fs : DisfigureActions)
  | configureSystem (spelling : Bytes) (v : Option PackageVersion) (known : Bool)
  | disfigure (n : PackageName) (keepOut : Bool) (fs : DisfigureActions)
  | purge (n : PackageName) (keep force : Bool) (fs : PurgeActions) (left : LeftBehind)

namespace Operation

def run (db : Database) : Operation → Except Failure Database
  | fetchExisting m a replace pu fs => pkgFetchExisting db m a replace pu fs
  | fetch n v replace ap sum fs => pkgFetch db n v replace ap sum fs
  | unpackExisting m d replace pu clashes mc moved fs =>
    pkgUnpackExisting db m d replace pu clashes mc moved fs
  | unpackDirectory n v replace ap path mc fs => pkgUnpackDirectory db n v replace ap path mc fs
  | unpack n existsDir mc => pkgUnpack db n existsDir mc
  | checkout n v replace ap tools co fs => pkgCheckout db n v replace ap tools co fs
  | configure n tools m ran fs => pkgConfigure db n tools m ran fs
  | configureSystem n v known => pkgConfigureSys db n v known
  | disfigure n keepOut fs => pkgDisfigure db n keepOut fs
  | purge n keep force fs left => pkgPurge db n keep force fs left

/-- What is committed once the operation has ended, if no assertion fails. -/
def commit (db : Database) (op : Operation) : Option Database :=
  match op.run db with
  | .ok db' => some db'
  | .error (.failed db') => some db'
  | .error .assertion => none

end Operation

end Build2.Bpkg.LifeCycle
