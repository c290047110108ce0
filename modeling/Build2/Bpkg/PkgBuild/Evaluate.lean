import Build2.Bpkg.PkgBuild.Environment

/-! # Evaluating dependencies

`evaluate_dependency`: what a configured dependency is to be upgraded or downgraded to, if the user
expects something of it. The candidates are the available packages within reach of its dependents,
in the descending order of versions, and the first one that satisfies all the dependents is it. -/

namespace Build2.Bpkg.PkgBuild

open Build2.Lib.ByteString Build2.Lib.Stateful Build2.Libbpkg Build2.Libbutl
open Build2.Libbutl.ParseUint (Call Errno)

/-- A configuration: its database, the system repository and the `errno` of the thread. The zero
revision is not stored, so that no package is loaded with it. -/
structure Configuration extends Database where
  folded : ∀ x ∈ available, x.1.version.revision ≠ some 0
  stubs : ∀ ap ∈ imaginaryStubs, ap.stub = true
  systemRepository : PackageName → Option Version
  errno : Errno

/-- What the user expects of a dependency. The endpoints have no iteration, unless the constraint is
the version of an available package. -/
structure Expectation where
  constraint : Option VersionConstraint
  system : Bool
  /-- Only for an absent constraint. -/
  patch : Bool
  explicitly : Bool
  isComplete : ∀ c ∈ constraint, IsComplete c
  held : ∀ c ∈ constraint, Held c
  iteration : ∀ c ∈ constraint, c.maxOpen = true → ∀ m ∈ c.maxVersion, m.iteration = 0

/-- A `dependency_package`. -/
structure DependencyPackage extends Expectation where
  name : PackageName
  given : explicitly = true

/-- The dependents with the constraints they place. -/
abbrev PackageDependents := List (SelectedPackage × Option VersionConstraint)

/-- An `evaluate_result`. -/
structure EvaluateResult where
  available : Option AvailablePackage
  repositoryFragment : Option RepositoryFragment
  unused : Bool
  system : Bool
  deriving DecidableEq

/-- How an evaluation ends when it does not return. -/
inductive Failure
  | assertion
  | exception (fault : Libbutl.ParseUint.Fault)
  /-- The patch version is not available from the dependents' repositories. -/
  | noPatch (name : PackageName) (version : Version)
  /-- The package is not available from the dependents' repositories. -/
  | notAvailable (name : PackageName) (constraint : Option VersionConstraint)
  /-- The package is not available in source from the dependents' repositories. -/
  | notInSource (name : PackageName)
  /-- The versions with the dependents they do not satisfy. -/
  | unsatisfiable (name : PackageName) (versions : List (Version × List PackageName))
  deriving DecidableEq

/-- The call of a function that throws. -/
def Failure.lift {α : Type} (x : Except Libbutl.ParseUint.Fault α) : Except Failure α :=
  x.mapError .exception

/-- A call of `sp->system ()`. -/
def SelectedPackage.isSystem (sp : SelectedPackage) : Except Failure Bool :=
  sp.system.mapError fun _ => .assertion

/-- `no_change`. -/
def noChange : EvaluateResult := ⟨none, none, false, false⟩

/-! ### Candidates -/

namespace Database

variable (db : Database)

/-- `filter`: the packages that are within reach of one of the fragments. -/
def filterAll (rfs : List RepositoryFragment) : List (AvailablePackage × List RepositoryFragment) →
    Except Libbutl.ParseUint.Fault (List (AvailablePackage × Option RepositoryFragment))
  | [] => .ok []
  | x :: apr => do
    let rf ← rfs.findSomeM? fun r => db.filter r x.2
    let aps ← filterAll rfs apr
    return match rf with
      | some rf => (x.1, some rf) :: aps
      | none => aps

/-- `find_available`. -/
def findAvailable (n : PackageName) (c : Option VersionConstraint)
    (rfs : List RepositoryFragment) :
    Except Libbutl.ParseUint.Fault (List (AvailablePackage × Option RepositoryFragment)) := do
  let r ← db.filterAll rfs (← db.query n c)
  if r = [] then
    return ((db.imaginaryStubs.find? fun ap => ap.name = n).map fun ap => (ap, none)).toList
  else return r

end Database

/-- `patch_constraint`, without its warnings. -/
def patchConstraint (sp : SelectedPackage) : Call (Option VersionConstraint) := do
  let vs ← VersionConstraint.pureCall (sp.version.string false false)
  match ← StandardVersion.parseStandardVersion vs .none with
  | none => return none
  | some _ =>
    Comp.handle (do
        let c ← VersionConstraint.ofString (ch '~' :: vs)
        return some c) fun
      | .invalidArgument _ => pure none
      | e => Comp.fail e

/-- The constraint on the candidates, if there is one, unless the package is to be patched and
cannot be. -/
def constraintFor (cfg : Configuration) (sp : SelectedPackage) (e : Expectation) :
    Except Failure (Option (Option VersionConstraint)) :=
  match e.constraint with
  | none =>
    if e.system then .error .assertion
    else if e.patch then do
      match ← Failure.lift ((patchConstraint sp).eval cfg.errno) with
      | none => return none
      | some c => return some (some c)
    else return some none
  | some c => return some (if e.system then none else some c)

/-! ### The choice -/

/-- `satisfies` of an optional constraint. -/
def satisfiesOptional (v : Version) (c : Option VersionConstraint) :
    Except Libbutl.ParseUint.Fault Bool :=
  match c with
  | none => .ok true
  | some c => satisfiesVersion v c

/-- The names of the unsatisfied dependents, in order and with another one. -/
def insertDependent (n : PackageName) (names : List PackageName) : List PackageName :=
  if n ∈ names then names
  else names.orderedInsert (fun x y => compare x.value y.value ≠ .gt) n

/-- Whether a version satisfies the dependents, and those it does not satisfy if they are to be
printed. -/
def checkDependents (v : Version) (ignoreUnsatisfiable : Bool) : PackageDependents → Bool →
    List PackageName → Except Libbutl.ParseUint.Fault (Bool × List PackageName)
  | [], satisfactory, names => .ok (satisfactory, names)
  | dp :: dps, satisfactory, names => do
    if ← satisfiesOptional v dp.2 then
      checkDependents v ignoreUnsatisfiable dps satisfactory names
    else if ignoreUnsatisfiable then return (false, names)
    else
      checkDependents v ignoreUnsatisfiable dps false (insertDependent dp.1.name names)

/-- The version that is to be configured. -/
def effectiveVersion (ap : AvailablePackage) (system : Bool) : Except Failure Version :=
  if !system then .ok ap.version
  else
    match ap.systemVersion with
    | none => .error .assertion
    | some v => .ok v

/-- How one candidate is left: with a result, for the next one or out of the loop. -/
inductive Turn
  | result (r : EvaluateResult)
  | next (unsatisfiable : List (Version × List PackageName)) (stub : Bool)
  | stop (unsatisfiable : List (Version × List PackageName)) (stub : Bool)

section

variable (sp : SelectedPackage) (ssys : Bool) (e : Expectation) (dependents : PackageDependents)
  (ignoreUnsatisfiable : Bool)

/-- The end of the loop body: is the candidate satisfactory? -/
def choose (af : AvailablePackage × Option RepositoryFragment) (av : Version)
    (unsatisfiable : List (Version × List PackageName)) (stub : Bool) : Except Failure Turn := do
  let (satisfactory, names) ←
    Failure.lift (checkDependents av ignoreUnsatisfiable dependents true [])
  if !satisfactory then
    let unsatisfiable :=
      if !ignoreUnsatisfiable then unsatisfiable ++ [(av, names)] else unsatisfiable
    -- an available package resolves to the system one
    return if e.system then .stop unsatisfiable stub else .next unsatisfiable stub
  else if av.cmp sp.version = .eq ∧ ssys = e.system then return .result noChange
  else return .result ⟨some af.1, af.2, false, e.system⟩

/-- The loop body. -/
def consider (af : AvailablePackage × Option RepositoryFragment)
    (unsatisfiable : List (Version × List PackageName)) (stub : Bool) : Except Failure Turn := do
  let av ← effectiveVersion af.1 e.system
  if e.constraint.isNone ∧ av.cmp sp.version = .lt then
    if e.system then .error .assertion
    else if !ssys then return .result noChange
    else if af.1.stub then return .next unsatisfiable true
    else choose sp ssys e dependents ignoreUnsatisfiable af av unsatisfiable stub
  else choose sp ssys e dependents ignoreUnsatisfiable af av unsatisfiable stub

/-- What follows the loop. -/
def exhausted (unsatisfiable : List (Version × List PackageName)) (stub : Bool) :
    Except Failure EvaluateResult :=
  if e.constraint.isNone ∧ ssys = false then
    if e.system then .error .assertion else .ok noChange
  else if ignoreUnsatisfiable then .ok noChange
  else if unsatisfiable = [] then
    if e.constraint.isNone ∧ e.patch = true then
      if ssys && e.explicitly then .error (.noPatch sp.name sp.version) else .error .assertion
    else if !stub then
      .error (.notAvailable sp.name (if e.system then none else e.constraint))
    else if e.constraint.isNone && !e.system && ssys then .error (.notInSource sp.name)
    else .error .assertion
  else .error (.unsatisfiable sp.name unsatisfiable)

/-- The loop over the candidates and what follows it. -/
def walk : List (AvailablePackage × Option RepositoryFragment) →
    List (Version × List PackageName) → Bool → Except Failure EvaluateResult
  | [], unsatisfiable, stub => exhausted sp ssys e ignoreUnsatisfiable unsatisfiable stub
  | af :: afs, unsatisfiable, stub => do
    match ← consider sp ssys e dependents ignoreUnsatisfiable af unsatisfiable stub with
    | .result r => return r
    | .next unsatisfiable stub => walk afs unsatisfiable stub
    | .stop unsatisfiable stub => exhausted sp ssys e ignoreUnsatisfiable unsatisfiable stub

end

/-! ### The two functions -/

/-- `evaluate_dependency`, for the fragments the dependents come from. -/
def evaluateDependency (cfg : Configuration) (sp : SelectedPackage) (e : Expectation)
    (rfs : List RepositoryFragment) (dependents : PackageDependents)
    (ignoreUnsatisfiable : Bool) : Except Failure EvaluateResult := do
  match ← constraintFor cfg sp e with
  | none => return noChange
  | some c =>
    let afs ← Failure.lift (cfg.findAvailable sp.name c rfs)
    let ssys ← sp.isSystem
    if e.system ∧ cfg.systemRepository sp.name = none then .error .assertion
    else walk sp ssys e dependents ignoreUnsatisfiable afs [] false

namespace Configuration

variable (cfg : Configuration)

/-- The dependents of a package, from the view `package_dependent`. -/
def dependents (n : PackageName) : PackageDependents :=
  cfg.selected.flatMap fun sp =>
    (sp.prerequisites.filter fun p => p.1 = n).map fun p => (sp, p.2)

/-- `db.find<available_package>`. -/
def findExactly (n : PackageName) (v : Version) :
    Option (AvailablePackage × List RepositoryFragment) :=
  cfg.available.find? fun x =>
    x.1.name = n ∧ canonicalVersion x.1.version = canonicalVersion v

/-- The set of fragments that the dependents come from. -/
def fragmentsOf : PackageDependents → List RepositoryFragment →
    Except Failure (List RepositoryFragment)
  | [], rfs => .ok rfs
  | dp :: dps, rfs =>
    match cfg.findExactly dp.1.name dp.1.version with
    | none => fragmentsOf dps rfs
    | some (_, locations) =>
      if locations = [] then .error .assertion
      else fragmentsOf dps (locations.foldl (fun rfs rf => rfs.insert rf) rfs)

end Configuration

/-- Whether the selected package is what the user expects. -/
def meetsExpectation (sp : SelectedPackage) (e : Expectation) : Except Failure Bool := do
  let ssys ← sp.isSystem
  match e.constraint with
  | none => return false
  | some c =>
    if ssys ≠ e.system then return false
    else if ssys then
      match c.minVersion with
      | none => .error .assertion
      | some mn => return sameVersion sp.version mn
    else Failure.lift (satisfiesVersion sp.version c)

/-- `evaluate_dependency`, for the dependencies that the user mentions. -/
def evaluateMentioned (cfg : Configuration) (deps : List DependencyPackage) (sp : SelectedPackage)
    (ignoreUnsatisfiable : Bool) : Except Failure (Option EvaluateResult) :=
  if sp.holdPackage then .error .assertion
  else if cfg.dependents sp.name = [] then return some ⟨none, none, true, false⟩
  else
    match deps.find? fun i => i.name = sp.name with
    | none => return none
    | some i => do
      if ← meetsExpectation sp i.toExpectation then return some noChange
      else
        let rfs ← cfg.fragmentsOf (cfg.dependents sp.name) []
        let r ← evaluateDependency cfg sp i.toExpectation rfs (cfg.dependents sp.name)
          ignoreUnsatisfiable
        return some r

end Build2.Bpkg.PkgBuild
