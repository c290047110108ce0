import Build2.Bpkg.PkgBuild.Environment
import Mathlib.Data.Finset.Dedup

/-! # Collecting a build

The functions of `build_packages` that fill the map: `collect_build`, which puts a package into the
map, `collect_build_prerequisites`, which collects what it depends on, and the functions for
pre-entered, unheld and postponed packages. -/

namespace Build2.Bpkg.PkgBuild

open Build2.Lib.ByteString Build2.Lib.Linked Build2.Libbpkg BuildPackages

/-- A failure in the library ends the program. -/
def orAbort {α : Type} (x : Except Libbutl.ParseUint.Fault α) : Except Fault α :=
  x.mapError fun _ => .assertion

/-- `satisfies` of a version and an optional constraint. -/
def versionSatisfies (v : Version) (c : Option VersionConstraint) : Except Fault Bool :=
  match c with
  | none => .ok true
  | some c => orAbort (satisfiesVersion v c)

/-- `satisfies` of a constraint and an optional one. -/
def constraintSatisfies (l : VersionConstraint) (r : Option VersionConstraint) :
    Except Fault Bool :=
  match r with
  | none => .ok true
  | some r => orAbort (satisfies l r)

/-- `wildcard`. -/
def wildcard (c : VersionConstraint) : Except Fault Bool :=
  match c.minVersion with
  | none => .ok false
  | some v =>
    if v.cmp wildcardVersion ≠ .eq then .ok false
    else if c.maxVersion.any fun m => m.cmp v = .eq then .ok true
    else .error .assertion

/-- Constraints `[v v]`. -/
def exactly (v : Version) : VersionConstraint := ⟨some v, some v, false, false⟩

/-! ### Merging -/

namespace BuildPackage

/-- The stronger of two hold flags. -/
def stronger (x y : Option Bool) : Option Bool :=
  match x, y with
  | none, y => y
  | some x, some y => some (x || y)
  | some x, none => some x

/-- `merge`. -/
def merge (x p : BuildPackage) : Except Fault BuildPackage :=
  if x.action = none ∨ x.action = some .drop ∨ p.action = some .drop then .error .assertion
  else
    let x :=
      if p.userSelection then
        { x with
          keepOut := p.keepOut || x.keepOut
          configVars := if p.configVars ≠ [] then p.configVars else x.configVars
          requiredBy := x.requiredBy.insert .empty }
      else x
    .ok { x with
      requiredBy := if p.action = x.action then x.requiredBy ∪ p.requiredBy else x.requiredBy
      constraints := x.constraints ++ p.constraints
      holdPackage := stronger x.holdPackage p.holdPackage
      holdVersion := stronger x.holdVersion p.holdVersion
      adjustments := x.adjustments.or p.adjustments }

/-- `test`: a constraint of `pc` that the version of `pv` does not satisfy. -/
def test (pv pc : BuildPackage) : Except Fault (Option Constraint) :=
  pc.constraints.findSomeM? fun c => do
    if ← orAbort (satisfiesVersion (← pv.availableVersion) c.value) then return none
    return some c

/-- Whether `pkg` replaces the build `bp`. -/
def replaces (n : PackageName) (bp pkg : BuildPackage) : Except Fault Bool := do
  let v ← bp.availableVersion
  let w ← pkg.availableVersion
  if sameVersion v w then
    -- one may build a package from source and another configure a system package
    return pkg.userSelection || (!bp.userSelection && !pkg.system)
  let newer := w.cmp v = .gt
  let p1 := if newer then pkg else bp
  let p2 := if newer then bp else pkg
  match ← test p1 p2 with
  | none => return newer
  | some c2 =>
    match ← test p2 p1 with
    | none => return !newer
    | some c1 => .error (.unsatisfiableConstraints n c1.dependent c2.dependent)

end BuildPackage

/-! ### The state -/

/-- A package that was put into the map, and what it met there. -/
structure Put where
  name : PackageName
  met : Option BuildPackage
  package : BuildPackage

/-- The packages, the postponed ones and, as a record for which no function has a use, all that was
put into the map so far. -/
structure Collection where
  packages : BuildPackages
  postponed : List PackageName := []
  history : List Put := []

namespace Collection

def package (s : Collection) (n : PackageName) : Option BuildPackage := s.packages.package n

/-- A package is stored under its name. The position stays. -/
def store (s : Collection) (n : PackageName) (p : BuildPackage) (put : BuildPackage) :
    Collection where
  packages := { s.packages with
    map := s.packages.map.insert n ⟨(s.packages.position n).getD none, p⟩ }
  postponed := s.postponed
  history := s.history ++ [⟨n, s.package n, put⟩]

/-- `enter`. -/
def enter (s : Collection) (n : PackageName) (p : BuildPackage) : Except Fault Collection :=
  if p.action ≠ none ∨ (s.package n).isSome then .error .assertion else .ok (s.store n p p)

/-- The part of `collect_build` that puts the package into the map. The flag tells if it is there
then, anew or in place of another one. -/
def put (s : Collection) (pkg : BuildPackage) : Except Fault (Bool × Collection) :=
  match pkg.available with
  | none => .error .assertion
  | some ap =>
    if pkg.action ≠ some .build then .error .assertion
    else
      match s.package ap.name with
      | none => .ok (true, s.store ap.name pkg pkg)
      | some bp =>
        match bp.action with
        | some .drop => .error .assertion
        | some .build => do
          let replace ← bp.replaces ap.name pkg
          let p ← if replace then pkg.merge bp else bp.merge pkg
          return (replace, s.store ap.name p pkg)
        | _ => do
          let p ← pkg.merge bp
          return (true, s.store ap.name p pkg)

end Collection

/-! ### Prerequisites -/

/-- What a dependency is resolved to. -/
structure Resolution where
  selected : Option SelectedPackage
  available : AvailablePackage
  repositoryFragment : Option RepositoryFragment
  system : Bool
  /-- Another version than the selected one is forced. -/
  force : Bool

/-- The constraint and the system flag that the user specified for a dependency, if it is still
pre-entered. -/
def desired (bp : Option BuildPackage) : Except Fault (Option (Constraint × Bool)) :=
  match bp with
  | none => .ok none
  | some bp =>
    if bp.action = none ∧ bp.holdVersion = some true then
      match bp.constraints with
      | [c] => .ok (some (c, bp.system))
      | _ => .error .assertion
    else .ok none

/-- The user's constraint has to be within that of the dependent, unless it is the wildcard. -/
def checkDesired (dp : Dependency) (name : PackageName) (desired : Option Constraint) :
    Except Fault Unit :=
  match desired with
  | none => .ok ()
  | some c => do
    if ← wildcard c.value then return
    if ← constraintSatisfies c.value dp.constraint then return
    .error (.unsatisfiableConstraints dp.name name.value c.dependent)

/-- A good package is good enough for a constraint of the user if the system flags are the same. -/
def sameSystem (sp : SelectedPackage) (strong : Option Bool) (good : Bool) : Except Fault Bool :=
  match strong with
  | none => .ok good
  | some system => if good then sp.system.map fun b => b = system else .ok false

/-- The package that is already selected, with an available package for it, if it is good enough.
The flag tells that it is not. -/
def resolveSelected (env : Environment) (dn : PackageName) (constraint : Option VersionConstraint)
    (strong : Option Bool) : Except Fault (Option Resolution × Bool) :=
  match env.selected dn with
  | none => .ok (none, false)
  | some sp => do
    if sp.state = .broken then .error (.brokenPackage dn)
    else
      let good ← versionSatisfies sp.version constraint
      if ← sameSystem sp strong good then
        let system ← sp.system
        let root ← orAbort (if system then env.findAvailableOne dn none []
          else env.findAvailableOne dn (some (exactly sp.version)) [])
        match root.filter fun r => !r.1.stub with
        | some (ap, rf) => return (some ⟨some sp, ap, rf, system, false⟩, false)
        | none =>
          match env.makeAvailable sp with
          | none => .error (.unverified dn)
          | some (ap, rf) => return (some ⟨some sp, ap, rf, system, false⟩, false)
      else return (none, true)

/-- The package from the repositories of the dependent. Nothing is found if this can wait. -/
def resolveAvailable (env : Environment) (dn name : PackageName)
    (constraint : Option VersionConstraint) (strong : Option Bool) (force recursively : Bool)
    (fragment : Option RepositoryFragment) : Except Fault (Option Resolution) :=
  match fragment with
  | none => .error (.orphan name)
  | some af => do
    let system := strong.getD false
    match ← orAbort (env.findAvailableOne dn (if !system then constraint else none) af) with
    | none =>
      if strong.isSome && !system && recursively then return none
      else .error (.unknownDependency dn name)
    | some (dap, rf) =>
      if dap.stub then
        match dap.systemVersion with
        | none => .error (.notInSource dn name)
        | some v =>
          if ← versionSatisfies v constraint then
            return some ⟨env.selected dn, dap, rf, true, force⟩
          else .error (.notInSource dn name)
      else
        match dap.systemVersion with
        | none => return some ⟨env.selected dn, dap, rf, system, force⟩
        | some v =>
          let prefer ← if dap.authoritative then versionSatisfies v constraint else pure false
          return some ⟨env.selected dn, dap, rf, prefer || system, force⟩

/-- What a dependency of `name` is resolved to, if this is not postponed. The fragment is that of
the entry of `name` now. -/
def resolve (env : Environment) (s : Collection) (entry name : PackageName) (dp : Dependency)
    (recursively : Bool) : Except Fault (Option Resolution) := do
  let desired ← desired (s.package dp.name)
  checkDesired dp name (desired.map Prod.fst)
  let constraint := match desired with
    | none => dp.constraint
    | some (c, _) => some c.value
  let strong := desired.map Prod.snd
  let x ← resolveSelected env dp.name constraint strong
  match x.1 with
  | some r => return some r
  | none =>
    resolveAvailable env dp.name name constraint strong x.2 recursively
      ((s.package entry).bind (·.repositoryFragment))

/-- The package that a dependency of `name` is built from. -/
def dependencyPackage (name : PackageName) (dp : Dependency) (r : Resolution) : BuildPackage where
  action := some .build
  selected := r.selected
  available := some r.available
  repositoryFragment := r.repositoryFragment
  holdPackage := none
  holdVersion := none
  constraints := dp.constraint.toList.map fun c => ⟨name.value, c⟩
  system := r.system
  keepOut := false
  configVars := []
  requiredBy := [name]
  adjustments := {}

/-- The check of a dependency on a tool. -/
def checkTool (env : Environment) (name : PackageName) (dp : Dependency) : Except Fault Unit :=
  if dp.constraint = none then .ok ()
  else if (if dp.name = .build2 then env.satisfyBuild2 dp else env.satisfyBpkg dp) then .ok ()
  else .error (.unsatisfiedTool name)

/-- `postponed_packages::insert`, in the order of the addresses. -/
def postpone (env : Environment) (s : Collection) (n : PackageName) : Collection :=
  if n ∈ s.postponed then s
  else
    { s with
      postponed := s.postponed.orderedInsert (fun x y => env.address x ≤ env.address y) n }

/-- What is to be done for a dependency. -/
inductive Next
  | nothing
  | postpone
  | collect (dp : Dependency) (r : Resolution)

/-- What is to be done for a dependency of the package `name`, whose entry is `entry`. -/
def next (env : Environment) (s : Collection) (entry name : PackageName) (recursively : Bool)
    (da : DependencyAlternatives) : Except Fault Next :=
  if da.conditional then .error (.conditionalDependency name)
  else
    match da.alternatives with
    | [dp] =>
      if isSpecial da dp.name then do
        checkTool env name dp
        return .nothing
      else do
        match ← resolve env s entry name dp recursively with
        | none => return .postpone
        | some r => return .collect dp r
    | _ => .error (.dependencyAlternatives name)

section

variable (env : Environment)
  (collect : BuildPackage → Collection → Except Fault (Bool × Collection))

/-- A dependency is collected. The flag tells if the package is not postponed. -/
def collectDependency (entry name : PackageName) (recursively : Bool) (da : DependencyAlternatives)
    (s : Collection) : Except Fault (Bool × Collection) := do
  match ← next env s entry name recursively da with
  | .nothing => return (true, s)
  | .postpone => return (false, postpone env s entry)
  | .collect dp r =>
    let optional := (s.package dp.name).any (·.action = none)
    let x ← collect (dependencyPackage name dp r) s
    if x.1 && r.force && !optional && r.selected.any (·.holdVersion) then
      .error (.held dp.name name)
    else return (true, x.2)

/-- The dependencies of a package, up to one that is postponed. -/
def collectDependencies (entry name : PackageName) (recursively : Bool) :
    List DependencyAlternatives → Collection → Except Fault Collection
  | [], s => .ok s
  | da :: l, s => do
    let x ← collectDependency env collect entry name recursively da s
    if x.1 then collectDependencies entry name recursively l x.2 else return x.2

/-- `collect_build_prerequisites` of the package of an entry. -/
def collectPrerequisites (entry : PackageName) (recursively : Bool) (s : Collection) :
    Except Fault Collection :=
  match s.package entry with
  | none => .error .assertion
  | some p =>
    if p.action ≠ some .build then .error .assertion
    else if p.system then .ok s
    else
      match p.available with
      | none => .error .assertion
      | some ap => do
        if ← sameConfigured p then return s
        collectDependencies env collect entry ap.name recursively ap.dependencies s

end

/-- `collect_build`. The bound is on the depth of the recursion. -/
def collectBuild (env : Environment) (recursively : Bool) :
    ℕ → BuildPackage → Collection → Except Fault (Bool × Collection)
  | 0, _, _ => .error .tooDeep
  | n + 1, pkg, s => do
    let (added, s) ← s.put pkg
    if added && recursively then
      match pkg.available with
      | none => .error .assertion
      | some ap =>
        let s ← collectPrerequisites env (collectBuild env recursively n) ap.name recursively s
        return (true, s)
    else return (added, s)

/-! ### Unheld and postponed packages -/

/-- `collect_unhold`. -/
def collectUnhold (sp : SelectedPackage) (s : Collection) : Except Fault Collection :=
  match s.package sp.name with
  | none => .error .assertion
  | some bp =>
    if bp.action = none then do
      let p ← BuildPackage.merge ⟨some .adjust, some sp, none, none, none, none, [], false, false,
        [], [], ⟨true, false⟩⟩ bp
      return { s with packages := { s.packages with
        map := s.packages.map.insert sp.name ⟨(s.packages.position sp.name).getD none, p⟩ } }
    else
      return { s with packages := { s.packages with
        map := s.packages.map.insert sp.name ⟨(s.packages.position sp.name).getD none,
          { bp with adjustments := bp.adjustments.or ⟨true, false⟩ }⟩ } }

/-- A round over the postponed packages. -/
def collectRound (env : Environment) (n : ℕ) (prog : Bool) (l : List PackageName) (s : Collection) :
    Except Fault Collection :=
  l.foldlM (fun s p => collectPrerequisites env (collectBuild env prog n) p prog s) s

/-- `collect_build_postponed`. The bounds are on the number of rounds and on the depth. -/
def collectPostponed (env : Environment) (n : ℕ) :
    ℕ → Bool → List PackageName → Collection → Except Fault Collection
  | 0, _, _, _ => .error .tooDeep
  | k + 1, prog, pkgs, s =>
    if pkgs = [] then .ok s
    else do
      let s ← collectRound env n prog pkgs { s with postponed := [] }
      if prog then collectPostponed env n k (s.postponed.toFinset ≠ pkgs.toFinset) s.postponed s
      else .error .assertion

end Build2.Bpkg.PkgBuild
