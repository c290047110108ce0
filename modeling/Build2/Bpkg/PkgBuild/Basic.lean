import Build2.Bpkg.Satisfaction.Endpoints
import Build2.Lib.Linked
import Mathlib.Data.List.AList

/-! # The packages of a build

The data of `pkg-build`: selected and available packages, `build_package` and the map and list of
`build_packages`. Strings, output directories and locations that no function here looks at are left
out. -/

namespace Build2.Bpkg.PkgBuild

open Build2.Lib.ByteString Build2.Lib.Linked Build2.Libbpkg

/-- A package name, in lower case: names are compared without regard to it. -/
structure PackageName where
  value : Bytes
  lower : ∀ b ∈ value, toLower b = b
  deriving DecidableEq

namespace PackageName

theorem toLower_toLower (b : UInt8) : toLower (toLower b) = toLower b := by
  unfold toLower
  by_cases h : ch 'A' ≤ b && b ≤ ch 'Z'
  · rw [if_pos h, if_neg]
    simp only [Bool.and_eq_true, decide_eq_true_eq, UInt8.le_iff_toNat_le] at h ⊢
    have hA : (ch 'A').toNat = 65 := rfl
    have hZ : (ch 'Z').toNat = 90 := rfl
    have h32 : (32 : UInt8).toNat = 32 := rfl
    rw [UInt8.toNat_add]
    omega
  · rw [if_neg h, if_neg h]

/-- `package_name (s)`. -/
def ofString (s : Bytes) : PackageName where
  value := s.map toLower
  lower := by
    rintro _ hb
    obtain ⟨b, -, rfl⟩ := List.mem_map.mp hb
    exact toLower_toLower b

/-- `package_name ()`, which stands for the command line. -/
def empty : PackageName := ofString []

def build2 : PackageName := ofString (str ['b', 'u', 'i', 'l', 'd', '2'])

def bpkg : PackageName := ofString (str ['b', 'p', 'k', 'g'])

end PackageName

/-- How a function ends when it does not return: `fail`, with what it is about, an assertion or an
exception that nothing catches, or a bound on the depth of a recursion that the source does not
have. -/
inductive Fault
  | assertion
  | tooDeep
  | unverified (name : PackageName)
  | dependencyCycle (name : PackageName)
  | unsatisfiableConstraints (name : PackageName) (dependent1 dependent2 : Bytes)
  | conditionalDependency (name : PackageName)
  | dependencyAlternatives (name : PackageName)
  | unsatisfiedTool (name : PackageName)
  | brokenPackage (name : PackageName)
  | orphan (name : PackageName)
  | unknownDependency (dependency name : PackageName)
  | notInSource (dependency name : PackageName)
  | held (dependency name : PackageName)
  | unableToUpgrade (name dependent : PackageName)
  deriving DecidableEq

/-- A version is compared as `==` does. -/
def sameVersion (x y : Version) : Bool := x.cmp y = .eq

/-! ### Packages -/

structure Dependency where
  name : PackageName
  constraint : Option VersionConstraint
  deriving DecidableEq

structure DependencyAlternatives where
  conditional : Bool
  buildtime : Bool
  alternatives : List Dependency
  deriving DecidableEq

/-- An `available_package`, with the version of the system package that the system repository has
for it, and whether it is authoritative. -/
structure AvailablePackage where
  name : PackageName
  version : Version
  dependencies : List DependencyAlternatives
  systemVersion : Option Version
  authoritative : Bool
  named : name ≠ .empty
  isAvailable : IsAvailable version
  systemIsAvailable : ∀ v ∈ systemVersion, IsAvailable v
  deriving DecidableEq

/-- `stub`. -/
def AvailablePackage.stub (ap : AvailablePackage) : Bool :=
  ap.version.compare wildcardVersion true false = .eq

inductive PackageState
  | transient
  | broken
  | fetched
  | unpacked
  | configured
  deriving DecidableEq, Repr

inductive PackageSubstate
  | none
  | system
  deriving DecidableEq, Repr

/-- A fragment of a repository, by its name. The root fragment has the empty name. -/
abbrev RepositoryFragment := Bytes

structure SelectedPackage where
  name : PackageName
  version : Version
  state : PackageState
  substate : PackageSubstate
  holdPackage : Bool
  holdVersion : Bool
  prerequisites : List (PackageName × Option VersionConstraint)
  deriving DecidableEq

/-- `system`. -/
def SelectedPackage.system (sp : SelectedPackage) : Except Fault Bool :=
  if sp.substate ≠ .system ∨ sp.state = .configured then .ok (sp.substate = .system)
  else .error .assertion

/-- Configured and not as a system package. -/
def SelectedPackage.srcConf (sp : SelectedPackage) : Bool :=
  sp.state = .configured && sp.substate ≠ .system

/-! ### Build packages -/

inductive Action
  | build
  | drop
  | adjust
  deriving DecidableEq, Repr

/-- A version constraint and who placed it: a dependent package or, say, the command line. -/
structure Constraint where
  dependent : Bytes
  value : VersionConstraint
  deriving DecidableEq

/-- The adjustment flags. -/
structure Adjustments where
  unhold : Bool := false
  reconfigure : Bool := false
  deriving DecidableEq, Repr

def Adjustments.or (x y : Adjustments) : Adjustments :=
  ⟨x.unhold || y.unhold, x.reconfigure || y.reconfigure⟩

structure BuildPackage where
  /-- Absent if the package is pre-entered. -/
  action : Option Action
  selected : Option SelectedPackage
  available : Option AvailablePackage
  repositoryFragment : Option RepositoryFragment
  holdPackage : Option Bool
  holdVersion : Option Bool
  constraints : List Constraint
  system : Bool
  keepOut : Bool
  configVars : List Bytes
  requiredBy : List PackageName
  adjustments : Adjustments
  deriving DecidableEq

namespace BuildPackage

def userSelection (p : BuildPackage) : Bool := PackageName.empty ∈ p.requiredBy

def availableVersion (p : BuildPackage) : Except Fault Version :=
  match p.available with
  | none => .error .assertion
  | some ap =>
    if p.system then
      match ap.systemVersion with
      | none => .error .assertion
      | some v => .ok v
    else if ap.stub then .error .assertion
    else .ok ap.version

/-- The condition of `reconfigure` on a build: another version, other variables or no longer the
same kind of package. -/
def differs (p : BuildPackage) (sp : SelectedPackage) : Except Fault Bool := do
  if (← sp.system) ≠ p.system then
    return true
  if !sameVersion sp.version (← p.availableVersion) then
    return true
  return !p.system && p.configVars ≠ []

def reconfigure (p : BuildPackage) : Except Fault Bool :=
  match p.action with
  | none => .error .assertion
  | some .drop => .error .assertion
  | some a =>
    match p.selected with
    | none => .ok false
    | some sp =>
      if sp.state ≠ .configured then .ok false
      else if p.adjustments.reconfigure then .ok true
      else if a = .build then p.differs sp
      else .ok false

end BuildPackage

/-- An entry of the map: the package and its position in the list, which can be the end. -/
structure Entry where
  position : Iter
  package : BuildPackage

/-- `build_packages`: the map and the list, which refers to entries of the map. -/
structure BuildPackages where
  map : AList fun _ : PackageName => Entry
  list : NodeList PackageName

namespace BuildPackages

def package (s : BuildPackages) (n : PackageName) : Option BuildPackage :=
  (s.map.lookup n).map Entry.package

def position (s : BuildPackages) (n : PackageName) : Option Iter :=
  (s.map.lookup n).map Entry.position

/-- `clear_order`. -/
def clearOrder (s : BuildPackages) : BuildPackages where
  map := ⟨s.map.entries.map fun e => ⟨e.1, { e.2 with position := none }⟩, by
    have h := s.map.nodupKeys
    unfold List.NodupKeys List.keys at h ⊢
    rwa [List.map_map]⟩
  list := .nil

/-! ### What collecting and ordering both look at -/

/-- A dependency on one of the tools that the package is built with. -/
def isSpecial (da : DependencyAlternatives) (n : PackageName) : Bool :=
  da.buildtime && (n = .build2 || n = .bpkg)

/-- The package is configured, not as a system package, in the version that is to be built. -/
def sameConfigured (p : BuildPackage) : Except Fault Bool :=
  match p.selected with
  | none => .ok false
  | some sp =>
    if sp.srcConf then p.availableVersion.map (sameVersion sp.version ·) else .ok false

end BuildPackages

end Build2.Bpkg.PkgBuild
