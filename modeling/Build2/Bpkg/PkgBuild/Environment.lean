import Build2.Bpkg.PkgBuild.Basic
import Build2.Bpkg.RepositorySearch
import Mathlib.Data.List.Sort

/-! # What a build is collected from

The database and what else the collection of packages reads, seen through the functions that read it
(`Environment`), and the tables that the functions on the database are computed from
(`Database`). -/

namespace Build2.Bpkg.PkgBuild

open Build2.Libbpkg

/-- What collection reads: the database, the packages on disk and the tools. Postponed packages are
ordered by the addresses of their entries. -/
structure Environment where
  selected : PackageName → Option SelectedPackage
  /-- `find_available_one` in the repositories of a fragment. -/
  findAvailableOne : PackageName → Option VersionConstraint → RepositoryFragment →
    Except Libbutl.ParseUint.Fault (Option (AvailablePackage × Option RepositoryFragment))
  /-- `make_available`, unless the package cannot be verified. -/
  makeAvailable : SelectedPackage → Option (AvailablePackage × Option RepositoryFragment)
  satisfyBuild2 : Dependency → Bool
  satisfyBpkg : Dependency → Bool
  address : PackageName → ℕ

/-- The tables of the database, with the imaginary stubs. -/
structure Database where
  selected : List SelectedPackage
  /-- The available packages with the fragments they are in. -/
  available : List (AvailablePackage × List RepositoryFragment)
  repositories : RepositorySearch.Repositories RepositoryFragment Lib.ByteString.Bytes
  /-- All the fragments: a path among them is not longer than this list. -/
  fragments : List RepositoryFragment
  closed : ∀ r, ∀ f ∈ repositories.fragments r, f ∈ fragments
  imaginaryStubs : List AvailablePackage

namespace Database

variable (db : Database)

/-- `order_by_version_desc`. -/
def versionDesc (x y : CanonicalVersion) : Bool :=
  (compare y.epoch x.epoch).then ((compare y.canonicalUpstream x.canonicalUpstream).then
    ((compare y.canonicalRelease x.canonicalRelease).then
      ((compare y.revision x.revision).then (compare y.iteration x.iteration)))) ≠ .gt

/-- `query_available`, in order. -/
def query (n : PackageName) (c : Option VersionConstraint) :
    Except Libbutl.ParseUint.Fault (List (AvailablePackage × List RepositoryFragment)) := do
  let l ← db.available.filterM fun x =>
    if x.1.name ≠ n then pure false
    else
      match c with
      | none => pure true
      | some c => queryAvailable c (canonicalVersion x.1.version)
  return l.insertionSort fun x y =>
    versionDesc (canonicalVersion x.1.version) (canonicalVersion y.1.version) = true

/-- `filter`, prerequisites included. -/
def filter (rf : RepositoryFragment) (locations : List RepositoryFragment) :
    Except Libbutl.ParseUint.Fault (Option RepositoryFragment) :=
  (RepositorySearch.filter db.repositories locations (db.fragments.length + 2) rf true).mapError
    fun _ => .assertion

/-- `find_available_one`. -/
def findAvailableOne (n : PackageName) (c : Option VersionConstraint) (rf : RepositoryFragment) :
    Except Libbutl.ParseUint.Fault (Option (AvailablePackage × Option RepositoryFragment)) := do
  let r ← (← db.query n c).findSomeM? fun x => do
    return (← db.filter rf x.2).map fun f => (x.1, some f)
  match r with
  | some r => return some r
  | none => return (db.imaginaryStubs.find? fun ap => ap.name = n).map fun ap => (ap, none)

/-- The database as an environment, with the packages on disk and the tools. -/
def environment
    (makeAvailable : SelectedPackage → Option (AvailablePackage × Option RepositoryFragment))
    (satisfyBuild2 satisfyBpkg : Dependency → Bool) (address : PackageName → ℕ) : Environment where
  selected n := db.selected.find? fun sp => sp.name = n
  findAvailableOne := db.findAvailableOne
  makeAvailable := makeAvailable
  satisfyBuild2 := satisfyBuild2
  satisfyBpkg := satisfyBpkg
  address := address

end Database

/-! ### A library and a program that depends on it -/

/-- The version `1`. -/
def versionOne : Version := ⟨1, [49], none, none, 0, List.replicate 15 48 ++ [49], [126]⟩

/-- The version `2`. -/
def versionTwo : Version := ⟨1, [50], none, none, 0, List.replicate 15 48 ++ [50], [126]⟩

theorem isAvailable_versionOne : IsAvailable versionOne where
  constructed := .ofString (show Version.ofString [49] false = .ok versionOne by decide)
  notEarliest := by decide
  revision := by decide

theorem isAvailable_versionTwo : IsAvailable versionTwo where
  constructed := .ofString (show Version.ofString [50] false = .ok versionTwo by decide)
  notEarliest := by decide
  revision := by decide

theorem isAvailable_none : ∀ v ∈ (none : Option Version), IsAvailable v := by
  intro v h
  cases h

/-- A package in the version `1`. -/
def AvailablePackage.one (name : PackageName) (named : name ≠ .empty)
    (dependencies : List DependencyAlternatives) :
    AvailablePackage :=
  ⟨name, versionOne, dependencies, none, false, named, isAvailable_versionOne, isAvailable_none⟩

/-- A package in the version `2`. -/
def AvailablePackage.two (name : PackageName) (named : name ≠ .empty)
    (dependencies : List DependencyAlternatives) :
    AvailablePackage :=
  ⟨name, versionTwo, dependencies, none, false, named, isAvailable_versionTwo, isAvailable_none⟩

def sampleLib : PackageName := .ofString [108, 105, 98]

def sampleExe : PackageName := .ofString [101, 120, 101]

def sampleApp : PackageName := .ofString [97, 112, 112]

theorem sampleLib_ne : sampleLib ≠ .empty := by decide

theorem sampleExe_ne : sampleExe ≠ .empty := by decide

theorem sampleApp_ne : sampleApp ≠ .empty := by decide

/-- Depends on a package in any version. -/
def dependsOn (n : PackageName) : List DependencyAlternatives := [⟨false, false, [⟨n, none⟩]⟩]

theorem mem_sampleFragments (r : Lib.ByteString.Bytes) :
    ∀ f ∈ [r].filter (fun r => r = [65] ∨ r = [66]),
      f ∈ ([[65], [66]] : List RepositoryFragment) := by
  intro f hf
  obtain ⟨hf, hr⟩ := List.mem_filter.mp hf
  rw [decide_eq_true_eq] at hr
  simpa using hr

/-- The program and version 2 of the library are in one repository, version 1 of the library in
another one. Version 2 is configured and held. -/
def sampleDatabase : Database where
  selected := [⟨sampleLib, versionTwo, .configured, .none, true, false, []⟩]
  available := [(.one sampleExe sampleExe_ne (dependsOn sampleLib), [[65]]),
    (.one sampleLib sampleLib_ne [], [[66]]), (.two sampleLib sampleLib_ne [], [[65]])]
  repositories := ⟨fun f => if f = [] then [[65], [66]] else [], fun _ => [],
    fun r => [r].filter fun r => r = [65] ∨ r = [66]⟩
  fragments := [[65], [66]]
  closed := mem_sampleFragments
  imaginaryStubs := []

end Build2.Bpkg.PkgBuild
