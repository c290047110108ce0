import Build2.Bpkg.LifeCycle.Basic
import Build2.Lib.OrderedMap

/-! # Dropping packages

`pkg-drop`: the user selection, all that depends on it and the prerequisites that may be of no use
any more are collected, ordered and filtered (`assemble`). Then the configured packages on the list
are disfigured from left to right. Whether this includes the unused prerequisites and how
filesystem actions end are arguments. -/

namespace Build2.Bpkg.PkgDrop

open Build2.Lib Build2.Lib.ByteString Build2.Lib.Linked
open PkgBuild (PackageName PackageState)
open LifeCycle (SelectedPackage Database Failure DisfigureActions)

inductive DropReason
  | user
  | dependent
  | prerequisite
  deriving DecidableEq, Repr

structure DropPackage where
  package : SelectedPackage
  reason : DropReason

/-- A package that depends on the user selection, and the prerequisite it was found through. -/
structure DependentName where
  name : PackageName
  prqName : PackageName
  deriving DecidableEq

/-- How a function ends when it does not return: an assertion or an exception that nothing catches,
a bound on the depth of a recursion or the rounds of a loop that the source does not have, or
`fail`. -/
inductive Fault
  | assertion
  | tooDeep
  | notSelected (name : PackageName)
  | brokenPackage (name : PackageName)
  deriving DecidableEq

/-- Names are ordered by their bytes. -/
def nameRank (n : PackageName) : List ℕ := n.value.map UInt8.toNat

/-- `data_type`. The position can be the end. -/
structure Data where
  position : Iter
  package : DropPackage

/-- `drop_packages`: the map and the list, which refers to entries of the map. -/
structure DropPackages where
  map : OrderedMap nameRank Data
  list : NodeList PackageName

namespace DropPackages

def empty : DropPackages := ⟨.empty nameRank Data, .nil⟩

def package (s : DropPackages) (n : PackageName) : Option DropPackage :=
  (s.map.find n).map Data.package

def position (s : DropPackages) (n : PackageName) : Option Iter := (s.map.find n).map Data.position

/-- The packages on the list, in its order. -/
def packages (s : DropPackages) : List DropPackage := s.list.values.filterMap s.package

/-! ### Collecting -/

/-- `collect`. -/
def collect (s : DropPackages) (p : SelectedPackage) (r : DropReason) : DropPackages × Bool :=
  ({ s with map := s.map.emplace p.name ⟨none, p, r⟩ }, (s.map.find p.name).isNone)

/-- A round in the loop of `collect_dependents` or `collect_prerequisites` for the package `p`: the
package is loaded, collected unless it is `pruned` or in the map already, and gone on from. The
names that are collected are listed. -/
def collectNext (db : Database) (pruned : SelectedPackage → Bool) (r : DropReason)
    (goOn : SelectedPackage → DropPackages × List DependentName →
      Except Fault (DropPackages × List DependentName))
    (p : SelectedPackage) (x : DropPackages × List DependentName) (n : PackageName) :
    Except Fault (DropPackages × List DependentName) :=
  if (x.1.map.find n).isSome then .ok x
  else
    match db.find n with
    | none => .error .assertion
    | some q =>
      if pruned q then .ok x
      else goOn q ((x.1.collect q r).1, x.2 ++ [⟨n, p.name⟩])

/-- The recursion of `collect_dependents` and of `collect_prerequisites`, with the packages `next`
to one. The bound is on the depth of the recursion. -/
def collectFrom (db : Database) (next : SelectedPackage → List PackageName)
    (pruned : SelectedPackage → Bool) (r : DropReason) :
    ℕ → SelectedPackage → DropPackages × List DependentName →
      Except Fault (DropPackages × List DependentName)
  | 0, _, _ => .error .tooDeep
  | k + 1, p, x =>
    (next p).foldlM (collectNext db pruned r (collectFrom db next pruned r k) p) x

/-- No path through the packages is longer, and no map of packages is larger. -/
def bound (db : Database) : ℕ := db.keys.length + 1

/-- `collect_dependents (db, dns, p)`. -/
def dependentsOf (db : Database) (p : SelectedPackage) (x : DropPackages × List DependentName) :
    Except Fault (DropPackages × List DependentName) :=
  collectFrom db (fun p => (Database.dependents db p.name).map Prod.fst) (fun _ => false) .dependent
    (bound db) p x

/-- `collect_dependents (db)`. An unconfigured package cannot have dependents. -/
def collectDependents (db : Database) (s : DropPackages) :
    Except Fault (DropPackages × List DependentName) :=
  OrderedMap.forEach (fun x => x.1.map) (fun d x =>
    if d.package.reason ≠ .dependent ∧ d.package.package.state = .configured then
      dependentsOf db d.package.package x
    else .ok x) .tooDeep (bound db) none (s, [])

/-- `collect_prerequisites (db, p)`. Held packages are pruned. -/
def prerequisitesOf (db : Database) (p : SelectedPackage) (x : DropPackages × List DependentName) :
    Except Fault (DropPackages × List DependentName) :=
  collectFrom db (fun p => p.prerequisites.keys) (fun p => p.holdPackage) .prerequisite
    (bound db) p x

/-- `collect_prerequisites (db)`: whether any were collected. An unconfigured package cannot have
prerequisites. -/
def collectPrerequisites (db : Database) (s : DropPackages) : Except Fault (DropPackages × Bool) :=
  (OrderedMap.forEach (fun x => x.1.map) (fun d x =>
    if (d.package.reason = .user ∨ d.package.reason = .dependent) ∧
        d.package.package.state = .configured then
      prerequisitesOf db d.package.package x
    else .ok x) .tooDeep (bound db) none (s, [])).map fun x => (x.1, !x.2.isEmpty)

/-! ### Ordering -/

/-- A round of the loop over the prerequisites, which need not be in the map: one is ordered, and
its position is taken if it is earlier. -/
def orderNext (order : PackageName → DropPackages → Except Fault (Iter × DropPackages))
    (x : Iter × DropPackages) (n : PackageName) : Except Fault (Iter × DropPackages) :=
  if (x.2.map.find n).isSome then do
    let (j, s) ← order n x.2
    return (s.list.earlier x.1 j, s)
  else .ok x

/-- `order`. The bound is on the depth of the recursion. -/
def order : ℕ → PackageName → DropPackages → Except Fault (Iter × DropPackages)
  | 0, _, _ => .error .tooDeep
  | k + 1, name, s =>
    match s.map.find name with
    | none => .error .assertion
    | some d =>
      if d.position ≠ none then .ok (d.position, s)
      else do
        let (i, s) ←
          if d.package.package.state = .configured then
            d.package.package.prerequisites.keys.foldlM (orderNext (order k)) (none, s)
          else .ok (none, s)
        let (l, pos) := s.list.insert i name
        return (pos, ⟨s.map.adjust name fun d => { d with position := pos }, l⟩)

/-- The packages are ordered one after the other. -/
def orderAll (db : Database) (names : List PackageName) (s : DropPackages) :
    Except Fault DropPackages :=
  names.foldlM (fun s n => do
    let (_, s) ← order (bound db) n s
    return s) s

/-! ### Filtering -/

/-- A round of `filter_prerequisites`, at a node of the list. -/
def filterNode (db : Database) (x : DropPackages × Bool) (node : ℕ × PackageName) :
    DropPackages × Bool :=
  match x.1.package node.2 with
  | none => x
  | some dp =>
    if dp.reason = .prerequisite then
      if (Database.dependents db dp.package.name).any fun pd => (x.1.map.find pd.1).isNone then
        (⟨x.1.map.erase dp.package.name, x.1.list.erase (some node.1)⟩, x.2)
      else (x.1, true)
    else x

/-- `filter_prerequisites`: whether any prerequisites remain. -/
def filterPrerequisites (db : Database) (s : DropPackages) : DropPackages × Bool :=
  s.list.nodes.foldl (filterNode db) (s, false)

end DropPackages

/-! ### The list -/

open DropPackages

/-- A package of the user selection is collected. Its name is listed unless it is there already. -/
def selectNext (db : Database) (x : DropPackages × List PackageName) (n : PackageName) :
    Except Fault (DropPackages × List PackageName) :=
  match db.find n with
  | none => .error (.notSelected n)
  | some p =>
    if p.state = .broken then .error (.brokenPackage n)
    else
      let (s, collected) := x.1.collect p .user
      .ok (s, if collected then x.2 ++ [n] else x.2)

/-- The user selection. -/
def select (db : Database) (args : List PackageName) :
    Except Fault (DropPackages × List PackageName) :=
  args.foldlM (selectNext db) (.empty, [])

/-- What is to be dropped, the dependents that the user did not select, and whether there are
prerequisites among what is to be dropped. -/
structure Assembled where
  pkgs : DropPackages
  dependents : List DependentName
  unused : Bool

/-- `pkg_drop` up to the list, if the dependents are dropped as well. -/
def assemble (db : Database) (args : List PackageName) : Except Fault Assembled := do
  let (s, names) ← select db args
  let (s, dnames) ← s.collectDependents db
  let (s, _) ← s.collectPrerequisites db
  let s ← orderAll db (names ++ dnames.map DependentName.name) s
  let (s, unused) := s.filterPrerequisites db
  return ⟨s, dnames, unused⟩

/-! ### Disfiguring -/

/-- The loop that disfigures the configured packages, each in a transaction of its own: the
databases and packages that `pkg_disfigure` is called with, and how the loop ends. What is not in
the database any more is transient. -/
def disfigureAll (dropPrq : Bool) (fs : PackageName → DisfigureActions) :
    List DropPackage → Database → List (Database × SelectedPackage) × Except Failure Database
  | [], db => ([], .ok db)
  | dp :: dps, db =>
    if dp.reason = .prerequisite ∧ !dropPrq then disfigureAll dropPrq fs dps db
    else
      match db.find dp.package.name with
      | none => disfigureAll dropPrq fs dps db
      | some p =>
        if p.state ≠ .configured then disfigureAll dropPrq fs dps db
        else
          match LifeCycle.disfigure db p true (fs p.name) with
          | .error e => ([(db, p)], .error e)
          | .ok (p', db') =>
            if p'.state = .unpacked ∨ p'.state = .transient then
              let (calls, r) := disfigureAll dropPrq fs dps db'
              ((db, p) :: calls, r)
            else ([(db, p)], .error .assertion)

end Build2.Bpkg.PkgDrop
