import Build2.Libbutl.DefaultOptions.Basic

/-! # The documented search

The directories in which options files are looked for, from the innermost one outward (`places`),
and what is read there: up to the first directory with a file that has `--no-default-options`. A
directory that is extra is not searched again as the `.build2/` of an outer directory. -/

namespace Build2.Libbutl.DefaultOptions

open Build2.Lib.ByteString

variable {O : Type} (t : Tree O) (noDefaultOptions : O → Bool) (fs : List Bytes)

/-- A directory that is searched. If it is the `.build2/` or `.build2/local/` of an outer directory,
this is `owner`. -/
structure Place where
  dir : Dir
  owner : Option Dir
  deriving DecidableEq

/-- A directory, and its `local/` first. -/
def withLocal (d : Dir) (owner : Option Dir) : List Place := [⟨localDir d, owner⟩, ⟨d, owner⟩]

/-- The start directory and its outer ones, up to the root or the home directory. -/
def traversed (home : Option Dir) : Dir → List Dir
  | [] => []
  | c :: d => if home = some (c :: d) then [] else (c :: d) :: traversed home d

variable (extra : Option Dir)

/-- The directory is the extra one or its `local/`. -/
def IsExtra (d : Dir) : Prop := extra = some d ∨ extra.map localDir = some d

instance (d : Dir) : Decidable (IsExtra extra d) := inferInstanceAs (Decidable (_ ∨ _))

/-- The extra directory is in this one. -/
def hasExtra (d : Dir) : Bool := extra.any fun x => x.sub d

def extraPlaces : List Place :=
  match extra with
  | none => []
  | some x => withLocal x none

/-- The `.build2/` of a traversed directory, unless it is extra. -/
def ownPlaces (d : Dir) : List Place :=
  (withLocal (build2 d) (some d)).filter fun p => ¬ IsExtra extra p.dir

/-- The search of the traversed directories. The innermost one that has the extra directory comes
after it, if this is still `pending`. -/
def traversedPlaces : List Dir → Bool → List Place
  | [], _ => []
  | d :: ds, pending =>
    ((if pending && hasExtra extra d then extraPlaces extra else []) ++ ownPlaces extra d) ++
      traversedPlaces ds (pending && !hasExtra extra d)

/-- The directories in which options files are looked for. -/
def places (sys home start : Option Dir) : List Place :=
  let ds := (start.map (traversed home)).getD []
  traversedPlaces extra ds true ++
    ((if ds.any (hasExtra extra) then [] else extraPlaces extra) ++
      ((home.map fun d => withLocal (build2 d) none).getD [] ++
        (sys.map fun d => withLocal d none).getD []))

/-- The options files in a directory, the last one first. -/
def found (d : Dir) : List (Bytes × O) :=
  fs.reverse.filterMap fun f => (t.file d f).map fun o => (f, o)

/-- One of the files has `--no-default-options`. -/
def stops (d : Dir) : Bool := (found t fs d).any fun x => noDefaultOptions x.2

/-- The places up to the one where the search stops. -/
def searched : List Place → List Place
  | [] => []
  | p :: ps => p :: if stops t noDefaultOptions fs p.dir then [] else searched ps

/-- The entries of the files in a place. -/
def entriesAt (remote : Place → Bool) (p : Place) : List (Entry O) :=
  (found t fs p.dir).map fun x => ⟨p.dir, x.1, x.2, remote p⟩

/-- What is read in the places, the last file first. -/
def read (remote : Place → Bool) (ps : List Place) : List (Entry O) :=
  (searched t noDefaultOptions fs ps).flatMap (entriesAt t fs remote)

/-- The place belongs to an outer directory, and this or a traversed directory further out has a
`.git`. -/
def isRemote (ds : List Dir) (p : Place) : Bool :=
  p.owner.any fun d => ds.any fun e => d.sub e && t.git e

/-- The documented result. -/
def documented (sys home start : Option Dir) : List (Entry O) :=
  (read t noDefaultOptions fs (isRemote t ((start.map (traversed home)).getD []))
    (places extra sys home start)).reverse

/-! ### Where the result is another one -/

/-- The search goes past the `.build2/` of the directory. -/
def GoesPast (d : Dir) : Prop :=
  stops t noDefaultOptions fs (localDir (build2 d)) = false ∧
    stops t noDefaultOptions fs (build2 d) = false

/-- There are options files in a `.build2/` or `.build2/local/` of the directory that is the extra
directory `x` or its `local/`. -/
def ReadAgain (x d : Dir) : Prop :=
  x = build2 d ∧ (found t fs (localDir x) ≠ [] ∨ found t fs x ≠ []) ∨
    x = localDir (build2 d) ∧ found t fs x ≠ []

/-- A file of the extra directory `x` is read again in one of the outer directories. -/
def RepeatedIn (x : Dir) (ds : List Dir) : Prop :=
  ∃ mid d rest, ds = mid ++ d :: rest ∧ (∀ e ∈ mid, GoesPast t noDefaultOptions fs e) ∧
    ReadAgain t fs x d

/-- What goes wrong with the extra directory `x` at the innermost traversed directory `c` that it is
in, of which `outer` are the outer ones: files of its `local/` are marked, or files of the extra
directory are read again as those of the `.build2/` of a traversed directory. -/
def SpoiledAt (x c : Dir) (outer : List Dir) : Prop :=
  (found t fs (localDir x) ≠ [] ∧ outer.any t.git = true ∧
    ¬ (t.git c = true ∧ (stops t noDefaultOptions fs (localDir x) = true ∨
      stops t noDefaultOptions fs x = true ∨ ¬ GoesPast t noDefaultOptions fs c))) ∨
  stops t noDefaultOptions fs (localDir x) = false ∧ stops t noDefaultOptions fs x = false ∧
    (x = build2 c ∧ found t fs (localDir x) ≠ [] ∨
      GoesPast t noDefaultOptions fs c ∧ RepeatedIn t noDefaultOptions fs x outer)

/-- The search comes to the extra directory in the traversed directories, and something goes wrong
with it. -/
def Spoiled (ds : List Dir) : Prop :=
  ∃ x ∈ extra, ∃ inner c outer, ds = inner ++ c :: outer ∧
    (∀ d ∈ inner, x.sub d = false ∧ GoesPast t noDefaultOptions fs d) ∧ x.sub c = true ∧
      SpoiledAt t noDefaultOptions fs x c outer

end Build2.Libbutl.DefaultOptions
