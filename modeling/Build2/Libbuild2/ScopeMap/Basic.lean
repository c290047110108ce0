import Build2.Libbutl.PathMap.Find

/-! # The scope map

Scopes are kept by their directories. Each refers to its parent and to its root scope, and an
insertion updates these for the scopes below the new one. A pointer to a scope is the key that the
scope is stored under. -/

namespace Build2.Libbuild2.ScopeMap

open Build2.Lib.Forest Build2.Libbutl Build2.Libbutl.PathMap PathTraits

variable {C : Type} [PathTraits C]

/-- The scope that the scope with a key is in and the root scope of its project. -/
structure Scope (C : Type) where
  parent : Option (Path C) := none
  root : Option (Path C) := none
  deriving DecidableEq

/-- The scopes of the out tree. -/
abbrev ScopeMapBase (C : Type) := DirPathMap C (Scope C)

/-! ### The source -/

/-- The scope that a pointer refers to. -/
def deref (m : ScopeMapBase C) (p : Path C) : Option (Scope C) :=
  (m.find? fun e => e.1 = p).map (·.2)

/-- An assignment to the scope that a pointer refers to. -/
def assign (m : ScopeMapBase C) (p : Path C) (s : Scope C) : ScopeMapBase C :=
  m.map fun e => if e.1 = p then (e.1, s) else e

/-- `p->root_`, where the null pointer must not be followed. -/
def rootOf (m : ScopeMapBase C) (p : Option (Path C)) : Option (Option (Path C)) :=
  p.bind fun p => (deref m p).map Scope.root

/-- A scope below a new root scope, where `p` is the parent of the new one. -/
def rerooted (m : ScopeMapBase C) (k : Path C) (root : Bool) (p : Option (Path C)) (c : Scope C) :
    Option (Scope C) :=
  if root then
    -- no intermediate root
    (rootOf m p).map fun r => if c.root = r then { c with root := some k } else c
  else some c

/-- A scope below a new scope. -/
def reparented (k : Path C) (p : Option (Path C)) (c : Scope C) : Scope C :=
  -- no intermediate parent
  if p = c.parent then { c with parent := some k } else c

/-- The loop over the scopes below the new one `k`, with the parent of `k` so far. -/
def adopt (k : Path C) (root : Bool) :
    List (Path C) → ScopeMapBase C → Option (Path C) → Option (ScopeMapBase C × Option (Path C))
  | [], m, p => some (m, p)
  | x :: xs, m, p => do
    let c ← deref m x
    let p := p.or c.parent
    let c ← rerooted m k root p c
    adopt k root xs (assign m x (reparented k p c)) p

/-- The loop over the scopes of which the scope `k` becomes the root instead of `r`. -/
def upgrade (k : Path C) (r : Option (Path C)) :
    List (Path C) → ScopeMapBase C → Option (ScopeMapBase C)
  | [], m => some m
  | x :: xs, m => do
    let c ← deref m x
    upgrade k r xs (if c.root = r then assign m x { c with root := some k } else m)

/-- `scope_map::find`, `none` where an assertion fails. -/
def find (m : ScopeMapBase C) (k : Path C) : Option (Path C) :=
  if normalized k then (findSup m k).map (·.1) else none

/-- The scopes below the one with the key `k`: the first entry is that one itself. -/
def below (m : ScopeMapBase C) (k : Path C) : List (Path C) := (findSub m k).tail.map (·.1)

/-- The first part of the insertion of a new scope: the scopes below it and its parent. -/
def insertBelow (m : ScopeMapBase C) (k : Path C) (root : Bool) :
    Option (ScopeMapBase C × Option (Path C)) :=
  if 1 < m.length then do
    let (m, p) ← adopt k root (below m k) m none
    match p with
    | some p => some (m, some p)
    | none => (find m (directory k)).map fun p => (m, some p)
  else some (m, none)

/-- `root ? &s : (p != nullptr ? p->root_ : nullptr)`. -/
def newRoot (m : ScopeMapBase C) (s : Path C) (root : Bool) (p : Option (Path C)) :
    Option (Option (Path C)) :=
  if root then some (some s) else if p = none then some none else rootOf m p

/-- `scope_map::insert`, `none` where an assertion fails or a null pointer is followed. -/
def insert (m : ScopeMapBase C) (k : Path C) (root : Bool) : Option (ScopeMapBase C) :=
  match emplace m k {} with
  | (m, s, true) => do
    let (m, p) ← insertBelow m k root
    let r ← newRoot m s root p
    some (assign m s { parent := p, root := r })
  | (m, s, false) => do
    let sc ← deref m s
    if root && sc.root ≠ some s then
      (upgrade s sc.root (below m k) m).map fun m => assign m s { sc with root := some s }
    else some m

/-- A sequence of insertions. -/
def insertAll (m : ScopeMapBase C) (calls : List (Path C × Bool)) : Option (ScopeMapBase C) :=
  calls.foldlM (fun m c => insert m c.1 c.2) m

end Build2.Libbuild2.ScopeMap
