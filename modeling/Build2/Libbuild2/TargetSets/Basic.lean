import Mathlib.Data.List.Basic

/-! # The target set

The targets of a context are in a hash table that several threads look into and insert into. The
extension of a target is a part of its key and may be set later. A step below is what a thread does
while it holds the mutex of the set, shared or exclusive. Types with a fixed extension are left out.
-/

namespace Build2.Libbuild2.TargetSets

/-- `target_key`: the type is an address, an extension that is absent is unspecified. -/
structure TargetKey where
  type : ℕ
  dir : String
  out : String
  name : String
  ext : Option String
  deriving DecidableEq, Repr

/-- The key apart from the extension. -/
def TargetKey.base (k : TargetKey) : ℕ × String × String × String := (k.type, k.dir, k.out, k.name)

/-- `operator==`. Unspecified and specified extensions are assumed equal. -/
def TargetKey.same (x y : TargetKey) : Bool :=
  if x.type ≠ y.type || x.dir ≠ y.dir || x.out ≠ y.out || x.name ≠ y.name then false
  else x.ext = none || y.ext = none || x.ext = y.ext

/-- A node of the table: the key, whose extension is mutable, and the address of the target. -/
structure Entry where
  key : TargetKey
  target : ℕ
  deriving DecidableEq, Repr

/-- A target: the node that `ext_` points into, and whether it has been entered as implied. -/
structure Target where
  ext : ℕ
  implied : Bool
  deriving DecidableEq, Repr

/-- The nodes and the targets by their addresses. Neither is ever removed. -/
structure TargetSet where
  entries : List Entry := []
  targets : List Target := []
  deriving DecidableEq, Repr

/-- The calls of `find` and of `insert_locked`. -/
inductive Call
  | find
  | insert (implied : Bool)
  deriving DecidableEq, Repr

/-- Where a thread is. -/
inductive Place
  | idle
  /-- At the start of `find`, perhaps called by `insert_locked`. -/
  | finding (c : Call) (k : TargetKey)
  /-- In `find`, between the locks, with the node that has been found. -/
  | branding (c : Call) (k : TargetKey) (i : ℕ)
  /-- In `insert_locked`, where `find` has not found a target. -/
  | inserting (implied : Bool) (k : TargetKey)
  deriving DecidableEq, Repr

/-! ### The source -/

/-- The table may be searched in any order: `i` is a node that is equal to the key, or there is
none. -/
def TargetSet.isFind (s : TargetSet) (k : TargetKey) (i : Option ℕ) : Bool :=
  match i with
  | none => s.entries.all fun e => !e.key.same k
  | some i => (s.entries[i]?).any fun e => e.key.same k

/-- `ext = k.ext`. -/
def TargetSet.setExt (s : TargetSet) (i : ℕ) (ext : Option String) : TargetSet :=
  { s with entries := s.entries.modify i fun e => { e with key := { e.key with ext := ext } } }

/-- The end of `insert_locked` for a target that has been found: the flag can only be cleared. -/
def TargetSet.finish (s : TargetSet) (c : Call) (t : ℕ) : TargetSet :=
  match c with
  | .insert false => { s with targets := s.targets.modify t fun t => { t with implied := false } }
  | _ => s

/-- A target that is returned by a call with a key. -/
abbrev Returned : Type := Option (TargetKey × ℕ)

/-- `find` while it holds the shared lock, with the node that the table finds. -/
def find (s : TargetSet) (c : Call) (k : TargetKey) (i : Option ℕ) :
    Option (TargetSet × Place × Returned) :=
  if s.isFind k i then
    match i.bind (s.entries[·]?), i with
    | some e, some i =>
      if e.key.ext ≠ k.ext ∧ k.ext ≠ none then some (s, .branding c k i, none)
      else some (s.finish c e.target, .idle, some (k, e.target))
    | _, _ =>
      match c with
      | .find => some (s, .idle, none)
      | .insert implied => some (s, .inserting implied k, none)
  else none

/-- `find` while it holds the exclusive lock. -/
def brand (s : TargetSet) (c : Call) (k : TargetKey) (i : ℕ) :
    Option (TargetSet × Place × Returned) :=
  match s.entries[i]? with
  | none => none
  | some e =>
    -- someone set the extension
    if e.key.ext ≠ none then some (s, .finding c k, none)
    else some ((s.setExt i k.ext).finish c e.target, .idle, some (k, e.target))

/-- `insert_locked` while it holds the exclusive lock, with the node that `emplace` finds. -/
def emplace (s : TargetSet) (implied : Bool) (k : TargetKey) (i : Option ℕ) :
    Option (TargetSet × Place × Returned) :=
  if s.isFind k i then
    match i.bind (s.entries[·]?), i with
    | some e, some i =>
      let s := if e.key.ext ≠ k.ext ∧ k.ext ≠ none then s.setExt i k.ext else s
      some (s.finish (.insert implied) e.target, .idle, some (k, e.target))
    | _, _ =>
      let t : Target := ⟨s.entries.length, implied⟩
      some (⟨s.entries ++ [⟨k, s.targets.length⟩], s.targets ++ [t]⟩, .idle,
        some (k, s.targets.length))
  else none

/-- `target::ext`, which fails if the extension is already another one. -/
def ext (s : TargetSet) (t : ℕ) (v : String) : Option (TargetSet × Place × Returned) :=
  match s.targets[t]? with
  | none => none
  | some tg =>
    match s.entries[tg.ext]? with
    | none => none
    | some e =>
      let k := { e.key with ext := some v }
      match e.key.ext with
      | none => some (s.setExt tg.ext (some v), .idle, some (k, t))
      | some o => if o ≠ v then some (s, .idle, none) else some (s, .idle, some (k, t))

/-! ### Runs -/

inductive Step
  /-- A call of `find` or of `insert_locked`. -/
  | call (c : Call) (k : TargetKey)
  /-- The next part of the call, with what the table finds. -/
  | proceed (i : Option ℕ)
  /-- A call of `target::ext`. -/
  | ext (t : ℕ) (v : String)
  deriving DecidableEq, Repr

/-- The set, the places of the threads, and the targets that have been returned, with the keys they
were returned for. -/
structure State where
  set : TargetSet := {}
  threads : List Place
  returned : List (TargetKey × ℕ) := []

/-- What a thread does next, `none` if it cannot make the step. -/
def region (s : TargetSet) : Step → Place → Option (TargetSet × Place × Returned)
  | .call c k, .idle => some (s, .finding c k, none)
  | .proceed i, .finding c k => find s c k i
  | .proceed _, .branding c k i => brand s c k i
  | .proceed i, .inserting implied k => emplace s implied k i
  | .ext t v, .idle => ext s t v
  | _, _ => none

/-- A step of the thread with the number `j`; nothing happens if it cannot make it. -/
def step (s : State) (j : ℕ) (a : Step) : State :=
  match s.threads[j]? with
  | none => s
  | some p =>
    match region s.set a p with
    | none => s
    | some (set, p, r) => ⟨set, s.threads.set j p, r.toList ++ s.returned⟩

/-- An interleaving of the steps of `n` threads. -/
def run (n : ℕ) (steps : List (ℕ × Step)) : State :=
  steps.foldl (fun s a => step s a.1 a.2) { threads := List.replicate n .idle }

end Build2.Libbuild2.TargetSets
