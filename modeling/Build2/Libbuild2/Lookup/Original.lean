import Build2.Libbuild2.Values.Typify
import Build2.Libbutl.PathPattern

/-! # Looking up variables

`scope::lookup_original` of `scope.cxx` with `variable_map::lookup` and `variable_type_map::find` of
`variable.cxx`. Typed values that are remembered and the cache of appended values are left out: a
value is typed, and the names are appended, whenever it is looked up. Variables and target types are
known by identities. -/

namespace Build2.Libbuild2.Lookup

open Build2.Lib Build2.Lib.ByteString Build2.Libbuild2.Values

/-- `variable_visibility`. -/
inductive Visibility
  | global
  | project
  | scope
  | target
  | prereq
  deriving DecidableEq, Repr

/-- How a call ends when it does not return. Running out of fuel is no behaviour of the source. -/
inductive Fault
  | value (f : Failure)
  | cannotAppend (t : ValueType)
  | cannotPrepend (t : ValueType)
  | assertion
  | exhausted

/-- The variables, the target types and the value types: for a variable its type, its visibility and
the others on its circular list of aliases, for a target type its bases from the nearest on, and for
a value type its `append` and `prepend` callbacks, which get the data unless the value is NULL. -/
structure Context (ν τ : Type) where
  type : ν → Option ValueType
  visibility : ν → Visibility
  aliases : ν → List ν
  bases : τ → List τ
  cwd : Cwd
  append : (t : ValueType) → Option (Option t.Data → List Name → Except Failure t.Data)
  prepend : (t : ValueType) → Option (Option t.Data → List Name → Except Failure t.Data)

/-- `variable_map::value_data`: `extra` is 1 for prepend and 2 for append. -/
structure ValueData where
  value : Value
  extra : UInt8

/-- `variable_map`. -/
abbrev VariableMap (ν : Type) : Type := List (ν × ValueData)

/-- `variable_pattern_map`. -/
abbrev PatternMap (ν : Type) : Type := OrderedMap stringRank (VariableMap ν)

/-- `scope`: whether it is the root scope of its project, and its variables. -/
structure Scope (ν τ : Type) where
  isRoot : Bool
  vars : VariableMap ν
  targetVars : List (τ × PatternMap ν)

/-- `lookup`: the value and the variable it is stored for. -/
structure Found (ν : Type) where
  value : Value
  extra : UInt8
  var : ν

/-- The type of a value. -/
def typeOf : Value → Option ValueType
  | .null t => t
  | .names _ => none
  | .typed t _ => some t

/-- `size_t (~0)`. -/
def npos : ℕ := 2 ^ 64 - 1

section

variable {ν τ : Type} [DecidableEq ν] [DecidableEq τ] (ctx : Context ν τ)

/-- `typify`, reported. -/
def typified (v : Value) (t : ValueType) : Except Fault Value :=
  match typify ctx.cwd v t with
  | .ok v => .ok v
  | .error f => .error (.value f)

/-- `variable_map::typify`, if the variable has a type. -/
def Found.typify (l : Found ν) (v : ν) : Except Fault (Option (Found ν)) :=
  match ctx.type v with
  | none => .ok (some l)
  | some t =>
    match typified ctx l.value t with
    | .ok x => .ok (some { l with value := x })
    | .error e => .error e

/-- The loop of `variable_map::lookup` over a variable and its aliases. -/
def stored (vm : VariableMap ν) : List ν → Option (Found ν)
  | [] => none
  | v :: vs =>
    match vm.lookup v with
    | some d => some ⟨d.value, d.extra, v⟩
    | none => stored vm vs

/-- `variable_map::lookup`. -/
def lookup (vm : VariableMap ν) (var : ν) (typed : Bool) : Except Fault (Option (Found ν)) :=
  match stored vm (var :: ctx.aliases var) with
  | none => .ok none
  | some l => if typed then l.typify ctx l.var else .ok (some l)

/-- Whether a pattern matches the name of a target. -/
def patternMatches (name pat : Bytes) : Bool :=
  if pat = [ch '*'] then true
  else if name.length < (pat.length + 2 ^ 64 - 1) % 2 ^ 64 then false
  else Libbutl.PathPattern.pathMatch name pat

/-- The loop of `variable_type_map::find` over the patterns. -/
def findPattern (var : ν) (name : Bytes) :
    List (Bytes × VariableMap ν) → Except Fault (Option (Found ν))
  | [] => .ok none
  | (pat, vm) :: ps =>
    if patternMatches name pat then
      match lookup ctx vm var false with
      | .error e => .error e
      | .ok none => findPattern var name ps
      | .ok (some l) => if l.extra = 0 then l.typify ctx var else .ok (some l)
    else findPattern var name ps

/-- The loop of `variable_type_map::find` over a target type and its bases. -/
def findType (m : List (τ × PatternMap ν)) (var : ν) (name : Bytes) :
    List τ → Except Fault (Option (Found ν))
  | [] => .ok none
  | t :: ts =>
    match m.lookup t with
    | none => findType m var name ts
    | some pm =>
      match findPattern ctx var name pm.entries.reverse with
      | .error e => .error e
      | .ok none => findType m var name ts
      | .ok (some l) => .ok (some l)

/-- `variable_type_map::find`, for a target type and a name. -/
def find (m : List (τ × PatternMap ν)) (t : τ × Bytes) (var : ν) :
    Except Fault (Option (Found ν)) :=
  findType ctx m var t.2 (t.1 :: ctx.bases t.1)

/-- `value::append` and `value::prepend`: the callback of the type, and what is done with names. -/
def extend (callback : (t : ValueType) → Option (Option t.Data → List Name → Except Failure t.Data))
    (missing : ValueType → Fault) (combine : List Name → List Name → List Name) (v : Value)
    (ns : List Name) : Except Fault Value :=
  let typed (t : ValueType) (x : Option t.Data) : Except Fault Value :=
    match callback t with
    | none => .error (missing t)
    | some f =>
      match f x ns with
      | .ok y => .ok (.typed t y)
      | .error e => .error (.value e)
  match v with
  | .null none => .ok (.names ns)
  | .names ps => .ok (.names (combine ps ns))
  | .null (some t) => typed t none
  | .typed t x => typed t (some x)

/-- `value::append`. -/
def append (v : Value) (ns : List Name) : Except Fault Value :=
  extend ctx.append .cannotAppend (fun ps ns => ps ++ ns) v ns

/-- `value::prepend`. -/
def prepend (v : Value) (ns : List Name) : Except Fault Value :=
  extend ctx.prepend .cannotPrepend (fun ps ns => ns ++ ps) v ns

/-- The lambda `pre_app` behind the lookup of the stem. -/
def preApp (var : ν) (l : Found ν) (stem : Except Fault (Option (Found ν))) :
    Except Fault (Found ν) :=
  if ¬((l.extra = 1 ∨ l.extra = 2) ∧ typeOf l.value = none) then .error .assertion
  else
    match stem with
    | .error e => .error e
    | .ok stem =>
      let cv := (stem.map Found.value).getD (.null none)
      -- without a typed stem the names are still added in a type-aware way
      match if typeOf cv = none then (match ctx.type var with
          | some t => typified ctx cv t
          | none => .ok cv) else .ok cv with
      | .error e => .error e
      | .ok cv =>
        match l.value with
        | .names ns =>
          match if l.extra = 1 then prepend ctx cv ns else append ctx cv ns with
          | .error e => .error e
          | .ok cv => .ok ⟨cv, 0, l.var⟩
        | _ => .ok ⟨cv, 0, l.var⟩

/-- A value that has been found for a target or a group. -/
def taken (var : ν) (l : Found ν) (stem : Except Fault (Option (Found ν))) :
    Except Fault (Found ν) :=
  if l.extra = 0 then .ok l else preApp ctx var l stem

/-- What `lookup_original` returns: the lookup and its depth. -/
abbrev Result (ν : Type) : Type := Option (Found ν) × ℕ

/-- The lookup of a stem, without its depth. -/
abbrev Stem (ν τ : Type) : Type :=
  List (Scope ν τ) → Option (τ × Bytes) → Option (τ × Bytes) → Except Fault (Option (Found ν))

/-- The part of the loop for the target, or for its group: what is returned there, if anything. -/
def lookupAt (var : ν) (start d : ℕ) (s : Scope ν τ) (t : Option (τ × Bytes))
    (stem : Except Fault (Option (Found ν))) : Except Fault (Option (Found ν × ℕ)) :=
  match t with
  | none => .ok none
  | some t =>
    match if start ≤ d ∧ !s.targetVars.isEmpty then find ctx s.targetVars t var else .ok none with
    | .error e => .error e
    | .ok none => .ok none
    | .ok (some l) =>
      match taken ctx var l stem with
      | .error e => .error e
      | .ok l => .ok (some (l, d))

/-- What is returned in a part of the loop, or what follows. -/
def returned (r : Except Fault (Option (Found ν × ℕ))) (next : Except Fault (Result ν)) :
    Except Fault (Result ν) :=
  match r with
  | .error e => .error e
  | .ok (some (l, d)) => .ok (some l, d)
  | .ok none => next

/-- The switch on the visibility at the end of the loop. `next` is what the loop gives from the
parent scope on. -/
def advance (var : ν) (s : Scope ν τ) (next : Except Fault (Result ν)) : Except Fault (Result ν) :=
  match ctx.visibility var with
  | .scope => .ok (none, npos)
  | .target | .project => if s.isRoot then .ok (none, npos) else next
  | .global => next
  | .prereq => .error .assertion

/-- The part of the loop for the variables of the scope, and what follows. -/
def lookupScope (var : ν) (start d : ℕ) (s : Scope ν τ) (next : Except Fault (Result ν)) :
    Except Fault (Result ν) :=
  match if start ≤ d ∧ ctx.visibility var ≠ .target then lookup ctx s.vars var true
      else .ok none with
  | .error e => .error e
  | .ok (some l) => .ok (some l, d)
  | .ok none => advance ctx var s next

/-- The loop of `lookup_original` over the scopes, from the depth `d` on. -/
def lookupScopes (var : ν) (stem : Stem ν τ) (start : ℕ) (t g : Option (τ × Bytes)) :
    ℕ → List (Scope ν τ) → Except Fault (Result ν)
  | _, [] => .ok (none, npos)
  | d, s :: outer =>
    if t = none then
      lookupScope ctx var start (d + 1) s (lookupScopes var stem start t g (d + 1) outer)
    else
      returned (lookupAt ctx var start (d + 1) s t (stem (s :: outer) t g))
        (returned (lookupAt ctx var start (d + 2) s g (stem (s :: outer) g none))
          (lookupScope ctx var start (d + 3) s (lookupScopes var stem start t g (d + 3) outer)))

/-- `scope::lookup_original`, for a scope and the outer ones. The fuel bounds the nested lookups of
stems. -/
def lookupOriginal (var : ν) : ℕ → Option (τ × Bytes) → Option (τ × Bytes) → ℕ →
    List (Scope ν τ) → Except Fault (Result ν)
  | 0, _, _, _, _ => .error .exhausted
  | n + 1, t, g, start, scopes =>
    if t = none ∧ ctx.visibility var = .target then .error .assertion
    else if ctx.visibility var = .prereq then .ok (none, 0)
    else
      lookupScopes ctx var
        (fun scopes t g => (lookupOriginal var n t g 2 scopes).map Prod.fst) start t g 0 scopes

end

end Build2.Libbuild2.Lookup
