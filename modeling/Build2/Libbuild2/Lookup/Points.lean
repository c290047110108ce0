import Build2.Libbuild2.Lookup.Original

/-! # The points of a lookup

A lookup goes through a list of points: in each scope, from the inner to the outer ones, the values
for the target, those for its group and the variables of the scope. The code, which starts anew at a
scope for each stem, computes the fold over that list (`lookupOriginal_eq`). -/

namespace Build2.Libbuild2.Lookup

open Build2.Lib Build2.Lib.ByteString Build2.Libbuild2.Values

/-- What a point looks in. -/
inductive Kind
  | target
  | group
  | scope
  deriving DecidableEq

/-- A point and what is found at it. -/
structure Point (ν : Type) where
  kind : Kind
  found : Except Fault (Option (Found ν))

section

variable {ν τ : Type} [DecidableEq ν] [DecidableEq τ] (ctx : Context ν τ)

/-- The lookup goes on behind the scope, for variables of the visibility. -/
def goesOn (vis : Visibility) (s : Scope ν τ) : Bool :=
  match vis with
  | .global => true
  | .project | .target => !s.isRoot
  | .scope | .prereq => false

/-- What is found for a target or a group, if there is one. -/
def findFor (var : ν) (t : Option (τ × Bytes)) (s : Scope ν τ) : Except Fault (Option (Found ν)) :=
  match t with
  | none => .ok none
  | some t => find ctx s.targetVars t var

/-- The points of a scope. A scope has no point of its own for a variable of targets, but its place
is counted. -/
def scopePoints (var : ν) (t g : Option (τ × Bytes)) (s : Scope ν τ) : List (Point ν) :=
  (match t with
    | none => []
    | some t => [⟨.target, find ctx s.targetVars t var⟩, ⟨.group, findFor ctx var g s⟩]) ++
    [⟨.scope, if ctx.visibility var = .target then .ok none else lookup ctx s.vars var true⟩]

/-- **The ordered list of the points.** -/
def points (var : ν) (t g : Option (τ × Bytes)) : List (Scope ν τ) → List (Point ν)
  | [] => []
  | s :: outer => scopePoints ctx var t g s ++
      if goesOn (ctx.visibility var) s then points var t g outer else []

/-- The value is an assignment: the variables of scopes are. -/
def isAssignment (k : Kind) (l : Found ν) : Bool := decide (k = .scope) || decide (l.extra = 0)

/-- **The fold over the points.** Once one of the group has been taken those of the target do not
count. -/
def fold (var : ν) : Bool → List (Point ν) → Except Fault (Option (Found ν))
  | _, [] => .ok none
  | grouped, p :: ps =>
    if grouped ∧ p.kind = .target then fold var grouped ps
    else
      match p.found with
      | .error e => .error e
      | .ok none => fold var grouped ps
      | .ok (some l) =>
        if isAssignment p.kind l then .ok (some l)
        else (preApp ctx var l (fold var (grouped || decide (p.kind = .group)) ps)).map some

/-- Something is found at the point. -/
def Point.defined (p : Point ν) : Bool :=
  match p.found with
  | .ok (some _) => true
  | _ => false

/-- The position of the first point that is defined, behind `d` others. -/
def positionFrom (d : ℕ) (ps : List (Point ν)) : ℕ :=
  match ps.findIdx? Point.defined with
  | some i => d + (i + 1)
  | none => npos

/-- **The position of the first point that is defined**, counted from one. -/
def position (ps : List (Point ν)) : ℕ := positionFrom 0 ps

/-- The lookup through the points behind the first `d`, of which those in front of `start` are
passed. -/
def lookupPoints (var : ν) (start : ℕ) : ℕ → List (Point ν) → Except Fault (Result ν)
  | _, [] => .ok (none, npos)
  | d, p :: ps =>
    if start ≤ d + 1 then
      match p.found with
      | .error e => .error e
      | .ok none => lookupPoints var start (d + 1) ps
      | .ok (some l) =>
        if isAssignment p.kind l then .ok (some l, d + 1)
        else (preApp ctx var l (fold ctx var (decide (p.kind = .group)) ps)).map
          fun l => (some l, d + 1)
    else lookupPoints var start (d + 1) ps

variable {ctx} {var : ν} {start d : ℕ} {ps : List (Point ν)}

/-! ### The fold and the depth -/

omit [DecidableEq ν] [DecidableEq τ] in
/-- **The lookup is the fold, and its depth the position**, once `start` is reached. -/
theorem lookupPoints_eq (hd : start ≤ d + 1) : lookupPoints ctx var start d ps =
    (fold ctx var false ps).map fun r => (r, positionFrom d ps) := by
  induction ps generalizing d with
  | nil => rfl
  | cons p ps ih =>
    rw [lookupPoints, fold, if_pos hd, if_neg (fun h => Bool.false_ne_true h.1), positionFrom,
      List.findIdx?_cons]
    cases hp : p.found with
    | error e => rfl
    | ok x =>
      cases x with
      | none =>
        have hdef : p.defined = false := by rw [Point.defined, hp]
        rw [hdef, if_neg Bool.false_ne_true]
        dsimp only
        rw [ih (by omega), positionFrom]
        cases ps.findIdx? Point.defined with
        | none => rfl
        | some i =>
          have hdepth : d + 1 + (i + 1) = d + (i + 1 + 1) := by omega
          dsimp only [Option.map_some]
          rw [hdepth]
      | some l =>
        have hdef : p.defined = true := by rw [Point.defined, hp]
        rw [hdef, if_pos rfl, Bool.false_or]
        dsimp only
        split_ifs
        · rfl
        · cases preApp ctx var l (fold ctx var (decide (p.kind = .group)) ps) <;> rfl

omit [DecidableEq ν] [DecidableEq τ] in
theorem lookupPoints_fst (hd : start ≤ d + 1) :
    (lookupPoints ctx var start d ps).map Prod.fst = fold ctx var false ps := by
  rw [lookupPoints_eq hd]
  cases fold ctx var false ps <;> rfl

/-! ### Once a group point has been taken -/

variable {t g : Option (τ × Bytes)} {scopes outer : List (Scope ν τ)} {s : Scope ν τ}

/-- The points of the outer scopes. -/
def outerPoints (ctx : Context ν τ) (var : ν) (t g : Option (τ × Bytes)) (s : Scope ν τ)
    (outer : List (Scope ν τ)) : List (Point ν) :=
  if goesOn (ctx.visibility var) s then points ctx var t g outer else []

/-- The point of the scope itself. -/
def scopePoint (ctx : Context ν τ) (var : ν) (s : Scope ν τ) : Point ν :=
  ⟨.scope, if ctx.visibility var = .target then .ok none else lookup ctx s.vars var true⟩

/-- The point for a group. -/
def groupPoint (ctx : Context ν τ) (var : ν) (g : Option (τ × Bytes)) (s : Scope ν τ) : Point ν :=
  ⟨.group, findFor ctx var g s⟩

theorem points_some (t : τ × Bytes) : points ctx var (some t) g (s :: outer) =
    ⟨.target, find ctx s.targetVars t var⟩ :: groupPoint ctx var g s :: scopePoint ctx var s ::
      outerPoints ctx var (some t) g s outer := rfl

theorem points_none : points ctx var none g (s :: outer) =
    scopePoint ctx var s :: outerPoints ctx var (none : Option (τ × Bytes)) g s outer := rfl

omit [DecidableEq ν] [DecidableEq τ] in
theorem fold_congr {b c : Bool} {p q : Point ν} {qs : List (Point ν)}
    (hb : ¬ (b = true ∧ p.kind = .target)) (hc : ¬ (c = true ∧ q.kind = .target))
    (hfound : p.found = q.found)
    (hkind : ∀ l : Found ν, isAssignment p.kind l = isAssignment q.kind l)
    (h : fold ctx var b ps = fold ctx var c qs)
    (happ : fold ctx var (b || decide (p.kind = .group)) ps =
      fold ctx var (c || decide (q.kind = .group)) qs) :
    fold ctx var b (p :: ps) = fold ctx var c (q :: qs) := by
  rw [fold, fold, if_neg hb, if_neg hc, hfound, h, happ]
  cases q.found with
  | error e => rfl
  | ok x =>
    cases x with
    | none => rfl
    | some l =>
      dsimp only
      rw [hkind]

omit [DecidableEq τ] in
theorem fold_scopePoint {b c : Bool} {qs : List (Point ν)}
    (h : fold ctx var b ps = fold ctx var c qs) :
    fold ctx var b (scopePoint ctx var s :: ps) = fold ctx var c (scopePoint ctx var s :: qs) := by
  refine fold_congr (fun h => nomatch h.2) (fun h => nomatch h.2) rfl (fun _ => rfl) h ?_
  rw [show decide ((scopePoint ctx var s).kind = .group) = false from rfl, Bool.or_false,
    Bool.or_false, h]

/-- **The group in the place of the target** gives what is left of the list. -/
theorem fold_points_group (t g : τ × Bytes) : ∀ scopes : List (Scope ν τ),
    fold ctx var true (points ctx var (some t) (some g) scopes) =
      fold ctx var false (points ctx var (some g) none scopes)
  | [] => rfl
  | s :: outer => by
    have houter : fold ctx var true (outerPoints ctx var (some t) (some g) s outer) =
        fold ctx var false (outerPoints ctx var (some g) none s outer) := by
      unfold outerPoints
      split_ifs
      · exact fold_points_group t g outer
      · rfl
    have hscope := fold_scopePoint (s := s) houter
    -- the point of the target is skipped, and nothing is found for the group of the group
    have hgroup : fold ctx var true (groupPoint ctx var (some g) s :: scopePoint ctx var s ::
        outerPoints ctx var (some t) (some g) s outer) = fold ctx var false
        (⟨.target, find ctx s.targetVars g var⟩ :: groupPoint ctx var none s ::
          scopePoint ctx var s :: outerPoints ctx var (some g) none s outer) :=
      fold_congr (fun h => nomatch h.2) (fun h => nomatch h.1) rfl (fun _ => rfl) hscope hscope
    exact hgroup

/-- The stem of a value of the group. -/
theorem fold_tail_group (t g : τ × Bytes) :
    fold ctx var true (points ctx var (some t) (some g) (s :: outer)).tail.tail =
      fold ctx var false (points ctx var (some g) none (s :: outer)).tail := by
  have houter : fold ctx var true (outerPoints ctx var (some t) (some g) s outer) =
      fold ctx var false (outerPoints ctx var (some g) none s outer) := by
    unfold outerPoints
    split_ifs
    · exact fold_points_group t g outer
    · rfl
  exact fold_scopePoint houter

end

end Build2.Libbuild2.Lookup
