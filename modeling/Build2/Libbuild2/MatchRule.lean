import Build2.Libbutl.PrefixMaps
import Mathlib.Order.Basic

/-! # Selecting a rule

`match_rule` of `algorithm.cxx` over the rule maps of `rule-map.hxx`. The types of the target, the
scopes and the operations are searched from the most specific, up to the first map with a rule that
matches. The test for ambiguity does not pass over the rule to skip, and `find_sub` with the empty
hint does not reach the hints that start with a character below the dot (`matchRule_eq_iff`). -/

namespace Build2.Libbuild2.MatchRule

open Build2.Libbutl.PathMap Build2.Libbutl.PrefixMaps

/-- A character of a hint. The delimiter of `hint_rule_map` is the dot. -/
structure HintChar where
  char : Char
  deriving DecidableEq, Repr

instance : LinearOrder HintChar :=
  LinearOrder.lift' HintChar.char fun _ _ h => congrArg HintChar.mk h

instance : PathTraits HintChar where
  separator := ⟨'.'⟩
  dot := ⟨'.'⟩

abbrev Hint := List HintChar

/-- `target_type`: the type and what it is derived from. -/
inductive TargetType
  | root (name : ℕ)
  | derived (name : ℕ) (base : TargetType)
  deriving DecidableEq, Repr

/-- `action`: "Note that 0 is not a valid meta/operation/action id", and ids have four bits. If the
operation is not nested, the outer one is 0. -/
structure Action where
  metaOperation : ℕ
  operation : ℕ
  outerOperation : ℕ
  valid : (0 < metaOperation ∧ metaOperation < 16) ∧ (0 < operation ∧ operation < 16) ∧
    outerOperation < 16
  deriving DecidableEq

namespace Action

/-- The action without the `Y-for` part. -/
def outermost (a : Action) : Action :=
  if h : 0 < a.outerOperation then
    ⟨a.metaOperation, a.outerOperation, 0, a.valid.1, ⟨h, a.valid.2.2⟩, by decide⟩
  else a

/-- The operation that rules are looked for: the outer one, if there is one. -/
def searched (a : Action) : ℕ := if a.outerOperation = 0 then a.operation else a.outerOperation

theorem searched_pos (a : Action) : 0 < a.searched := by
  have h := a.valid.2.1.1
  unfold searched
  split_ifs <;> omega

end Action

variable {ρ : Type}

/-! ### Rule maps -/

/-- `rule_match`. -/
abbrev RuleMatch (ρ : Type) := Hint × ρ

abbrev HintRuleMap (ρ : Type) := PrefixMap (stringPrefix : ComparePrefix HintChar) ρ

abbrev TargetTypeRuleMap (ρ : Type) := List (TargetType × HintRuleMap ρ)

/-- The index is the operation id. The entry with id 0 is a wildcard. -/
abbrev OperationRuleMap (ρ : Type) := List (TargetTypeRuleMap ρ)

/-- The nodes of a `rule_map`, with their meta-operation ids. -/
abbrev RuleMap (ρ : Type) := List (ℕ × OperationRuleMap ρ)

/-- A scope with the scopes around it. -/
inductive Scope (ρ : Type)
  | global (rules : RuleMap ρ)
  | inner (rules : RuleMap ρ) (root : Bool) (parent : Scope ρ)

namespace Scope

def rules : Scope ρ → RuleMap ρ
  | .global rules => rules
  | .inner rules _ _ => rules

def globalScope : Scope ρ → Scope ρ
  | .global rules => .global rules
  | .inner _ _ parent => parent.globalScope

end Scope

/-- `adhoc_recipe`. -/
structure AdhocRecipe (ρ : Type) where
  actions : List Action
  rule : ρ

/-- What `match_rule` uses of a target. -/
structure Target (ρ : Type) where
  type : TargetType
  baseScope : Scope ρ
  adhocRecipes : List (AdhocRecipe ρ)

/-- Where a hint map is found. -/
structure Place (ρ : Type) where
  type : TargetType
  scope : Scope ρ
  operation : ℕ

/-- What `match_rule` ends with. A rule is returned as a pointer into a map. -/
inductive Outcome (ρ : Type)
  | recipe (r : AdhocRecipe ρ)
  | found (p : Place ρ) (r : RuleMatch ρ)
  /-- "multiple rules matching": the rule that matches and those that also match -/
  | ambiguous (name : Hint) (also : List Hint)
  /-- "no rule to" -/
  | noRule
  | null

/-! ### The search -/

/-- How the rules answer: `match` of a rule, and of an ad hoc rule with the fallback action. -/
structure Matching (ρ : Type) where
  rule : ρ → Bool
  recipe : ρ → Option Action → Bool

section

variable [DecidableEq ρ] (m : Matching ρ) (skip : Option ρ)

/-- The ad hoc recipe for the action, or one that has a fallback for it. -/
def findRecipe (a : Action) (rs : List (AdhocRecipe ρ)) : Option (AdhocRecipe ρ) :=
  let ca := a.outermost
  (rs.find? fun r => ca ∈ r.actions && m.recipe r.rule none).or
    (rs.find? fun r => ca ∉ r.actions && r.actions.any fun ra => m.recipe r.rule (some ra))

/-- The rules of a map that are tried: all of them, if there is only one. -/
def tried (rules : HintRuleMap ρ) : List (RuleMatch ρ) :=
  if rules.entries.length = 1 then rules.entries else rules.findSub []

/-- The loop over the rules, with the ambiguity test. -/
def ruleLoop (p : Place ρ) : List (RuleMatch ρ) → Option (Outcome ρ)
  | [] => none
  | r :: rs =>
    if some r.2 = skip then ruleLoop p rs
    else if m.rule r.2 then
      match rs.filter fun r1 => m.rule r1.2 with
      | [] => some (.found p r)
      | also => some (.ambiguous r.1 (also.map Prod.fst))
    else ruleLoop p rs

/-- One pass of the loop over the operations. -/
def tryOperation (om : OperationRuleMap ρ) (p : Place ρ) : Option (Outcome ρ) :=
  match om[p.operation]? with
  | none => none
  | some ttm =>
    if ttm = [] then none
    else
      match ttm.lookup p.type with
      | none => none
      | some rules => if rules.entries = [] then none else ruleLoop m skip p (tried rules)

/-- The loop over the operations: the actual operation and the wildcard. -/
def operationLoop (om : OperationRuleMap ρ) (tt : TargetType) (s : Scope ρ) (oi oip : ℕ) :
    Option (Outcome ρ) :=
  if _h : oip = 0 then none
  else (tryOperation m skip om ⟨tt, s, oi⟩).or (operationLoop om tt s 0 oi)
termination_by oi + oip
decreasing_by omega

/-- One pass of the loop over the scopes. -/
def tryScope (mo o : ℕ) (tt : TargetType) (s : Scope ρ) : Option (Outcome ρ) :=
  match s.rules.lookup mo with
  | none => none
  | some om => operationLoop m skip om tt s o o

/-- The loop over the scopes, outwards and stopping at the project root. -/
def scopeLoop (mo o : ℕ) (tt : TargetType) : Scope ρ → Option (Outcome ρ)
  | .global rules => tryScope m skip mo o tt (.global rules)
  | .inner rules root parent =>
    (tryScope m skip mo o tt (.inner rules root parent)).or
      (if root then tryScope m skip mo o tt parent.globalScope else scopeLoop mo o tt parent)

/-- The loop over the types. -/
def typeLoop (mo o : ℕ) (bs : Scope ρ) : TargetType → Option (Outcome ρ)
  | .root name => scopeLoop m skip mo o (.root name) bs
  | .derived name base =>
    (scopeLoop m skip mo o (.derived name base) bs).or (typeLoop mo o bs base)

/-- `match_rule` behind the ad hoc recipes. -/
def searchRules (a : Action) (t : Target ρ) (tryMatch : Bool) : Outcome ρ :=
  match typeLoop m skip a.metaOperation a.searched t.baseScope t.type with
  | some x => x
  | none => if tryMatch then .null else .noRule

/-- `match_rule`. -/
def matchRule (a : Action) (t : Target ρ) (tryMatch : Bool) : Outcome ρ :=
  match findRecipe m a t.adhocRecipes with
  | some r => .recipe r
  | none => searchRules m skip a t tryMatch

end

/-! ### What the search is for -/

theorem findSome?_eq_find? {α β : Type} {f : α → Option β} {g : α → Bool}
    (h : ∀ a, (f a).isSome = g a) (l : List α) : l.findSome? f = (l.find? g).bind f := by
  induction l with
  | nil => rfl
  | cons a l ih =>
    cases hf : f a with
    | none => simp [← h, hf, ih]
    | some b => simp [← h, hf]

/-- The type and its bases, the most derived first. -/
def TargetType.chain : TargetType → List TargetType
  | .root name => [.root name]
  | .derived name base => .derived name base :: base.chain

/-- The scopes outwards to the project root, and the global scope. -/
def Scope.outwards : Scope ρ → List (Scope ρ)
  | .global rules => [.global rules]
  | .inner rules root parent =>
    .inner rules root parent :: if root then [parent.globalScope] else parent.outwards

/-- The operation's own map and the wildcard map of a scope. -/
def operationPlaces (o : ℕ) (tt : TargetType) (s : Scope ρ) : List (Place ρ) :=
  [⟨tt, s, o⟩, ⟨tt, s, 0⟩]

/-- The maps in the order of the search. -/
def places (o : ℕ) (t : Target ρ) : List (Place ρ) :=
  t.type.chain.flatMap fun tt => t.baseScope.outwards.flatMap (operationPlaces o tt)

/-- The map at a place. -/
def mapAt (mo : ℕ) (p : Place ρ) : Option (HintRuleMap ρ) :=
  ((p.scope.rules.lookup mo).bind (·[p.operation]?)).bind (·.lookup p.type)

/-- The rules at a place. -/
def entriesAt (mo : ℕ) (p : Place ρ) : List (RuleMatch ρ) :=
  (mapAt mo p).elim [] fun rules => rules.entries

/-- The result of a search. -/
inductive Selection (ρ : Type)
  | recipe (r : AdhocRecipe ρ)
  | found (p : Place ρ) (r : RuleMatch ρ)
  | ambiguous
  | noRule
  | null

/-- The result without the names that a failure reports. -/
def Outcome.selection : Outcome ρ → Selection ρ
  | .recipe r => .recipe r
  | .found p r => .found p r
  | .ambiguous _ _ => .ambiguous
  | .noRule => .noRule
  | .null => .null

section

variable [DecidableEq ρ] (m : Matching ρ) (skip : Option ρ)

/-- A rule that matches and is not the one to skip. -/
def eligible (r : RuleMatch ρ) : Bool := some r.2 ≠ skip && m.rule r.2

/-- What the map at a place gives with the skipped rule removed. -/
def selectAt (mo : ℕ) (p : Place ρ) : Option (Selection ρ) :=
  match ((entriesAt mo p).filter fun r => some r.2 ≠ skip).filter fun r => m.rule r.2 with
  | [] => none
  | [r] => some (.found p r)
  | _ => some .ambiguous

/-- The first map with a rule that matches gives the result. -/
def select (a : Action) (t : Target ρ) (tryMatch : Bool) : Selection ρ :=
  ((places a.searched t).findSome? (selectAt m skip a.metaOperation)).getD
    (if tryMatch then .null else .noRule)

/-- The rules that are tried at a place. -/
def triedAt (mo : ℕ) (p : Place ρ) : List (RuleMatch ρ) := (mapAt mo p).elim [] tried

/-- The rule is tried, and no rule that is tried after it matches. -/
def Reached (mo : ℕ) (p : Place ρ) (r : RuleMatch ρ) : Prop :=
  ∃ u v, triedAt mo p = u ++ r :: v ∧ ∀ x ∈ v, m.rule x.2 = false

/-- A rule that is not to be skipped matches, and so does one that is tried after it. -/
def Clashes (mo : ℕ) (p : Place ρ) : Prop :=
  ∃ u r v, triedAt mo p = u ++ r :: v ∧ eligible m skip r = true ∧ ∃ x ∈ v, m.rule x.2 = true

/-! ### The rules that are tried -/

variable {mo o : ℕ} {p q : Place ρ} {r : RuleMatch ρ} {tt : TargetType} {s : Scope ρ}

omit [DecidableEq ρ] in
theorem tried_sublist (rules : HintRuleMap ρ) : (tried rules).Sublist rules.entries := by
  unfold tried
  split_ifs
  · exact List.Sublist.refl _
  · exact (List.takeWhile_sublist _).trans (Lib.SearchTree.Tree.lowerBound_suffix _ _).sublist

omit [DecidableEq ρ] in
/-- All the rules are tried if there is only one or no hint starts with a character below the
dot. -/
theorem tried_eq_iff {rules : HintRuleMap ρ}
    (hk : ∀ e ∈ rules.entries, stringPrefix.IsKey e.1) :
    tried rules = rules.entries ↔ rules.entries.length = 1 ∨
      ∀ e ∈ rules.entries, ∀ a h, e.1 = a :: h → ¬a < PathTraits.separator := by
  have hall : rules.entries.filter (fun e => stringPrefix.isPrefix [] e.1) = rules.entries :=
    List.filter_eq_self.mpr fun e _ => ComparePrefix.isPrefix_iff.mpr (.inl rfl)
  have hsub : rules.findSub [] = _ ↔ _ := (PrefixMap.searched hk).findSub_empty bare_nil rfl
  rw [hall] at hsub
  unfold tried
  split_ifs with h1
  · exact iff_of_true rfl (.inl h1)
  · rw [hsub, or_iff_right h1]
    rfl

omit [DecidableEq ρ] in
theorem triedAt_sublist (mo : ℕ) (p : Place ρ) : (triedAt mo p).Sublist (entriesAt mo p) := by
  unfold triedAt entriesAt
  cases mapAt mo p with
  | none => exact List.Sublist.refl _
  | some rules => exact tried_sublist rules

/-- What the code does at a place. -/
def outcomeAt (mo : ℕ) (p : Place ρ) : Option (Outcome ρ) := ruleLoop m skip p (triedAt mo p)

theorem tryOperation_eq {om : OperationRuleMap ρ} (h : p.scope.rules.lookup mo = some om) :
    tryOperation m skip om p = outcomeAt m skip mo p := by
  unfold tryOperation outcomeAt triedAt mapAt
  rw [h, Option.bind_some]
  cases hm : om[p.operation]? with
  | none => rfl
  | some ttm =>
    rw [Option.bind_some]
    by_cases h0 : ttm = []
    · subst h0
      rfl
    · simp only [if_neg h0]
      cases ttm.lookup p.type with
      | none => rfl
      | some rules =>
        by_cases he : rules.entries = []
        · have ht : tried rules = [] := List.sublist_nil.mp (he ▸ tried_sublist rules)
          simp only [if_pos he, Option.elim_some, ht]
          rfl
        · simp only [if_neg he, Option.elim_some]

/-- **The loop over the operations** tries the actual operation and the wildcard. -/
theorem operationLoop_eq {om : OperationRuleMap ρ} (ho : 0 < o) :
    operationLoop m skip om tt s o o
      = (tryOperation m skip om ⟨tt, s, o⟩).or (tryOperation m skip om ⟨tt, s, 0⟩) := by
  rw [operationLoop, dif_neg (by omega), operationLoop, dif_neg (by omega), operationLoop,
    dif_pos rfl, Option.or_none]

theorem tryScope_eq (ho : 0 < o) :
    tryScope m skip mo o tt s = (operationPlaces o tt s).findSome? (outcomeAt m skip mo) := by
  have hsome : (operationPlaces o tt s).findSome? (outcomeAt m skip mo)
      = (outcomeAt m skip mo ⟨tt, s, o⟩).or (outcomeAt m skip mo ⟨tt, s, 0⟩) := by
    unfold operationPlaces
    rw [List.findSome?_cons, List.findSome?_cons, List.findSome?_nil]
    cases outcomeAt m skip mo ⟨tt, s, o⟩ with
    | some x => rfl
    | none => cases outcomeAt m skip mo ⟨tt, s, 0⟩ <;> rfl
  rw [hsome]
  unfold tryScope
  cases h : s.rules.lookup mo with
  | none => simp [outcomeAt, triedAt, mapAt, h, ruleLoop]
  | some om =>
    have hop : ∀ oi, tryOperation m skip om ⟨tt, s, oi⟩ = outcomeAt m skip mo ⟨tt, s, oi⟩ :=
      fun oi => tryOperation_eq m skip (p := ⟨tt, s, oi⟩) h
    exact (operationLoop_eq m skip ho).trans (by rw [hop, hop])

theorem scopeLoop_eq (ho : 0 < o) :
    scopeLoop m skip mo o tt s
      = (s.outwards.flatMap (operationPlaces o tt)).findSome? (outcomeAt m skip mo) := by
  induction s with
  | global rules =>
    rw [scopeLoop, Scope.outwards, List.flatMap_cons, List.flatMap_nil, List.append_nil,
      tryScope_eq m skip ho]
  | inner rules root parent ih =>
    rw [scopeLoop, Scope.outwards, List.flatMap_cons, List.findSome?_append,
      tryScope_eq m skip ho]
    congr 1
    split_ifs
    · rw [List.flatMap_cons, List.flatMap_nil, List.append_nil, tryScope_eq m skip ho]
    · exact ih

/-- **The loops visit the maps** in the order of the search. -/
theorem typeLoop_eq (ho : 0 < o) (t : Target ρ) :
    typeLoop m skip mo o t.baseScope t.type
      = (places o t).findSome? (outcomeAt m skip mo) := by
  obtain ⟨tt, bs, rs⟩ := t
  show typeLoop m skip mo o bs tt = _
  unfold places
  dsimp only
  induction tt with
  | root name =>
    rw [typeLoop, TargetType.chain, List.flatMap_cons, List.flatMap_nil, List.append_nil,
      scopeLoop_eq m skip ho]
  | derived name base ih =>
    rw [typeLoop, TargetType.chain, List.flatMap_cons, List.findSome?_append,
      scopeLoop_eq m skip ho, ih]

/-! ### Where the two searches end -/

theorem outcomeAt_eq_none (h : ∀ r ∈ triedAt mo p, eligible m skip r = false) :
    outcomeAt m skip mo p = none := by
  unfold outcomeAt
  generalize triedAt mo p = l at h
  induction l with
  | nil => rfl
  | cons r l ih =>
    have hr := h r (by simp)
    rw [ruleLoop]
    by_cases hs : some r.2 = skip
    · rw [if_pos hs]
      exact ih fun x hx => h x (List.mem_cons_of_mem r hx)
    · have hm : m.rule r.2 = false := by simpa [eligible, hs] using hr
      rw [if_neg hs, hm, if_neg (by simp)]
      exact ih fun x hx => h x (List.mem_cons_of_mem r hx)

/-- The first rule that matches decides, with the rules that match after it. -/
theorem outcomeAt_eq_some {u v : List (RuleMatch ρ)} (ht : triedAt mo p = u ++ r :: v)
    (hu : ∀ x ∈ u, eligible m skip x = false) (hr : eligible m skip r = true) :
    ((∀ x ∈ v, m.rule x.2 = false) → outcomeAt m skip mo p = some (.found p r)) ∧
      ((∃ x ∈ v, m.rule x.2 = true) →
        (outcomeAt m skip mo p).map Outcome.selection = some .ambiguous) := by
  unfold outcomeAt
  rw [ht]
  clear ht
  induction u with
  | nil =>
    obtain ⟨hs, hm⟩ : some r.2 ≠ skip ∧ m.rule r.2 = true := by simpa [eligible] using hr
    rw [List.nil_append, ruleLoop, if_neg hs, if_pos hm]
    constructor
    · intro hv
      have hnil : v.filter (fun r1 => m.rule r1.2) = [] := by simpa using hv
      rw [hnil]
    · rintro ⟨x, hx, hmx⟩
      cases hf : v.filter (fun r1 => m.rule r1.2) with
      | nil =>
        have := List.filter_eq_nil_iff.mp hf x hx
        exact absurd hmx this
      | cons y l => rfl
  | cons y u ih =>
    have ih' := ih fun x hx => hu x (List.mem_cons_of_mem y hx)
    have hy := hu y (by simp)
    rw [List.cons_append, ruleLoop]
    by_cases hs : some y.2 = skip
    · rw [if_pos hs]
      exact ih'
    · have hm : m.rule y.2 = false := by simpa [eligible, hs] using hy
      rw [if_neg hs, hm, if_neg (by simp)]
      exact ih'

/-- The first map where a rule that matches is tried. -/
def firstTried (mo : ℕ) (ps : List (Place ρ)) : Option (Place ρ) :=
  ps.find? fun p => (triedAt mo p).any (eligible m skip)

/-- The first map with a rule that matches. -/
def firstWith (mo : ℕ) (ps : List (Place ρ)) : Option (Place ρ) :=
  ps.find? fun p => (entriesAt mo p).any (eligible m skip)

theorem exists_first {l : List (RuleMatch ρ)} (h : l.any (eligible m skip) = true) :
    ∃ u r v, l = u ++ r :: v ∧ (∀ x ∈ u, eligible m skip x = false) ∧ eligible m skip r = true := by
  induction l with
  | nil => simp at h
  | cons x l ih =>
    by_cases hx : eligible m skip x = true
    · exact ⟨[], x, l, rfl, by simp, hx⟩
    · obtain ⟨u, r, v, rfl, hu, hr⟩ := ih (by simpa [hx] using h)
      refine ⟨x :: u, r, v, rfl, fun y hy => ?_, hr⟩
      rcases List.mem_cons.mp hy with rfl | hy
      · simpa using hx
      · exact hu y hy

theorem outcomeAt_isSome (mo : ℕ) (p : Place ρ) :
    (outcomeAt m skip mo p).isSome = (triedAt mo p).any (eligible m skip) := by
  cases h : (triedAt mo p).any (eligible m skip) with
  | false =>
    rw [outcomeAt_eq_none m skip (by simpa using h)]
    rfl
  | true =>
    obtain ⟨u, r, v, ht, hu, hr⟩ := exists_first m skip h
    obtain ⟨hfound, hambig⟩ := outcomeAt_eq_some m skip ht hu hr
    by_cases hv : ∃ x ∈ v, m.rule x.2 = true
    · have hs := hambig hv
      cases ho : outcomeAt m skip mo p with
      | none => simp [ho] at hs
      | some x => rfl
    · rw [hfound fun x hx => by simpa using fun hx' => hv ⟨x, hx, hx'⟩]
      rfl

theorem filter_eligible (l : List (RuleMatch ρ)) :
    (l.filter fun r => some r.2 ≠ skip).filter (fun r => m.rule r.2)
      = l.filter (eligible m skip) := by
  rw [List.filter_filter]
  exact List.filter_congr fun x _ => Bool.and_comm _ _

theorem selectAt_none (h : (entriesAt mo p).filter (eligible m skip) = []) :
    selectAt m skip mo p = none := by
  rw [selectAt, filter_eligible, h]

theorem selectAt_one (h : (entriesAt mo p).filter (eligible m skip) = [r]) :
    selectAt m skip mo p = some (.found p r) := by
  rw [selectAt, filter_eligible, h]

theorem selectAt_many {r' : RuleMatch ρ} {l : List (RuleMatch ρ)}
    (h : (entriesAt mo p).filter (eligible m skip) = r :: r' :: l) :
    selectAt m skip mo p = some .ambiguous := by
  rw [selectAt, filter_eligible, h]

theorem filter_eq_nil_iff {l : List (RuleMatch ρ)} :
    l.filter (eligible m skip) = [] ↔ l.any (eligible m skip) = false := by
  rw [List.filter_eq_nil_iff, List.any_eq_false]

theorem selectAt_isSome (mo : ℕ) (p : Place ρ) :
    (selectAt m skip mo p).isSome = (entriesAt mo p).any (eligible m skip) := by
  cases hl : (entriesAt mo p).filter (eligible m skip) with
  | nil =>
    rw [selectAt_none m skip hl, (filter_eq_nil_iff m skip).mp hl]
    rfl
  | cons r l =>
    have hany : (entriesAt mo p).any (eligible m skip) = true := by
      rw [← Bool.not_eq_false, ← filter_eq_nil_iff, hl]
      exact List.cons_ne_nil r l
    cases l with
    | nil => rw [selectAt_one m skip hl, hany, Option.isSome_some]
    | cons r' l => rw [selectAt_many m skip hl, hany, Option.isSome_some]

/-- `match_rule` gives what the first map gives where a rule that matches is tried. -/
theorem searchRules_eq (a : Action) (t : Target ρ) (tryMatch : Bool) :
    searchRules m skip a t tryMatch
      = ((firstTried m skip a.metaOperation (places a.searched t)).bind
          (outcomeAt m skip a.metaOperation)).getD (if tryMatch then .null else .noRule) := by
  unfold searchRules firstTried
  rw [typeLoop_eq m skip a.searched_pos,
    findSome?_eq_find? (outcomeAt_isSome m skip a.metaOperation)]
  cases (List.find? _ _).bind (outcomeAt m skip a.metaOperation) with
  | none => rfl
  | some x => rfl

theorem select_eq (a : Action) (t : Target ρ) (tryMatch : Bool) :
    select m skip a t tryMatch
      = ((firstWith m skip a.metaOperation (places a.searched t)).bind
          (selectAt m skip a.metaOperation)).getD (if tryMatch then .null else .noRule) := by
  unfold select firstWith
  rw [findSome?_eq_find? (selectAt_isSome m skip a.metaOperation)]

theorem any_triedAt (h : (triedAt mo p).any (eligible m skip) = true) :
    (entriesAt mo p).any (eligible m skip) = true := by
  obtain ⟨x, hx, hel⟩ := List.any_eq_true.mp h
  exact List.any_eq_true.mpr ⟨x, (triedAt_sublist mo p).subset hx, hel⟩

theorem firstTried_eq_none {ps : List (Place ρ)} (h : firstWith m skip mo ps = none) :
    firstTried m skip mo ps = none := by
  unfold firstWith at h
  unfold firstTried
  rw [List.find?_eq_none] at h ⊢
  exact fun p hp ht => h p hp (any_triedAt m skip ht)

/-- The first map with a rule that matches is the first one where such a rule is tried, if one
is. -/
theorem firstTried_eq_some {ps : List (Place ρ)} (h : firstWith m skip mo ps = some p)
    (ht : (triedAt mo p).any (eligible m skip) = true) : firstTried m skip mo ps = some p := by
  unfold firstWith at h
  unfold firstTried
  rw [List.find?_eq_some_iff_append] at h ⊢
  obtain ⟨-, u, v, hps, hu⟩ := h
  refine ⟨ht, u, v, hps, fun q hq => ?_⟩
  have hnot := hu q hq
  cases htq : (triedAt mo q).any (eligible m skip) with
  | false => rfl
  | true => simp [any_triedAt m skip htq] at hnot

/-- A rule that matches is returned if no rule that is tried after it matches. -/
theorem outcomeAt_found_iff (hel : (entriesAt mo p).filter (eligible m skip) = [r]) :
    outcomeAt m skip mo p = some (.found p r) ↔ Reached m mo p r := by
  have hr : eligible m skip r = true := by
    have hmem : r ∈ (entriesAt mo p).filter (eligible m skip) := by simp [hel]
    exact (List.mem_filter.mp hmem).2
  have honly : ∀ u v, triedAt mo p = u ++ r :: v → ∀ x ∈ u, eligible m skip x = false := by
    intro u v ht x hx
    have hsub := (triedAt_sublist mo p).filter (eligible m skip)
    rw [hel, ht, List.filter_append, List.filter_cons_of_pos hr] at hsub
    have hlen := hsub.length_le
    simp only [List.length_append, List.length_cons, List.length_nil] at hlen
    have hnil : u.filter (eligible m skip) = [] := List.length_eq_zero_iff.mp (by omega)
    simpa using List.filter_eq_nil_iff.mp hnil x hx
  constructor
  · intro h
    have hany : (triedAt mo p).any (eligible m skip) = true := by
      rw [← outcomeAt_isSome, h, Option.isSome_some]
    obtain ⟨u, r', v, ht, hu, hr'⟩ := exists_first m skip hany
    obtain ⟨hfound, hambig⟩ := outcomeAt_eq_some m skip ht hu hr'
    by_cases hv : ∃ x ∈ v, m.rule x.2 = true
    · have := hambig hv
      rw [h] at this
      cases this
    · have hv' : ∀ x ∈ v, m.rule x.2 = false := fun x hx => by
        simpa using fun hx' => hv ⟨x, hx, hx'⟩
      rw [hfound hv'] at h
      cases h
      exact ⟨u, v, ht, hv'⟩
  · rintro ⟨u, v, ht, hv⟩
    exact (outcomeAt_eq_some m skip ht (honly u v ht) hr).1 hv

theorem outcomeAt_ambiguous_iff :
    (outcomeAt m skip mo p).map Outcome.selection = some .ambiguous ↔ Clashes m skip mo p := by
  constructor
  · intro h
    have hany : (triedAt mo p).any (eligible m skip) = true := by
      rw [← outcomeAt_isSome]
      cases ho : outcomeAt m skip mo p with
      | none => simp [ho] at h
      | some x => rfl
    obtain ⟨u, r, v, ht, hu, hr⟩ := exists_first m skip hany
    refine ⟨u, r, v, ht, hr, by_contra fun hv => ?_⟩
    have hv' : ∀ x ∈ v, m.rule x.2 = false := fun x hx => by
      simpa using fun hx' => hv ⟨x, hx, hx'⟩
    rw [(outcomeAt_eq_some m skip ht hu hr).1 hv'] at h
    cases h
  · rintro ⟨u, r, v, ht, hr, x, hx, hmx⟩
    have hany : (triedAt mo p).any (eligible m skip) = true := by simp [ht, hr]
    obtain ⟨u', r', v', ht', hu', hr'⟩ := exists_first m skip hany
    refine (outcomeAt_eq_some m skip ht' hu' hr').2 ⟨x, ?_, hmx⟩
    rw [ht] at ht'
    rcases List.append_eq_append_iff.mp ht' with ⟨c, rfl, hc⟩ | ⟨c, rfl, hc⟩
    · cases c with
      | nil => exact (List.cons.inj hc).2 ▸ hx
      | cons y c =>
        obtain rfl := (List.cons.inj hc).1
        have := hu' r (by simp)
        rw [hr] at this
        cases this
    · cases c with
      | nil => exact (List.cons.inj hc).2 ▸ hx
      | cons y c =>
        rw [(List.cons.inj hc).2]
        exact List.mem_append_right c (List.mem_cons_of_mem r hx)

/-- Where the first map with a rule that matches has one such rule, it is reached, and where it has
several, there is a clash in the first map where such a rule is tried. -/
def Determined (mo : ℕ) (ps : List (Place ρ)) : Prop :=
  ∀ p, firstWith m skip mo ps = some p →
    (∀ r, (entriesAt mo p).filter (eligible m skip) = [r] → Reached m mo p r) ∧
      (∀ r r' l, (entriesAt mo p).filter (eligible m skip) = r :: r' :: l →
        ∃ q, firstTried m skip mo ps = some q ∧ Clashes m skip mo q)

theorem any_of_firstWith {ps : List (Place ρ)} (h : firstWith m skip mo ps = some p) :
    (entriesAt mo p).any (eligible m skip) = true := by
  unfold firstWith at h
  exact List.find?_some (p := fun p => (entriesAt mo p).any (eligible m skip)) h

theorem outcomeAt_place (h : outcomeAt m skip mo q = some (.found p r)) : q = p := by
  unfold outcomeAt at h
  generalize triedAt mo q = l at h
  induction l with
  | nil => cases h
  | cons x l ih =>
    rw [ruleLoop] at h
    split_ifs at h
    · exact ih h
    · split at h
      · cases h
        rfl
      · cases h
    · exact ih h

/-- The result of the code, where `d` is the result when no rule matches. -/
def selectionOf (mo : ℕ) (ps : List (Place ρ)) (d : Selection ρ) : Selection ρ :=
  (((firstTried m skip mo ps).bind (outcomeAt m skip mo)).map Outcome.selection).getD d

theorem outcomeAt_of_firstTried {ps : List (Place ρ)} (h : firstTried m skip mo ps = some q) :
    ∃ x, outcomeAt m skip mo q = some x := by
  unfold firstTried at h
  have hany := List.find?_some (p := fun p => (triedAt mo p).any (eligible m skip)) h
  rw [← outcomeAt_isSome] at hany
  exact Option.isSome_iff_exists.mp hany

theorem selection_found_iff {ps : List (Place ρ)} {d : Selection ρ}
    (hd : d = .null ∨ d = .noRule) (hw : firstWith m skip mo ps = some p)
    (hel : (entriesAt mo p).filter (eligible m skip) = [r]) :
    selectionOf m skip mo ps d = .found p r ↔ Reached m mo p r := by
  rw [← outcomeAt_found_iff m skip hel]
  unfold selectionOf
  constructor
  · intro h
    cases hf : firstTried m skip mo ps with
    | none =>
      rw [hf] at h
      rcases hd with rfl | rfl <;> cases h
    | some q =>
      obtain ⟨x, hx⟩ := outcomeAt_of_firstTried m skip hf
      rw [hf, Option.bind_some, hx, Option.map_some, Option.getD_some] at h
      cases x with
      | found p' r' =>
        obtain ⟨rfl, rfl⟩ : p' = p ∧ r' = r := by
          cases h
          exact ⟨rfl, rfl⟩
        rwa [outcomeAt_place m skip hx] at hx
      | _ => cases h
  · intro h
    have hany : (triedAt mo p).any (eligible m skip) = true := by
      rw [← outcomeAt_isSome, h, Option.isSome_some]
    rw [firstTried_eq_some m skip hw hany, Option.bind_some, h]
    rfl

theorem selection_ambiguous_iff {ps : List (Place ρ)} {d : Selection ρ}
    (hd : d = .null ∨ d = .noRule) :
    selectionOf m skip mo ps d = .ambiguous ↔
      ∃ q, firstTried m skip mo ps = some q ∧ Clashes m skip mo q := by
  unfold selectionOf
  cases hf : firstTried m skip mo ps with
  | none =>
    refine iff_of_false ?_ (by simp)
    rcases hd with rfl | rfl <;> simp
  | some q =>
    obtain ⟨x, hx⟩ := outcomeAt_of_firstTried m skip hf
    simp only [Option.some.injEq, exists_eq_left']
    rw [← outcomeAt_ambiguous_iff, Option.bind_some, hx]
    simp

theorem selection_searchRules (a : Action) (t : Target ρ) (tryMatch : Bool) :
    (searchRules m skip a t tryMatch).selection
      = selectionOf m skip a.metaOperation (places a.searched t)
          (if tryMatch then .null else .noRule) := by
  rw [searchRules_eq, selectionOf]
  cases (firstTried m skip a.metaOperation (places a.searched t)).bind
      (outcomeAt m skip a.metaOperation) with
  | none => cases tryMatch <;> rfl
  | some x => rfl

theorem selection_matchRule (a : Action) (t : Target ρ) (tryMatch : Bool)
    (h : t.adhocRecipes = []) :
    (matchRule m skip a t tryMatch).selection
      = selectionOf m skip a.metaOperation (places a.searched t)
          (if tryMatch then .null else .noRule) := by
  rw [← selection_searchRules, matchRule, h]
  rfl

/-- **`match_rule` gives the result of the search if and only if** the first map with a rule that
matches determines what the code finds. -/
theorem matchRule_eq_iff (a : Action) (t : Target ρ) (tryMatch : Bool)
    (h : t.adhocRecipes = []) :
    (matchRule m skip a t tryMatch).selection = select m skip a t tryMatch ↔
      Determined m skip a.metaOperation (places a.searched t) := by
  rw [selection_matchRule m skip a t tryMatch h, select_eq]
  generalize places a.searched t = ps
  generalize a.metaOperation = mo
  have hd : (if tryMatch then Selection.null else .noRule : Selection ρ) = .null ∨
      (if tryMatch then Selection.null else .noRule : Selection ρ) = .noRule := ite_eq_or_eq _ _ _
  generalize (if tryMatch then Selection.null else .noRule : Selection ρ) = d at hd ⊢
  unfold Determined
  cases hw : firstWith m skip mo ps with
  | none => simp [selectionOf, firstTried_eq_none m skip hw]
  | some p =>
    simp only [Option.some.injEq, forall_eq', Option.bind_some]
    have hany := any_of_firstWith m skip hw
    cases hel : (entriesAt mo p).filter (eligible m skip) with
    | nil =>
      rw [(filter_eq_nil_iff m skip).mp hel] at hany
      cases hany
    | cons r l =>
      cases l with
      | nil =>
        rw [selectAt_one m skip hel, Option.getD_some, selection_found_iff m skip hd hw hel]
        simp
      | cons r' l =>
        rw [selectAt_many m skip hel, Option.getD_some, selection_ambiguous_iff m skip hd]
        simp

end

/-- The rules 0 and 1 with the hints `a` and `b`. -/
def twoRules : HintRuleMap ℕ :=
  ⟨.node .leaf ([⟨'a'⟩], 0) (.node .leaf ([⟨'b'⟩], 1) .leaf), by decide⟩

/-- The rules are registered in the global scope for one operation. -/
def twoRulesTarget : Target ℕ :=
  ⟨.root 0, .global [(2, [[], [], [(.root 0, twoRules)]])], []⟩

def performUpdate : Action := ⟨2, 2, 0, by decide⟩

theorem matchRule_eq_iff_twoRules :
    (matchRule ⟨fun _ => true, fun _ _ => false⟩ (some 0) performUpdate twoRulesTarget
        true).selection
      = select ⟨fun _ => true, fun _ _ => false⟩ (some 0) performUpdate twoRulesTarget true ↔
      Determined ⟨fun _ => true, fun _ _ => false⟩ (some 0) 2 (places 2 twoRulesTarget) :=
  matchRule_eq_iff _ _ performUpdate twoRulesTarget true rfl

/-- Both rules match and the second is to be skipped: the search finds the first, but the code
fails. -/
theorem matchRule_ambiguous :
    (matchRule ⟨fun _ => true, fun _ _ => false⟩ (some 1) performUpdate twoRulesTarget
        true).selection
      ≠ select ⟨fun _ => true, fun _ _ => false⟩ (some 1) performUpdate twoRulesTarget true := by
  rw [selection_matchRule _ _ _ _ _ rfl]
  have hcode : selectionOf ⟨fun _ => true, fun _ _ => false⟩ (some 1)
      performUpdate.metaOperation (places performUpdate.searched twoRulesTarget) .null
        = .ambiguous := rfl
  have hsearch : select ⟨fun _ => true, fun _ _ => false⟩ (some 1) performUpdate twoRulesTarget true
      = .found ⟨.root 0, twoRulesTarget.baseScope, 2⟩ ([⟨'a'⟩], 0) := rfl
  intro h
  have := hcode.symm.trans (h.trans hsearch)
  cases this

end Build2.Libbuild2.MatchRule
