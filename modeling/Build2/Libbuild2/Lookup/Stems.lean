import Build2.Libbuild2.Lookup.Points

/-! # The lookups of stems

For a value that is appended or prepended the code looks the stem up anew, from the scope where the
value was found and behind the point it was found at. That is the fold over the points that are
left. -/

namespace Build2.Libbuild2.Lookup

open Build2.Lib Build2.Lib.ByteString Build2.Libbuild2.Values Build2.Libbutl.Paths

variable {ν τ : Type} [DecidableEq ν] [DecidableEq τ] {ctx : Context ν τ} {var : ν}
  {stem : Stem ν τ} {start d n : ℕ} {t g : Option (τ × Bytes)} {s : Scope ν τ}
  {scopes outer : List (Scope ν τ)} {ps : List (Point ν)}

/-! ### One scope -/

theorem find_nil (t : τ × Bytes) : find ctx [] t var = .ok none := by
  unfold find
  induction t.1 :: ctx.bases t.1 with
  | nil => rfl
  | cons x ts ih => exact ih

/-- The guard on the emptiness of the map changes nothing. -/
theorem find_guarded (hs : start ≤ d) (t : τ × Bytes) :
    (if start ≤ d ∧ (!s.targetVars.isEmpty) = true then find ctx s.targetVars t var else .ok none) =
      find ctx s.targetVars t var := by
  cases hm : s.targetVars with
  | nil => rw [find_nil, ite_self]
  | cons x m => rw [if_pos ⟨hs, rfl⟩]

omit [DecidableEq ν] [DecidableEq τ] in
theorem taken_eq {k : Kind} (hk : k ≠ .scope) (l : Found ν)
    (rest : Except Fault (Option (Found ν))) (d : ℕ) :
    (taken ctx var l rest).map (fun l => (some l, d)) =
      if isAssignment k l then .ok (some l, d)
      else (preApp ctx var l rest).map fun l => (some l, d) := by
  have hkind : isAssignment k l = decide (l.extra = 0) := by
    rw [isAssignment, decide_eq_false hk, Bool.false_or]
  rw [hkind]
  by_cases hl : l.extra = 0
  · rw [taken, if_pos hl, if_pos (decide_eq_true hl)]
    rfl
  · rw [taken, if_neg hl, if_neg (fun h => hl (of_decide_eq_true h))]

theorem advance_eq (hvis : ctx.visibility var ≠ .prereq) {next : Except Fault (Result ν)}
    (hnext : next = lookupPoints ctx var start d (points ctx var t g outer)) :
    advance ctx var s next = lookupPoints ctx var start d (outerPoints ctx var t g s outer) := by
  unfold advance outerPoints goesOn
  cases hv : ctx.visibility var with
  | global => exact hnext
  | scope => rfl
  | prereq => exact absurd hv hvis
  | project | target =>
    cases hroot : s.isRoot with
    | false => exact hnext
    | true => rfl

theorem lookupScope_eq (hvis : ctx.visibility var ≠ .prereq) {next : Except Fault (Result ν)}
    (hnext : next = lookupPoints ctx var start (d + 1) (points ctx var t g outer)) :
    lookupScope ctx var start (d + 1) s next =
      lookupPoints ctx var start d (scopePoint ctx var s :: outerPoints ctx var t g s outer) := by
  rw [lookupScope, lookupPoints, advance_eq hvis hnext]
  by_cases hd : start ≤ d + 1
  · rw [if_pos hd, scopePoint]
    by_cases htarget : ctx.visibility var = .target
    · rw [if_neg (fun h => h.2 htarget), if_pos htarget]
    · rw [if_pos ⟨hd, htarget⟩, if_neg htarget]
      cases lookup ctx s.vars var true with
      | error e => rfl
      | ok x => cases x <;> rfl
  · rw [if_neg hd, if_neg (fun h => hd h.1)]

/-- The part for the target or its group, where the stem is what is left of the list. -/
theorem lookupAt_eq {k : Kind} (hk : k ≠ .scope) {p : Point ν}
    (hp : p = ⟨k, findFor ctx var t s⟩) {rest : Except Fault (Option (Found ν))}
    (hrest : ∀ t', t = some t' → start ≤ d + 1 → rest = fold ctx var (decide (k = .group)) ps) :
    returned (lookupAt ctx var start (d + 1) s t rest) (lookupPoints ctx var start (d + 1) ps) =
      lookupPoints ctx var start d (p :: ps) := by
  subst hp
  rw [lookupPoints]
  by_cases hd : start ≤ d + 1
  · rw [if_pos hd]
    cases t with
    | none => rfl
    | some t =>
      rw [lookupAt, find_guarded hd, hrest t rfl hd]
      dsimp only [findFor]
      cases find ctx s.targetVars t var with
      | error e => rfl
      | ok x =>
        cases x with
        | none => rfl
        | some l =>
          dsimp only
          rw [← taken_eq hk]
          cases taken ctx var l (fold ctx var (decide (k = .group)) ps) <;> rfl
  · rw [if_neg hd]
    cases t with
    | none => rfl
    | some t =>
      rw [lookupAt, if_neg (fun h => hd h.1)]
      rfl

/-- **One scope**, where the stems are what is left of the list. -/
theorem lookupScopes_cons (hvis : ctx.visibility var ≠ .prereq) {t : τ × Bytes}
    (ht : start ≤ d + 1 → stem (s :: outer) (some t) g =
      fold ctx var false (points ctx var (some t) g (s :: outer)).tail)
    (hg : ∀ g', g = some g' → start ≤ d + 2 → stem (s :: outer) (some g') none =
      fold ctx var false (points ctx var (some g') none (s :: outer)).tail)
    (hrest : lookupScopes ctx var stem start (some t) g (d + 3) outer =
      lookupPoints ctx var start (d + 3) (points ctx var (some t) g outer)) :
    lookupScopes ctx var stem start (some t) g d (s :: outer) =
      lookupPoints ctx var start d (points ctx var (some t) g (s :: outer)) := by
  have hgroup : ∀ g', g = some g' → start ≤ d + 1 + 1 → stem (s :: outer) g none =
      fold ctx var true (scopePoint ctx var s :: outerPoints ctx var (some t) g s outer) := by
    rintro g' rfl hd
    rw [hg g' rfl hd, ← fold_tail_group t g']
    rfl
  rw [points_some, lookupScopes, if_neg (Option.some_ne_none t), lookupScope_eq hvis hrest,
    lookupAt_eq (k := .group) (fun h => nomatch h) rfl hgroup]
  exact lookupAt_eq (k := .target) (fun h => nomatch h) rfl fun _ _ hd => ht hd

/-! ### All scopes -/

theorem lookupScopes_none (hvis : ctx.visibility var ≠ .prereq) :
    ∀ (scopes : List (Scope ν τ)) (d : ℕ), lookupScopes ctx var stem start none g d scopes =
      lookupPoints ctx var start d (points ctx var none g scopes)
  | [], _ => rfl
  | s :: outer, d => by
    rw [points_none, lookupScopes, if_pos rfl]
    exact lookupScope_eq hvis (lookupScopes_none hvis outer (d + 1))

/-- The stems from the given scopes on are what is left of the list. -/
theorem lookupScopes_some (hvis : ctx.visibility var ≠ .prereq) (stem : Stem ν τ) {t : τ × Bytes} :
    ∀ (scopes : List (Scope ν τ)) (d : ℕ),
    (∀ inner : List (Scope ν τ), inner.length ≤ scopes.length →
      stem inner (some t) g = fold ctx var false (points ctx var (some t) g inner).tail) →
    (∀ (g' : τ × Bytes) (inner : List (Scope ν τ)), g = some g' → inner.length ≤ scopes.length →
      stem inner (some g') none = fold ctx var false (points ctx var (some g') none inner).tail) →
    lookupScopes ctx var stem start (some t) g d scopes =
      lookupPoints ctx var start d (points ctx var (some t) g scopes)
  | [], _, _, _ => rfl
  | s :: outer, d, ht, hg => by
    have hlen : outer.length ≤ (s :: outer).length := Nat.le_succ _
    have hrest := lookupScopes_some hvis stem outer (d + 3) (fun inner h => ht inner (h.trans hlen))
      (fun g' inner h hl => hg g' inner h (hl.trans hlen))
    exact lookupScopes_cons hvis (fun _ => ht _ le_rfl) (fun g' h _ => hg g' _ h le_rfl) hrest

/-- **A stem is the fold over the points that are left**: the one of the target is behind. -/
theorem stem_eq (hvis : ctx.visibility var ≠ .prereq) : ∀ (n : ℕ) (t : τ × Bytes)
    (g : Option (τ × Bytes)) (scopes : List (Scope ν τ)),
    2 * scopes.length + g.isSome.toNat < n →
    (lookupOriginal ctx var n (some t) g 2 scopes).map Prod.fst =
      fold ctx var false (points ctx var (some t) g scopes).tail
  | 0, _, _, _, hn => absurd hn (Nat.not_lt_zero _)
  | n + 1, t, g, [], hn => by
    rw [lookupOriginal, if_neg (fun h => Option.some_ne_none t h.1), if_neg hvis]
    rfl
  | n + 1, t, g, s :: outer, hn => by
    rw [lookupOriginal, if_neg (fun h => Option.some_ne_none t h.1), if_neg hvis]
    rw [List.length_cons] at hn
    have hbool : g.isSome.toNat ≤ 1 := Bool.toNat_le g.isSome
    have hnone : (none : Option (τ × Bytes)).isSome.toNat = 0 := rfl
    -- the stems of the outer scopes, and the one of the group, take less fuel
    let stem : Stem ν τ := fun scopes t g => (lookupOriginal ctx var n t g 2 scopes).map Prod.fst
    have hrest : lookupScopes ctx var stem 2 (some t) g (0 + 3) outer =
        lookupPoints ctx var 2 (0 + 3) (points ctx var (some t) g outer) :=
      lookupScopes_some hvis stem outer (0 + 3) (fun inner h => stem_eq hvis n t g inner (by omega))
        (fun g' inner _ h => stem_eq hvis n g' none inner (by omega))
    have hgroup : ∀ g', g = some g' → 2 ≤ 0 + 2 →
        (lookupOriginal ctx var n (some g') none 2 (s :: outer)).map Prod.fst =
          fold ctx var false (points ctx var (some g') none (s :: outer)).tail := by
      rintro g' rfl -
      have hlt : 2 * (s :: outer).length + (none : Option (τ × Bytes)).isSome.toNat < n := by
        rw [List.length_cons, hnone]
        rw [show (some g').isSome.toNat = 1 from rfl] at hn
        omega
      exact stem_eq hvis n g' none (s :: outer) hlt
    rw [lookupScopes_cons hvis (fun h => absurd h (by omega)) hgroup hrest, points_some,
      lookupPoints, if_neg (by omega)]
    exact lookupPoints_fst le_rfl

/-! ### The lookup -/

/-- The names of an untyped value: there are none where nothing is found. -/
def untypedNames : Option (Found ν) → Option (List Name)
  | none => some []
  | some ⟨.null none, _, _⟩ => some []
  | some ⟨.names ps, _, _⟩ => some ps
  | some _ => none

omit [DecidableEq ν] [DecidableEq τ] in
/-- Names on both sides are put next to each other, on the side the value says. -/
theorem preApp_names (htype : ctx.type var = none) {l : Found ν} {ns ps : List Name}
    {rest : Option (Found ν)} (hl : l.value = .names ns) (hrest : untypedNames rest = some ps) :
    (l.extra = 1 → preApp ctx var l (.ok rest) = .ok ⟨.names (ns ++ ps), 0, l.var⟩) ∧
      (l.extra = 2 → preApp ctx var l (.ok rest) = .ok ⟨.names (ps ++ ns), 0, l.var⟩) := by
  -- the value of the rest is NULL or has the names
  have hvalue : ∃ v : Value, (rest.map Found.value).getD (.null none) = v ∧
      typeOf v = none ∧ prepend ctx v ns = .ok (.names (ns ++ ps)) ∧
      append ctx v ns = .ok (.names (ps ++ ns)) := by
    match rest, hrest with
    | none, rfl => exact ⟨_, rfl, rfl, by rw [List.append_nil]; rfl, rfl⟩
    | some ⟨.null none, _, _⟩, rfl => exact ⟨_, rfl, rfl, by rw [List.append_nil]; rfl, rfl⟩
    | some ⟨.names _, _, _⟩, rfl => exact ⟨_, rfl, rfl, rfl, rfl⟩
  obtain ⟨v, hv, hnone, hpre, happ⟩ := hvalue
  have hplain : typeOf l.value = none := by rw [hl]; rfl
  constructor
  · intro h1
    rw [preApp, if_neg (not_not_intro ⟨.inl h1, hplain⟩)]
    dsimp only
    rw [hv, if_pos hnone, htype]
    dsimp only
    rw [hl]
    dsimp only
    rw [if_pos h1, hpre]
  · intro h2
    have h1 : l.extra ≠ 1 := by rw [h2]; decide
    rw [preApp, if_neg (not_not_intro ⟨.inr h2, hplain⟩)]
    dsimp only
    rw [hv, if_pos hnone, htype]
    dsimp only
    rw [hl]
    dsimp only
    rw [if_neg h1, happ]

theorem lookupScopes_eq (hvis : ctx.visibility var ≠ .prereq) (hn : 2 * scopes.length + 1 < n) :
    lookupScopes ctx var (fun scopes t g => (lookupOriginal ctx var n t g 2 scopes).map Prod.fst)
        start t g d scopes =
      lookupPoints ctx var start d (points ctx var t g scopes) := by
  cases t with
  | none => exact lookupScopes_none hvis scopes d
  | some t =>
    have hbool : g.isSome.toNat ≤ 1 := Bool.toNat_le g.isSome
    have hnone : (none : Option (τ × Bytes)).isSome.toNat = 0 := rfl
    exact lookupScopes_some hvis _ scopes d (fun inner h => stem_eq hvis n t g inner (by omega))
      (fun g' inner _ h => stem_eq hvis n g' none inner (by omega))

/-- **The lookup is the fold over the points, and its depth the position of the first one that is
defined.** A target is given if the variable is one of targets. -/
theorem lookupOriginal_eq (ht : t = none → ctx.visibility var ≠ .target)
    (hn : 2 * scopes.length + 2 < n) :
    lookupOriginal ctx var n t g 1 scopes =
        (if ctx.visibility var = .prereq then .ok (none, 0)
        else (fold ctx var false (points ctx var t g scopes)).map fun r =>
          (r, position (points ctx var t g scopes))) ∧
      ∀ (l : Found ν) (ns ps : List Name) (rest : Option (Found ν)), ctx.type var = none →
        l.value = .names ns → untypedNames rest = some ps →
        (l.extra = 1 → preApp ctx var l (.ok rest) = .ok ⟨.names (ns ++ ps), 0, l.var⟩) ∧
          (l.extra = 2 → preApp ctx var l (.ok rest) = .ok ⟨.names (ps ++ ns), 0, l.var⟩) := by
  refine ⟨?_, fun l ns ps rest htype hl hrest => preApp_names htype hl hrest⟩
  obtain ⟨m, rfl⟩ : ∃ m, n = m + 1 := ⟨n - 1, by omega⟩
  rw [lookupOriginal, if_neg (fun h => ht h.1 h.2)]
  by_cases hvis : ctx.visibility var = .prereq
  · rw [if_pos hvis, if_pos hvis]
  · rw [if_neg hvis, if_neg hvis, lookupScopes_eq hvis (by omega), lookupPoints_eq le_rfl]
    rfl

/-- Untyped variables of projects without aliases, and target types without bases. -/
def plainContext : Context ℕ ℕ where
  type _ := none
  visibility _ := .project
  aliases _ := []
  bases _ := []
  cwd := ⟨DirPath.ofString [ch '/'], rfl⟩
  append _ := none
  prepend _ := none

/-- A value for all targets of a type. -/
def forAll (extra : UInt8) (name : Char) : PatternMap ℕ :=
  ⟨[([ch '*'], [(0, ⟨.names [Name.ofValue [ch name]], extra⟩)])], List.pairwise_singleton _ _⟩

theorem lookupOriginal_eq_grouped :
    lookupOriginal plainContext 0 7 (some (0, [ch 't'])) (some (1, [ch 'g'])) 1
        [⟨false, [], [(0, forAll 2 'a'), (1, forAll 1 'b')]⟩,
          ⟨true, [(0, ⟨.names [Name.ofValue [ch 'c']], 0⟩)], [(0, forAll 2 'd')]⟩] =
      .ok (some
        ⟨.names [Name.ofValue [ch 'b'], Name.ofValue [ch 'c'], Name.ofValue [ch 'a']], 0, 0⟩,
        1) := by
  refine (lookupOriginal_eq ?_ ?_).1.trans rfl
  · exact fun h => nomatch h
  · decide

end Build2.Libbuild2.Lookup
