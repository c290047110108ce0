import Build2.Libbuild2.Algorithm.Protocol

/-! # Runs

All the targets are sound at any time, and the dependency count of the context is right. So what
happens to a target in an operation is what may happen to it, whatever the calls do. -/

namespace Build2.Libbuild2.Algorithm

open Build2.Lib.Census
open PhaseMutex (RunPhase)

/-! ### The dependency count -/

/-- The call counts in the dependency count. -/
def Place.counting : Place → ℕ
  | .depending | .counted => 1
  | _ => 0

section

variable {x : Context} {r : Outcome} {s : OpState} {c : Caller} {e o : ℕ}

theorem counting_unlocked (known : Bool) : (unlocked known c o).counting = 0 := by
  unfold unlocked
  split
  · split_ifs <;> rfl
  · rfl
  · rfl

theorem counting_lockImpl (known : Bool) : (lockImpl x s known c e).2.1.counting = 0 := by
  unfold lockImpl
  split_ifs
  · rfl
  · dsimp only
    split_ifs
    · split <;> rfl
    · exact counting_unlocked known
    · rfl

theorem counting_locked : (locked x s c e).2.1.counting = 0 := by
  unfold locked
  dsimp only
  by_cases hc : c = .async true
  · simp only [if_pos hc]
    split_ifs <;> rfl
  · simp only [if_neg hc]
    split_ifs <;> rfl

theorem counting_matchImpl : (matchImpl s c o).2.1.counting = 0 := by
  unfold matchImpl
  split_ifs <;> rfl

theorem counting_proceed (known : Bool) : (proceed s known c o).2.1.counting = 0 := by
  unfold proceed
  split
  · split_ifs
    · rfl
    · exact counting_matchImpl
  · exact counting_matchImpl
  · split_ifs
    · rfl
    · rfl
    · exact counting_matchImpl
  · split_ifs
    · rfl
    · exact counting_matchImpl

theorem counting_ruleMatched : (ruleMatched s c o r).2.1.counting = 0 := by
  unfold ruleMatched
  split
  · split_ifs <;> rfl
  · split_ifs <;> rfl
  · rfl

theorem counting_ruleApplied (noop : Option Bool) : (ruleApplied s c noop).2.1.counting = 0 := by
  unfold ruleApplied
  split
  · rfl
  · dsimp only
    split_ifs <;> rfl

theorem counting_unlockImpl (next : After) : (unlockImpl x s o next).2.1.counting = 0 := by
  unfold unlockImpl
  dsimp only
  cases next with
  | returns q =>
    dsimp only
    split_ifs <;> rfl
  | _ => rfl

theorem counting_tryMatchedState : (tryMatchedState x s c).2.1.counting = 0 := by
  unfold tryMatchedState
  cases c with
  | «match» t =>
    dsimp only
    split_ifs <;> rfl
  | _ =>
    dsimp only
    split_ifs <;> rfl

theorem counting_execute : (execute x s).2.1.counting = 0 := by
  unfold execute
  dsimp only
  split_ifs <;> rfl

theorem counting_executeTry : (executeTry x s).2.1.counting = 0 := by
  unfold executeTry executeImpl executeOthers
  dsimp only
  split_ifs <;> rfl

theorem counting_executeDirect : (executeDirect x s).2.1.counting = 0 := by
  unfold executeDirect executeImpl executeOthers
  dsimp only
  split_ifs <;> rfl

theorem counting_executeEnd : (executeEnd x s).2.1.counting = 0 := by
  unfold executeEnd
  split_ifs <;> rfl

/-- Only the dependency count of the context changes, as the call counts in it. -/
theorem region_context {a : Step} {p : Place} {x' : Context} {y : Moved}
    (hcounted : p = .counted → x.dependencyCount ≠ 0) (h : region x s r a p = some (x', y)) :
    x'.phase = x.phase ∧ x'.currentOn = x.currentOn ∧ x'.currentMode = x.currentMode ∧
      x'.dependencyCount + p.counting = x.dependencyCount + y.2.1.counting := by
  have hsame : ∀ {p' : Place}, p.counting = p'.counting →
      x.phase = x.phase ∧ x.currentOn = x.currentOn ∧ x.currentMode = x.currentMode ∧
        x.dependencyCount + p.counting = x.dependencyCount + p'.counting :=
    fun h => ⟨rfl, rfl, rfl, by rw [h]⟩
  unfold region at h
  split at h
  · cases h
    exact hsame (counting_lockImpl _).symm
  · split_ifs at h
    cases h
    exact hsame rfl
  · cases h
    exact hsame rfl
  · split_ifs at h
    · cases h
      exact hsame (counting_unlocked _).symm
    · cases h
      exact hsame rfl
  · cases h
    exact hsame counting_locked.symm
  · split_ifs at h
    cases h
    exact hsame rfl
  · cases h
    exact hsame (counting_proceed _).symm
  · cases h
    exact hsame rfl
  · cases h
    exact hsame rfl
  · split_ifs at h
    cases h
    exact hsame counting_ruleMatched.symm
  · cases h
    exact hsame rfl
  · cases h
    exact hsame rfl
  · split_ifs at h
    cases h
    exact hsame (counting_ruleApplied _).symm
  · cases h
    exact hsame (counting_unlockImpl _).symm
  · cases h
    exact hsame counting_tryMatchedState.symm
  · cases h
    exact ⟨rfl, rfl, rfl, rfl⟩
  · cases h
    exact hsame rfl
  · cases h
    exact hsame rfl
  · cases h
    exact hsame rfl
  · split_ifs at h with hφ hzero
    · exact absurd hzero (hcounted rfl)
    · cases h
      exact ⟨rfl, rfl, rfl, Nat.sub_add_cancel (Nat.one_le_iff_ne_zero.mpr hzero)⟩
  · cases h
    exact hsame counting_execute.symm
  · cases h
    exact hsame counting_executeTry.symm
  · split_ifs at h
    cases h
    exact hsame rfl
  · cases h
    exact hsame counting_executeDirect.symm
  · cases h
    exact hsame rfl
  · cases h
    exact hsame rfl
  · split_ifs at h
    obtain ⟨st, -, hst⟩ := Option.map_eq_some_iff.mp h
    cases hst
    exact hsame rfl
  · cases h
    exact hsame counting_executeEnd.symm
  · cases h
    exact hsame rfl
  · split_ifs at h
    cases h
    exact hsame rfl
  · cases h
    exact hsame rfl
  · cases h

end

/-! ### The calls of a target -/

section

variable {T : Type} [DecidableEq T]

/-- The calls of a target. -/
def placesOf (t : T) (calls : List (T × Place)) : List Place :=
  calls.filterMap fun c => if c.1 = t then some c.2 else none

theorem placesOf_cons_self (t : T) (p : Place) (calls : List (T × Place)) :
    placesOf t ((t, p) :: calls) = p :: placesOf t calls :=
  List.filterMap_cons_some (if_pos rfl)

theorem placesOf_cons_ne {t u : T} (h : u ≠ t) (p : Place) (calls : List (T × Place)) :
    placesOf t ((u, p) :: calls) = placesOf t calls :=
  List.filterMap_cons_none (if_neg h)

theorem placesOf_set {t : T} {p : Place} {calls : List (T × Place)} {i : ℕ}
    (h : calls[i]? = some (t, p)) : ∃ k, (placesOf t calls)[k]? = some p ∧
      ∀ p', placesOf t (calls.set i (t, p')) = (placesOf t calls).set k p' := by
  induction calls generalizing i with
  | nil => cases h
  | cons c calls ih =>
    obtain ⟨u, q⟩ := c
    cases i with
    | zero =>
      cases h
      refine ⟨0, ?_, fun p' => ?_⟩
      · rw [placesOf_cons_self]
        rfl
      · rw [placesOf_cons_self]
        exact placesOf_cons_self t p' calls
    | succ i =>
      obtain ⟨k, hk, hset⟩ := ih h
      by_cases hu : u = t
      · subst hu
        refine ⟨k + 1, ?_, fun p' => ?_⟩
        · rw [placesOf_cons_self]
          exact hk
        · rw [placesOf_cons_self, List.set_cons_succ, placesOf_cons_self, hset, List.set_cons_succ]
      · refine ⟨k, ?_, fun p' => ?_⟩
        · rwa [placesOf_cons_ne hu]
        · rw [placesOf_cons_ne hu, List.set_cons_succ, placesOf_cons_ne hu, hset]

theorem placesOf_set_ne {t u : T} {p : Place} {calls : List (T × Place)} {i : ℕ}
    (h : calls[i]? = some (u, p)) (hu : u ≠ t) (p' : Place) :
    placesOf t (calls.set i (u, p')) = placesOf t calls := by
  induction calls generalizing i with
  | nil => cases h
  | cons c calls ih =>
    cases i with
    | zero =>
      cases h
      rw [List.set_cons_zero, placesOf_cons_ne hu, placesOf_cons_ne hu]
    | succ i =>
      have ih := ih h
      unfold placesOf at ih ⊢
      rw [List.set_cons_succ, List.filterMap_cons, List.filterMap_cons, ih]

theorem mem_placesOf {t : T} {p : Place} {calls : List (T × Place)} :
    p ∈ placesOf t calls ↔ (t, p) ∈ calls := by
  unfold placesOf
  rw [List.mem_filterMap]
  constructor
  · rintro ⟨⟨u, q⟩, hc, hq⟩
    split_ifs at hq with hu
    cases hq
    exact hu ▸ hc
  · intro h
    exact ⟨(t, p), h, if_pos rfl⟩

/-! ### The invariant -/

variable (rules : ℕ → T → Outcome)

structure Invariant (s : State T) (life : T → Life) : Prop where
  on : 1 ≤ s.context.currentOn
  sound : ∀ t, Sound s.context.countBase s.context.phase s.context.currentMode
    (rules s.context.currentOn t) (s.targets t) (life t) (placesOf t s.calls)
  dependency : s.context.dependencyCount = census (fun c => c.2.counting) s.calls

variable {rules} {s : State T} {life : T → Life}

theorem Sound.append {b : ℕ} {φ : RunPhase} {m : ExecutionMode} {r : Outcome} {o : OpState}
    {l : Life} {ps : List Place} {p : Place} (h : Sound b φ m r o l ps) (hp : p.holding = 0)
    (hpo : p.outstanding = 0) (hok : p.Ok b r o l) (hphase : ∀ ψ, p.phase = some ψ → ψ = φ) :
    Sound b φ m r o l (ps ++ [p]) := by
  refine ⟨?_, h.free, ?_, ?_, h.tried, h.states, h.mode, ?_⟩
  · rw [census_append, census_cons, census_nil, hp, h.held]
    rfl
  · intro q hq
    rcases List.mem_append.mp hq with hq | hq
    · exact h.places q hq
    · exact List.mem_singleton.mp hq ▸ hok
  · rw [census_append, census_cons, census_nil, hpo, h.outstanding]
    rfl
  · intro q hq
    rcases List.mem_append.mp hq with hq | hq
    · exact h.phase q hq
    · exact List.mem_singleton.mp hq ▸ hphase

theorem Invariant.call (h : Invariant rules s life) (t : T) (c : Caller)
    (hφ : s.context.phase = .match) :
    Invariant rules { s with calls := s.calls ++ [(t, .locking c s.context.countBase)] } life := by
  refine ⟨h.on, fun u => ?_, ?_⟩
  · have hplaces : placesOf u (s.calls ++ [(t, .locking c s.context.countBase)]) =
        placesOf u s.calls ++ placesOf u [(t, .locking c s.context.countBase)] :=
      List.filterMap_append
    dsimp only
    rw [hplaces]
    by_cases hu : t = u
    · subst hu
      rw [placesOf_cons_self]
      exact (h.sound t).append rfl rfl (Nat.lt_add_of_pos_right (by decide)) fun ψ hψ => by
        cases hψ
        exact hφ.symm
    · rw [placesOf_cons_ne hu]
      change Sound _ _ _ _ _ _ (placesOf u s.calls ++ [])
      rw [List.append_nil]
      exact h.sound u
  · rw [census_append, ← h.dependency]
    rfl

theorem Invariant.phase (h : Invariant rules s life) (φ : RunPhase)
    (hnone : (s.calls.all fun c => c.2.phase.isNone) = true) :
    Invariant rules { s with context := { s.context with phase := φ } } life := by
  refine ⟨h.on, fun t => ?_, h.dependency⟩
  obtain ⟨hheld, hfree, hplaces, hout, htried, hstates, hmode, -⟩ := h.sound t
  refine ⟨hheld, hfree, hplaces, hout, htried, hstates, hmode, fun p hp ψ hψ => ?_⟩
  have hp := List.all_eq_true.mp hnone _ (mem_placesOf.mp hp)
  rw [hψ] at hp
  cases hp

theorem Place.over_holding {p : Place} (h : p.over = true) : p.holding = 0 := by
  cases p <;> first | rfl | cases h

theorem Invariant.operation (h : Invariant rules s life) (m : ExecutionMode)
    (hover : (s.calls.all fun c => c.2.over) = true) :
    Invariant rules ⟨⟨s.context.phase, s.context.currentOn + 1, m, 0⟩, s.targets, []⟩
      fun _ => Life.start m := by
  refine ⟨Nat.le_add_left 1 _, fun t => ?_, rfl⟩
  -- The counts of the last operation are at most the base of the next one.
  have hle : (s.targets t).taskCount ≤ 5 * s.context.currentOn := by
    have hon := h.on
    have hzero : census Place.holding (placesOf t s.calls) ≤
        census (fun _ => 0) (placesOf t s.calls) := census_le fun p hp =>
      Nat.le_of_eq (Place.over_holding (List.all_eq_true.mp hover _ (mem_placesOf.mp hp)))
    have hsum : census (fun _ => 0) (placesOf t s.calls) = 0 := by simp [census]
    rw [(h.sound t).held, hsum] at hzero
    unfold busyCalls Context.countBase offsetBusy at hzero
    split_ifs at hzero
    · omega
    · omega
  have hbase : Context.countBase ⟨s.context.phase, s.context.currentOn + 1, m, 0⟩ =
      5 * s.context.currentOn := rfl
  dsimp only
  rw [hbase]
  have hlt : (s.targets t).taskCount < 5 * s.context.currentOn + offsetBusy :=
    Nat.lt_of_le_of_lt hle (Nat.lt_add_of_pos_right (by decide))
  refine ⟨(if_neg (Nat.not_le_of_lt hlt)).symm, fun _ => ⟨?_, fun hb => ?_⟩, fun p hp => ?_, rfl,
    (fun he => by cases he), (fun st he => by cases he), rfl, fun p hp => ?_⟩
  · rw [Nat.sub_eq_zero_of_le hle]
    rfl
  · exact absurd hb (Nat.not_lt_of_le hle)
  · cases hp
  · cases hp

theorem Invariant.move (h : Invariant rules s life) {i : ℕ} {t : T} {p : Place} {a : Step}
    {x : Context} {y : Moved} (hi : s.calls[i]? = some (t, p))
    (hy : region s.context (s.targets t) (rules s.context.currentOn t) a p = some (x, y)) :
    ∃ l', (life t).events y.2.2 = some l' ∧
      Invariant rules ⟨x, Function.update s.targets t y.1, s.calls.set i (t, y.2.1)⟩
        (Function.update life t l') := by
  have hcounted : p = .counted → s.context.dependencyCount ≠ 0 := by
    rintro rfl
    have hle := le_census (fun c : T × Place => c.2.counting) hi
    rw [← h.dependency] at hle
    exact Nat.ne_of_gt hle
  obtain ⟨k, hk, hset⟩ := placesOf_set hi
  obtain ⟨l', hl', hs⟩ := (h.sound t).region hk hcounted hy
  obtain ⟨hφ, hon, hmode, hdep⟩ := region_context hcounted hy
  have hbase : x.countBase = s.context.countBase := by
    unfold Context.countBase
    rw [hon]
  refine ⟨l', hl', hon ▸ h.on, fun u => ?_, ?_⟩
  · dsimp only
    rw [hφ, hon, hmode, hbase]
    by_cases hu : u = t
    · subst hu
      rw [Function.update_self, Function.update_self, hset]
      exact hs
    · rw [Function.update_of_ne hu, Function.update_of_ne hu, placesOf_set_ne hi (Ne.symm hu)]
      exact h.sound u
  · have hcensus := census_set (fun c : T × Place => c.2.counting) hi (t, y.2.1)
    have hold := h.dependency
    dsimp only at hcensus ⊢
    omega

theorem Invariant.step (h : Invariant rules s life) (a : Action T) :
    ∃ life', (∀ t, (life t).follow t (step rules s a).2 = some (life' t)) ∧
      Invariant rules (step rules s a).1 life' := by
  have hstay : ∃ life', (∀ t, (life t).follow t [] = some (life' t)) ∧ Invariant rules s life' :=
    ⟨life, fun _ => rfl, h⟩
  cases a with
  | call t c =>
    rw [Algorithm.step]
    split_ifs with hφ
    · exact ⟨life, fun _ => rfl, h.call t c hφ⟩
    · exact hstay
  | phase φ =>
    rw [Algorithm.step]
    split_ifs with hnone
    · exact ⟨life, fun _ => rfl, h.phase φ hnone⟩
    · exact hstay
  | operation m =>
    rw [Algorithm.step]
    split_ifs with hover
    · exact ⟨fun _ => Life.start m, fun _ => rfl, h.operation m hover⟩
    · exact hstay
  | move i a =>
    rw [Algorithm.step]
    cases hi : s.calls[i]? with
    | none => exact hstay
    | some c =>
      obtain ⟨t, p⟩ := c
      have hphase : ¬ p.phase.any (· ≠ s.context.phase) = true := by
        obtain ⟨k, hk, -⟩ := placesOf_set hi
        cases hp : p.phase with
        | none => exact Bool.false_ne_true
        | some ψ =>
          have hψ := (h.sound t).phase p (List.mem_of_getElem? hk) ψ hp
          simp [hψ]
      dsimp only
      rw [if_neg hphase]
      cases hy : region s.context (s.targets t) (rules s.context.currentOn t) a p with
      | none => exact hstay
      | some y =>
        obtain ⟨x, o, q, es⟩ := y
        obtain ⟨l', hl', hs⟩ := h.move hi hy
        refine ⟨Function.update life t l', fun u => ?_, hs⟩
        dsimp only
        by_cases hu : u = t
        · subst hu
          rw [Life.follow_events, Function.update_self]
          exact hl'
        · rw [Life.follow_others (Ne.symm hu), Function.update_of_ne hu]

theorem Invariant.run (h : Invariant rules s life) (as : List (Action T)) :
    ∃ life', (∀ t, (life t).follow t (run rules s as).2 = some (life' t)) ∧
      Invariant rules (run rules s as).1 life' := by
  induction as generalizing s life with
  | nil => exact ⟨life, fun _ => rfl, h⟩
  | cons a as ih =>
    obtain ⟨life₁, hfollow₁, h₁⟩ := h.step a
    obtain ⟨life', hfollow, h'⟩ := ih h₁
    refine ⟨life', fun t => ?_, h'⟩
    rw [Algorithm.run, Life.follow_append, hfollow₁]
    exact hfollow t

theorem invariant_start (m : ExecutionMode) :
    Invariant rules (start m) fun _ => Life.start m := by
  refine ⟨Nat.le_refl 1, fun t => ?_, rfl⟩
  exact ⟨rfl, fun _ => ⟨rfl, fun h => absurd h (Nat.lt_irrefl 0)⟩, (fun p hp => by cases hp), rfl,
    (fun he => by cases he), (fun st he => by cases he), rfl, fun p hp => by cases hp⟩

/-- No call counts in the dependency count any more. -/
theorem Invariant.dependencyCount_eq_zero (h : Invariant rules s life)
    (hdone : ∀ c ∈ s.calls, c.2 = .done) : s.context.dependencyCount = 0 := by
  have hzero : census (fun c : T × Place => c.2.counting) s.calls ≤
      census (fun _ => 0) s.calls := by
    refine census_le fun c hc => ?_
    rw [hdone c hc]
    exact Nat.le_refl 0
  have hsum : census (fun _ : T × Place => 0) s.calls = 0 := by simp [census]
  rw [h.dependency]
  omega

/-- In every interleaving of callers that match a target before they execute it, what happens to the
target is its life cycle in each operation: the rules are tried by one call at a time and one is
applied once, the recipe is executed once behind that, by `execute` in the last mode only for the
last of the calls that are to come (`execute_direct` does not wait for them), all that is returned
is the state that this has come to, and no assertion fails. As long as nobody works on the target,
its task count tells how far it has come, and when all the calls are done, none counts as a
dependency. -/
theorem life_cycle (m : ExecutionMode) (as : List (Action T)) (t : T) :
    let x := run rules (start m) as
    let o := (x.1.targets t).taskCount
    (∃ l, (Life.start m).follow t x.2 = some l ∧ (o < x.1.context.countBase + offsetBusy →
      l.stage = stageAt (o - x.1.context.countBase) (x.1.targets t).state)) ∧
      ((∀ c ∈ x.1.calls, c.2 = .done) → x.1.context.dependencyCount = 0) := by
  have hstart : Invariant rules (start m) fun _ => Life.start m := invariant_start m
  obtain ⟨life, hfollow, h⟩ := hstart.run as
  exact ⟨⟨life t, hfollow t, fun hlt => ((h.sound t).free hlt).1⟩, h.dependencyCount_eq_zero⟩

end

end Build2.Libbuild2.Algorithm
