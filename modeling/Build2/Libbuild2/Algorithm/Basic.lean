import Build2.Libbuild2.PhaseMutex.Basic

/-! # The states of targets

Threads match and execute targets at the same time. The task count of a target tells how far it has
come in the current operation and whether somebody works on it; every operation has counts of its
own. A step below is what a call does up to its next access to a count, or up to the return of a
rule or a recipe. Ad hoc group members and the states of groups are left out. -/

namespace Build2.Libbuild2.Algorithm

open PhaseMutex (RunPhase)

/-- `target_state`. -/
inductive TargetState
  | unknown
  | unchanged
  | postponed
  | busy
  | changed
  | failed
  | group
  deriving DecidableEq, Repr

/-- `execution_mode`. -/
inductive ExecutionMode
  | first
  | last
  deriving DecidableEq, Repr

abbrev offsetTouched : ℕ := 1
abbrev offsetTried : ℕ := 2
abbrev offsetMatched : ℕ := 3
abbrev offsetApplied : ℕ := 4
abbrev offsetExecuted : ℕ := 5
abbrev offsetBusy : ℕ := 6

/-- `target::opstate`, apart from the rule, the recipe and the variables. -/
structure OpState where
  taskCount : ℕ := 0
  dependents : ℕ := 0
  state : TargetState := .unknown
  deriving DecidableEq, Repr

/-- The phase and the operation of the context. -/
structure Context where
  phase : RunPhase
  currentOn : ℕ
  currentMode : ExecutionMode
  dependencyCount : ℕ := 0
  deriving DecidableEq, Repr

/-- `count_base`. -/
def Context.countBase (x : Context) : ℕ := 5 * (x.currentOn - 1)

/-- What `match_rule` comes to for a target. -/
inductive Outcome
  | found
  | none
  | fails
  deriving DecidableEq, Repr

/-- The functions that lock a target: `match` and `try_match`, `match_async` (which queues the task
or runs it itself), `resolve_members` and `resolve_group`. -/
inductive Caller
  | «match» (tryMatch : Bool)
  | async (queued : Bool)
  | members
  | group
  deriving DecidableEq, Repr

/-- What a call does behind `unlock_impl`. -/
inductive After
  | returns (r : Bool × TargetState)
  | reads
  | executes
  | done
  deriving DecidableEq, Repr

/-- Where a call is. -/
inductive Place
  /-- In the loop of `lock_impl`, with the count it expects. -/
  | locking (c : Caller) (e : ℕ)
  /-- It waits in `lock_impl`, with the phase unlocked. -/
  | waiting (c : Caller)
  /-- It has seen the count drop and locks the phase again. -/
  | woken (c : Caller) (e : ℕ)
  /-- It has the lock, with the count before that. -/
  | claimed (c : Caller) (e : ℕ)
  /-- The task of `match_async`, which does not have the phase yet. -/
  | queued (offset : ℕ)
  | held (c : Caller) (offset : ℕ)
  /-- Rules are tried, with the number of the tasks that they have started. -/
  | matching (c : Caller) (offset : ℕ) (tasks : ℕ)
  | applying (c : Caller) (tasks : ℕ)
  | unlocking (offset : ℕ) (next : After)
  /-- In `try_matched_state`. -/
  | reading (c : Caller)
  /-- `match` is about to return the state of a target that has not failed. -/
  | returned
  /-- In `match_inc_dependens`. -/
  | depending
  /-- The target has been counted, and is to be executed. -/
  | counted
  /-- In `execute`. -/
  | leaving
  | trying
  /-- On the way to `execute_direct`, and in it. -/
  | switching
  | direct
  /-- The recipe is executed, with the number of the tasks that it has started. -/
  | running (tasks : ℕ)
  | finishing
  /-- The recipe does nothing. -/
  | skipping
  /-- It waits for the execution by another call. -/
  | pausing
  /-- In `executed_state`. -/
  | observing
  | done
  deriving DecidableEq, Repr

/-- What happens to a target. -/
inductive Event
  | matchRule
  | tried
  | matched
  | applyRule
  /-- The result of `apply` is there for others to see. -/
  | applied (st : TargetState)
  | depends
  /-- `execute` goes on, or does not as others depend on the target. -/
  | executes
  | postpones
  | runs (direct : Bool)
  | ran (st : TargetState)
  | skips
  | returnsMatched (r : Bool × TargetState)
  | returnsExecuted (st : TargetState)
  /-- An assertion fails. -/
  | fault
  deriving DecidableEq, Repr

/-- The steps of a call, with what the functions of others decide. -/
inductive Step
  /-- The next step, with whether the members of the group, or the group, are known. -/
  | go (known : Bool)
  /-- `match_impl` returns to `match`, whose caller depends on the target, executes it itself, or
  does without it. -/
  | depend
  | execute
  | leave
  /-- A rule or a recipe starts a task, or one finishes. -/
  | spawn
  | finish
  /-- `apply` returns a recipe, which may do nothing, or fails. -/
  | apply (noop : Option Bool)
  /-- The recipe returns. -/
  | recipe (st : TargetState)
  deriving DecidableEq, Repr

/-! ### The source -/

/-- The state of the target, the place and the events of a step. -/
abbrev Moved : Type := OpState × Place × List Event

def faulted (s : OpState) : Moved := (s, .done, [.fault])

/-- `lock_impl` returns without the lock. -/
def unlocked (known : Bool) (c : Caller) (offset : ℕ) : Place :=
  match c with
  | .members => if known = false ∧ offset ≠ offsetExecuted then .switching else .done
  | .group => .done
  | c => .reading c

/-- The loop of `lock_impl`. -/
def lockImpl (x : Context) (s : OpState) (known : Bool) (c : Caller) (e : ℕ) : Moved :=
  if s.taskCount = e then
    ({ s with taskCount := x.countBase + offsetBusy }, .claimed c e, [])
  else
    let e := s.taskCount
    let place : Place :=
      if x.countBase + offsetBusy ≤ e then
        match c with
        | .async _ => .done
        | c => .waiting c
      else if x.countBase + offsetApplied ≤ e then unlocked known c (e - x.countBase)
      else .locking c e
    (s, place, [])

/-- The end of `lock_impl`. -/
def locked (x : Context) (s : OpState) (c : Caller) (e : ℕ) : Moved :=
  let place (o : ℕ) : Place := if c = .async true then .queued o else .held c o
  if e ≤ x.countBase then ({ s with dependents := 0 }, place offsetTouched, [])
  else
    let o := e - x.countBase
    if o = offsetTouched ∨ o = offsetTried ∨ o = offsetMatched then (s, place o, [])
    else faulted s

/-- The switch of `match_impl`. -/
def matchImpl (s : OpState) (c : Caller) (o : ℕ) : Moved :=
  if o = offsetTouched ∨ o = offsetTried then (s, .matching c o 0, [.matchRule])
  else if o = offsetMatched then (s, .applying c 0, [.applyRule])
  else faulted s

/-- What the functions do with the lock. -/
def proceed (s : OpState) (known : Bool) (c : Caller) (o : ℕ) : Moved :=
  match c with
  | .match tryMatch =>
    if tryMatch = true ∧ o = offsetTried then (s, .unlocking o (.returns (false, .unknown)), [])
    else matchImpl s c o
  | .async _ => matchImpl s c o
  | .members =>
    if known then (s, .unlocking o .done, [])
    else if o = offsetApplied then (s, .unlocking o .executes, [])
    else matchImpl s c o
  | .group =>
    if known = true ∨ offsetTried ≤ o then (s, .unlocking o .done, []) else matchImpl s c o

/-- The argument of `match_impl`. -/
def Caller.tryMatch : Caller → Bool
  | .match tryMatch => tryMatch
  | .group => true
  | _ => false

/-- What is done with the result of `match_impl`. -/
def Caller.after (c : Caller) (r : Bool × TargetState) : After :=
  match c with
  | .match _ => .returns r
  | .async false => .reads
  | _ => .done

/-- `match_impl` catches `failed`. -/
def matchFailed (s : OpState) (c : Caller) : Moved :=
  ({ s with state := .failed }, .unlocking offsetApplied (c.after (true, .failed)), [])

/-- `match_rule` has returned to `match_impl`. -/
def ruleMatched (s : OpState) (c : Caller) (o : ℕ) (r : Outcome) : Moved :=
  match r with
  | .found =>
    if o = offsetTried then faulted s
    else
      (s, if c = .group then .unlocking offsetMatched .done else .held c offsetMatched,
        [.matched])
  | .none =>
    if c.tryMatch then (s, .unlocking offsetTried (c.after (false, .unknown)), [.tried])
    else matchFailed s c
  | .fails => matchFailed s c

/-- `apply_impl` has returned to `match_impl`. -/
def ruleApplied (s : OpState) (c : Caller) (noop : Option Bool) : Moved :=
  match noop with
  | none => matchFailed s c
  | some noop =>
    let st : TargetState := if noop then .unchanged else .unknown
    ({ s with state := st },
      if c = .members then .held c offsetApplied
      else .unlocking offsetApplied (c.after (true, st)), [])

/-- `unlock_impl`, and what follows it. -/
def unlockImpl (x : Context) (s : OpState) (o : ℕ) (next : After) : Moved :=
  let s := { s with taskCount := o + x.countBase }
  let applied : List Event := if o = offsetApplied then [.applied s.state] else []
  match next with
  | .returns r =>
    (s, if r.1 = true ∧ r.2 ≠ .failed then .returned else .done, applied ++ [.returnsMatched r])
  | .reads => (s, .reading (.async false), applied)
  | .executes => (s, .switching, applied)
  | .done => (s, .done, applied)

/-- `try_matched_state`. -/
def tryMatchedState (x : Context) (s : OpState) (c : Caller) : Moved :=
  let o := s.taskCount - x.countBase
  if o = offsetTried then (s, .done, [.returnsMatched (false, .unknown)])
  else if o = offsetApplied ∨ o = offsetExecuted then
    let place : Place :=
      match c with
      | .match _ => if s.state ≠ .failed then .returned else .done
      | _ => .done
    (s, place, [.returnsMatched (true, s.state)])
  else faulted s

/-- The rest of `execute` behind the dependents. -/
def execute (x : Context) (s : OpState) : Moved :=
  if s.dependents = 0 then faulted s
  else
    let s := { s with dependents := s.dependents - 1 }
    if x.currentMode = .last ∧ s.dependents ≠ 0 then (s, .done, [.postpones])
    else (s, .trying, [.executes])

/-- The part of `execute` and `execute_direct` where the count has been changed by others. -/
def executeOthers (x : Context) (s : OpState) : Moved :=
  if x.countBase + offsetBusy ≤ s.taskCount then (s, .pausing, [])
  else if s.taskCount = x.countBase + offsetExecuted then (s, .observing, [])
  else faulted s

/-- The start of `execute_impl`. -/
def executeImpl (s : OpState) (direct : Bool) : Moved :=
  if s.state = .unknown then (s, .running 0, [.runs direct]) else faulted s

/-- The compare-exchange of `execute`. -/
def executeTry (x : Context) (s : OpState) : Moved :=
  if s.taskCount = x.countBase + offsetApplied then
    let s := { s with taskCount := x.countBase + offsetBusy }
    if s.state = .unchanged then (s, .skipping, []) else executeImpl s false
  else executeOthers x s

/-- `execute_direct`. -/
def executeDirect (x : Context) (s : OpState) : Moved :=
  if s.taskCount = x.countBase + offsetApplied then
    let s := { s with taskCount := x.countBase + offsetBusy }
    if s.state = .unknown then executeImpl s true
    else if s.state = .unchanged ∨ s.state = .failed then (s, .skipping, [])
    else faulted s
  else executeOthers x s

/-- `execute_recipe`: the state of a target with what its recipe has returned. -/
def recipeState : TargetState → Option TargetState
  | .changed => some .changed
  | .unchanged => some .unchanged
  | .postponed => some .unchanged
  | .failed => some .failed
  | _ => none

/-- The end of `execute_impl`. -/
def executeEnd (x : Context) (s : OpState) : Moved :=
  if s.taskCount = x.countBase + offsetBusy then
    ({ s with taskCount := s.taskCount - (offsetBusy - offsetExecuted) }, .observing,
      [.ran s.state])
  else faulted s

/-! ### Runs -/

/-- The phase that a call does not let go of. -/
def Place.phase : Place → Option RunPhase
  | .locking _ _ | .claimed _ _ | .held _ _ | .unlocking _ _ | .reading _ | .returned
  | .depending => some .match
  | .leaving | .trying | .direct | .running _ | .finishing | .skipping | .pausing
  | .observing => some .execute
  | _ => none

/-- A rule or a recipe starts a task. -/
def spawned (s : OpState) (p : Place) : Moved := ({ s with taskCount := s.taskCount + 1 }, p, [])

def finished (s : OpState) (p : Place) : Moved := ({ s with taskCount := s.taskCount - 1 }, p, [])

/-- What a call does next with its target, `none` if it cannot make the step. -/
def region (x : Context) (s : OpState) (r : Outcome) : Step → Place → Option (Context × Moved)
  | .go known, .locking c e => some (x, lockImpl x s known c e)
  | .go _, .waiting c =>
    if s.taskCount < x.countBase + offsetBusy then some (x, s, .woken c s.taskCount, []) else none
  -- a dependency cycle
  | .leave, .waiting _ => some (x, s, .done, [])
  | .go known, .woken c e =>
    if x.phase ≠ .match then none
    else if x.countBase + offsetApplied ≤ e then
      some (x, s, unlocked known c (e - x.countBase), [])
    else some (x, s, .locking c e, [])
  | .go _, .claimed c e => some (x, locked x s c e)
  | .go _, .queued o => if x.phase = .match then some (x, s, .held (.async true) o, []) else none
  | .go known, .held c o => some (x, proceed s known c o)
  | .spawn, .matching c o n => some (x, spawned s (.matching c o (n + 1)))
  | .finish, .matching c o (n + 1) => some (x, finished s (.matching c o n))
  | .go _, .matching c o _ =>
    if x.phase = .match ∧ s.taskCount ≤ x.countBase + offsetBusy then
      some (x, ruleMatched s c o r)
    else none
  | .spawn, .applying c n => some (x, spawned s (.applying c (n + 1)))
  | .finish, .applying c (n + 1) => some (x, finished s (.applying c n))
  | .apply noop, .applying c _ =>
    if x.phase = .match ∧ s.taskCount ≤ x.countBase + offsetBusy then
      some (x, ruleApplied s c noop)
    else none
  | .go _, .unlocking o next => some (x, unlockImpl x s o next)
  | .go _, .reading c => some (x, tryMatchedState x s c)
  | .depend, .returned =>
    some ({ x with dependencyCount := x.dependencyCount + 1 }, s, .depending, [])
  | .execute, .returned => some (x, s, .switching, [])
  | .leave, .returned => some (x, s, .done, [])
  | .go _, .depending =>
    some (x, { s with dependents := s.dependents + 1 }, .counted, [.depends])
  | .go _, .counted =>
    if x.phase ≠ .execute then none
    else if x.dependencyCount = 0 then some (x, faulted s)
    else some ({ x with dependencyCount := x.dependencyCount - 1 }, s, .leaving, [])
  | .go _, .leaving => some (x, execute x s)
  | .go _, .trying => some (x, executeTry x s)
  | .go _, .switching => if x.phase = .execute then some (x, s, .direct, []) else none
  | .go _, .direct => some (x, executeDirect x s)
  | .spawn, .running n => some (x, spawned s (.running (n + 1)))
  | .finish, .running (n + 1) => some (x, finished s (.running n))
  | .recipe st, .running _ =>
    if s.taskCount ≤ x.countBase + offsetBusy then
      (recipeState st).map fun st => (x, { s with state := st }, .finishing, [])
    else none
  | .go _, .finishing => some (x, executeEnd x s)
  | .go _, .skipping =>
    some (x, { s with taskCount := x.countBase + offsetExecuted }, .observing, [.skips])
  | .go _, .pausing =>
    if s.taskCount ≤ x.countBase + offsetExecuted then some (x, s, .observing, []) else none
  | .go _, .observing => some (x, s, .done, [.returnsExecuted s.state])
  | _, _ => none

variable {T : Type} [DecidableEq T]

structure State (T : Type) where
  context : Context
  targets : T → OpState
  calls : List (T × Place)

/-- The steps of the program. -/
inductive Action (T : Type)
  /-- A target is matched, or its members or its group are resolved. -/
  | call (t : T) (c : Caller)
  /-- A step of the call with the number `i`. -/
  | move (i : ℕ) (a : Step)
  | phase (p : RunPhase)
  /-- The next operation, when no call is at work. -/
  | operation (m : ExecutionMode)

inductive Label (T : Type)
  | event (t : T) (e : Event)
  | operation (m : ExecutionMode)

/-- The call is over, perhaps as others have failed. -/
def Place.over : Place → Bool
  | .returned | .counted | .switching | .done => true
  | _ => false

variable (rules : ℕ → T → Outcome)

/-- Nothing happens if the step cannot be made. The phase changes when no call holds it. Assertions
on the phase fail if the phase is another one. -/
def step (s : State T) : Action T → State T × List (Label T)
  | .call t c =>
    if s.context.phase = .match then
      ({ s with calls := s.calls ++ [(t, .locking c s.context.countBase)] }, [])
    else (s, [])
  | .move i a =>
    match s.calls[i]? with
    | none => (s, [])
    | some (t, p) =>
      if p.phase.any (· ≠ s.context.phase) then (s, [.event t .fault])
      else
        match region s.context (s.targets t) (rules s.context.currentOn t) a p with
        | none => (s, [])
        | some (x, o, p, es) =>
          (⟨x, Function.update s.targets t o, s.calls.set i (t, p)⟩, es.map (.event t))
  | .phase p =>
    if s.calls.all fun c => c.2.phase.isNone then
      ({ s with context := { s.context with phase := p } }, [])
    else (s, [])
  | .operation m =>
    if s.calls.all fun c => c.2.over then
      (⟨⟨s.context.phase, s.context.currentOn + 1, m, 0⟩, s.targets, []⟩, [.operation m])
    else (s, [])

/-- The first operation. -/
def start (m : ExecutionMode) : State T where
  context := ⟨.load, 1, m, 0⟩
  targets := fun _ => {}
  calls := []

/-- An interleaving of the steps of any number of calls, and what happens to the targets. -/
def run (s : State T) : List (Action T) → State T × List (Label T)
  | [] => (s, [])
  | a :: as => ((run (step rules s a).1 as).1, (step rules s a).2 ++ (run (step rules s a).1 as).2)

end Build2.Libbuild2.Algorithm
