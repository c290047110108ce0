import Build2.Lib.Census

/-! # The threads of the scheduler

The scheduler counts its threads by what they do. Every step below is what a thread does while it
holds the mutex of the scheduler, from when it gets hold of it until it releases it or waits for a
condition. The number of the queued tasks changes without the mutex, so that a step takes what it
finds it to be, and a thread that waits for a condition may wake up at any time. -/

namespace Build2.Libbuild2.Scheduler

/-- The parameters of `startup`, with its assertions, of a scheduler that does not run serially. -/
structure Config where
  initActive : ℕ
  maxActive : ℕ
  maxThreads : ℕ
  initActive_ne : initActive ≠ 0
  initActive_le : initActive ≤ maxActive
  maxActive_le : maxActive ≤ maxThreads
  parallel : 1 < maxActive

/-- The counters. -/
structure Counters where
  helpers : ℕ := 0
  active : ℕ
  idle : ℕ := 0
  waiting : ℕ := 0
  ready : ℕ := 0
  starting : ℕ := 0
  external : ℕ := 0
  shutdown : Bool := false
  deriving DecidableEq, Repr

/-- What a thread does while it does not hold the mutex. -/
inductive Place
  /-- Executing a task or looking for one. -/
  | active
  /-- Creating a helper, called by `async` or by `deactivate`. -/
  | creating (deactivated : Option Bool)
  /-- After `deactivate` and before `activate`, perhaps for an external event. -/
  | waiting (external : Bool)
  /-- Waiting in `activate`. -/
  | ready
  /-- A new helper. -/
  | starting
  /-- A helper that waits for a task. -/
  | idle
  | exited
  deriving DecidableEq, Repr

structure Thread where
  helper : Bool
  place : Place
  deriving DecidableEq, Repr

structure State where
  counters : Counters
  threads : List Thread
  deriving DecidableEq, Repr

/-- A counter would become negative. -/
inductive Stop
  | underflow
  deriving DecidableEq, Repr

/-- `n--`. -/
def dec : ℕ → Except Stop ℕ
  | 0 => .error .underflow
  | n + 1 => .ok n

/-! ### The source -/

/-- What `activate_helper` did. -/
inductive Helper
  | none
  | notified
  | creating

/-- `create_helper` up to where it releases the mutex. -/
def createHelper (c : Counters) : Counters :=
  { c with helpers := c.helpers + 1, starting := c.starting + 1 }

/-- The guard of `create_helper`, when the thread cannot be created. -/
def restore (c : Counters) : Except Stop Counters := do
  let helpers ← dec c.helpers
  let starting ← dec c.starting
  return { c with helpers := helpers, starting := starting }

/-- `activate_helper`. -/
def activateHelper (cfg : Config) (c : Counters) (queued : Bool) : Counters × Helper :=
  if c.shutdown then (c, .none)
  else if c.idle ≠ 0 then (c, .notified)
  -- even beyond the limit if there are queued tasks but no active threads
  else if cfg.initActive + c.helpers < cfg.maxThreads || (c.active = 0 && queued) then
    (createHelper c, .creating)
  else (c, .none)

/-- `deactivate`, which looks at the number of the queued tasks twice. -/
def deactivate (cfg : Config) (c : Counters) (external queued queued' : Bool) :
    Except Stop (Counters × Place) := do
  let active ← dec c.active
  let c := { c with
    active := active
    waiting := c.waiting + 1
    external := if external then c.external + 1 else c.external }
  if c.ready ≠ 0 then return (c, .waiting external)
  else if queued then
    match activateHelper cfg c queued' with
    | (c, .creating) => return (c, .creating (some external))
    | (c, _) => return (c, .waiting external)
  else return (c, .waiting external)

/-- The loop of `activate`, from where it is entered or woken up. -/
def becomeActive (cfg : Config) (c : Counters) : Except Stop (Counters × Place) :=
  if !c.shutdown && cfg.maxActive ≤ c.active then return (c, .ready)
  else do
    let ready ← dec c.ready
    return ({ c with ready := ready, active := c.active + 1 }, .active)

/-- `activate`. -/
def activate (cfg : Config) (c : Counters) (external : Bool) : Except Stop (Counters × Place) := do
  let external ← if external then dec c.external else .ok c.external
  let waiting ← dec c.waiting
  becomeActive cfg { c with external := external, waiting := waiting, ready := c.ready + 1 }

/-- The end of `async`, when it finds that there are queued tasks. -/
def async (cfg : Config) (c : Counters) (queued : Bool) : Counters × Place :=
  if c.active < cfg.maxActive then
    match activateHelper cfg c queued with
    | (c, .creating) => (c, .creating none)
    | (c, _) => (c, .active)
  else (c, .active)

/-- The loop over the queues in `helper`, from where it gets hold of the mutex again. -/
def lookForWork (c : Counters) (queued : Bool) : Except Stop (Counters × Place) :=
  if queued then return (c, .active)
  else do
    let active ← dec c.active
    return ({ c with active := active, idle := c.idle + 1 }, .idle)

/-- The loop of `helper`, from its condition on. -/
def helperLoop (cfg : Config) (c : Counters) (queued : Bool) : Except Stop (Counters × Place) :=
  if c.shutdown then do
    let helpers ← dec c.helpers
    return ({ c with helpers := helpers }, .exited)
  else if c.active < cfg.maxActive then lookForWork { c with active := c.active + 1 } queued
  else return ({ c with idle := c.idle + 1 }, .idle)

/-- The start of `helper`. -/
def helper (cfg : Config) (c : Counters) (queued : Bool) : Except Stop (Counters × Place) := do
  let starting ← dec c.starting
  helperLoop cfg { c with starting := starting } queued

/-- The end of the wait in `helper`. -/
def wakeHelper (cfg : Config) (c : Counters) (queued : Bool) : Except Stop (Counters × Place) := do
  let idle ← dec c.idle
  helperLoop cfg { c with idle := idle } queued

/-! ### Runs -/

/-- The steps of a thread with what it finds. -/
inductive Step
  | deactivate (external queued queued' : Bool)
  | activate
  | wakeReady
  | async (queued : Bool)
  | created
  | createFailed
  | start (queued : Bool)
  | wakeIdle (queued : Bool)
  | work (queued : Bool)
  | shutdown
  deriving DecidableEq, Repr

/-- Where a thread goes on after it has tried to create a helper. -/
def afterCreating : Option Bool → Place
  | none => .active
  | some external => .waiting external

/-- The counters and the place of a thread after a step, and the thread that it created, `none` if
it cannot make the step. -/
def region (cfg : Config) (c : Counters) (t : Thread) (a : Step) :
    Option (Except Stop (Counters × Place × List Thread)) :=
  let quiet : Except Stop (Counters × Place) → Except Stop (Counters × Place × List Thread) :=
    Except.map fun r => (r.1, r.2, [])
  match a, t.place with
  | .deactivate external queued queued', .active =>
    some (quiet (deactivate cfg c external queued queued'))
  | .activate, .waiting external => some (quiet (activate cfg c external))
  | .wakeReady, .ready => some (quiet (becomeActive cfg c))
  | .async queued, .active => some (quiet (.ok (async cfg c queued)))
  | .created, .creating d => some (.ok (c, afterCreating d, [⟨true, .starting⟩]))
  | .createFailed, .creating d => some (quiet ((restore c).map fun c => (c, afterCreating d)))
  | .start queued, .starting => some (quiet (helper cfg c queued))
  | .wakeIdle queued, .idle => some (quiet (wakeHelper cfg c queued))
  | .work queued, .active => if t.helper then some (quiet (lookForWork c queued)) else none
  | .shutdown, .active => some (.ok ({ c with shutdown := true }, .active, []))
  | _, _ => none

/-- A step of the thread with the number `i`; nothing happens if it cannot make it. -/
def step (cfg : Config) (s : State) (i : ℕ) (a : Step) : Except Stop State :=
  match s.threads[i]? with
  | none => .ok s
  | some t =>
    match region cfg s.counters t a with
    | none => .ok s
    | some r => r.map fun (c, p, new) => ⟨c, s.threads.set i { t with place := p } ++ new⟩

/-- The state after `startup`. -/
def startup (cfg : Config) : State where
  counters := { active := cfg.initActive }
  threads := List.replicate cfg.initActive ⟨false, .active⟩

/-- An interleaving of the steps of the threads. -/
def run (cfg : Config) (s : State) (steps : List (ℕ × Step)) : Except Stop State :=
  steps.foldlM (fun s a => step cfg s a.1 a.2) s

end Build2.Libbuild2.Scheduler
