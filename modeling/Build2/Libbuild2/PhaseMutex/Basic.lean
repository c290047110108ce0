import Build2.Lib.Census
import Mathlib.Logic.Function.Basic

/-! # The phase mutex

`run_phase_mutex` lets any number of threads be in the match or in the execute phase at a time and
one thread be in the load phase. A step below is what a thread does while it holds the inner mutex,
or what it does with the mutex of the load phase, or a notification, or what it does until it gets
that far. A thread that waits for a condition may wake up at any time, and only goes on if its phase
has come. -/

namespace Build2.Libbuild2.PhaseMutex

open Build2.Lib.Census

/-- `run_phase`. -/
inductive RunPhase
  | load
  | «match»
  | execute
  deriving DecidableEq, Repr

/-- `run_phase_mutex` with the phase of the context: `lc_`, `mc_` and `ec_` are the counts of the
phases, and `lm_` is locked or not. -/
structure RunPhaseMutex where
  phase : RunPhase := .load
  fail : Bool := false
  count : RunPhase → ℕ := fun _ => 0
  loadLocked : Bool := false

/-- Where a thread is. -/
inductive Place
  /-- It does not hold the mutex. -/
  | idle
  /-- In the loop of `lock` or of `relock`, notified or not since it has begun to wait. -/
  | waiting (p : RunPhase) (notified : Bool)
  /-- Behind the inner mutex, on its way out of `lock` or `relock`, with what it has got so far. -/
  | passed (p : RunPhase) (r : Bool)
  /-- `lock` or `relock` has returned. -/
  | holding (p : RunPhase) (r : Bool)
  /-- It has unlocked the mutex of the load phase, in `unlock` or in `relock` to a phase. -/
  | leaving (next : Option RunPhase)
  /-- It is about to notify the threads that wait for a phase, in `unlock` or in `relock` to this
  phase. -/
  | notifying (p : RunPhase) (r : Option Bool)
  deriving DecidableEq, Repr

/-! ### The source -/

/-- The counter of a phase is incremented. -/
def RunPhaseMutex.enter (m : RunPhaseMutex) (p : RunPhase) : RunPhaseMutex :=
  { m with count := Function.update m.count p (m.count p + 1) }

/-- The counter of a phase is decremented. -/
def RunPhaseMutex.leave (m : RunPhaseMutex) (p : RunPhase) : RunPhaseMutex :=
  { m with count := Function.update m.count p (m.count p - 1) }

/-- `lock` while it holds the inner mutex for the first time. -/
def lock (m : RunPhaseMutex) (p : RunPhase) : RunPhaseMutex × Place :=
  let u : Bool := m.count .load = 0 ∧ m.count .match = 0 ∧ m.count .execute = 0
  let m := m.enter p
  if u then ({ m with phase := p }, .passed p (!m.fail))
  else if m.phase ≠ p then (m, .waiting p false)
  else (m, .passed p (!m.fail))

/-- The condition of the loop of `lock` and of `relock`, when the thread wakes up. -/
def wake (m : RunPhaseMutex) (p : RunPhase) : Place :=
  if m.phase ≠ p then .waiting p false else .passed p (!m.fail)

/-- The new phase that `unlock` picks. -/
def pick (m : RunPhaseMutex) : Option RunPhase :=
  if m.count .load ≠ 0 then some .load
  else if m.count .match ≠ 0 then some .match
  else if m.count .execute ≠ 0 then some .execute
  else none

/-- `unlock` while it holds the inner mutex. -/
def unlock (m : RunPhaseMutex) (p : RunPhase) : RunPhaseMutex × Place :=
  let m := m.leave p
  if m.count p = 0 then
    match pick m with
    | some v => ({ m with phase := v }, .notifying v none)
    | none => ({ m with phase := .load }, .idle)
  else (m, .idle)

/-- `relock` while it holds the inner mutex for the first time. -/
def relock (m : RunPhaseMutex) (o n : RunPhase) : RunPhaseMutex × Place :=
  let m := m.leave o
  let u : Bool := m.count o = 0
  -- whether it will be waiting or notifying others
  let v : Bool := m.count n ≠ 0 ∨ u = false
  let m := m.enter n
  if u then
    ({ m with phase := n }, if v then .notifying n (some (!m.fail)) else .passed n (!m.fail))
  else (m, .waiting n false)

/-! ### Runs -/

/-- The steps of a thread. -/
inductive Step
  /-- It calls `lock`. -/
  | lock (p : RunPhase)
  /-- It wakes up and gets hold of the inner mutex. -/
  | wake
  /-- `lock` or `relock` returns, for the load phase with its mutex. -/
  | proceed
  /-- It calls `unlock`. -/
  | unlock
  /-- It calls `relock`. -/
  | relock (n : RunPhase)
  /-- It goes on behind the mutex of the load phase. -/
  | leave
  /-- It notifies all that wait. -/
  | notify
  /-- `~phase_switch`: the load section fails. -/
  | fail
  deriving DecidableEq, Repr

/-- The mutex and the place of a thread after a step, `none` if it cannot make the step. A thread
releases only what it holds. -/
def region (m : RunPhaseMutex) : Step → Place → Option (RunPhaseMutex × Place)
  | .lock p, .idle => some (lock m p)
  | .wake, .waiting p _ => some (m, wake m p)
  | .proceed, .passed p r =>
    if p = .load then
      if m.loadLocked then none
      else some ({ m with loadLocked := true }, .holding .load (!m.fail))
    else some (m, .holding p r)
  | .unlock, .holding p _ =>
    if p = .load then some ({ m with loadLocked := false }, .leaving none) else some (unlock m p)
  | .relock n, .holding o _ =>
    if o = n then none
    else if o = .load then some ({ m with loadLocked := false }, .leaving (some n))
    else some (relock m o n)
  | .leave, .leaving none => some (unlock m .load)
  | .leave, .leaving (some n) => if n = .load then none else some (relock m .load n)
  | .notify, .notifying _ none => some (m, .idle)
  | .notify, .notifying p (some r) => some (m, .passed p r)
  | .fail, .holding .load r => some ({ m with fail := true }, .holding .load r)
  | _, _ => none

/-- A thread that waits for the phase is notified. -/
def Place.notified (p : RunPhase) : Place → Place
  | .waiting p' b => .waiting p' (p' = p || b)
  | t => t

structure State where
  mutex : RunPhaseMutex := {}
  threads : List Place

/-- What a step of a thread does to the others. -/
def others (t : Place) (a : Step) : Place → Place :=
  match t, a with
  | .notifying p _, .notify => Place.notified p
  | _, _ => id

/-- A step of the thread with the number `i`; nothing happens if it cannot make it. -/
def step (s : State) (i : ℕ) (a : Step) : State :=
  match s.threads[i]? with
  | none => s
  | some t =>
    match region s.mutex a t with
    | none => s
    | some (m, t') => ⟨m, (s.threads.map (others t a)).set i t'⟩

/-- An interleaving of the steps of `n` threads. -/
def run (n : ℕ) (steps : List (ℕ × Step)) : State :=
  steps.foldl (fun s a => step s a.1 a.2) { threads := List.replicate n .idle }

end Build2.Libbuild2.PhaseMutex
