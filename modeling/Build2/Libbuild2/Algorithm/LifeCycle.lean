import Build2.Libbuild2.Algorithm.Basic

/-! # The life cycle of a target

What may happen to a target in an operation, one thing after the other: its rule is found and
applied once, and its recipe is executed once. -/

namespace Build2.Libbuild2.Algorithm

/-- How far a target has come. -/
inductive Stage
  | untouched
  | matching
  | tried
  | matched
  | applying
  | applied (st : TargetState)
  | running
  | executed (st : TargetState)
  deriving DecidableEq, Repr

/-- A target in an operation, with the number of the calls of `execute` that are to come. -/
structure Life where
  stage : Stage := .untouched
  outstanding : ℕ := 0
  mode : ExecutionMode
  deriving DecidableEq, Repr

/-- The state of a target to which a rule has been applied. -/
def Stage.state : Stage → Option TargetState
  | .applied st | .executed st => some st
  | _ => none

def Life.to (l : Life) (s : Stage) : Option Life := some { l with stage := s }

/-- What an event makes of a target, `none` if it must not happen. -/
def Life.next (l : Life) : Event → Option Life
  | .matchRule => if l.stage = .untouched ∨ l.stage = .tried then l.to .matching else none
  | .tried => if l.stage = .matching then l.to .tried else none
  | .matched => if l.stage = .matching then l.to .matched else none
  | .applyRule => if l.stage = .matched then l.to .applying else none
  | .applied st =>
    if l.stage = .applying ∨ l.stage = .matching ∧ st = .failed then l.to (.applied st) else none
  | .depends =>
    if l.stage.state.any (· ≠ .failed) then some { l with outstanding := l.outstanding + 1 }
    else none
  -- in the last mode for the last call of `execute`
  | .executes =>
    if l.outstanding ≠ 0 ∧ (l.mode = .last → l.outstanding = 1) then
      some { l with outstanding := l.outstanding - 1 }
    else none
  | .postpones =>
    if l.mode = .last ∧ 2 ≤ l.outstanding then some { l with outstanding := l.outstanding - 1 }
    else none
  -- `execute_direct` does not wait for the calls of `execute`
  | .runs direct =>
    if l.stage = .applied .unknown ∧ (direct = false ∧ l.mode = .last → l.outstanding = 0) then
      l.to .running
    else none
  | .ran st => if l.stage = .running then l.to (.executed st) else none
  | .skips =>
    match l.stage with
    | .applied st => if st ≠ .unknown then l.to (.executed st) else none
    | _ => none
  | .returnsMatched r =>
    if (r = (false, .unknown) ∧ l.stage = .tried) ∨ (r.1 = true ∧ l.stage.state = some r.2) then
      some l
    else none
  | .returnsExecuted st => if l.stage = .executed st then some l else none
  | .fault => none

def Life.events : Life → List Event → Option Life
  | l, [] => some l
  | l, e :: es => (l.next e).bind fun l => l.events es

theorem Life.events_one {l l' : Life} {e : Event} (h : l.next e = some l') :
    l.events [e] = some l' := by
  rw [events, h]
  rfl

theorem Life.events_two {l l' l'' : Life} {e e' : Event} (h : l.next e = some l')
    (h' : l'.next e' = some l'') : l.events [e, e'] = some l'' := by
  rw [events, h]
  exact events_one h'

/-- A new operation starts from the beginning. -/
def Life.start (m : ExecutionMode) : Life := { mode := m }

variable {T : Type} [DecidableEq T]

/-- What the labels of a run make of a target. -/
def Life.follow (t : T) : Life → List (Label T) → Option Life
  | l, [] => some l
  | l, .event u e :: ls =>
    if u = t then (l.next e).bind fun l => l.follow t ls else l.follow t ls
  | _, .operation m :: ls => (Life.start m).follow t ls

theorem Life.follow_append (t : T) (l : Life) (ls ls' : List (Label T)) :
    l.follow t (ls ++ ls') = (l.follow t ls).bind fun l => l.follow t ls' := by
  induction ls generalizing l with
  | nil => rfl
  | cons a ls ih =>
    cases a with
    | event u e =>
      rw [List.cons_append, follow, follow]
      split_ifs
      · cases l.next e with
        | none => rfl
        | some l => exact ih l
      · exact ih l
    | operation m => exact ih (Life.start m)

theorem Life.follow_events (t : T) (l : Life) (es : List Event) :
    l.follow t (es.map (Label.event t)) = l.events es := by
  induction es generalizing l with
  | nil => rfl
  | cons e es ih =>
    rw [List.map_cons, follow, if_pos rfl, events]
    cases l.next e with
    | none => rfl
    | some l => exact ih l

theorem Life.follow_others {t u : T} (h : u ≠ t) (l : Life) (es : List Event) :
    l.follow t (es.map (Label.event u)) = some l := by
  induction es with
  | nil => rfl
  | cons e es ih => rw [List.map_cons, follow, if_neg h, ih]

end Build2.Libbuild2.Algorithm
