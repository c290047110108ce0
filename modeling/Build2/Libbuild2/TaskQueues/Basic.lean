import Build2.Lib.Ring

/-! # The task queue of a thread

The owner of a queue pushes to its back and pops from it, the other threads pop from its front. A
step below is what is done while the mutex of the queue is held: `pop_back`, as well as `async` if
the queue is full, releases it in order to execute a task, and what they do after that depends on
what they have saved before. The tasks are numbered in the order in which they are passed to
`async`. -/

namespace Build2.Libbuild2.TaskQueues

open Build2.Lib

/-- `task_queue`, whose data is an array of the length `task_queue_depth`. -/
structure TaskQueue where
  head : ℕ := 0
  mark : ℕ := 0
  tail : ℕ := 0
  size : ℕ := 0
  data : ℕ → ℕ := fun _ => 0

/-! ### The source -/

/-- `push`, `none` if the queue is full. -/
def push (depth : ℕ) (tq : TaskQueue) (task : ℕ) : Option TaskQueue :=
  if tq.size ≠ depth then
    let t := if tq.size ≠ 0 then Ring.next depth tq.tail else tq.tail
    some { tq with
      tail := t
      size := tq.size + 1
      -- enable the mark if first push
      mark := if tq.mark = depth then t else tq.mark
      data := Function.update tq.data t task }
  else none

/-- `empty_front`. -/
def emptyFront (tq : TaskQueue) : Bool :=
  tq.size = 0

/-- `pop_front` up to the execution, with the task. -/
def popFront (depth : ℕ) (tq : TaskQueue) : TaskQueue × ℕ :=
  let a : Bool := tq.head = tq.mark
  let h := if tq.size ≠ 1 then Ring.next depth tq.head else tq.head
  let s := tq.size - 1
  ({ tq with head := h, size := s, mark := if s = 0 || a then h else tq.mark }, tq.data tq.head)

/-- `empty_back`. -/
def emptyBack (depth : ℕ) (tq : TaskQueue) : Bool :=
  tq.size = 0 || tq.mark = depth

/-- `pop_back` up to the execution, with the task. -/
def popBack (depth : ℕ) (tq : TaskQueue) : TaskQueue × ℕ :=
  let t := if tq.size ≠ 1 then Ring.prev depth tq.tail else tq.tail
  ({ tq with tail := t, size := tq.size - 1, mark := depth }, tq.data tq.tail)

/-- `pop_back` after the execution. -/
def afterPopBack (depth : ℕ) (tq : TaskQueue) (om : ℕ) (a : Bool) : TaskQueue :=
  { tq with mark := if tq.size = 0 then tq.tail else if a then depth else om }

/-- `async` up to the execution, if the queue is full. -/
def full (depth : ℕ) (tq : TaskQueue) : TaskQueue :=
  { tq with mark := depth }

/-- `async` after the execution, if the queue was full. -/
def afterFull (depth : ℕ) (tq : TaskQueue) (om : ℕ) : TaskQueue :=
  if om ≠ depth then { tq with mark := if tq.size = 0 then tq.tail else om } else tq

/-! ### Runs -/

/-- What the owner of the queue is in the middle of, with the number of the tasks that had been
passed to `async` when it began. -/
inductive Frame
  /-- A task that is executed by `pop_back`, which has saved the mark and whether to adjust it. -/
  | popBack (om : ℕ) (a : Bool) (began : ℕ)
  /-- A task that is executed by `async`, which has saved the mark. -/
  | full (om began : ℕ)
  /-- The loop of `wait`. -/
  | wait (began : ℕ)
  deriving DecidableEq, Repr

/-- The queue, the frames of its owner, the innermost one first, the number of the tasks passed to
`async` and those whose execution has begun. -/
structure State where
  tq : TaskQueue := {}
  frames : List Frame := []
  spawned : ℕ := 0
  executed : List ℕ := []

inductive Step
  /-- The owner calls `async`. -/
  | async
  /-- The owner calls `wait`. -/
  | wait
  /-- The loop of `wait` calls `pop_back`. -/
  | popBack
  /-- The task that the owner executes returns, or the loop of `wait` ends. -/
  | finish
  /-- Another thread calls `pop_front`. -/
  | popFront
  deriving DecidableEq, Repr

/-- The tasks in the queue. -/
def State.pending (depth : ℕ) (s : State) : List ℕ :=
  Ring.contents depth s.tq.head s.tq.size s.tq.data

/-- `async`, with the execution of the task if the queue is full. -/
def async (depth : ℕ) (s : State) : State :=
  match push depth s.tq s.spawned with
  | some tq => { s with tq := tq, spawned := s.spawned + 1 }
  | none =>
    { tq := full depth s.tq
      frames := .full s.tq.mark (s.spawned + 1) :: s.frames
      spawned := s.spawned + 1
      executed := s.spawned :: s.executed }

/-- What the owner can do depends on what it is in the middle of: `wait` only pops, and a task
returns when no task that it has pushed is in the queue. -/
def attempt (depth : ℕ) (s : State) : Step → Option State
  | .async =>
    match s.frames with
    | .wait _ :: _ => none
    | _ => some (async depth s)
  | .wait =>
    match s.frames with
    | .wait _ :: _ => none
    | _ => some { s with frames := .wait s.spawned :: s.frames }
  | .popBack =>
    match s.frames with
    | .wait _ :: _ =>
      if emptyBack depth s.tq then none
      else
        let (tq, task) := popBack depth s.tq
        some { s with
          tq := tq
          frames := .popBack s.tq.mark (s.tq.tail = s.tq.mark) s.spawned :: s.frames
          executed := task :: s.executed }
    | _ => none
  | .finish =>
    match s.frames with
    | [] => none
    | .wait _ :: frames => some { s with frames := frames }
    | .popBack om a began :: frames =>
      if ∃ task ∈ s.pending depth, began ≤ task then none
      else some { s with tq := afterPopBack depth s.tq om a, frames := frames }
    | .full om began :: frames =>
      if ∃ task ∈ s.pending depth, began ≤ task then none
      else some { s with tq := afterFull depth s.tq om, frames := frames }
  | .popFront =>
    if emptyFront s.tq then none
    else
      let (tq, task) := popFront depth s.tq
      some { s with tq := tq, executed := task :: s.executed }

/-- A step; nothing happens if it cannot be made. -/
def step (depth : ℕ) (s : State) (a : Step) : State :=
  (attempt depth s a).getD s

/-- An interleaving of the steps of the owner and of the other threads. -/
def run (depth : ℕ) (steps : List Step) : State :=
  steps.foldl (step depth) {}

/-! ### Levels -/

/-- When the task that the owner is executing began, without the waits in it. -/
def level : List Frame → ℕ
  | [] => 0
  | .popBack _ _ began :: _ => began
  | .full _ began :: _ => began
  | .wait _ :: frames => level frames

/-- When the task or the wait that the owner is in the middle of began. -/
def began : List Frame → ℕ
  | [] => 0
  | .popBack _ _ began :: _ => began
  | .full _ began :: _ => began
  | .wait began :: _ => began

/-- Every task is either waiting in the queue or has been executed, and only once. -/
def ExactlyOnce (depth : ℕ) (s : State) : Prop :=
  (s.executed ++ s.pending depth).Perm (List.range s.spawned)

/-- The indexes describe the tasks in the queue, which are in the order in which they were pushed.
-/
structure Described (depth : ℕ) (s : State) : Prop where
  size_le : s.tq.size ≤ depth
  head_lt : s.tq.head < depth
  tail_eq : s.tq.tail = Ring.slot depth s.tq.head (s.tq.size - 1)
  sorted : (s.pending depth).Pairwise (· < ·)

/-- The task that `pop_back` would execute has not been pushed before the time `since`. -/
def PopsSince (since depth : ℕ) (s : State) : Prop :=
  emptyBack depth s.tq = false → since ≤ (popBack depth s.tq).2

end Build2.Libbuild2.TaskQueues
