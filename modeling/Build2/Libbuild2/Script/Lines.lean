import Mathlib.Data.List.Forall2

/-! # Executing lines

`exec_lines` of `script/parser.cxx`, on the types of the pre-parsed lines. A range of lines is the
list of their types together with the position of the first one in the script. What the calls of
`exec_set`, `exec_cmd` and `exec_if` do is given for each position.

* `Block`: the well-nested lists of lines. `Block.trace` says which lines are executed.
* `exec_block`: these are the lines that the code executes.
* `execLines_spec`: the index that is passed with a line is its ordinal among the commands and
  conditions, unless a branch that is followed by an `elif` has been taken before. -/

namespace Build2.Libbuild2.Script

/-- `line_type`. -/
inductive LineType
  | var
  | cmd
  | cmdIf
  | cmdIfn
  | cmdElif
  | cmdElifn
  | cmdElse
  | cmdEnd
  deriving DecidableEq, Repr

/-- The lines that are counted by the command line index. -/
def counted : LineType → Bool
  | .cmd | .cmdIf | .cmdIfn | .cmdElif | .cmdElifn => true
  | _ => false

/-- The calls of `exec_set`, `exec_cmd` and `exec_if`, with the position of the line. -/
inductive Event
  | set (position : ℕ)
  | cmd (position index : ℕ) (single : Bool)
  | cond (position index : ℕ)
  deriving DecidableEq, Repr

/-- How the execution of lines ends: at the end of the lines, by an exit, or by a failure. -/
inductive Status
  | completed
  | exited
  | failed
  deriving DecidableEq, Repr

/-- What the calls do: the results of the conditions, and the status of `exit` where it is thrown
(any other exception is like a failure status). -/
structure Calls where
  outcome : ℕ → Bool
  thrown : ℕ → Option Bool

/-- The status after an exit. -/
def exitStatus (s : Bool) : Status := if s then .exited else .failed

/-- What the execution of lines has done: the calls, the index `li` and the status. -/
structure Run where
  events : List Event
  index : ℕ
  status : Status
  deriving DecidableEq, Repr

/-- How the execution ends when it does not return. Running out of fuel is no behaviour of the
source. -/
inductive Fault
  | assertion
  | exhausted
  deriving DecidableEq, Repr

/-- The function `next`, with the nesting: the lines that are passed over, and the lines from the
one that is found. -/
def next (stop : Bool) : ℕ → List LineType → Option (List LineType × List LineType)
  | _, [] => none
  | n, lt :: ls =>
    let n := if lt = .cmdIf ∨ lt = .cmdIfn then n + 1 else n
    if n = 0 ∧ (lt = .cmdEnd ∨ (¬stop ∧ (lt = .cmdElif ∨ lt = .cmdElifn ∨ lt = .cmdElse))) then
      some ([], lt :: ls)
    else
      (next stop (if lt = .cmdEnd then n - 1 else n) ls).map fun r => (lt :: r.1, r.2)

/-- A single command: no other one follows it in the range. -/
def single (li : ℕ) (ls : List LineType) : Bool := li = 1 && ls.all fun lt => lt = .var

/-- The call for a line, and what is done next unless an exception is thrown. -/
def perform (calls : Calls) (ev : Event) (i li : ℕ) (rest : Except Fault Run) :
    Except Fault Run :=
  match calls.thrown i with
  | some s => .ok ⟨[ev], li, exitStatus s⟩
  | none => rest.map fun r => { r with events := ev :: r.events }

/-- The lines from the next `if-else` line on, after a branch has been taken. -/
def afterBranch (exec : ℕ → ℕ → List LineType → Except Fault Run) (j li : ℕ) :
    List LineType → Except Fault Run
  | [] => .error .assertion
  | .cmdEnd :: ls => exec (j + 1) li ls
  | _ :: ls =>
    match next true 0 ls with
    | none => .error .assertion
    | some (skipped, rest) =>
      exec (j + 1 + skipped.length + 1) (li + skipped.countP counted) rest.tail

/-- The lines from the next `if-else` line on, after a branch has not been taken. -/
def fromLine (exec : ℕ → ℕ → List LineType → Except Fault Run) (j li : ℕ) :
    List LineType → Except Fault Run
  | .cmdEnd :: ls => exec (j + 1) li ls
  | ls => exec j li ls

/-- The lines behind an `if-else` line. -/
def branch (exec : ℕ → ℕ → List LineType → Except Fault Run) (take : Bool) (i li : ℕ)
    (ls : List LineType) : Except Fault Run :=
  match next false 0 ls with
  | none => .error .assertion
  | some (body, rest) =>
    if take then
      match exec (i + 1) li body with
      | .error e => .error e
      | .ok r =>
        if r.status = .completed then
          (afterBranch exec (i + 1 + body.length) r.index rest).map fun r' =>
            { r' with events := r.events ++ r'.events }
        else .ok r
    else fromLine exec (i + 1 + body.length) (li + body.countP counted) rest

/-- The loop of `exec_lines`, from the line at a position on. -/
def execFrom (calls : Calls) : ℕ → ℕ → ℕ → List LineType → Except Fault Run
  | 0, _, _, _ => .error .exhausted
  | _ + 1, _, li, [] => .ok ⟨[], li, .completed⟩
  | n + 1, i, li, lt :: ls =>
    match lt with
    | .var => perform calls (.set i) i li (execFrom calls n (i + 1) li ls)
    | .cmd =>
      perform calls (.cmd i li (single li ls)) i (li + 1) (execFrom calls n (i + 1) (li + 1) ls)
    | .cmdIf | .cmdElif =>
      perform calls (.cond i li) i (li + 1)
        (branch (execFrom calls n) (calls.outcome i) i (li + 1) ls)
    | .cmdIfn | .cmdElifn =>
      perform calls (.cond i li) i (li + 1)
        (branch (execFrom calls n) (!calls.outcome i) i (li + 1) ls)
    | .cmdElse => branch (execFrom calls n) true i li ls
    | .cmdEnd => .error .assertion

/-- `exec_lines`, with the index of the first command. -/
def execLines (calls : Calls) (li : ℕ) (ls : List LineType) : Except Fault Run :=
  execFrom calls (ls.length + 1) 0 li ls

/-! ### Well-nested lines -/

mutual

/-- A list of variable assignments, commands and chains of branches. A condition may be negated. -/
inductive Block
  | nil
  | var (rest : Block)
  | cmd (rest : Block)
  | chain (negated : Bool) (body : Block) (tail : Tail) (rest : Block)

/-- What follows a branch, up to the `end`. -/
inductive Tail
  | done
  | orElse (body : Block)
  | elif (negated : Bool) (body : Block) (tail : Tail)

end

def ifLine (negated : Bool) : LineType := if negated then .cmdIfn else .cmdIf

def elifLine (negated : Bool) : LineType := if negated then .cmdElifn else .cmdElif

mutual

def Block.lines : Block → List LineType
  | .nil => []
  | .var rest => .var :: rest.lines
  | .cmd rest => .cmd :: rest.lines
  | .chain negated body tail rest =>
    ifLine negated :: (body.lines ++ (tail.lines ++ .cmdEnd :: rest.lines))

/-- The lines up to the `end`, without it. -/
def Tail.lines : Tail → List LineType
  | .done => []
  | .orElse body => .cmdElse :: body.lines
  | .elif negated body tail => elifLine negated :: (body.lines ++ tail.lines)

end

/-! ### The lines of the selected branches -/

/-- The lines that are executed: their positions, each with the number of branches that have been
left before at an `elif`. -/
structure Trace where
  lines : List (ℕ × ℕ)
  left : ℕ
  status : Status

/-- A line, and what is executed after it unless an exception is thrown. -/
def performed (calls : Calls) (i d : ℕ) (rest : Trace) : Trace :=
  match calls.thrown i with
  | some s => ⟨[(i, d)], d, exitStatus s⟩
  | none => ⟨(i, d) :: rest.lines, rest.left, rest.status⟩

/-- What is executed next if the lines have been completed. -/
def Trace.andThen (t : Trace) (rest : ℕ → Trace) : Trace :=
  if t.status = .completed then
    ⟨t.lines ++ (rest t.left).lines, (rest t.left).left, (rest t.left).status⟩
  else t

/-- The branch is followed by an `elif`. -/
def Tail.atElif : Tail → ℕ
  | .elif _ _ _ => 1
  | _ => 0

/-- The end of a branch that has been taken. -/
def Trace.leave (t : Trace) (tail : Tail) : Trace :=
  t.andThen fun d => ⟨[], d + tail.atElif, .completed⟩

mutual

def Block.trace (calls : Calls) : Block → ℕ → ℕ → Trace
  | .nil, _, d => ⟨[], d, .completed⟩
  | .var rest, i, d => performed calls i d (rest.trace calls (i + 1) d)
  | .cmd rest, i, d => performed calls i d (rest.trace calls (i + 1) d)
  | .chain negated body tail rest, i, d =>
    (performed calls i d
      (if calls.outcome i != negated then (body.trace calls (i + 1) d).leave tail
      else tail.trace calls (i + 1 + body.lines.length) d)).andThen
    fun d => rest.trace calls (i + 1 + body.lines.length + tail.lines.length + 1) d

def Tail.trace (calls : Calls) : Tail → ℕ → ℕ → Trace
  | .done, _, d => ⟨[], d, .completed⟩
  | .orElse body, i, d => body.trace calls (i + 1) d
  | .elif negated body tail, i, d =>
    performed calls i d
      (if calls.outcome i != negated then (body.trace calls (i + 1) d).leave tail
      else tail.trace calls (i + 1 + body.lines.length) d)

end

/-- The static ordinal of a line: the number of the commands and conditions in front of it. -/
def ordinal (ls : List LineType) (i : ℕ) : ℕ := (ls.take i).countP counted

def Event.position : Event → ℕ
  | set i => i
  | cmd i _ _ => i
  | cond i _ => i

/-- The index that is passed with a command or a condition. -/
def Event.index : Event → Option ℕ
  | set _ => none
  | cmd _ k _ => some k
  | cond _ k => some k

/-- The call is the one for the type of a line. -/
def Event.IsFor : Event → LineType → Prop
  | set _, lt => lt = .var
  | cmd _ _ _, lt => lt = .cmd
  | cond _ _, lt => lt = .cmdIf ∨ lt = .cmdIfn ∨ lt = .cmdElif ∨ lt = .cmdElifn

variable {stop negated : Bool} {n i j k d li : ℕ} {lt : LineType} {ls u v : List LineType}
  {calls : Calls} {b body rest : Block} {tail : Tail}

/-! ### Finding the next line -/

/-- The lines passed over, with some more in front of them. -/
def passing (u : List LineType) (r : List LineType × List LineType) :
    List LineType × List LineType := (u ++ r.1, r.2)

theorem passing_singleton (lt : LineType) : passing [lt] = fun r => (lt :: r.1, r.2) := rfl

theorem map_passing_nil (o : Option (List LineType × List LineType)) : o.map (passing []) = o := by
  cases o <;> rfl

theorem map_passing (o : Option (List LineType × List LineType)) :
    (o.map (passing v)).map (passing u) = o.map (passing (u ++ v)) := by
  cases o with
  | none => rfl
  | some r => simp [passing]

theorem next_plain (stop : Bool) (n : ℕ) (ls : List LineType) (h : lt = .var ∨ lt = .cmd) :
    next stop n (lt :: ls) = (next stop n ls).map (passing [lt]) := by
  rcases h with rfl | rfl
  · simp [next, passing_singleton]
  · simp [next, passing_singleton]

/-- A line of a branch of an inner chain, or of any one if the `end` is looked for. -/
theorem next_inner (stop negated : Bool) (ls : List LineType)
    (h : lt = .cmdElse ∨ lt = elifLine negated)
    (hn : n ≠ 0 ∨ stop = true) :
    next stop n (lt :: ls) = (next stop n ls).map (passing [lt]) := by
  have hkinds : lt = .cmdElse ∨ lt = .cmdElif ∨ lt = .cmdElifn := by
    refine h.imp_right fun h => ?_
    cases negated
    · exact .inl h
    · exact .inr h
  rcases hkinds with rfl | rfl | rfl <;> rcases hn with hn | rfl <;>
    simp [next, passing_singleton, *]

theorem next_if (stop : Bool) (n : ℕ) (negated : Bool) (ls : List LineType) :
    next stop n (ifLine negated :: ls) =
      (next stop (n + 1) ls).map (passing [ifLine negated]) := by
  cases negated <;> simp [next, passing_singleton, ifLine]

theorem next_end (stop : Bool) (n : ℕ) (ls : List LineType) :
    next stop (n + 1) (.cmdEnd :: ls) = (next stop n ls).map (passing [.cmdEnd]) := by
  simp [next, passing_singleton]

mutual

/-- Well-nested lines are passed over. -/
theorem next_block (stop : Bool) (n : ℕ) : ∀ (b : Block) (ls : List LineType),
    next stop n (b.lines ++ ls) = (next stop n ls).map (passing b.lines)
  | .nil, ls => (map_passing_nil _).symm
  | .var rest, ls => by
    rw [Block.lines, List.cons_append, next_plain stop n _ (.inl rfl), next_block stop n rest,
      map_passing]
    rfl
  | .cmd rest, ls => by
    rw [Block.lines, List.cons_append, next_plain stop n _ (.inr rfl), next_block stop n rest,
      map_passing]
    rfl
  | .chain negated body tail rest, ls => by
    rw [Block.lines, List.cons_append, List.append_assoc, List.append_assoc, List.cons_append,
      next_if, next_block stop (n + 1) body, next_tail stop n tail, next_block stop n rest,
      map_passing, map_passing, map_passing]
    simp

theorem next_tail (stop : Bool) (n : ℕ) : ∀ (t : Tail) (ls : List LineType),
    next stop (n + 1) (t.lines ++ .cmdEnd :: ls) =
      (next stop n ls).map (passing (t.lines ++ [.cmdEnd]))
  | .done, ls => next_end stop n ls
  | .orElse body, ls => by
    have hinner := next_inner stop false (n := n + 1) (body.lines ++ .cmdEnd :: ls)
      (.inl rfl) (.inl (Nat.succ_ne_zero n))
    rw [Tail.lines, List.cons_append, hinner, next_block stop (n + 1) body, next_end, map_passing,
      map_passing]
    simp
  | .elif negated body tail, ls => by
    have hinner := next_inner stop negated (n := n + 1)
      (body.lines ++ (tail.lines ++ .cmdEnd :: ls)) (.inr rfl) (.inl (Nat.succ_ne_zero n))
    rw [Tail.lines, List.cons_append, List.append_assoc, hinner, next_block stop (n + 1) body,
      next_tail stop n tail, map_passing, map_passing]
    simp

end

/-- The next line of the chain is found at the end of a branch. -/
theorem next_branch (body : Block) (tail : Tail) (ls : List LineType) :
    next false 0 (body.lines ++ (tail.lines ++ .cmdEnd :: ls)) =
      some (body.lines, tail.lines ++ .cmdEnd :: ls) := by
  have hhere : next false 0 (tail.lines ++ .cmdEnd :: ls) =
      some ([], tail.lines ++ .cmdEnd :: ls) := by
    rcases tail with _ | body | ⟨negated, body, tail⟩
    · rfl
    · rfl
    · cases negated <;> rfl
  rw [next_block, hhere]
  simp [passing]

/-- The `end` of the chain is found from any line of it on. -/
theorem next_chain : ∀ (tail : Tail) (ls : List LineType),
    next true 0 (tail.lines ++ .cmdEnd :: ls) = some (tail.lines, .cmdEnd :: ls)
  | .done, ls => rfl
  | .orElse body, ls => by
    rw [Tail.lines, List.cons_append, next_inner true false _ (.inl rfl) (.inr rfl),
      next_block]
    simp [next, passing]
  | .elif negated body tail, ls => by
    rw [Tail.lines, List.cons_append, List.append_assoc,
      next_inner true negated _ (.inr rfl) (.inr rfl), next_block, next_chain tail ls]
    simp [passing]

/-! ### Positions -/

/-- The lines from a position on start with the given ones. -/
def At (ls : List LineType) (i : ℕ) (u : List LineType) : Prop := ∃ v, ls.drop i = u ++ v

theorem At.left (h : At ls i (u ++ v)) : At ls i u := by
  obtain ⟨w, hw⟩ := h
  exact ⟨v ++ w, by rw [hw, List.append_assoc]⟩

theorem At.right (h : At ls i (u ++ v)) : At ls (i + u.length) v := by
  obtain ⟨w, hw⟩ := h
  refine ⟨w, ?_⟩
  rw [← List.drop_drop, hw, List.append_assoc, List.drop_left]

theorem At.succ (h : At ls i (lt :: u)) : At ls (i + 1) u :=
  At.right (u := [lt]) h

theorem At.head (h : At ls i (lt :: u)) : ls[i]? = some lt := by
  obtain ⟨w, hw⟩ := h
  rw [← List.head?_drop, hw]
  rfl

theorem ordinal_append (h : At ls i u) :
    ordinal ls (i + u.length) = ordinal ls i + u.countP counted := by
  obtain ⟨w, hw⟩ := h
  rw [ordinal, List.take_add, hw, List.take_left, List.countP_append]
  rfl

theorem ordinal_succ (h : At ls i (lt :: u)) :
    ordinal ls (i + 1) = ordinal ls i + if counted lt then 1 else 0 := by
  have hone := ordinal_append (u := [lt]) (At.left (v := u) h)
  rw [List.countP_singleton] at hone
  exact hone

/-! ### The run -/

/-- The call is that for the line, and its index is the ordinal of the line but for the branches
that have been left before at an `elif`. -/
def Event.Shows (ls : List LineType) (li : ℕ) (ev : Event) (q : ℕ × ℕ) : Prop :=
  ev.position = q.1 ∧ (∃ lt, ls[q.1]? = some lt ∧ ev.IsFor lt) ∧
    ∀ k, ev.index = some k → k + q.2 = li + ordinal ls q.1

/-- The run executes the lines, which end at a position. -/
structure Run.Fits (ls : List LineType) (li : ℕ) (r : Run) (t : Trace) (i : ℕ) : Prop where
  events : List.Forall₂ (Event.Shows ls li) r.events t.lines
  status : r.status = t.status
  index : t.status = .completed → r.index + t.left = li + ordinal ls i

theorem exitStatus_ne (s : Bool) : exitStatus s ≠ .completed := by cases s <;> decide

theorem performed_andThen (calls : Calls) (i d : ℕ) (t : Trace) (f : ℕ → Trace) :
    (performed calls i d t).andThen f = performed calls i d (t.andThen f) := by
  rw [performed, performed]
  rcases calls.thrown i with _ | s
  · by_cases ht : t.status = .completed
    · simp [Trace.andThen, ht]
    · simp [Trace.andThen, ht]
  · cases s <;> rfl

theorem perform_fits {ev : Event} {x : Except Fault Run} {t : Trace}
    (hev : ev.Shows ls li (i, d)) (hx : ∃ r, x = .ok r ∧ r.Fits ls li t j) :
    ∃ r, perform calls ev i k x = .ok r ∧ r.Fits ls li (performed calls i d t) j := by
  rw [perform, performed]
  rcases calls.thrown i with _ | s
  · obtain ⟨r, rfl, hr⟩ := hx
    exact ⟨_, rfl, .cons hev hr.events, hr.status, hr.index⟩
  · exact ⟨_, rfl, .cons hev .nil, rfl, fun h => absurd h (exitStatus_ne s)⟩

/-- A block is executed as its trace says. -/
def Spec (calls : Calls) (ls : List LineType) (li : ℕ) (b : Block) : Prop :=
  ∀ n i k d, b.lines.length < n → At ls i b.lines → k + d = li + ordinal ls i →
    ∃ r, execFrom calls n i k b.lines = .ok r ∧
      r.Fits ls li (b.trace calls i d) (i + b.lines.length)

/-- So are the branches that are left and the lines after the chain. -/
def TailSpec (calls : Calls) (ls : List LineType) (li : ℕ) (tail : Tail) : Prop :=
  ∀ rest, Spec calls ls li rest → ∀ n i k d,
    (tail.lines ++ .cmdEnd :: rest.lines).length < n →
    At ls i (tail.lines ++ .cmdEnd :: rest.lines) → k + d = li + ordinal ls i →
    ∃ r, fromLine (execFrom calls n) i k (tail.lines ++ .cmdEnd :: rest.lines) = .ok r ∧
      r.Fits ls li ((tail.trace calls i d).andThen fun d =>
        rest.trace calls (i + tail.lines.length + 1) d)
        (i + (tail.lines.length + 1 + rest.lines.length))

theorem fits_append {r r' : Run} {t : Trace} {f : ℕ → Trace}
    (hr : List.Forall₂ (Event.Shows ls li) r.events t.lines)
    (hdone : t.status = .completed) (hr' : r'.Fits ls li (f t.left) j) :
    Run.Fits ls li { r' with events := r.events ++ r'.events } (t.andThen f) j := by
  rw [Trace.andThen, if_pos hdone]
  exact ⟨List.rel_append hr hr'.events, hr'.status, hr'.index⟩

theorem leave_completed {t : Trace} (h : t.status = .completed) (tail : Tail) :
    t.leave tail = ⟨t.lines, t.left + tail.atElif, .completed⟩ := by
  rw [Trace.leave, Trace.andThen, if_pos h, List.append_nil]

theorem leave_stopped {t : Trace} (h : t.status ≠ .completed) (tail : Tail) :
    t.leave tail = t := by
  rw [Trace.leave, Trace.andThen, if_neg h]

/-- The lines that are skipped after a branch: all of them are counted but an `elif` that follows
the branch. -/
theorem afterBranch_eq (exec : ℕ → ℕ → List LineType → Except Fault Run) (j k : ℕ) (tail : Tail)
    (ls : List LineType) : ∃ k', k' + tail.atElif = k + tail.lines.countP counted ∧
      afterBranch exec j k (tail.lines ++ .cmdEnd :: ls) =
        exec (j + tail.lines.length + 1) k' ls := by
  rcases tail with _ | body | ⟨negated, body, tail⟩
  · exact ⟨k, rfl, rfl⟩
  · refine ⟨k + body.lines.countP counted, rfl, ?_⟩
    have hskip : next true 0 (body.lines ++ .cmdEnd :: ls) = some (body.lines, .cmdEnd :: ls) := by
      rw [next_block]
      simp [next, passing]
    have hpos : j + (body.lines.length + 1) + 1 = j + 1 + body.lines.length + 1 := by omega
    rw [Tail.lines, List.cons_append, afterBranch, hskip, List.length_cons, hpos]
    · rfl
    · simp
  · refine ⟨k + (body.lines ++ tail.lines).countP counted, ?_, ?_⟩
    · have helif : counted (elifLine negated) = true := by cases negated <;> rfl
      rw [Tail.lines, List.countP_cons_of_pos helif]
      rfl
    · have hskip : next true 0 (body.lines ++ (tail.lines ++ .cmdEnd :: ls)) =
          some (body.lines ++ tail.lines, .cmdEnd :: ls) := by
        rw [next_block, next_chain]
        rfl
      have hpos : j + ((body.lines ++ tail.lines).length + 1) + 1 =
          j + 1 + (body.lines ++ tail.lines).length + 1 := by omega
      rw [Tail.lines, List.cons_append, List.append_assoc, afterBranch, hskip, List.length_cons,
        hpos]
      · rfl
      · cases negated <;> simp [elifLine]

/-- **A branch and what follows it.** -/
theorem branch_fits (hbody : Spec calls ls li body) (htail : TailSpec calls ls li tail)
    (hrest : Spec calls ls li rest) (take : Bool)
    (hn : (body.lines ++ (tail.lines ++ .cmdEnd :: rest.lines)).length < n)
    (hat : At ls (i + 1) (body.lines ++ (tail.lines ++ .cmdEnd :: rest.lines)))
    (hk : k + d = li + ordinal ls (i + 1)) :
    ∃ r, branch (execFrom calls n) take i k
        (body.lines ++ (tail.lines ++ .cmdEnd :: rest.lines)) = .ok r ∧
      r.Fits ls li
        ((if take then (body.trace calls (i + 1) d).leave tail
          else tail.trace calls (i + 1 + body.lines.length) d).andThen fun d =>
            rest.trace calls (i + 1 + body.lines.length + tail.lines.length + 1) d)
        (i + 1 + body.lines.length + (tail.lines.length + 1 + rest.lines.length)) := by
  rw [List.length_append, List.length_append, List.length_cons] at hn
  have hafter := ordinal_append hat.left
  have hatTail := hat.right
  rw [branch, next_branch]
  dsimp only
  cases take with
  | false =>
    rw [if_neg Bool.false_ne_true, if_neg Bool.false_ne_true]
    refine htail rest hrest n _ _ d ?_ hatTail (by omega)
    rw [List.length_append, List.length_cons]
    omega
  | true =>
    obtain ⟨r, hr, hfits⟩ := hbody n (i + 1) k d (by omega) hat.left hk
    rw [if_pos rfl, if_pos rfl, hr]
    dsimp only
    by_cases hdone : (body.trace calls (i + 1) d).status = .completed
    · obtain ⟨k', hk', heq⟩ := afterBranch_eq (execFrom calls n) (i + 1 + body.lines.length)
        r.index tail rest.lines
      have hindex := hfits.index hdone
      have hordinal := ordinal_append hatTail.left
      have hend := ordinal_succ hatTail.right
      rw [show counted .cmdEnd = false from rfl] at hend
      obtain ⟨r', hr', hfits'⟩ := hrest n (i + 1 + body.lines.length + tail.lines.length + 1) k'
        ((body.trace calls (i + 1) d).left + tail.atElif) (by omega) hatTail.right.succ
        (by simp only [Bool.false_eq_true, if_false] at hend; omega)
      rw [if_pos (hfits.status.trans hdone), heq, hr', leave_completed hdone]
      have hlength : i + 1 + body.lines.length + (tail.lines.length + 1 + rest.lines.length) =
          i + 1 + body.lines.length + tail.lines.length + 1 + rest.lines.length := by omega
      rw [hlength]
      exact ⟨_, rfl, fits_append (t := ⟨(body.trace calls (i + 1) d).lines, _, .completed⟩)
        hfits.events rfl hfits'⟩
    · rw [if_neg fun hc => hdone (hfits.status.symm.trans hc), leave_stopped hdone, Trace.andThen,
        if_neg hdone]
      exact ⟨r, rfl, hfits.events, hfits.status, fun hc => absurd hc hdone⟩

/-- **A condition with its branches.** -/
theorem cond_fits (hbody : Spec calls ls li body) (htail : TailSpec calls ls li tail)
    (hrest : Spec calls ls li rest) (hlt : lt = ifLine negated ∨ lt = elifLine negated)
    (hn : (lt :: (body.lines ++ (tail.lines ++ .cmdEnd :: rest.lines))).length < n)
    (hat : At ls i (lt :: (body.lines ++ (tail.lines ++ .cmdEnd :: rest.lines))))
    (hk : k + d = li + ordinal ls i) :
    ∃ r,
      execFrom calls n i k (lt :: (body.lines ++ (tail.lines ++ .cmdEnd :: rest.lines))) = .ok r ∧
      r.Fits ls li
        ((performed calls i d (if calls.outcome i != negated
          then (body.trace calls (i + 1) d).leave tail
          else tail.trace calls (i + 1 + body.lines.length) d)).andThen fun d =>
            rest.trace calls (i + 1 + body.lines.length + tail.lines.length + 1) d)
        (i + 1 + body.lines.length + (tail.lines.length + 1 + rest.lines.length)) := by
  obtain ⟨m, rfl⟩ : ∃ m, n = m + 1 := ⟨n - 1, by omega⟩
  have hcounted : counted lt = true := by rcases hlt with rfl | rfl <;> cases negated <;> rfl
  have hnext := ordinal_succ hat
  rw [if_pos hcounted] at hnext
  have hev : Event.Shows ls li (.cond i k) (i, d) := by
    refine ⟨rfl, ⟨lt, hat.head, ?_⟩, ?_⟩
    · rcases hlt with rfl | rfl <;> cases negated <;> simp [Event.IsFor, ifLine, elifLine]
    · rintro _ ⟨⟩
      exact hk
  have hbranch := branch_fits hbody htail hrest (calls.outcome i != negated)
    (Nat.lt_of_succ_lt_succ hn) hat.succ (k := k + 1) (d := d) (by omega)
  have hline : execFrom calls (m + 1) i k
      (lt :: (body.lines ++ (tail.lines ++ .cmdEnd :: rest.lines))) =
      perform calls (.cond i k) i (k + 1) (branch (execFrom calls m) (calls.outcome i != negated) i
        (k + 1) (body.lines ++ (tail.lines ++ .cmdEnd :: rest.lines))) := by
    rcases hlt with rfl | rfl <;> cases negated <;> simp [execFrom, ifLine, elifLine]
  rw [hline, performed_andThen]
  exact perform_fits hev hbranch

theorem leave_done (t : Trace) : t.leave .done = t := by
  by_cases h : t.status = .completed
  · rw [leave_completed h, ← h]
    rfl
  · exact leave_stopped h .done

theorem done_fits (calls : Calls) (ls : List LineType) (li : ℕ) : TailSpec calls ls li .done := by
  intro rest hrest n i k d hn hat hk
  have hend := ordinal_succ hat
  obtain ⟨r, hr, hfits⟩ := hrest n (i + 1) k d (Nat.lt_of_succ_lt hn) hat.succ
    (hk.trans (by rw [hend]; rfl))
  refine ⟨r, hr, ?_⟩
  have hlength : i + ((Tail.done).lines.length + 1 + rest.lines.length) =
      i + 1 + rest.lines.length := by
    simp only [Tail.lines, List.length_nil]
    omega
  rw [hlength]
  exact ⟨hfits.events, hfits.status, hfits.index⟩

mutual

/-- **Well-nested lines** are executed as their trace says. -/
theorem exec_block (calls : Calls) (ls : List LineType) (li : ℕ) : ∀ b, Spec calls ls li b
  | .nil => by
    intro n i k d hn hat hk
    obtain ⟨m, rfl⟩ : ∃ m, n = m + 1 := ⟨n - 1, by omega⟩
    exact ⟨_, rfl, .nil, rfl, fun _ => hk⟩
  | .var rest => by
    intro n i k d hn hat hk
    obtain ⟨m, rfl⟩ : ∃ m, n = m + 1 := ⟨n - 1, by omega⟩
    have hnext := ordinal_succ hat
    have hrest := exec_block calls ls li rest m (i + 1) k d (Nat.lt_of_succ_lt_succ hn) hat.succ
      (hk.trans (by rw [hnext]; rfl))
    rw [Nat.add_right_comm, Nat.add_assoc] at hrest
    have hev : Event.Shows ls li (.set i) (i, d) :=
      ⟨rfl, ⟨.var, hat.head, rfl⟩, fun k hc => by simp [Event.index] at hc⟩
    exact perform_fits hev hrest
  | .cmd rest => by
    intro n i k d hn hat hk
    obtain ⟨m, rfl⟩ : ∃ m, n = m + 1 := ⟨n - 1, by omega⟩
    have hnext := ordinal_succ hat
    have hrest := exec_block calls ls li rest m (i + 1) (k + 1) d (Nat.lt_of_succ_lt_succ hn)
      hat.succ (by rw [hnext, show counted .cmd = true from rfl, if_pos rfl]; omega)
    rw [Nat.add_right_comm, Nat.add_assoc i] at hrest
    have hev : Event.Shows ls li (.cmd i k (single k rest.lines)) (i, d) := by
      refine ⟨rfl, ⟨.cmd, hat.head, rfl⟩, ?_⟩
      rintro _ ⟨⟩
      exact hk
    exact perform_fits hev hrest
  | .chain negated body tail rest => by
    intro n i k d hn hat hk
    have hcond := cond_fits (exec_block calls ls li body) (exec_tail calls ls li tail)
      (exec_block calls ls li rest) (.inl rfl) hn hat hk
    have hlength : i + (Block.chain negated body tail rest).lines.length =
        i + 1 + body.lines.length + (tail.lines.length + 1 + rest.lines.length) := by
      simp only [Block.lines, List.length_cons, List.length_append]
      omega
    rw [hlength]
    exact hcond

theorem exec_tail (calls : Calls) (ls : List LineType) (li : ℕ) :
    ∀ tail, TailSpec calls ls li tail
  | .done => done_fits calls ls li
  | .orElse body => by
    intro rest hrest n i k d hn hat hk
    obtain ⟨m, rfl⟩ : ∃ m, n = m + 1 := ⟨n - 1, by omega⟩
    have hnext := ordinal_succ hat
    obtain ⟨r, hr, hfits⟩ := branch_fits (exec_block calls ls li body) (done_fits calls ls li)
      hrest true (Nat.lt_of_succ_lt_succ hn) hat.succ (k := k) (d := d)
      (hk.trans (by rw [hnext]; rfl))
    refine ⟨r, hr, ?_⟩
    rw [if_pos rfl, leave_done] at hfits
    have hlength : i + ((Tail.orElse body).lines.length + 1 + rest.lines.length) =
        i + 1 + body.lines.length + ((Tail.done).lines.length + 1 + rest.lines.length) := by
      simp only [Tail.lines, List.length_nil, List.length_cons]
      omega
    have hlength' : i + (Tail.orElse body).lines.length + 1 =
        i + 1 + body.lines.length + (Tail.done).lines.length + 1 := by
      simp only [Tail.lines, List.length_nil, List.length_cons]
      omega
    rw [hlength, hlength']
    exact hfits
  | .elif negated body tail => by
    intro rest hrest n i k d hn hat hk
    rw [Tail.lines, List.cons_append, List.append_assoc] at hn hat
    obtain ⟨r, hr, hfits⟩ := cond_fits (exec_block calls ls li body) (exec_tail calls ls li tail)
      hrest (.inr rfl) hn hat hk
    have hlength : i + ((Tail.elif negated body tail).lines.length + 1 + rest.lines.length) =
        i + 1 + body.lines.length + (tail.lines.length + 1 + rest.lines.length) := by
      simp only [Tail.lines, List.length_append, List.length_cons]
      omega
    have hlength' : i + (Tail.elif negated body tail).lines.length + 1 =
        i + 1 + body.lines.length + tail.lines.length + 1 := by
      simp only [Tail.lines, List.length_append, List.length_cons]
      omega
    rw [hlength, hlength', Tail.lines, List.cons_append, List.append_assoc]
    refine ⟨r, ?_, hfits⟩
    rw [← hr]
    cases negated <;> rfl

end

/-! ### The indexes -/

/-- The run is that of the selected branches. -/
structure Selected (calls : Calls) (b : Block) (r : Run) : Prop where
  positions : r.events.map Event.position = (b.trace calls 0 0).lines.map Prod.fst
  types : ∀ ev ∈ r.events, ∃ lt, b.lines[ev.position]? = some lt ∧ ev.IsFor lt
  status : r.status = (b.trace calls 0 0).status

/-- The index passed with each command or condition is its static one. -/
def Numbered (b : Block) (li : ℕ) (r : Run) : Prop :=
  ∀ ev ∈ r.events, ∀ k, ev.index = some k → k = li + ordinal b.lines ev.position

/-- A command or a condition is executed after a branch that is followed by an `elif` has been
taken. -/
def Miscounts (calls : Calls) (b : Block) : Prop :=
  ∃ q ∈ (b.trace calls 0 0).lines, q.2 ≠ 0 ∧ b.lines[q.1]? ≠ some .var

theorem forall₂_positions {evs : List Event} {qs : List (ℕ × ℕ)}
    (h : List.Forall₂ (Event.Shows ls li) evs qs) :
    evs.map Event.position = qs.map Prod.fst := by
  induction h with
  | nil => rfl
  | cons hq _ ih => rw [List.map_cons, List.map_cons, hq.1, ih]

theorem exists_position {evs : List Event} {qs : List (ℕ × ℕ)}
    (h : List.Forall₂ (Event.Shows ls li) evs qs) :
    (∀ ev ∈ evs, ∃ q ∈ qs, ev.Shows ls li q) ∧ ∀ q ∈ qs, ∃ ev ∈ evs, ev.Shows ls li q := by
  induction h with
  | nil => simp
  | cons hq _ ih =>
    obtain ⟨hev, hpos⟩ := ih
    refine ⟨fun ev hmem => ?_, fun q hmem => ?_⟩
    · rcases List.mem_cons.mp hmem with rfl | hmem
      · exact ⟨_, List.mem_cons_self, hq⟩
      · obtain ⟨q, hqs, hshows⟩ := hev ev hmem
        exact ⟨q, List.mem_cons_of_mem _ hqs, hshows⟩
    · rcases List.mem_cons.mp hmem with rfl | hmem
      · exact ⟨_, List.mem_cons_self, hq⟩
      · obtain ⟨ev, hevs, hshows⟩ := hpos q hmem
        exact ⟨ev, List.mem_cons_of_mem _ hevs, hshows⟩

/-- A call has an index unless it is for an assignment. -/
theorem index_isSome_iff {ev : Event} (h : ev.IsFor lt) : ev.index ≠ none ↔ lt ≠ .var := by
  cases ev with
  | set i => exact iff_of_false (fun hc => hc rfl) (fun hc => hc h)
  | cmd i k single =>
    obtain rfl : lt = .cmd := h
    exact iff_of_true (Option.some_ne_none k) (by decide)
  | cond i k =>
    refine iff_of_true (Option.some_ne_none k) ?_
    rcases h with rfl | rfl | rfl | rfl <;> decide

/-- **Executing lines.** The lines of the selected branches are executed, in order. The index that
is passed is the static ordinal of the line just if no command or condition is executed after a
branch has been taken that is directly followed by an `elif`. -/
theorem execLines_spec (calls : Calls) (b : Block) (li : ℕ) :
    ∃ r, execLines calls li b.lines = .ok r ∧ Selected calls b r ∧
      (Numbered b li r ↔ ¬Miscounts calls b) := by
  have hat : At b.lines 0 b.lines := ⟨[], (List.append_nil _).symm⟩
  obtain ⟨r, hr, hfits⟩ := exec_block calls b.lines li b (b.lines.length + 1) 0 li 0
    (Nat.lt_succ_self _) hat rfl
  obtain ⟨hev, hpos⟩ := exists_position hfits.events
  refine ⟨r, hr, ⟨forall₂_positions hfits.events, fun ev hmem => ?_, hfits.status⟩, ?_⟩
  · obtain ⟨q, -, hq, hline, -⟩ := hev ev hmem
    rw [hq]
    exact hline
  · constructor
    · rintro hnum ⟨q, hmem, hleft, hvar⟩
      obtain ⟨ev, hevs, hq, ⟨lt, hlt, hfor⟩, hindex⟩ := hpos q hmem
      have hne : lt ≠ .var := fun hc => hvar (hlt.trans (congrArg some hc))
      obtain ⟨k, hk⟩ := Option.ne_none_iff_exists'.mp ((index_isSome_iff hfor).mpr hne)
      have hstatic := hnum ev hevs k hk
      have hpassed := hindex k hk
      rw [hq] at hstatic
      omega
    · intro hnot ev hmem k hk
      obtain ⟨q, hqs, hq, ⟨lt, hlt, hfor⟩, hindex⟩ := hev ev hmem
      have hpassed := hindex k hk
      have hne : lt ≠ .var := (index_isSome_iff hfor).mp (by rw [hk]; exact Option.some_ne_none k)
      have hleft : q.2 = 0 := by
        by_contra hc
        refine hnot ⟨q, hqs, hc, fun hvar => hne ?_⟩
        exact Option.some.inj (hlt.symm.trans hvar)
      rw [hq]
      omega

/-- All the conditions are true, and nothing is thrown. -/
def plainCalls : Calls := ⟨fun _ => true, fun _ => none⟩

/-- A command after a chain with an `elif`. -/
def afterElif : Block := .chain false (.cmd .nil) (.elif false (.cmd .nil) .done) (.cmd .nil)

theorem not_numbered_afterElif :
    ∃ r, execLines plainCalls 1 afterElif.lines = .ok r ∧ ¬Numbered afterElif 1 r := by
  refine ⟨⟨[.cond 0 1, .cmd 1 2 false, .cmd 5 4 false], 5, .completed⟩, rfl, fun h => ?_⟩
  -- the last command is the fifth one
  have hlast := h (.cmd 5 4 false) (by simp) 4 rfl
  exact absurd hlast (by decide)

end Build2.Libbuild2.Script
