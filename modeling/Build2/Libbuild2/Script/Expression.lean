import Mathlib.Algebra.Ring.Nat
import Mathlib.Data.List.DropRight
import Mathlib.Tactic.Common

/-! # Running command expressions

`run_expr` of `script/run.cxx`. It runs the pipes that evaluation from left to right requires, with
the numbers their commands have in the whole expression, and a failure is printed just where the
failure of the expression depends on it (`runExpr_spec`). -/

namespace Build2.Libbuild2.Script

variable {C : Type}

/-- `expr_operator`. -/
inductive ExprOperator
  | logOr
  | logAnd
  deriving DecidableEq, Repr

/-- `expr_term`. -/
structure ExprTerm (C : Type) where
  op : ExprOperator
  pipe : List C

/-- `command_expr`. The first term is "OR-ed to an implied false". -/
structure CommandExpr (C : Type) where
  terms : List (ExprTerm C)
  first : (terms.head?).map ExprTerm.op = some .logOr

/-- The run of a pipe: which term it is of, its commands with their numbers, and whether a failure
is printed. -/
structure PipeRun (C : Type) where
  term : ℕ
  commands : List (ℕ × C)
  print : Bool

/-- The commands that `run_pipe` goes through, with their numbers. -/
def runPipe : ℕ → List C → List (ℕ × C)
  | _, [] => []
  | ci, c :: cs => (ci, c) :: runPipe (ci + 1) cs

/-- The number of the first command: 0 for a single one. -/
def firstNumber (terms : List (ExprTerm C)) : ℕ :=
  match terms with
  | [⟨_, [_]⟩] => 0
  | _ => 1

/-- `trailing_ands`: the number of terms in front of the last ones that are AND-ed. -/
def trailingAnds (terms : List (ExprTerm C)) : ℕ :=
  (terms.rdropWhile fun x => x.op = .logAnd).length

/-- The loop of `run_expr` from the term `i` on. `outcome` says whether the pipe of a term succeeds,
and `ands` is `trailing_ands`, if it is defined. -/
def runTerms (outcome : ℕ → Bool) (ands : Option ℕ) :
    ℕ → ℕ → Bool → Bool → List (ExprTerm C) → Bool × List (PipeRun C)
  | _, _, r, _, [] => (r, [])
  | i, ci, r, print, x :: xs =>
    let print := print || ands = some (i + 1)
    if (x.op = .logOr ∧ r = true) ∨ (x.op ≠ .logOr ∧ r = false) then
      runTerms outcome ands (i + 1) (ci + x.pipe.length) r print xs
    else
      let (v, runs) := runTerms outcome ands (i + 1) (ci + x.pipe.length) (outcome i) print xs
      (v, ⟨i, runPipe ci x.pipe, print⟩ :: runs)

/-- `run_expr`: its result and the pipes that it runs. -/
def runExpr (e : CommandExpr C) (outcome : ℕ → Bool) (diag : Bool) : Bool × List (PipeRun C) :=
  runTerms outcome (if diag then some (trailingAnds e.terms) else none) 0 (firstNumber e.terms)
    false false e.terms

/-! ### What evaluation requires -/

def ExprOperator.apply : ExprOperator → Bool → Bool → Bool
  | .logOr, a, b => a || b
  | .logAnd, a, b => a && b

/-- The value of the terms in front of the term `i`: the fold from the left. -/
def valueAt (terms : List (ExprTerm C)) (outcome : ℕ → Bool) (i : ℕ) : Bool :=
  (terms.take i).zipIdx.foldl (fun v x => x.1.op.apply v (outcome x.2)) false

/-- The outcome of the term decides the value so far. -/
def required (terms : List (ExprTerm C)) (outcome : ℕ → Bool) (i : ℕ) : Bool :=
  match terms[i]? with
  | none => false
  | some x =>
    x.op.apply (valueAt terms outcome i) true != x.op.apply (valueAt terms outcome i) false

/-- The number of the first command of a term in the whole expression. -/
def numberAt (terms : List (ExprTerm C)) (i : ℕ) : ℕ :=
  firstNumber terms + ((terms.take i).map fun x => x.pipe.length).sum

/-- The run of the pipe of a term: the `j`-th command has the number of the first one and `j`. -/
def runAt (terms : List (ExprTerm C)) (diag : Bool) (i : ℕ) : PipeRun C where
  term := i
  commands := (((terms[i]?).map ExprTerm.pipe).getD []).mapIdx fun j c => (numberAt terms i + j, c)
  print := diag && decide (trailingAnds terms ≤ i + 1)

/-- The runs that are required, in order. -/
def requiredRuns (terms : List (ExprTerm C)) (outcome : ℕ → Bool) (diag : Bool) :
    List (PipeRun C) :=
  ((List.range terms.length).filter (required terms outcome)).map (runAt terms diag)

variable {terms pre xs : List (ExprTerm C)} {x : ExprTerm C} {outcome : ℕ → Bool} {diag : Bool}
  {i n : ℕ}

theorem runPipe_eq (ci : ℕ) (cs : List C) : runPipe ci cs = cs.mapIdx fun j c => (ci + j, c) := by
  induction cs generalizing ci with
  | nil => rfl
  | cons c cs ih =>
    rw [runPipe, ih, List.mapIdx_cons]
    congr 2
    funext j c
    rw [Nat.add_right_comm, Nat.add_assoc]

theorem take_succ_of (h : terms[i]? = some x) : terms.take (i + 1) = terms.take i ++ [x] := by
  rw [List.take_add_one, h]
  rfl

theorem valueAt_succ (h : terms[i]? = some x) :
    valueAt terms outcome (i + 1) = x.op.apply (valueAt terms outcome i) (outcome i) := by
  have hlt : i < terms.length := (List.getElem?_eq_some_iff.mp h).1
  have hlen : (terms.take i).length = i := List.length_take_of_le hlt.le
  rw [valueAt, take_succ_of h, List.zipIdx_append, List.foldl_append, hlen, Nat.zero_add]
  rfl

theorem numberAt_succ (h : terms[i]? = some x) :
    numberAt terms (i + 1) = numberAt terms i + x.pipe.length := by
  rw [numberAt, numberAt, take_succ_of h, List.map_append, List.sum_append]
  simp [Nat.add_assoc]

theorem required_eq (h : terms[i]? = some x) : required terms outcome i = true ↔
    ¬((x.op = .logOr ∧ valueAt terms outcome i = true) ∨
      (x.op ≠ .logOr ∧ valueAt terms outcome i = false)) := by
  rw [required, h]
  dsimp only
  cases x.op <;> cases valueAt terms outcome i <;> decide

theorem valueAt_of_required (h : terms[i]? = some x) (hreq : required terms outcome i = true) :
    valueAt terms outcome (i + 1) = outcome i := by
  have hnot := (required_eq h).mp hreq
  rw [valueAt_succ h]
  cases hop : x.op <;> cases hv : valueAt terms outcome i <;> simp_all [ExprOperator.apply]

/-- What is left of the required runs, from a term on. -/
theorem requiredRuns_from (h : terms[i]? = some x) :
    ((List.range' i (terms.length - i)).filter (required terms outcome)).map (runAt terms diag) =
      (if required terms outcome i then [runAt terms diag i] else []) ++
        ((List.range' (i + 1) (terms.length - (i + 1))).filter
          (required terms outcome)).map (runAt terms diag) := by
  have hlt : i < terms.length := (List.getElem?_eq_some_iff.mp h).1
  have hlen : terms.length - i = terms.length - (i + 1) + 1 := by omega
  rw [hlen, List.range'_succ, List.filter_cons]
  split_ifs <;> rfl

/-- **The loop**, from the term `i` on. -/
theorem runTerms_eq (outcome : ℕ → Bool) (h : terms.drop i = xs) (hi : i ≤ terms.length)
    {print : Bool} (hprint : print = (diag && decide (trailingAnds terms ≤ i))) :
    runTerms outcome (if diag then some (trailingAnds terms) else none) i (numberAt terms i)
        (valueAt terms outcome i) print xs =
      (valueAt terms outcome terms.length,
        ((List.range' i (terms.length - i)).filter (required terms outcome)).map
          (runAt terms diag)) := by
  induction xs generalizing i print with
  | nil =>
    have hlen : i = terms.length := Nat.le_antisymm hi (List.drop_eq_nil_iff.mp h)
    subst hlen
    rw [runTerms, Nat.sub_self]
    rfl
  | cons x xs ih =>
    have hx : terms[i]? = some x := by
      rw [← List.head?_drop, h]
      rfl
    have hlt : i < terms.length := (List.getElem?_eq_some_iff.mp hx).1
    have hdrop : terms.drop (i + 1) = xs := by
      rw [← List.tail_drop, h]
      rfl
    -- printing is switched on at the term in front of the last ones
    have hnext : (print || decide ((if diag then some (trailingAnds terms) else none) =
        some (i + 1))) = (diag && decide (trailingAnds terms ≤ i + 1)) := by
      rw [hprint]
      cases diag with
      | false => rfl
      | true =>
        have hle : trailingAnds terms ≤ i + 1 ↔
            trailingAnds terms ≤ i ∨ trailingAnds terms = i + 1 := by omega
        simp [hle]
    have hrest := ih hdrop hlt hnext
    rw [numberAt_succ hx, valueAt_succ hx] at hrest
    rw [runTerms, requiredRuns_from hx]
    dsimp only
    by_cases hreq : required terms outcome i = true
    · rw [if_neg ((required_eq hx).mp hreq), if_pos hreq]
      have hvalue := valueAt_of_required hx hreq
      rw [valueAt_succ hx] at hvalue
      rw [hvalue] at hrest
      rw [hrest]
      have hrun : runAt terms diag i = ⟨i, runPipe (numberAt terms i) x.pipe,
          diag && decide (trailingAnds terms ≤ i + 1)⟩ := by
        rw [runAt, hx, runPipe_eq]
        rfl
      rw [hnext, hrun]
      rfl
    · have hskip := not_not.mp (fun hc => hreq ((required_eq hx).mpr hc))
      have hvalue : x.op.apply (valueAt terms outcome i) (outcome i) = valueAt terms outcome i := by
        rcases hskip with ⟨hop, hv⟩ | ⟨hop, hv⟩
        · rw [hop, hv]
          rfl
        · cases hop' : x.op with
          | logOr => exact absurd hop' hop
          | logAnd => rw [hv]; rfl
      rw [if_pos hskip, if_neg hreq, List.nil_append, ← hrest, hvalue]

theorem mem_requiredRuns {run : PipeRun C} : run ∈ requiredRuns terms outcome diag ↔
    ∃ i < terms.length, required terms outcome i = true ∧ runAt terms diag i = run := by
  simp only [requiredRuns, List.mem_map, List.mem_filter, List.mem_range, and_assoc]

/-! ### The trailing terms -/

theorem op_of_trailing (h : terms[i]? = some x) (hi : trailingAnds terms ≤ i) :
    x.op = .logAnd := by
  have happ := (List.rdropWhile_append_rtakeWhile
    (p := fun x : ExprTerm C => x.op = .logAnd) (l := terms)).symm
  rw [happ, List.getElem?_append_right hi] at h
  have hand := List.mem_rtakeWhile_imp (List.mem_of_getElem? h)
  exact of_decide_eq_true hand

theorem exists_last_or (e : CommandExpr C) :
    ∃ t x, trailingAnds e.terms = t + 1 ∧ e.terms[t]? = some x ∧ x.op = .logOr := by
  obtain ⟨x₀, hx₀, hop₀⟩ : ∃ x₀, e.terms.head? = some x₀ ∧ x₀.op = .logOr := by
    have hfirst := e.first
    rwa [Option.map_eq_some_iff] at hfirst
  have hne : e.terms.rdropWhile (fun x => x.op = .logAnd) ≠ [] := by
    intro hc
    have hall := List.rdropWhile_eq_nil_iff.mp hc x₀ (List.mem_of_mem_head? hx₀)
    rw [hop₀] at hall
    exact absurd hall (by decide)
  have hlast := List.rdropWhile_last_not _ e.terms hne
  have hpos := List.length_pos_of_ne_nil hne
  refine ⟨trailingAnds e.terms - 1, List.getLast _ hne, ?_, ?_, ?_⟩
  · exact (Nat.succ_pred_eq_of_pos hpos).symm
  · obtain ⟨rest, hrest⟩ := List.rdropWhile_prefix (fun x => x.op = .logAnd) e.terms
    have happ := List.getLast?_eq_some_getLast hne
    rw [List.getLast?_eq_getElem?,
      ← List.getElem?_append_left (Nat.sub_lt hpos Nat.one_pos), hrest] at happ
    exact happ
  · cases hop : (List.getLast _ hne).op with
    | logOr => rfl
    | logAnd => exact absurd (decide_eq_true hop) hlast

theorem valueAt_congr {outcome' : ℕ → Bool} (h : ∀ j < i, outcome j = outcome' j) :
    valueAt terms outcome i = valueAt terms outcome' i := by
  induction i with
  | zero => rfl
  | succ i ih =>
    have hprev := ih fun j hj => h j (Nat.lt_succ_of_lt hj)
    rcases hx : terms[i]? with _ | x
    · have htake : terms.take (i + 1) = terms.take i := by
        rw [List.take_add_one, hx]
        exact List.append_nil _
      rw [valueAt, valueAt, htake]
      exact hprev
    · rw [valueAt_succ hx, valueAt_succ hx, hprev, h i (Nat.lt_succ_self i)]

/-- Over the trailing terms a value that is false stays so. -/
theorem value_stays_false (hi : trailingAnds terms ≤ i) (hv : valueAt terms outcome i = false)
    (hn : i ≤ n) (hlen : n ≤ terms.length) : valueAt terms outcome n = false := by
  induction n, hn using Nat.le_induction with
  | base => exact hv
  | succ n hle ih =>
    have hx := List.getElem?_eq_getElem (show n < terms.length from hlen)
    rw [valueAt_succ hx, ih (Nat.le_of_succ_le hlen), op_of_trailing hx (hi.trans hle)]
    rfl

/-- Over the trailing terms a value that is true stays so as long as the outcomes are. -/
theorem value_stays_true (hi : trailingAnds terms ≤ i) (hv : valueAt terms outcome i = true)
    (hout : ∀ j, i ≤ j → outcome j = true) (hn : i ≤ n) (hlen : n ≤ terms.length) :
    valueAt terms outcome n = true := by
  induction n, hn using Nat.le_induction with
  | base => exact hv
  | succ n hle ih =>
    have hx := List.getElem?_eq_getElem (show n < terms.length from hlen)
    rw [valueAt_succ hx, ih (Nat.le_of_succ_le hlen), op_of_trailing hx (hi.trans hle), hout n hle]
    rfl

theorem exists_fall (f : ℕ → Bool) (hi : f i = true) (hn : f n = false) (hle : i ≤ n) :
    ∃ k, i ≤ k ∧ k < n ∧ f k = true ∧ f (k + 1) = false := by
  induction n, hle using Nat.le_induction with
  | base => rw [hi] at hn; exact absurd hn (by decide)
  | succ n hle ih =>
    rcases hf : f n with _ | _
    · obtain ⟨k, hik, hkn, hk⟩ := ih hf
      exact ⟨k, hik, Nat.lt_succ_of_lt hkn, hk⟩
    · exact ⟨n, hle, Nat.lt_succ_self n, hf, hn⟩

/-- If the expression fails, then there is a failing pipe that is run from the last OR-ed term
on. -/
theorem exists_failing (e : CommandExpr C)
    (hv : valueAt e.terms outcome e.terms.length = false) :
    ∃ i < e.terms.length, required e.terms outcome i = true ∧ trailingAnds e.terms ≤ i + 1 ∧
      outcome i = false := by
  obtain ⟨t, x, ht, hx, hop⟩ := exists_last_or e
  have hlt : t < e.terms.length := (List.getElem?_eq_some_iff.mp hx).1
  rcases hnext : valueAt e.terms outcome (t + 1) with _ | _
  · -- the OR-ed term itself
    have hfalse := hnext
    rw [valueAt_succ hx, hop] at hfalse
    obtain ⟨hprev, hout⟩ := Bool.or_eq_false_iff.mp hfalse
    refine ⟨t, hlt, (required_eq hx).mpr ?_, ht.le, hout⟩
    rintro (⟨-, hc⟩ | ⟨hc, -⟩)
    · rw [hprev] at hc
      exact absurd hc (by decide)
    · exact hc hop
  · -- an AND-ed term behind it
    obtain ⟨k, htk, hkn, hk, hk'⟩ :=
      exists_fall (valueAt e.terms outcome) hnext hv (Nat.succ_le_of_lt hlt)
    have hxk := List.getElem?_eq_getElem hkn
    have hopk := op_of_trailing hxk (ht.le.trans htk)
    have hreq : required e.terms outcome k = true := by
      refine (required_eq hxk).mpr ?_
      rintro (⟨hc, -⟩ | ⟨-, hc⟩)
      · rw [hopk] at hc
        exact absurd hc (by decide)
      · rw [hk] at hc
        exact absurd hc (by decide)
    refine ⟨k, hkn, hreq, by omega, ?_⟩
    rw [← valueAt_of_required hxk hreq]
    exact hk'

/-- A failing pipe that is run from the last OR-ed term on makes the expression fail. -/
theorem value_of_failing (hlt : i < terms.length) (hreq : required terms outcome i = true)
    (hi : trailingAnds terms ≤ i + 1) (hout : outcome i = false) :
    valueAt terms outcome terms.length = false := by
  have hx := List.getElem?_eq_getElem hlt
  have hnext := valueAt_of_required hx hreq
  exact value_stays_false hi (hnext.trans hout) hlt le_rfl

/-- And had it and those behind it succeeded, then so had the expression. -/
theorem value_of_succeeding (hlt : i < terms.length) (hreq : required terms outcome i = true)
    (hi : trailingAnds terms ≤ i + 1) :
    valueAt terms (fun j => outcome j || decide (i ≤ j)) terms.length = true := by
  have hx := List.getElem?_eq_getElem hlt
  have hsame : valueAt terms (fun j => outcome j || decide (i ≤ j)) i =
      valueAt terms outcome i := by
    refine valueAt_congr fun j hj => ?_
    simp [Nat.not_le.mpr hj]
  have hreq' : required terms (fun j => outcome j || decide (i ≤ j)) i = true := by
    rw [required_eq hx, hsame]
    exact (required_eq hx).mp hreq
  refine value_stays_true hi ((valueAt_of_required hx hreq').trans ?_) (fun j hj => ?_) hlt le_rfl
  · simp
  · simp [Nat.le_of_succ_le hj]

/-! ### The whole expression -/

theorem runExpr_eq (e : CommandExpr C) (outcome : ℕ → Bool) (diag : Bool) :
    runExpr e outcome diag =
      (valueAt e.terms outcome e.terms.length, requiredRuns e.terms outcome diag) := by
  obtain ⟨t, x, ht, -, -⟩ := exists_last_or e
  have hprint : false = (diag && decide (trailingAnds e.terms ≤ 0)) := by
    rw [ht]
    simp
  have hrun := runTerms_eq outcome (List.drop_zero (l := e.terms)) (Nat.zero_le _)
    hprint
  rw [requiredRuns, List.range_eq_range']
  exact hrun

/-- **Running an expression.** The value is the fold from the left, and just those pipes are run
whose outcome decides it so far, their commands with the numbers that they have in the whole
expression. A failure is printed only if diagnostics is requested, only if the expression fails with
this pipe and would not with it and those behind it succeeding, and always for one of the pipes
then. -/
theorem runExpr_spec (e : CommandExpr C) (outcome : ℕ → Bool) (diag : Bool) :
    (runExpr e outcome diag).1 = valueAt e.terms outcome e.terms.length ∧
      (runExpr e outcome diag).2 = requiredRuns e.terms outcome diag ∧
      (∀ run ∈ (runExpr e outcome diag).2, run.print = true → outcome run.term = false →
        diag = true ∧ (runExpr e outcome diag).1 = false ∧
          valueAt e.terms (fun j => outcome j || decide (run.term ≤ j)) e.terms.length = true) ∧
      (diag = true → (runExpr e outcome diag).1 = false →
        ∃ run ∈ (runExpr e outcome diag).2, run.print = true ∧ outcome run.term = false) := by
  rw [runExpr_eq]
  refine ⟨rfl, rfl, ?_, ?_⟩
  · intro run hrun hprint hout
    obtain ⟨i, hlt, hreq, rfl⟩ := mem_requiredRuns.mp hrun
    obtain ⟨hdiag, hle⟩ := (Bool.and_eq_true _ _).mp hprint
    have hle' : trailingAnds e.terms ≤ i + 1 := of_decide_eq_true hle
    exact ⟨hdiag, value_of_failing hlt hreq hle' hout, value_of_succeeding hlt hreq hle'⟩
  · intro hdiag hv
    obtain ⟨i, hlt, hreq, hle, hout⟩ := exists_failing e hv
    refine ⟨runAt e.terms diag i, mem_requiredRuns.mpr ⟨i, hlt, hreq, rfl⟩, ?_, hout⟩
    rw [hdiag]
    exact decide_eq_true hle

end Build2.Libbuild2.Script
