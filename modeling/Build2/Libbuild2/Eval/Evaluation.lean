import Build2.Libbuild2.Eval.Grammar

/-! # What evaluation contexts evaluate to

Each of the functions parses the tokens of its production (`Parses`). During the pre-parse nothing
is evaluated. Otherwise just the operands are evaluated that the grammar says, and the value is as
documented unless an operand of `&&` or `||` that decides is returned as it is (`parseEval_iff`). -/

namespace Build2.Libbuild2.Eval

open Build2.Lib.ByteString
open Build2.Libbuild2.Values (Name)

variable {T D O E : Type} {types : Types T D} {value : O → Value T D}
  {ts rest : List (Token O)} {log : List O} {first : Bool} {n k : ℕ}

/-! ### Precedence -/

/-- The production that a token ends. -/
def Token.prec : Token O → ℕ
  | .comparison _ => 1
  | .logAnd => 2
  | .logOr => 3
  | .question => 4
  | _ => 5

/-- The next token ends a production, and it is no colon behind the very first value. -/
def Follows (k : ℕ) (first : Bool) (rest : List (Token O)) : Prop :=
  ∀ t ∈ rest.head?, k < t.prec ∧ (first = true → t ≠ .colon)

theorem follows_cons {t : Token O} (h : k < t.prec) (hc : first = true → t ≠ .colon) :
    Follows k first (t :: ts) := by
  intro u hu
  obtain rfl := Option.some.inj (Option.mem_def.mp hu)
  exact ⟨h, hc⟩

theorem Follows.mono {k' : ℕ} (h : Follows k first rest) (hk : k' ≤ k) : Follows k' first rest :=
  fun t ht => ⟨hk.trans_lt (h t ht).1, (h t ht).2⟩

theorem Follows.weaken (h : Follows k first rest) : Follows k false rest :=
  fun t ht => ⟨(h t ht).1, fun hc => absurd hc Bool.false_ne_true⟩

theorem Follows.opTokens {op : Token O} {tokens : E → List (Token O)} {es : List E}
    (h : Follows (k + 1) first rest) (hop : op.prec = k + 1) (hc : op ≠ .colon) :
    Follows k first (opTokens op tokens es ++ rest) := by
  rcases es with _ | ⟨e, es⟩
  · exact h.mono (Nat.le_succ k)
  · exact follows_cons (by omega) fun _ => hc

/-! ### Parsing a production -/

/-- What is returned for an expression: its value, and the state with its operands in the log. -/
def located (rest : List (Token O)) (log : List O) (m : Meaning T D O) : Result T O (Value T D) :=
  m.map fun r => (r.1, ⟨rest, false, log ++ r.2⟩)

/-- Nothing is evaluated during the pre-parse. -/
def Skips (p : State O → Result T O (Value T D)) (ts rest : List (Token O)) : Prop :=
  ∀ log, ∃ v, p ⟨ts ++ rest, true, log⟩ = .ok (v, ⟨rest, true, log⟩)

/-- The tokens are parsed as an expression with this meaning. -/
structure Parses (p : State O → Result T O (Value T D)) (ts : List (Token O))
    (m : Meaning T D O) (rest : List (Token O)) : Prop where
  skips : Skips p ts rest
  eval : ∀ log, p ⟨ts ++ rest, false, log⟩ = located rest log m

/-- The tokens are parsed as an expression with this meaning, but that the value has to be the right
one just if the condition does not hold. Its truth is right in any case. -/
structure Evaluates (p : State O → Result T O (Value T D)) (ts : List (Token O))
    (m : Meaning T D O) (u : Prop) (rest : List (Token O)) : Prop where
  skips : Skips p ts rest
  failure : ∀ log f, m = .error f → p ⟨ts ++ rest, false, log⟩ = .error f
  success : ∀ log r, m = .ok r → ∃ v,
    p ⟨ts ++ rest, false, log⟩ = .ok (v, ⟨rest, false, log ++ r.2⟩) ∧
      convertBool v = convertBool r.1 ∧ (v = r.1 ↔ ¬u)

/-- What is returned in the one case. -/
def Returns (u : Prop) (x : Result T O (Value T D)) (m : Meaning T D O) (rest : List (Token O))
    (log : List O) : Prop :=
  (∃ f, m = .error f ∧ x = .error f) ∨
    ∃ r v, m = .ok r ∧ x = .ok (v, ⟨rest, false, log ++ r.2⟩) ∧
      convertBool v = convertBool r.1 ∧ (v = r.1 ↔ ¬u)

theorem Returns.of_located {u : Prop} {x : Result T O (Value T D)} {m : Meaning T D O}
    (h : x = located rest log m) (hu : ¬u) : Returns u x m rest log := by
  rcases m with f | r
  · exact .inl ⟨f, rfl, h⟩
  · exact .inr ⟨r, r.1, rfl, h, rfl, iff_of_true rfl hu⟩

/-- The operands that have been evaluated before are added. -/
theorem Returns.prepend {u : Prop} {x : Result T O (Value T D)} {m : Meaning T D O} {l : List O}
    (h : Returns u x m rest (log ++ l)) :
    Returns u x (m.map fun y => (y.1, l ++ y.2)) rest log := by
  rcases h with ⟨f, rfl, hx⟩ | ⟨r, v, rfl, hx, hlike⟩
  · exact .inl ⟨f, rfl, hx⟩
  · refine .inr ⟨(r.1, l ++ r.2), v, rfl, ?_, hlike⟩
    rw [hx, List.append_assoc]

theorem Evaluates.of_returns {p : State O → Result T O (Value T D)} {m : Meaning T D O} {u : Prop}
    (hskips : Skips p ts rest) (h : ∀ log, Returns u (p ⟨ts ++ rest, false, log⟩) m rest log) :
    Evaluates p ts m u rest := by
  refine ⟨hskips, fun log f hm => ?_, fun log r hm => ?_⟩
  · rcases h log with ⟨f', hm', hx⟩ | ⟨r, v, hm', -⟩
    · obtain rfl := Except.error.inj (hm.symm.trans hm')
      exact hx
    · exact absurd (hm.symm.trans hm') (by simp)
  · rcases h log with ⟨f, hm', -⟩ | ⟨r', v, hm', hx⟩
    · exact absurd (hm.symm.trans hm') (by simp)
    · obtain rfl := Except.ok.inj (hm.symm.trans hm')
      exact ⟨v, hx⟩

theorem Parses.evaluates {p : State O → Result T O (Value T D)} {m : Meaning T D O}
    (h : Parses p ts m rest) : Evaluates p ts m False rest :=
  .of_returns h.skips fun log => .of_located (h.eval log) not_false

theorem parseEvalQual_plain (v : Value T D) (st : State O)
    (h : first = true → st.tokens.head? ≠ some .colon) :
    parseEvalQual value first v st = .ok (v, st) := by
  obtain ⟨tokens, preParse, log⟩ := st
  cases first with
  | false => rfl
  | true =>
    have hne := h rfl
    rcases tokens with _ | ⟨t, ts⟩
    · rfl
    · cases t with
      | colon => exact absurd rfl hne
      | _ => rfl

theorem Follows.head?_ne (h : Follows k first rest) :
    first = true → rest.head? ≠ some .colon :=
  fun hf hc => (h .colon hc).2 hf rfl

theorem parses_value (value : O → Value T D) (v : EvalValue O) (first : Bool)
    (h : first = true → rest.head? ≠ some .colon) :
    Parses (fun st => parseEvalValue value st.preParse st.log first st.tokens) v.tokens
      (v.eval value) rest := by
  induction v generalizing first with
  | operand o =>
    exact ⟨fun log => ⟨.names [], parseEvalQual_plain _ _ h⟩, fun log => parseEvalQual_plain _ _ h⟩
  | logNot v ih =>
    obtain ⟨hskips, heval⟩ := ih false fun hc => absurd hc Bool.false_ne_true
    refine ⟨fun log => ?_, fun log => ?_⟩
    · obtain ⟨w, hw⟩ := hskips log
      refine ⟨w, ?_⟩
      dsimp only at hw ⊢
      rw [EvalValue.tokens, List.cons_append, parseEvalValue, hw]
      exact parseEvalQual_plain _ _ h
    · have hv := heval log
      dsimp only at hv ⊢
      rw [EvalValue.tokens, List.cons_append, parseEvalValue, hv, EvalValue.eval, negated, located,
        located]
      rcases v.eval value with f | r
      · rfl
      · rcases hb : convertBool r.1 with f | b
        · simp [Except.map, Except.bind, hb]
        · simp only [Except.map, Except.bind, hb, Bool.false_eq_true, if_false]
          exact parseEvalQual_plain _ _ h

/-! ### Comparisons -/

/-- The comparisons behind the first value. -/
def compTokens (ps : List (Comparison × EvalValue O)) : List (Token O) :=
  ps.flatMap fun p => .comparison p.1 :: p.2.tokens

theorem compTokens_follows (ps : List (Comparison × EvalValue O)) (h : Follows 1 first rest) :
    Follows 0 first (compTokens ps ++ rest) := by
  rcases ps with _ | ⟨p, ps⟩
  · exact h.mono (Nat.zero_le 1)
  · exact follows_cons Nat.one_pos fun _ => by simp

theorem compTokens_cons (p : Comparison × EvalValue O) (ps : List (Comparison × EvalValue O))
    (rest : List (Token O)) :
    compTokens (p :: ps) ++ rest =
      .comparison p.1 :: (p.2.tokens ++ (compTokens ps ++ rest)) := by
  simp [compTokens]

theorem length_compTokens (ps : List (Comparison × EvalValue O)) :
    ps.length ≤ (compTokens ps).length := by
  induction ps with
  | nil => exact Nat.zero_le _
  | cons p ps ih =>
    have hcons := congrArg List.length (compTokens_cons p ps [])
    rw [List.append_nil, List.append_nil, List.length_cons, List.length_append] at hcons
    rw [List.length_cons]
    omega

theorem parses_right (value : O → Value T D) (v : EvalValue O) (rest : List (Token O)) :
    Parses (fun st => parseEvalValue value st.preParse st.log false st.tokens) v.tokens
      (v.eval value) rest :=
  parses_value value v false fun hc => absurd hc Bool.false_ne_true

theorem foldl_error {step : Meaning T D O → E → Meaning T D O} {f : Fault T}
    (h : ∀ e, step (.error f) e = .error f) (es : List E) :
    es.foldl step (.error f) = .error f := by
  induction es with
  | nil => rfl
  | cons e es ih => rw [List.foldl_cons, h, ih]

section Comparisons

variable [DecidableEq T]

theorem compLoop_end {lhs : Value T D} {st : State O} (h : Follows 1 first st.tokens) (n : ℕ) :
    compLoop types value (n + 1) lhs st = .ok (lhs, st) := by
  obtain ⟨tokens, preParse, log⟩ := st
  rw [compLoop]
  rcases tokens with _ | ⟨t, ts⟩
  · rfl
  · cases t with
    | comparison op => exact absurd (h _ rfl).1 (Nat.lt_irrefl 1)
    | _ => rfl

theorem compLoop_skips (ps : List (Comparison × EvalValue O)) (h : Follows 1 first rest)
    (hn : ps.length < n) (lhs : Value T D) (log : List O) :
    compLoop types value n lhs ⟨compTokens ps ++ rest, true, log⟩ =
      .ok (lhs, ⟨rest, true, log⟩) := by
  induction ps generalizing n with
  | nil =>
    obtain ⟨m, rfl⟩ : ∃ m, n = m + 1 := ⟨n - 1, by omega⟩
    exact compLoop_end h m
  | cons p ps ih =>
    obtain ⟨m, rfl⟩ : ∃ m, n = m + 1 := ⟨n - 1, by omega⟩
    obtain ⟨w, hw⟩ := (parses_right value p.2 (compTokens ps ++ rest)).skips log
    dsimp only at hw
    rw [compTokens_cons, compLoop]
    dsimp only
    rw [hw]
    exact ih (Nat.lt_of_succ_lt_succ hn)

theorem compLoop_eval (ps : List (Comparison × EvalValue O)) (h : Follows 1 first rest)
    (hn : ps.length < n) (lhs : Value T D) (log l : List O) :
    compLoop types value n lhs ⟨compTokens ps ++ rest, false, log ++ l⟩ =
      located rest log
        (ps.foldl (fun l p => compared types p.1 l (p.2.eval value)) (.ok (lhs, l))) := by
  induction ps generalizing n lhs l with
  | nil =>
    obtain ⟨m, rfl⟩ : ∃ m, n = m + 1 := ⟨n - 1, by omega⟩
    exact compLoop_end h m
  | cons p ps ih =>
    obtain ⟨m, rfl⟩ : ∃ m, n = m + 1 := ⟨n - 1, by omega⟩
    have hv := (parses_right value p.2 (compTokens ps ++ rest)).eval (log ++ l)
    dsimp only at hv
    rw [compTokens_cons, compLoop]
    dsimp only
    rw [hv, List.foldl_cons, compared, located]
    rcases p.2.eval value with f | r
    · exact congrArg (located rest log) (foldl_error (fun _ => rfl) ps).symm
    · simp only [Except.map, Except.bind, Bool.false_eq_true, if_false]
      rcases compareValues types p.1 lhs r.1 with f | b
      · exact congrArg (located rest log) (foldl_error (fun _ => rfl) ps).symm
      · rw [List.append_assoc]
        exact ih (Nat.lt_of_succ_lt_succ hn) _ _

theorem parses_comp (c : EvalComp O) (h : Follows 1 first rest) :
    Parses (parseEvalComp types value first) c.tokens (c.eval types value) rest := by
  have hlen : c.rest.length < (compTokens c.rest ++ rest).length + 1 := by
    have hle := length_compTokens c.rest
    rw [List.length_append]
    omega
  have hv := parses_value value c.first first (compTokens_follows c.rest h).head?_ne
  have htokens : c.tokens ++ rest = c.first.tokens ++ (compTokens c.rest ++ rest) := by
    rw [EvalComp.tokens, List.append_assoc]
    rfl
  refine ⟨fun log => ?_, fun log => ?_⟩
  · obtain ⟨w, hw⟩ := hv.skips log
    dsimp only at hw
    refine ⟨w, ?_⟩
    rw [htokens, parseEvalComp, hw]
    exact compLoop_skips c.rest h hlen w log
  · have heval := hv.eval log
    dsimp only at heval
    rw [htokens, parseEvalComp, heval, EvalComp.eval]
    rcases c.first.eval value with f | r
    · exact congrArg (located rest log) (foldl_error (fun _ => rfl) c.rest).symm
    · exact compLoop_eval c.rest h hlen r.1 log r.2

end Comparisons

/-! ### Logical operators -/

theorem convertBool_bool (b : Bool) : convertBool (.bool b : Value T D) = .ok b := rfl

theorem logical_decided {short : Bool} {v : Value T D} {l : List O}
    (h : convertBool v = .ok short) (m : Meaning T D O) :
    logical short (.ok (v, l)) m = .ok (.bool short, l) := by
  simp [logical, Except.bind, h]

theorem foldl_decided (short : Bool) (l : List O) (ms : List (Meaning T D O)) :
    ms.foldl (logical short) (.ok (.bool short, l)) = .ok (.bool short, l) := by
  induction ms with
  | nil => rfl
  | cons m ms ih => rw [List.foldl_cons, logical_decided (convertBool_bool short), ih]

/-- The left operand does not decide: the result is the truth of the right one. -/
theorem logical_right {short b : Bool} {v : Value T D} {l : List O} (h : convertBool v = .ok b)
    (hb : b ≠ short) (m : Meaning T D O) : logical short (.ok (v, l)) m =
      m.bind fun y => (convertBool y.1).map fun b => (.bool b, l ++ y.2) := by
  simp [logical, Except.bind, h, hb]

section Chain

variable {isOp : Token O → Bool} {short pp : Bool} {op : Token O} {tokens : E → List (Token O)}
  {operand : Bool → State O → Result T O (Value T D)} {meaning : E → Meaning T D O} {u : E → Prop}

theorem opTokens_cons (op : Token O) (tokens : E → List (Token O)) (e : E) (es : List E)
    (rest : List (Token O)) :
    opTokens op tokens (e :: es) ++ rest = op :: (tokens e ++ (opTokens op tokens es ++ rest)) := by
  simp [opTokens]

theorem length_opTokens (op : Token O) (tokens : E → List (Token O)) (es : List E) :
    es.length ≤ (opTokens op tokens es).length := by
  induction es with
  | nil => exact Nat.zero_le _
  | cons e es ih =>
    have hcons := congrArg List.length (opTokens_cons op tokens e es [])
    rw [List.append_nil, List.append_nil, List.length_cons, List.length_append] at hcons
    rw [List.length_cons]
    omega

theorem logicalLoop_end (operand : State O → Result T O (Value T D)) (lhs : Value T D)
    (preParse : Bool) (log : List O) (h : ∀ t ∈ rest.head?, isOp t = false) (n : ℕ) :
    logicalLoop isOp short operand pp (n + 1) lhs ⟨rest, preParse, log⟩ =
      .ok (lhs, ⟨rest, pp, log⟩) := by
  rw [logicalLoop]
  rcases rest with _ | ⟨t, ts⟩
  · rfl
  · dsimp only
    rw [h t rfl]
    rfl

theorem logicalLoop_skips (hop : isOp op = true)
    (hoperand : ∀ e rest, Follows k false rest → Skips (operand false) (tokens e) rest)
    (hprec : op.prec = k + 1) (hcolon : op ≠ .colon) (es : List E) (h : Follows (k + 1) first rest)
    (hend : ∀ t ∈ rest.head?, isOp t = false) (hn : es.length < n) (lhs : Value T D)
    (log : List O) :
    logicalLoop isOp short (operand false) pp n lhs ⟨opTokens op tokens es ++ rest, true, log⟩ =
      .ok (lhs, ⟨rest, pp, log⟩) := by
  induction es generalizing n with
  | nil =>
    obtain ⟨m, rfl⟩ : ∃ m, n = m + 1 := ⟨n - 1, by omega⟩
    exact logicalLoop_end _ lhs true log hend m
  | cons e es ih =>
    obtain ⟨m, rfl⟩ : ∃ m, n = m + 1 := ⟨n - 1, by omega⟩
    obtain ⟨w, hw⟩ := hoperand e (opTokens op tokens es ++ rest)
      (h.weaken.opTokens hprec hcolon) log
    rw [opTokens_cons, logicalLoop]
    dsimp only
    rw [if_pos hop, if_pos rfl, Except.bind, hw]
    exact ih (Nat.lt_of_succ_lt_succ hn)

theorem logicalLoop_decided (hop : isOp op = true)
    (hoperand : ∀ e rest, Follows k false rest → Skips (operand false) (tokens e) rest)
    (hprec : op.prec = k + 1) (hcolon : op ≠ .colon) (es : List E) (h : Follows (k + 1) first rest)
    (hend : ∀ t ∈ rest.head?, isOp t = false) (hn : es.length < n) {lhs : Value T D}
    (hlhs : convertBool lhs = .ok short) (log : List O) :
    logicalLoop isOp short (operand false) pp n lhs ⟨opTokens op tokens es ++ rest, false, log⟩ =
      .ok (lhs, ⟨rest, pp, log⟩) := by
  obtain ⟨m, rfl⟩ : ∃ m, n = m + 1 := ⟨n - 1, by omega⟩
  rcases es with _ | ⟨e, es⟩
  · exact logicalLoop_end _ lhs false log hend m
  · obtain ⟨w, hw⟩ := hoperand e (opTokens op tokens es ++ rest)
      (h.weaken.opTokens hprec hcolon) log
    rw [opTokens_cons, logicalLoop]
    dsimp only
    rw [if_pos hop, if_neg Bool.false_ne_true, hlhs]
    simp only [Except.map, Except.bind, beq_self_eq_true, hw, if_true]
    exact logicalLoop_skips hop hoperand hprec hcolon es h hend (Nat.lt_of_succ_lt_succ hn) lhs log

/-- The loop once the left operand is a boolean value, and also before if it does not decide. -/
theorem logicalLoop_bool (hop : isOp op = true)
    (hoperand : ∀ e rest, Follows k false rest →
      Evaluates (operand false) (tokens e) (meaning e) (u e) rest)
    (hprec : op.prec = k + 1) (hcolon : op ≠ .colon) (es : List E) (h : Follows (k + 1) first rest)
    (hend : ∀ t ∈ rest.head?, isOp t = false) (hn : es.length < n) {b : Bool} {lhs : Value T D}
    (hlhs : convertBool lhs = .ok b) (hbool : lhs = .bool b ∨ (b ≠ short ∧ es ≠ []))
    (log l : List O) :
    logicalLoop isOp short (operand false) false n lhs
        ⟨opTokens op tokens es ++ rest, false, log ++ l⟩ =
      located rest log ((es.map meaning).foldl (logical short) (.ok (lhs, l))) := by
  induction es generalizing n b lhs l with
  | nil =>
    obtain ⟨m, rfl⟩ : ∃ m, n = m + 1 := ⟨n - 1, by omega⟩
    exact logicalLoop_end _ _ false _ hend m
  | cons e es ih =>
    by_cases hb : b = short
    · -- the rest is skipped
      subst hb
      obtain rfl : lhs = .bool b := hbool.resolve_right fun hc => hc.1 rfl
      rw [foldl_decided]
      exact logicalLoop_decided hop (fun e rest hf => (hoperand e rest hf).skips) hprec hcolon _ h
        hend hn hlhs _
    · obtain ⟨m, rfl⟩ : ∃ m, n = m + 1 := ⟨n - 1, by omega⟩
      have hright := hoperand e (opTokens op tokens es ++ rest) (h.weaken.opTokens hprec hcolon)
      have hbeq : (b == short) = false := beq_eq_false_iff_ne.mpr hb
      rw [opTokens_cons, logicalLoop, List.map_cons, List.foldl_cons, logical_right hlhs hb]
      dsimp only
      rw [if_pos hop, if_neg Bool.false_ne_true, hlhs]
      simp only [Except.map, Except.bind, hbeq]
      rcases hm : meaning e with f | r
      · rw [hright.failure (log ++ l) f hm]
        exact congrArg (located rest log) (foldl_error (fun _ => rfl) _).symm
      · obtain ⟨v, hv, htruth, -⟩ := hright.success (log ++ l) r hm
        rw [hv]
        simp only [Bool.false_eq_true, if_false, htruth]
        rcases convertBool r.1 with f | b'
        · exact congrArg (located rest log) (foldl_error (fun _ => rfl) _).symm
        · rw [List.append_assoc]
          exact ih (Nat.lt_of_succ_lt_succ hn) rfl (.inl rfl) (l ++ r.2)

theorem logical_congr {v v' : Value T D} (h : convertBool v = convertBool v') (l : List O)
    (m : Meaning T D O) : logical short (.ok (v, l)) m = logical short (.ok (v', l)) m := by
  rw [logical, logical, Except.bind, Except.bind, h]

/-- The loop if the left operand does not decide. -/
theorem logicalLoop_undecided (hop : isOp op = true)
    (hoperand : ∀ e rest, Follows k false rest →
      Evaluates (operand false) (tokens e) (meaning e) (u e) rest)
    (hprec : op.prec = k + 1) (hcolon : op ≠ .colon) {es : List E} (hes : es ≠ [])
    (h : Follows (k + 1) first rest) (hend : ∀ t ∈ rest.head?, isOp t = false) (hn : es.length < n)
    {v v' : Value T D} (htruth : convertBool v = convertBool v') (hv : convertBool v' ≠ .ok short)
    (log l : List O) :
    logicalLoop isOp short (operand false) false n v
        ⟨opTokens op tokens es ++ rest, false, log ++ l⟩ =
      located rest log ((es.map meaning).foldl (logical short) (.ok (v', l))) := by
  have hfold : (es.map meaning).foldl (logical short) (.ok (v', l)) =
      (es.map meaning).foldl (logical short) (.ok (v, l)) := by
    obtain ⟨e, es', rfl⟩ := List.exists_cons_of_ne_nil hes
    rw [List.map_cons, List.foldl_cons, List.foldl_cons, logical_congr htruth]
  rw [hfold]
  rcases hb : convertBool v with f | b
  · obtain ⟨e, es', rfl⟩ := List.exists_cons_of_ne_nil hes
    obtain ⟨j, rfl⟩ : ∃ j, n = j + 1 := ⟨n - 1, by omega⟩
    rw [opTokens_cons, logicalLoop, List.map_cons, List.foldl_cons]
    dsimp only
    rw [if_pos hop, if_neg Bool.false_ne_true, hb, logical, Except.bind, hb]
    exact congrArg (located rest log) (foldl_error (fun _ => rfl) _).symm
  · have hne : b ≠ short := fun hc => hv (by rw [← htruth, hb, hc])
    exact logicalLoop_bool hop hoperand hprec hcolon es h hend hn hb (.inr ⟨hne, hes⟩) log l

/-- **A chain of operands.** The value is not as documented just if the first operand decides and is
not of type `bool`. -/
theorem evaluates_logical (operand : Bool → State O → Result T O (Value T D)) (short : Bool)
    (u : E → Prop) (hop : isOp op = true)
    (hoperand : ∀ first e rest, Follows k first rest →
      Evaluates (operand first) (tokens e) (meaning e) (u e) rest)
    (hu : ∀ e r, u e → meaning e = .ok r → convertBool r.1 ≠ .ok short)
    (hprec : op.prec = k + 1) (hcolon : op ≠ .colon) (e : E) (es : List E)
    (h : Follows (k + 1) first rest) (hend : ∀ t ∈ rest.head?, isOp t = false) :
    Evaluates (parseLogical isOp short operand first) (tokens e ++ opTokens op tokens es)
      ((es.map meaning).foldl (logical short) (meaning e))
      ((es = [] ∧ u e) ∨ (es ≠ [] ∧ Decides short (meaning e))) rest := by
  have hfirst := hoperand first e (opTokens op tokens es ++ rest) (h.opTokens hprec hcolon)
  have hskip : ∀ e rest, Follows k false rest → Skips (operand false) (tokens e) rest :=
    fun e rest hf => (hoperand false e rest hf).skips
  have hn : es.length < (opTokens op tokens es ++ rest).length + 1 := by
    have hle := length_opTokens op tokens es
    rw [List.length_append]
    omega
  have hassoc : tokens e ++ opTokens op tokens es ++ rest =
      tokens e ++ (opTokens op tokens es ++ rest) := List.append_assoc _ _ _
  refine .of_returns (fun log => ?_) fun log => ?_
  · obtain ⟨w, hw⟩ := hfirst.skips log
    refine ⟨w, ?_⟩
    rw [hassoc, parseLogical, hw]
    exact logicalLoop_skips hop hskip hprec hcolon es h hend hn w log
  · rw [hassoc, parseLogical]
    rcases hm : meaning e with f | r
    · rw [hfirst.failure log f hm]
      exact .inl ⟨f, foldl_error (fun _ => rfl) _, rfl⟩
    · obtain ⟨v, hv, htruth, hval⟩ := hfirst.success log r hm
      rw [hv]
      dsimp only [Except.bind]
      by_cases hes : es = []
      · subst hes
        refine .inr ⟨r, v, rfl, logicalLoop_end _ v false _ hend _, htruth, ?_⟩
        rw [hval]
        simp
      · by_cases hb : convertBool r.1 = .ok short
        · have hnot : ¬u e := fun hc => hu e r hc hm hb
          have hvr : v = r.1 := hval.mpr hnot
          refine .inr ⟨(.bool short, r.2), v, ?_, ?_, htruth.trans hb, ?_⟩
          · obtain ⟨e', es', rfl⟩ := List.exists_cons_of_ne_nil hes
            rw [List.map_cons, List.foldl_cons, logical_decided hb, foldl_decided]
          · exact logicalLoop_decided hop hskip hprec hcolon es h hend hn (htruth.trans hb) _
          · rw [hvr]
            constructor
            · rintro hbool (⟨hc, -⟩ | ⟨-, r', hr', -, hne⟩)
              · exact hes hc
              · obtain rfl := Except.ok.inj hr'
                exact hne hbool
            · intro hc
              by_contra hne
              exact hc (.inr ⟨hes, r, rfl, hb, hne⟩)
        · refine .of_located (logicalLoop_undecided hop (hoperand false) hprec hcolon hes h hend hn
            htruth hb log r.2) ?_
          rintro (⟨hc, -⟩ | ⟨-, r', hr', hc, -⟩)
          · exact hes hc
          · obtain rfl := Except.ok.inj hr'
            exact hb hc

end Chain

theorem Evaluates.congr {p : State O → Result T O (Value T D)} {m : Meaning T D O} {u u' : Prop}
    (h : Evaluates p ts m u rest) (hu : u ↔ u') : Evaluates p ts m u' rest := by
  rwa [propext hu] at h

/-! ### The branches of the ternary operator -/

theorem branches_skip {p : State O → Result T O (Value T D)} {us vs : List (Token O)}
    (hm : Skips p us (.colon :: (vs ++ rest))) (hr : Skips p vs rest) (log : List O) :
    ∃ v, parseBranches p true true ⟨us ++ .colon :: (vs ++ rest), true, log⟩ =
      .ok (v, ⟨rest, true, log⟩) := by
  obtain ⟨y, hy⟩ := hm log
  obtain ⟨z, hz⟩ := hr log
  refine ⟨y, ?_⟩
  rw [parseBranches]
  simp only [if_true, hy, Except.bind, hz, Except.map]

theorem branches_returns {p : State O → Result T O (Value T D)} {us vs : List (Token O)}
    {m r : Meaning T D O} {u u' : Prop} (hm : Evaluates p us m u (.colon :: (vs ++ rest)))
    (hr : Evaluates p vs r u' rest) (q : Bool) (log : List O) :
    Returns (if q then u else u')
      (parseBranches p q false ⟨us ++ .colon :: (vs ++ rest), false, log⟩) (if q then m else r)
      rest log := by
  rw [parseBranches]
  cases q with
  | true =>
    rcases m with f | y
    · refine .inl ⟨f, rfl, ?_⟩
      have hf := hm.failure log f rfl
      simp only [Bool.false_eq_true, if_false, Bool.not_true, hf, Except.bind]
    · obtain ⟨v, hv, hlike⟩ := hm.success log y rfl
      obtain ⟨z, hz⟩ := hr.skips (log ++ y.2)
      refine .inr ⟨y, v, rfl, ?_, hlike⟩
      simp only [Bool.false_eq_true, if_false, Bool.not_true, hv, Except.bind, hz, Except.map,
        if_true]
  | false =>
    obtain ⟨w, hw⟩ := hm.skips log
    rcases r with f | z
    · refine .inl ⟨f, rfl, ?_⟩
      have hf := hr.failure log f rfl
      simp only [Bool.false_eq_true, if_false, Bool.not_false, hw, Except.bind, hf, Except.map]
    · obtain ⟨v, hv, hlike⟩ := hr.success log z rfl
      refine .inr ⟨z, v, rfl, ?_, hlike⟩
      simp only [Bool.false_eq_true, if_false, Bool.not_false, hw, Except.bind, hv, Except.map]

variable [DecidableEq T]

/-! ### The productions -/

theorem evaluates_and (a : EvalAnd O) (h : Follows 2 first rest) :
    Evaluates (parseEvalAnd types value first) a.tokens (a.eval types value)
      (a.Unconverted types value) rest := by
  have hend : ∀ t ∈ rest.head?, isLogAnd t = false := by
    intro t ht
    have hlt := (h t ht).1
    cases t with
    | logAnd => exact absurd hlt (Nat.lt_irrefl 2)
    | _ => rfl
  have hchain := evaluates_logical (parseEvalComp types value) false (fun _ => False)
    (show isLogAnd .logAnd = true from rfl)
    (fun first c rest hf => (parses_comp c hf).evaluates) (fun _ _ hc => hc.elim)
    (show Token.logAnd.prec = 1 + 1 from rfl) (by simp) a.first a.rest h hend
  exact hchain.congr (by simp [EvalAnd.Unconverted])

/-- A result of `&&` that is not converted is false. -/
theorem EvalAnd.Unconverted.eval {a : EvalAnd O} (h : a.Unconverted types value) :
    ∃ l, a.eval types value = .ok (.bool false, l) := by
  obtain ⟨hne, r, hr, hb, -⟩ := h
  obtain ⟨c, cs, hcs⟩ := List.exists_cons_of_ne_nil hne
  obtain ⟨v, l⟩ := r
  refine ⟨l, ?_⟩
  rw [EvalAnd.eval, hr, hcs, List.map_cons, List.foldl_cons, logical_decided hb, foldl_decided]

theorem evaluates_or (types : Types T D) (value : O → Value T D) (a : EvalOr O)
    (h : Follows 3 first rest) :
    Evaluates (parseEvalOr types value first) a.tokens (a.eval types value)
      (a.Unconverted types value) rest := by
  have hend : ∀ t ∈ rest.head?, isLogOr t = false := by
    intro t ht
    have hlt := (h t ht).1
    cases t with
    | logOr => exact absurd hlt (Nat.lt_irrefl 3)
    | _ => rfl
  have hu : ∀ (b : EvalAnd O) (r : Value T D × List O), b.Unconverted types value →
      b.eval types value = .ok r → convertBool r.1 ≠ .ok true := by
    intro b r hb hr
    obtain ⟨l, hl⟩ := hb.eval
    obtain rfl := Except.ok.inj (hr.symm.trans hl)
    simp [convertBool]
  exact evaluates_logical (parseEvalAnd types value) true (EvalAnd.Unconverted types value)
    (show isLogOr .logOr = true from rfl) (fun first b rest hf => evaluates_and b hf) hu
    (show Token.logOr.prec = 2 + 1 from rfl) (by simp) a.first a.rest h hend

theorem parseEvalTernary_plain {st st' : State O} {v : Value T D}
    (hc : parseEvalOr types value first st = .ok (v, st')) (h : Follows 4 false st'.tokens) :
    parseEvalTernary types value (n + 1) first st = .ok (v, st') := by
  obtain ⟨tokens, preParse, log⟩ := st'
  rw [parseEvalTernary, hc, Except.bind]
  rcases tokens with _ | ⟨t, ts⟩
  · rfl
  · cases t with
    | question => exact absurd (h _ rfl).1 (Nat.lt_irrefl 4)
    | _ => rfl

theorem parseEvalTernary_question {st : State O} {x : Value T D} {pp : Bool} {l : List O}
    (hc : parseEvalOr types value first st = .ok (x, ⟨.question :: ts, pp, l⟩)) (n : ℕ) :
    parseEvalTernary types value (n + 1) first st =
      (if pp then .ok true else convertBool x).bind fun q =>
        parseBranches (parseEvalTernary types value n false) q pp ⟨ts, pp, l⟩ := by
  rw [parseEvalTernary, hc]
  rfl

theorem choose_tokens (c : EvalOr O) (m r : EvalTernary O) (rest : List (Token O)) :
    (EvalTernary.choose c m r).tokens ++ rest =
      c.tokens ++ .question :: (m.tokens ++ .colon :: (r.tokens ++ rest)) := by
  simp [EvalTernary.tokens]

/-- **The ternary operator.** -/
theorem evaluates_ternary (e : EvalTernary O) (hn : e.tokens.length < n)
    (h : Follows 4 first rest) :
    Evaluates (parseEvalTernary types value n first) e.tokens (e.eval types value)
      (e.Unconverted types value) rest := by
  induction e generalizing n first rest with
  | value c =>
    obtain ⟨j, rfl⟩ : ∃ j, n = j + 1 := ⟨n - 1, by omega⟩
    have hc := evaluates_or types value c (h.mono (Nat.le_succ 3))
    refine ⟨fun log => ?_, fun log f hm => ?_, fun log r hm => ?_⟩
    · obtain ⟨v, hv⟩ := hc.skips log
      exact ⟨v, parseEvalTernary_plain hv h.weaken⟩
    · have hf := hc.failure log f hm
      rw [EvalTernary.tokens, parseEvalTernary, hf]
      rfl
    · obtain ⟨v, hv, hlike⟩ := hc.success log r hm
      exact ⟨v, parseEvalTernary_plain hv h.weaken, hlike⟩
  | choose c m r ihm ihr =>
    obtain ⟨j, rfl⟩ : ∃ j, n = j + 1 := ⟨n - 1, by omega⟩
    rw [EvalTernary.tokens, List.length_append, List.length_cons, List.length_append,
      List.length_cons] at hn
    have hc : Evaluates (parseEvalOr types value first) c.tokens (c.eval types value)
        (c.Unconverted types value) (.question :: (m.tokens ++ .colon :: (r.tokens ++ rest))) :=
      evaluates_or types value c (follows_cons (Nat.lt_succ_self 3) fun _ => by simp)
    have hm : Evaluates (parseEvalTernary types value j false) m.tokens (m.eval types value)
        (m.Unconverted types value) (.colon :: (r.tokens ++ rest)) :=
      ihm (by omega) (follows_cons (Nat.lt_succ_self 4) fun hf => absurd hf Bool.false_ne_true)
    have hr : Evaluates (parseEvalTernary types value j false) r.tokens (r.eval types value)
        (r.Unconverted types value) rest := ihr (by omega) h.weaken
    refine .of_returns (fun log => ?_) fun log => ?_
    · obtain ⟨x, hx⟩ := hc.skips log
      rw [choose_tokens, parseEvalTernary_question hx]
      exact branches_skip hm.skips hr.skips log
    · rw [choose_tokens, EvalTernary.eval, chosen]
      rcases hce : c.eval types value with f | x
      · refine .inl ⟨f, rfl, ?_⟩
        rw [parseEvalTernary, hc.failure log f hce]
        rfl
      · obtain ⟨v, hv, htruth, -⟩ := hc.success log x hce
        rw [parseEvalTernary_question hv, if_neg Bool.false_ne_true, htruth]
        rcases hq : convertBool x.1 with f | q
        · exact .inl ⟨f, by simp [Except.bind, hq], rfl⟩
        · have hu : (EvalTernary.choose c m r).Unconverted types value ↔
              if q then m.Unconverted types value else r.Unconverted types value := by
            rw [EvalTernary.Unconverted]
            constructor
            · rintro ⟨x', q', hx', hq', hu⟩
              obtain rfl := Except.ok.inj (hce.symm.trans hx')
              obtain rfl := Except.ok.inj (hq.symm.trans hq')
              cases q <;> simpa using hu
            · intro hu
              refine ⟨x, q, hce, hq, ?_⟩
              cases q <;> simpa using hu
          have hbranches := (branches_returns hm hr q (log ++ x.2)).prepend
          rw [← propext hu] at hbranches
          simp only [Except.bind, hq]
          exact hbranches

/-! ### The evaluation context -/

/-- The tokens of an expression do not start with the closing parenthesis. -/
def Starts (ts : List (Token O)) : Prop := ∃ t us, ts = t :: us ∧ t ≠ .rparen

theorem Starts.append (h : Starts ts) (us : List (Token O)) : Starts (ts ++ us) := by
  obtain ⟨t, vs, rfl, ht⟩ := h
  exact ⟨t, vs ++ us, rfl, ht⟩

theorem starts_value (v : EvalValue O) : Starts v.tokens := by
  cases v with
  | operand o => exact ⟨.operand o, [], rfl, by simp⟩
  | logNot v => exact ⟨.logNot, v.tokens, rfl, by simp⟩

theorem starts_or (a : EvalOr O) : Starts a.tokens :=
  (((starts_value a.first.first.first).append _).append _).append _

theorem starts_ternary (e : EvalTernary O) : Starts e.tokens := by
  cases e with
  | value c => exact starts_or c
  | choose c m r => exact (starts_or c).append _

theorem parseEval_eq (types : Types T D) (value : O → Value T D) (e : EvalTernary O)
    (rest : List (Token O)) (pre : Bool) (log : List O) :
    parseEval types value ⟨e.tokens ++ .rparen :: rest, pre, log⟩ =
      (parseEvalComma types value true ⟨e.tokens ++ .rparen :: rest, pre, log⟩).bind closed := by
  obtain ⟨t, us, ht, hne⟩ := (starts_ternary e).append (.rparen :: rest)
  rw [ht, parseEval]
  cases t with
  | rparen => exact absurd rfl hne
  | _ => rfl

theorem parseEval_ok {e : EvalTernary O} {pre pre' : Bool} {l : List O} {v : Value T D}
    (h : parseTernary types value true ⟨e.tokens ++ .rparen :: rest, pre, log⟩ =
      .ok (v, ⟨.rparen :: rest, pre', l⟩)) :
    parseEval types value ⟨e.tokens ++ .rparen :: rest, pre, log⟩ =
      .ok (if pre' then [] else [v], ⟨.rparen :: rest, pre', l⟩) := by
  rw [parseEval_eq, parseEvalComma, h]
  cases pre' <;> rfl

theorem parseEval_error {e : EvalTernary O} {pre : Bool} {f : Fault T}
    (h : parseTernary types value true ⟨e.tokens ++ .rparen :: rest, pre, log⟩ = .error f) :
    parseEval types value ⟨e.tokens ++ .rparen :: rest, pre, log⟩ = .error f := by
  rw [parseEval_eq, parseEvalComma, h]
  rfl

theorem evaluates_context (types : Types T D) (value : O → Value T D) (e : EvalTernary O)
    (rest : List (Token O)) :
    Evaluates (parseTernary types value true) e.tokens (e.eval types value)
      (e.Unconverted types value) (.rparen :: rest) := by
  have hn : e.tokens.length < (e.tokens ++ .rparen :: rest).length + 1 := by
    rw [List.length_append]
    omega
  have hfollows : Follows 4 true (.rparen :: rest) :=
    follows_cons (Nat.lt_succ_self 4) fun _ => by simp
  have he : Evaluates
      (parseEvalTernary types value ((e.tokens ++ .rparen :: rest).length + 1) true) e.tokens
      (e.eval types value) (e.Unconverted types value) (.rparen :: rest) :=
    evaluates_ternary e hn hfollows
  exact ⟨he.skips, he.failure, he.success⟩

/-- An expression with a result that is not converted has a value. -/
theorem EvalOr.Unconverted.eval {a : EvalOr O} (h : a.Unconverted types value) :
    ∃ r, a.eval types value = .ok r := by
  rcases h with ⟨hnil, h⟩ | ⟨hne, r, hr, hb, -⟩
  · obtain ⟨l, hl⟩ := h.eval
    refine ⟨(.bool false, l), ?_⟩
    rw [EvalOr.eval, hnil]
    exact hl
  · obtain ⟨b, bs, hbs⟩ := List.exists_cons_of_ne_nil hne
    obtain ⟨v, l⟩ := r
    refine ⟨(.bool true, l), ?_⟩
    rw [EvalOr.eval, hr, hbs, List.map_cons, List.foldl_cons, logical_decided hb, foldl_decided]

theorem EvalTernary.Unconverted.eval {e : EvalTernary O} (h : e.Unconverted types value) :
    ∃ r, e.eval types value = .ok r := by
  induction e with
  | value c => exact EvalOr.Unconverted.eval h
  | choose c m r ihm ihr =>
    obtain ⟨x, q, hx, hq, hu⟩ := h
    rw [EvalTernary.eval, chosen, hx]
    simp only [Except.bind, hq]
    rcases hu with ⟨rfl, hu⟩ | ⟨rfl, hu⟩
    · obtain ⟨y, hy⟩ := ihm hu
      exact ⟨(y.1, x.2 ++ y.2), by simp [hy, Except.map]⟩
    · obtain ⟨y, hy⟩ := ihr hu
      exact ⟨(y.1, x.2 ++ y.2), by simp [hy, Except.map]⟩

/-- The context evaluates as documented, and nothing is evaluated during the pre-parse. The flag is
the one before. -/
def Documented (types : Types T D) (value : O → Value T D) (e : EvalTernary O) : Prop :=
  ∀ rest log,
    parseEval types value ⟨e.tokens ++ .rparen :: rest, true, log⟩ =
      .ok ([], ⟨.rparen :: rest, true, log⟩) ∧
    parseEval types value ⟨e.tokens ++ .rparen :: rest, false, log⟩ =
      (e.eval types value).map fun r => ([r.1], ⟨.rparen :: rest, false, log ++ r.2⟩)

/-- The pre-parse, and what is evaluated: in any case as documented but for the type of the
value. -/
theorem parseEval_truth (types : Types T D) (value : O → Value T D) (e : EvalTernary O)
    (rest : List (Token O)) (log : List O) :
    parseEval types value ⟨e.tokens ++ .rparen :: rest, true, log⟩ =
        .ok ([], ⟨.rparen :: rest, true, log⟩) ∧
      (∀ f, e.eval types value = .error f →
        parseEval types value ⟨e.tokens ++ .rparen :: rest, false, log⟩ = .error f) ∧
      ∀ r, e.eval types value = .ok r → ∃ v,
        parseEval types value ⟨e.tokens ++ .rparen :: rest, false, log⟩ =
          .ok ([v], ⟨.rparen :: rest, false, log ++ r.2⟩) ∧
        convertBool v = convertBool r.1 ∧ (v = r.1 ↔ ¬e.Unconverted types value) := by
  obtain ⟨hskips, hfailure, hsuccess⟩ := evaluates_context types value e rest
  refine ⟨?_, fun f hf => parseEval_error (hfailure log f hf), fun r hr => ?_⟩
  · obtain ⟨v, hv⟩ := hskips log
    exact parseEval_ok hv
  · obtain ⟨v, hv, hlike⟩ := hsuccess log r hr
    exact ⟨v, parseEval_ok hv, hlike⟩

/-- **Evaluation contexts.** They evaluate as documented just if the result is not that of `||` with
a first operand that is an untyped `true`, nor that of `&&` with one that is an untyped `false`. -/
theorem parseEval_iff (types : Types T D) (value : O → Value T D) (e : EvalTernary O) :
    Documented types value e ↔ ¬e.Unconverted types value := by
  constructor
  · intro hdoc hu
    obtain ⟨r, hr⟩ := hu.eval
    obtain ⟨-, -, hsuccess⟩ := parseEval_truth types value e [] []
    obtain ⟨v, hv, -, hval⟩ := hsuccess r hr
    have hsame := (hdoc [] []).2
    rw [hv, hr] at hsame
    have hvr : v = r.1 := by simpa [Except.map] using hsame
    exact hval.mp hvr hu
  · intro hu rest log
    obtain ⟨hpre, hfailure, hsuccess⟩ := parseEval_truth types value e rest log
    refine ⟨hpre, ?_⟩
    rcases hr : e.eval types value with f | r
    · exact hfailure f hr
    · obtain ⟨v, hv, -, hval⟩ := hsuccess r hr
      rw [hv, hval.mpr hu]
      rfl

/-- No other types than `bool`. -/
def boolOnly : Types Empty Empty where
  assign t _ := t.elim
  compare t _ _ := t.elim
  compareNames ns ns' := compare (ns.map fun n => n.value.map UInt8.toNat)
    (ns'.map fun n => n.value.map UInt8.toNat)

/-- The untyped `true`, and `false` for any other operand. -/
def firstTrue (o : ℕ) : Value Empty Empty :=
  .names [Name.ofValue (str (if o = 0 then "true" else "false").toList)]

/-- `true || false`. -/
def trueOrFalse : EvalTernary ℕ :=
  .value ⟨⟨⟨.operand 0, []⟩, []⟩, [⟨⟨.operand 1, []⟩, []⟩]⟩

theorem not_documented_trueOrFalse : ¬Documented boolOnly firstTrue trueOrFalse := by
  intro h
  have hrun : parseEval boolOnly firstTrue ⟨trueOrFalse.tokens ++ [.rparen], false, []⟩ =
      .ok ([firstTrue 0], ⟨[.rparen], false, [0]⟩) := rfl
  have heval : trueOrFalse.eval boolOnly firstTrue = .ok (.bool true, [0]) := rfl
  have hsame := (h [] []).2
  rw [hrun, heval] at hsame
  simp [Except.map, firstTrue] at hsame

end Build2.Libbuild2.Eval
