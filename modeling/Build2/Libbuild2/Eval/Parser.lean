import Build2.Libbuild2.Values.Containers

/-! # Evaluation contexts

`parse_eval` of `parser.cxx`, which evaluates while it parses. What `parse_value` parses is one
token, an operand with a given value. Attributes of values are left out. A position is the list of
the tokens from there on, and the log has the operands that have been evaluated. -/

namespace Build2.Libbuild2.Eval

open Build2.Lib.ByteString
open Values (Name boolTraits)

/-- `value_type`: the type of boolean values or another one. -/
inductive ValueType (T : Type)
  | bool
  | other (t : T)
  deriving DecidableEq, Repr

/-- `value`: NULL, a sequence of names, or a value of a type. -/
inductive Value (T D : Type)
  | null (type : Option (ValueType T))
  | names (ns : List Name)
  | bool (b : Bool)
  | typed (t : T) (d : D)
  deriving DecidableEq

variable {T D O α β : Type}

def Value.type : Value T D → Option (ValueType T)
  | null t => t
  | names _ => none
  | bool _ => some .bool
  | typed t _ => some (.other t)

/-- The callbacks `assign` and `compare` of the other types, and the comparison of names. -/
structure Types (T D : Type) where
  assign : T → List Name → Option D
  compare : T → D → D → Ordering
  compareNames : List Name → List Name → Ordering

/-- How a call ends when it does not return. Running out of fuel is no behaviour of the source. -/
inductive Fault (T : Type)
  | invalidBool
  | invalidValue
  | comparison (l r : ValueType T)
  | expectedTarget
  | expectedVariable
  | expectedRparen
  | expectedColon
  | notSupported
  | unexpected
  | assertion
  | exhausted
  deriving DecidableEq, Repr

/-! ### Values -/

/-- `convert<bool>` of names. -/
def boolOfNames : List Name → Option Bool
  | [n] => boolTraits.convert n none
  | [n, r] => if n.pair ≠ 0 then boolTraits.convert n (some r) else none
  | _ => none

/-- `convert<bool>`. -/
def convertBool : Value T D → Except (Fault T) Bool
  | .names ns =>
    match boolOfNames ns with
    | some b => .ok b
    | none => .error .invalidBool
  | .bool b => .ok b
  | _ => .error .invalidBool

/-- `typify` of an untyped value that is not NULL. -/
def typify (types : Types T D) (ns : List Name) : ValueType T → Except (Fault T) (Value T D)
  | .bool =>
    match (Values.simple boolTraits).assign ns with
    | .ok b => .ok (.bool b)
    | .error _ => .error .invalidValue
  | .other t =>
    match types.assign t ns with
    | some d => .ok (.typed t d)
    | none => .error .invalidValue

/-- The first part of `compare_values`: an untyped value gets the type of the other one. -/
def matchTypes [DecidableEq T] (types : Types T D) (l r : Value T D) :
    Except (Fault T) (Value T D × Value T D) :=
  match l.type, r.type with
  | none, some t =>
    match l with
    | .names ns => (typify types ns t).map fun l => (l, r)
    | _ => .ok (l, r)
  | some t, none =>
    match r with
    | .names ns => (typify types ns t).map fun r => (l, r)
    | _ => .ok (l, r)
  | some t, some t' => if t = t' then .ok (l, r) else .error (.comparison t t')
  | none, none => .ok (l, r)

/-- The comparison operators of values. NULL is less than anything else. -/
def order [DecidableEq T] (types : Types T D) : Value T D → Value T D → Except (Fault T) Ordering
  | .null _, .null _ => .ok .eq
  | .null _, _ => .ok .lt
  | _, .null _ => .ok .gt
  | .names ns, .names ns' => .ok (types.compareNames ns ns')
  | .bool b, .bool b' => .ok (compare b b')
  | .typed t d, .typed t' d' => if t = t' then .ok (types.compare t d d') else .error .assertion
  | _, _ => .error .assertion

/-- The comparison operators. -/
inductive Comparison
  | equal
  | notEqual
  | less
  | lessEqual
  | greater
  | greaterEqual
  deriving DecidableEq, Repr

def Comparison.holds : Comparison → Ordering → Bool
  | equal, o => o = .eq
  | notEqual, o => o ≠ .eq
  | less, o => o = .lt
  | lessEqual, o => o ≠ .gt
  | greater, o => o = .gt
  | greaterEqual, o => o ≠ .lt

/-- `compare_values`. -/
def compareValues [DecidableEq T] (types : Types T D) (op : Comparison) (l r : Value T D) :
    Except (Fault T) Bool :=
  (matchTypes types l r).bind fun p => (order types p.1 p.2).map op.holds

/-! ### Parsing -/

/-- The tokens. -/
inductive Token (O : Type)
  | operand (o : O)
  | logNot
  | comparison (op : Comparison)
  | logAnd
  | logOr
  | question
  | colon
  | comma
  | rparen
  | backtick
  | bitOr
  deriving DecidableEq, Repr

/-- The state of the parser: the tokens from the current one on, `pre_parse_` and the log. -/
structure State (O : Type) where
  tokens : List (Token O)
  preParse : Bool
  log : List O
  deriving DecidableEq, Repr

/-- What a parsing function returns, with the state after it. -/
abbrev Result (T O α : Type) := Except (Fault T) (α × State O)

/-- `parse_value` at an operand. Nothing is evaluated during the pre-parse. -/
def parseValue (value : O → Value T D) (o : O) (preParse : Bool) (log : List O) :
    Value T D × List O :=
  if preParse then (.names [], log) else (value o, log ++ [o])

/-- The special case of a target-qualified name, after the first value. -/
def parseEvalQual (value : O → Value T D) (first : Bool) (v : Value T D) (st : State O) :
    Result T O (Value T D) :=
  match first, st.tokens with
  | true, .colon :: .operand o :: .rparen :: ts =>
    let n := parseValue value o st.preParse st.log
    let st := ⟨.rparen :: ts, st.preParse, n.2⟩
    if st.preParse then .ok (v, st)
    else
      match v, n.1 with
      | .names [t], .names [n] => .ok (.names [t.withPair (ch ':'), n], st)
      | .names [_], _ => .error .expectedVariable
      | _, _ => .error .expectedTarget
  | true, .colon :: .operand _ :: _ => .error .expectedRparen
  | true, .colon :: _ => .error .unexpected
  | _, _ => .ok (v, st)

/-- `parse_eval_value`. -/
def parseEvalValue (value : O → Value T D) (preParse : Bool) (log : List O) :
    Bool → List (Token O) → Result T O (Value T D)
  | first, .logNot :: ts =>
    (parseEvalValue value preParse log false ts).bind fun r =>
      if r.2.preParse then parseEvalQual value first r.1 r.2
      else (convertBool r.1).bind fun b => parseEvalQual value first (.bool !b) r.2
  | first, .operand o :: ts =>
    parseEvalQual value first (parseValue value o preParse log).1
      ⟨ts, preParse, (parseValue value o preParse log).2⟩
  | first, ts => parseEvalQual value first (.names []) ⟨ts, preParse, log⟩

/-- The loop of `parse_eval_comp`. -/
def compLoop [DecidableEq T] (types : Types T D) (value : O → Value T D) :
    ℕ → Value T D → State O → Result T O (Value T D)
  | 0, _, _ => .error .exhausted
  | n + 1, lhs, st =>
    match st.tokens with
    | .comparison op :: ts =>
      (parseEvalValue value st.preParse st.log false ts).bind fun r =>
        if r.2.preParse then compLoop types value n lhs r.2
        else
          (compareValues types op lhs r.1).bind fun b => compLoop types value n (.bool b) r.2
    | _ => .ok (lhs, st)

/-- `parse_eval_comp`. -/
def parseEvalComp [DecidableEq T] (types : Types T D) (value : O → Value T D) (first : Bool)
    (st : State O) : Result T O (Value T D) :=
  (parseEvalValue value st.preParse st.log first st.tokens).bind fun r =>
    compLoop types value (r.2.tokens.length + 1) r.1 r.2

/-- The loop of `parse_eval_or` and `parse_eval_and`, with the operator, the value that
short-circuits, the function for the operands, and `pp`. -/
def logicalLoop (isOp : Token O → Bool) (short : Bool)
    (operand : State O → Result T O (Value T D)) (pp : Bool) :
    ℕ → Value T D → State O → Result T O (Value T D)
  | 0, _, _ => .error .exhausted
  | n + 1, lhs, st =>
    match st.tokens with
    | [] => .ok (lhs, { st with preParse := pp })
    | t :: ts =>
      if isOp t then
        let pre := if st.preParse then .ok true else (convertBool lhs).map fun b => b == short
        pre.bind fun pre =>
          (operand ⟨ts, pre, st.log⟩).bind fun r =>
            if r.2.preParse then logicalLoop isOp short operand pp n lhs r.2
            else (convertBool r.1).bind fun b => logicalLoop isOp short operand pp n (.bool b) r.2
      else .ok (lhs, { st with preParse := pp })

def isLogAnd : Token O → Bool
  | .logAnd => true
  | _ => false

def isLogOr : Token O → Bool
  | .logOr => true
  | _ => false

/-- An operand and the loop behind it. -/
def parseLogical (isOp : Token O → Bool) (short : Bool)
    (operand : Bool → State O → Result T O (Value T D)) (first : Bool) (st : State O) :
    Result T O (Value T D) :=
  (operand first st).bind fun r =>
    logicalLoop isOp short (operand false) r.2.preParse (r.2.tokens.length + 1) r.1 r.2

/-- `parse_eval_and`. -/
def parseEvalAnd [DecidableEq T] (types : Types T D) (value : O → Value T D) :
    Bool → State O → Result T O (Value T D) :=
  parseLogical isLogAnd false (parseEvalComp types value)

/-- `parse_eval_or`. -/
def parseEvalOr [DecidableEq T] (types : Types T D) (value : O → Value T D) :
    Bool → State O → Result T O (Value T D) :=
  parseLogical isLogOr true (parseEvalAnd types value)

/-- The two expressions behind the question mark, one of which is short-circuited by the truth of
the condition. The third argument is `pp`. -/
def parseBranches (operand : State O → Result T O (Value T D)) (q pp : Bool) (st : State O) :
    Result T O (Value T D) :=
  (operand { st with preParse := if pp then pp else !q }).bind fun m =>
    match m.2.tokens with
    | .colon :: ts =>
      (operand ⟨ts, if pp then m.2.preParse else q, m.2.log⟩).map fun r =>
        (if q then m.1 else r.1, { r.2 with preParse := pp })
    | _ => .error .expectedColon

/-- `parse_eval_ternary`. -/
def parseEvalTernary [DecidableEq T] (types : Types T D) (value : O → Value T D) :
    ℕ → Bool → State O → Result T O (Value T D)
  | 0, _, _ => .error .exhausted
  | n + 1, first, st =>
    (parseEvalOr types value first st).bind fun c =>
      match c.2.tokens with
      | .question :: ts =>
        (if c.2.preParse then .ok true else convertBool c.1).bind fun q =>
          parseBranches (parseEvalTernary types value n false) q c.2.preParse
            ⟨ts, c.2.preParse, c.2.log⟩
      | _ => .ok c

/-- `parse_eval_ternary` with enough fuel. -/
def parseTernary [DecidableEq T] (types : Types T D) (value : O → Value T D) (first : Bool)
    (st : State O) : Result T O (Value T D) :=
  parseEvalTernary types value (st.tokens.length + 1) first st

/-- A value is added unless this is the pre-parse. -/
def pushValue (vs : List (Value T D)) (r : Value T D × State O) : List (Value T D) :=
  if r.2.preParse then vs else vs ++ [r.1]

/-- The loop of `parse_eval_comma`. -/
def commaLoop [DecidableEq T] (types : Types T D) (value : O → Value T D) :
    ℕ → List (Value T D) → State O → Result T O (List (Value T D))
  | 0, _, _ => .error .exhausted
  | n + 1, vs, st =>
    match st.tokens with
    | .comma :: ts =>
      (parseTernary types value false ⟨ts, st.preParse, st.log⟩).bind fun r =>
        commaLoop types value n (pushValue vs r) r.2
    | _ => .ok (vs, st)

/-- `parse_eval_comma`. -/
def parseEvalComma [DecidableEq T] (types : Types T D) (value : O → Value T D) (first : Bool)
    (st : State O) : Result T O (List (Value T D)) :=
  (parseTernary types value first st).bind fun r =>
    commaLoop types value (r.2.tokens.length + 1) (pushValue [] r) r.2

/-- The checks behind the values. -/
def closed (r : List (Value T D) × State O) : Result T O (List (Value T D)) :=
  match r.2.tokens with
  | .rparen :: _ => .ok r
  | .backtick :: _ => .error .notSupported
  | .bitOr :: _ => .error .notSupported
  | _ => .error .unexpected

/-- `parse_eval`. -/
def parseEval [DecidableEq T] (types : Types T D) (value : O → Value T D) (st : State O) :
    Result T O (List (Value T D)) :=
  match st.tokens with
  | .rparen :: _ => .ok ([], st)
  | _ => (parseEvalComma types value true st).bind closed

end Build2.Libbuild2.Eval
