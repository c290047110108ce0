import Build2.Libbuild2.Eval.Parser

/-! # The grammar of evaluation contexts

The productions `eval-ternary` to `eval-value` of the grammar in the manual, their tokens, and what
they mean: the value, and the operands that are evaluated for it. The comparisons and the logical
operators are left-associative, `?:` and `!` are right-associative. -/

namespace Build2.Libbuild2.Eval

/-- `eval-value`. -/
inductive EvalValue (O : Type)
  | operand (o : O)
  | logNot (v : EvalValue O)

/-- `eval-comp`. -/
structure EvalComp (O : Type) where
  first : EvalValue O
  rest : List (Comparison × EvalValue O)

/-- `eval-and`. -/
structure EvalAnd (O : Type) where
  first : EvalComp O
  rest : List (EvalComp O)

/-- `eval-or`. -/
structure EvalOr (O : Type) where
  first : EvalAnd O
  rest : List (EvalAnd O)

/-- `eval-ternary`. -/
inductive EvalTernary (O : Type)
  | value (c : EvalOr O)
  | choose (c : EvalOr O) (m r : EvalTernary O)

variable {T D O : Type}

/-! ### Tokens -/

def EvalValue.tokens : EvalValue O → List (Token O)
  | operand o => [.operand o]
  | logNot v => .logNot :: v.tokens

/-- The tokens of the operands behind the first one. -/
def opTokens (op : Token O) {E : Type} (tokens : E → List (Token O)) (es : List E) :
    List (Token O) :=
  es.flatMap fun e => op :: tokens e

def EvalComp.tokens (c : EvalComp O) : List (Token O) :=
  c.first.tokens ++ c.rest.flatMap fun p => .comparison p.1 :: p.2.tokens

def EvalAnd.tokens (a : EvalAnd O) : List (Token O) :=
  a.first.tokens ++ opTokens .logAnd EvalComp.tokens a.rest

def EvalOr.tokens (a : EvalOr O) : List (Token O) :=
  a.first.tokens ++ opTokens .logOr EvalAnd.tokens a.rest

def EvalTernary.tokens : EvalTernary O → List (Token O)
  | .value c => c.tokens
  | .choose c m r => c.tokens ++ .question :: (m.tokens ++ .colon :: r.tokens)

/-! ### Meaning -/

/-- A value and the operands that are evaluated for it, or a failure. -/
abbrev Meaning (T D O : Type) := Except (Fault T) (Value T D × List O)

/-- `!`. -/
def negated (m : Meaning T D O) : Meaning T D O :=
  m.bind fun x => (convertBool x.1).map fun b => (.bool !b, x.2)

/-- A comparison. -/
def compared [DecidableEq T] (types : Types T D) (op : Comparison) (l r : Meaning T D O) :
    Meaning T D O :=
  l.bind fun x => r.bind fun y =>
    (compareValues types op x.1 y.1).map fun b => (.bool b, x.2 ++ y.2)

/-- `&&` and `||`: the right operand is not evaluated if the left one decides. -/
def logical (short : Bool) (l r : Meaning T D O) : Meaning T D O :=
  l.bind fun x => (convertBool x.1).bind fun b =>
    if b = short then .ok (.bool b, x.2)
    else r.bind fun y => (convertBool y.1).map fun b => (.bool b, x.2 ++ y.2)

/-- `?:`: one of the two is evaluated. -/
def chosen (c m r : Meaning T D O) : Meaning T D O :=
  c.bind fun x => (convertBool x.1).bind fun q =>
    (if q then m else r).map fun y => (y.1, x.2 ++ y.2)

def EvalValue.eval (value : O → Value T D) : EvalValue O → Meaning T D O
  | operand o => .ok (value o, [o])
  | logNot v => negated (v.eval value)

variable [DecidableEq T] (types : Types T D) (value : O → Value T D)

def EvalComp.eval (c : EvalComp O) : Meaning T D O :=
  c.rest.foldl (fun l p => compared types p.1 l (p.2.eval value)) (c.first.eval value)

def EvalAnd.eval (a : EvalAnd O) : Meaning T D O :=
  (a.rest.map (EvalComp.eval types value)).foldl (logical false) (a.first.eval types value)

def EvalOr.eval (a : EvalOr O) : Meaning T D O :=
  (a.rest.map (EvalAnd.eval types value)).foldl (logical true) (a.first.eval types value)

def EvalTernary.eval : EvalTernary O → Meaning T D O
  | .value c => c.eval types value
  | .choose c m r => chosen (c.eval types value) m.eval r.eval

/-! ### Results that are not converted -/

/-- The first operand decides and is not of type `bool`. -/
def Decides (short : Bool) (m : Meaning T D O) : Prop :=
  ∃ r, m = .ok r ∧ convertBool r.1 = .ok short ∧ r.1 ≠ .bool short

/-- A result of `&&` with a first operand that is an untyped `false`. -/
def EvalAnd.Unconverted (a : EvalAnd O) : Prop :=
  a.rest ≠ [] ∧ Decides false (a.first.eval types value)

/-- A result of `||` with a first operand that is an untyped `true`, or that of its only operand. -/
def EvalOr.Unconverted (a : EvalOr O) : Prop :=
  (a.rest = [] ∧ a.first.Unconverted types value) ∨
    (a.rest ≠ [] ∧ Decides true (a.first.eval types value))

/-- Such a result of the expression that is selected. -/
def EvalTernary.Unconverted : EvalTernary O → Prop
  | .value c => c.Unconverted types value
  | .choose c m r => ∃ x q, c.eval types value = .ok x ∧ convertBool x.1 = .ok q ∧
      ((q = true ∧ m.Unconverted) ∨ (q = false ∧ r.Unconverted))

end Build2.Libbuild2.Eval
