import Build2.Lib.Words

/-! # Build class expressions

`build_class_term` and `build_class_expr` of `manifest.cxx`, without the match (`BuildClass.Match`).
The representation is read word by word. A position in it is kept as the text that follows it, and
the loop over the words, which also runs for each expression in parentheses, takes one unit of fuel
for a word: there is always enough for the text (`ofString_ne_exhausted`). -/

namespace Build2.Libbpkg.BuildClass

open Build2.Lib.ByteString Build2.Lib.Words

/-- How a call ends when it does not return. Running out of fuel is no behaviour of the source. -/
inductive Fault
  | invalidArgument (what : Bytes)
  | exhausted
  deriving DecidableEq, Repr

/-- The text of an error, quoting a part of the representation. -/
def quoting (before : String) (s : Bytes) (after : String) : Fault :=
  .invalidArgument (str before.toList ++ s ++ str after.toList)

/-- An error. -/
def invalid (what : String) : Fault := .invalidArgument (str what.toList)

/-- `build_class_term::operation`. -/
inductive Operation
  | plus
  | minus
  | and
  deriving DecidableEq, Repr

def Operation.char : Operation → UInt8
  | plus => ch '+'
  | minus => ch '-'
  | and => ch '&'

def Operation.ofChar (b : UInt8) : Option Operation :=
  if b = ch '+' then some plus
  else if b = ch '-' then some minus
  else if b = ch '&' then some and
  else none

/-- `build_class_term`: a class name or a parenthesized expression. -/
inductive Term
  | simple (operation : Operation) (inverted : Bool) (name : Bytes)
  | compound (operation : Operation) (inverted : Bool) (expr : List Term)
  deriving Repr

def Term.operation : Term → Operation
  | simple o _ _ => o
  | compound o _ _ => o

def Term.inverted : Term → Bool
  | simple _ i _ => i
  | compound _ i _ => i

/-- `build_class_expr`. -/
structure Expr where
  comment : Bytes
  underlyingClasses : List Bytes
  expr : List Term
  deriving Repr

/-- The default delimiters of `next_word`. -/
def isDelim (b : UInt8) : Bool := b = ch ' ' || b = 0

/-- `next_word` of `utility.ixx`: the next word and the position after it. -/
def nextWord (s : Bytes) : Option (Bytes × Bytes) :=
  match s.dropWhile isDelim with
  | [] => none
  | b :: s => some (b :: s.takeWhile fun c => !isDelim c, s.dropWhile fun c => !isDelim c)

/-- The characters that a class name may contain. -/
def isNameChar (b : UInt8) : Bool :=
  isAlnum b || b = ch '+' || b = ch '-' || b = ch '_' || b = ch '.'

/-- `build_class_term::validate_name`: whether the name is reserved. -/
def validateName (s : Bytes) : Except Fault Bool :=
  if s = [] then .error (invalid "empty class name")
  else if !(isAlnum (hd s) || hd s = ch '_') then
    .error (.invalidArgument
      (str "class name '".toList ++ s ++ str "' starts with '".toList ++ [hd s] ++ [ch '\'']))
  else
    match s.tail.find? fun c => !isNameChar c with
    | some c =>
      .error (.invalidArgument
        (str "class name '".toList ++ s ++ str "' contains '".toList ++ [c] ++ [ch '\'']))
    | none => .ok (decide (hd s = ch '_'))

/-- What a word says about the term it starts: the operation, whether the term is inverted, and the
rest of the word. The first term in parentheses can only be added. -/
def termHead (first : Bool) (t : Bytes) : Except Fault (Operation × Bool × Bytes) :=
  match Operation.ofChar (hd t) with
  | none => .error (quoting "class term '" t "' must start with '+', '-', or '&'")
  | some op =>
    if op ≠ .plus ∧ first then .error (quoting "class term '" t "' must start with '+'")
    else if hd t.tail = ch '!' then .ok (op, true, t.tail.tail)
    else .ok (op, false, t.tail)

/-- The loop of `parse_build_class_expr`, at the root or inside parentheses: the terms, and the
position after the closing parenthesis. -/
def parseExpr : ℕ → Bool → List Term → Bytes → Except Fault (List Term × Bytes)
  | 0, _, _, _ => .error .exhausted
  | n + 1, root, r, s =>
    match nextWord s with
    | none =>
      if root then .ok (r, [])
      else .error (invalid "nested class expression must be closed with ')'")
    | some (t, s) =>
      if t = [ch ')'] then
        if root then .error (invalid "class term expected instead of ')'")
        else if r.isEmpty then .error (invalid "empty nested class expression")
        else .ok (r, s)
      else
        match termHead (r.isEmpty && !root) t with
        | .error e => .error e
        | .ok (op, inv, nm) =>
          if nm = [ch '('] then
            match parseExpr n false [] s with
            | .error e => .error e
            | .ok (e, s) => parseExpr n root (r ++ [.compound op inv e]) s
          else
            match validateName nm with
            | .error e => .error e
            | .ok _ => parseExpr n root (r ++ [.simple op inv nm]) s

/-- The loop of the constructor: the underlying classes and the position at which the expression
starts. -/
def parseUnderlying : ℕ → List Bytes → Bytes → Except Fault (List Bytes × Bytes)
  | 0, _, _ => .error .exhausted
  | n + 1, us, s =>
    match nextWord s with
    | none => .ok (us, [])
    | some (nm, s) =>
      if (Operation.ofChar (hd nm)).isSome then
        if us.isEmpty then .ok (us, nm ++ s) -- back to the beginning of the term
        else .error (invalid "class expression separator ':' expected")
      else if nm = [ch ':'] then
        if us.isEmpty then .error (invalid "underlying class set expected") else .ok (us, s)
      else
        match validateName nm with
        | .error e => .error e
        | .ok _ => parseUnderlying n (us ++ [nm]) s

/-- The constructor of `build_class_expr`. -/
def Expr.ofString (s c : Bytes) : Except Fault Expr :=
  match parseUnderlying (s.length + 1) [] s with
  | .error e => .error e
  | .ok (us, t) =>
    match parseExpr (t.length + 1) true [] t with
    | .error e => .error e
    | .ok (e, _) =>
      if e.isEmpty ∧ us.isEmpty then .error (invalid "empty class expression") else .ok ⟨c, us, e⟩

/-- A word appended to a text. -/
def spaced (r w : Bytes) : Bytes := if r.isEmpty then w else r ++ ch ' ' :: w

mutual

/-- The text of a term in `to_string`. -/
def Term.toText : Term → Bytes
  | .simple o i n => o.char :: ((if i then [ch '!'] else []) ++ n)
  | .compound o i e =>
    o.char :: ((if i then [ch '!'] else []) ++
      (ch '(' :: ch ' ' :: (toText [] e ++ [ch ' ', ch ')'])))

/-- The loop of `to_string`. -/
def toText : Bytes → List Term → Bytes
  | r, [] => r
  | r, t :: ts => toText (spaced r t.toText) ts

end

/-- `build_class_expr::string`. -/
def Expr.string (e : Expr) : Bytes :=
  let r := e.underlyingClasses.foldl spaced []
  if e.expr.isEmpty then r
  else if r.isEmpty then toText [] e.expr
  else r ++ ch ' ' :: ch ':' :: ch ' ' :: toText [] e.expr

end Build2.Libbpkg.BuildClass
