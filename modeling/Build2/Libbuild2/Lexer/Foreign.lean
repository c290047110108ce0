import Build2.Libbutl.CharScanner.Delivery

/-! # Foreign blocks

`lexer::next_foreign` of `lexer.cxx`, over the character scanner. Each loop takes one unit of fuel
for a character. The candidates for closing braces are appended to the lexeme before it is known
what they are. -/

namespace Build2.Libbuild2.Lexer

open Build2.Lib.ByteString Build2.Libbutl.Utf8 Build2.Libbutl.CharScanner

/-! ### The code -/

/-- The types of the tokens that the foreign mode returns. -/
inductive TokenType
  | eos
  | word
  | multiRcbrace
  deriving DecidableEq, Repr

/-- `quote_type`. -/
inductive QuoteType
  | unquoted
  | single
  | double
  | mixed
  deriving DecidableEq, Repr

/-- `token`, without its printer. -/
structure Token where
  type : TokenType
  value : Bytes
  separated : Bool
  qtype : QuoteType
  qcomp : Bool
  line : ℕ
  column : ℕ
  deriving DecidableEq, Repr

/-- `lexer::state`, as far as the foreign mode reads it. -/
structure State where
  data : UInt64
  hold : Option Token

/-- How a call ends when it does not return. Running out of fuel is no behaviour of the source. -/
inductive Fault
  | failed (what : String) (line column : ℕ)
  | exhausted
  deriving DecidableEq, Repr

/-- The validator of the lexer. -/
def lexerValidator : Validator := ⟨.graphic, [10, 13, 9]⟩

/-- `lexer::get`. -/
def get (s : Scanner) : Except Fault (XChar × Scanner) :=
  if s.get.1.result = .invalid then .error (.failed s.peek.what s.get.1.line s.get.1.column)
  else .ok s.get

/-- `lexer::peek`. -/
def peek (s : Scanner) : Except Fault (XChar × Scanner) :=
  if s.peek.c.result = .invalid then .error (.failed s.peek.what s.peek.c.line s.peek.c.column)
  else .ok (s.peek.c, s.peek.scanner)

/-- The loop over the blanks at the beginning of a line. -/
def skipBlanks : ℕ → Bytes → XChar → Scanner → Except Fault (Bytes × XChar × Scanner)
  | 0, _, _, _ => .error .exhausted
  | m + 1, lexeme, c, s =>
    if isBlank c.char then
      match get s with
      | .error e => .error e
      | .ok (c', s) => skipBlanks m (lexeme ++ [c.char]) c' s
    else .ok (lexeme, c, s)

/-- The loop over the closing braces, which stops in front of the character after the last one that
is expected. -/
def countBraces : ℕ → UInt64 → Bytes → XChar → Scanner →
    Except Fault (UInt64 × Bytes × XChar × Scanner)
  | 0, _, _, _, _ => .error .exhausted
  | m + 1, i, lexeme, c, s =>
    if c.char = ch '}' then
      if i - 1 = 0 then .ok (i - 1, lexeme ++ [c.char], c, s)
      else
        match get s with
        | .error e => .error e
        | .ok (c', s) => countBraces m (i - 1) (lexeme ++ [c.char]) c' s
    else .ok (i, lexeme, c, s)

/-- The loop over the blanks behind the braces. The character after them is only peeked. -/
def peekBlanks : ℕ → Bytes → Scanner → Except Fault (Bytes × XChar × Scanner)
  | 0, _, _ => .error .exhausted
  | m + 1, lexeme, s =>
    match peek s with
    | .error e => .error e
    | .ok (c, s) =>
      if isBlank c.char then
        match get s with
        | .error e => .error e
        | .ok (c', s) => peekBlanks m (lexeme ++ [c'.char]) s
      else .ok (lexeme, c, s)

/-- What the beginning of a line turns out to be. -/
inductive Line
  | closing (line column : ℕ) (s : Scanner)
  | other (lexeme : Bytes) (c : XChar) (s : Scanner)

/-- Recognizing the closing braces at the first character of a line. -/
def recognize (m : ℕ) (count : UInt64) (lexeme : Bytes) (c : XChar) (s : Scanner) :
    Except Fault Line :=
  match skipBlanks m lexeme c s with
  | .error e => .error e
  | .ok (lexeme, c, s) =>
    match countBraces m count lexeme c s with
    | .error e => .error e
    | .ok (i, lexeme, c', s) =>
      if i = 0 then
        match peekBlanks m lexeme s with
        | .error e => .error e
        | .ok (lexeme, d, s) =>
          if d.char = lf ∨ d.char = ch '#' ∨ d.eos then .ok (.closing c.line c.column s)
          else
            match get s with
            | .error e => .error e
            | .ok (_, s) => .ok (.other lexeme d s)
      else .ok (.other lexeme c' s)

/-- How the loop over the characters ends. -/
inductive Block
  | closed (lexeme : Bytes) (line column : ℕ) (s : Scanner)
  | unclosed (c : XChar) (s : Scanner)

end Build2.Libbuild2.Lexer
