import Build2.Libbutl.Utf8

/-! # The character scanner

`char_scanner` of `libbutl` with the UTF-8 validator, over an input stream. It peeks and gets
characters with their line, column and position, translates CR and CRLF to a newline, and takes
bytes directly from the buffer of an `ifdstream`. `char` is a signed type of 8 bits and the end of
file is `-1`. The facility to save the raw data is left out. -/

namespace Build2.Libbutl.CharScanner

open Build2.Lib.ByteString Build2.Libbutl.Utf8

/-! ### Streams -/

/-- What one read of the underlying file gives: at least one byte. -/
abbrev Chunk : Type := {b : Bytes // b ≠ []}

/-- An input stream: whether its buffer is an `fdbuf`, the get area of the buffer, what the reads to
come give, and the number of bytes that have been got. -/
structure Stream where
  fd : Bool
  area : Bytes
  chunks : List Chunk
  offset : Nat

/-- `traits_type::eof ()`. -/
def eof : Int := -1

/-- The bytes to come. -/
def Stream.rest (is : Stream) : Bytes := is.area ++ (is.chunks.map Subtype.val).flatten

/-- `underflow`, if the get area is empty. -/
def Stream.underflow (is : Stream) : Stream :=
  match is.area, is.chunks with
  | [], c :: cs => { is with area := c.1, chunks := cs }
  | _, _ => is

/-- The first byte of the get area as an `int_type`. -/
def Stream.head (is : Stream) : Int :=
  match is.area with
  | [] => eof
  | b :: _ => b.toNat

/-- `gbump (1)`. -/
def Stream.bump (is : Stream) : Stream :=
  match is.area with
  | [] => is
  | _ :: area => { is with area, offset := is.offset + 1 }

/-! ### Characters -/

/-- `xchar`. -/
structure XChar where
  value : Int
  line : Nat
  column : Nat
  position : Nat

/-- `xchar::invalid ()`. -/
def invalid : Int := -2147483648

/-- What a character, the end of the stream and an invalid character are for the client. -/
inductive Result
  | char (c : UInt8)
  | eos
  | invalid
  deriving DecidableEq, Repr

/-- `static_cast<char> (v)`. -/
def toChar (v : Int) : UInt8 := UInt8.ofNat (v % 256).toNat

def XChar.result (c : XChar) : Result :=
  if c.value = eof then .eos
  else if c.value = CharScanner.invalid then .invalid
  else .char (toChar c.value)

/-- The conversion of an `xchar` to `char`. -/
def XChar.char (c : XChar) : UInt8 :=
  match c.result with
  | .char b => b
  | _ => 0

/-- `eos (c)`. -/
def XChar.eos (c : XChar) : Bool := c.value = eof

/-! ### The scanner -/

/-- `char_scanner`. The pointers `gptr_` and `egptr_` are those of the buffer (`direct`) or equal to
each other. -/
structure Scanner where
  stream : Stream
  direct : Bool
  crlf : Bool
  line : Nat
  column : Nat
  position : Nat
  val : Validator
  seq : Option Seq
  decoded : Bool
  validated : Bool
  eos : Bool
  unpeek : Option XChar
  unget : List XChar

namespace Scanner

/-- The constructor. -/
def open' (is : Stream) (val : Validator) (crlf : Bool) : Scanner where
  stream := is
  direct := false
  crlf
  line := 1
  column := 1
  position := 0
  val
  seq := none
  decoded := true
  validated := false
  eos := false
  unpeek := none
  unget := []

/-- The bytes from `gptr_` to `egptr_`. -/
def fast (s : Scanner) : Bytes := if s.direct then s.stream.area else []

/-- The value that `peek_` returns. -/
def raw (s : Scanner) : Int :=
  match s.fast with
  | b :: _ => b.toInt8.toInt
  | [] => s.stream.underflow.head

/-- The scanner after `peek_`. -/
def fill (s : Scanner) : Scanner :=
  match s.fast with
  | _ :: _ => s
  | [] => { s with stream := s.stream.underflow, direct := s.stream.fd || s.direct }

/-- `peek_`. -/
def peekByte (s : Scanner) : Int × Scanner := (s.raw, s.fill)

/-- `get_`. -/
def getByte (s : Scanner) : Scanner :=
  match s.fast with
  | _ :: _ => { s with stream := s.stream.bump, validated := false }
  | [] => { s with stream := s.stream.underflow.bump, direct := false, validated := false }

/-- `pos_`. -/
def pos (s : Scanner) : Nat := if s.stream.fd then s.stream.offset else 0

/-! ### The bytes of the stream -/

theorem rest_underflow (is : Stream) : is.underflow.rest = is.rest := by
  obtain ⟨fd, area, chunks, offset⟩ := is
  cases area with
  | cons b a => rfl
  | nil =>
    cases chunks with
    | nil => rfl
    | cons c cs => rfl

theorem rest_bump (is : Stream) (h : is.area ≠ []) : is.bump.rest = is.rest.tail := by
  obtain ⟨fd, area, chunks, offset⟩ := is
  obtain ⟨b, a, rfl⟩ := List.exists_cons_of_ne_nil h
  rfl

/-- Only at the end of the bytes there is nothing to fill the get area with. -/
theorem rest_of_underflow_nil {is : Stream} (h : is.underflow.area = []) : is.rest = [] := by
  obtain ⟨fd, area, chunks, offset⟩ := is
  cases area with
  | cons b a => cases h
  | nil =>
    cases chunks with
    | nil => rfl
    | cons c cs => exact absurd h c.2

theorem area_ne_nil_of_fast {s : Scanner} {b : UInt8} {a : Bytes} (h : s.fast = b :: a) :
    s.direct = true ∧ s.stream.area = b :: a := by
  unfold fast at h
  split_ifs at h with hd
  exact ⟨hd, h⟩

@[simp] theorem rest_fill (s : Scanner) : s.fill.stream.rest = s.stream.rest := by
  unfold fill
  split
  · rfl
  · exact rest_underflow _

@[simp] theorem rest_getByte (s : Scanner) : s.getByte.stream.rest = s.stream.rest.tail := by
  unfold getByte
  split
  · rename_i h
    obtain ⟨-, ha⟩ := area_ne_nil_of_fast h
    exact rest_bump _ (by rw [ha]; nofun)
  · show s.stream.underflow.bump.rest = _
    by_cases h : s.stream.underflow.area = []
    · rw [Stream.bump, h, rest_underflow, rest_of_underflow_nil h]
      rfl
    · rw [rest_bump _ h, rest_underflow]

theorem raw_of_rest_nil {s : Scanner} (h : s.stream.rest = []) : s.raw = eof := by
  have ha : s.stream.area = [] := (List.append_eq_nil_iff.mp h).1
  have hf : s.fast = [] := by
    unfold fast
    rw [ha, ite_self]
  have hu : s.stream.underflow.area = [] := by
    rw [← rest_underflow] at h
    exact (List.append_eq_nil_iff.mp h).1
  unfold raw
  rw [hf]
  unfold Stream.head
  rw [hu]

/-! ### Peeking and getting -/

/-- The loop of `peek` over a run of CR, after its first one: `v1` and the scanner. -/
def skipCr (s : Scanner) : Int × Scanner :=
  if s.getByte.raw = 13 then s.getByte.fill.skipCr else (s.getByte.raw, s.getByte.fill)
termination_by s.stream.rest.length
decreasing_by
  rename_i h
  rw [rest_fill, rest_getByte, List.length_tail]
  have hne : s.stream.rest ≠ [] := by
    intro hnil
    rw [raw_of_rest_nil (by rw [rest_getByte, hnil, List.tail_nil])] at h
    exact absurd h (by decide)
  have := List.length_pos_of_ne_nil hne
  omega

/-- An `xchar` at the current position. -/
def xchar (s : Scanner) (v : Int) : XChar := ⟨v, s.line, s.column, s.position⟩

/-- What `peek` returns: the character, the description if it is invalid, and the scanner. -/
structure Peeked where
  c : XChar
  what : String
  scanner : Scanner

/-- The lambda `valid`: the result, the description and the scanner. -/
def valid (s : Scanner) (v : Int) : Bool × String × Scanner :=
  if s.validated then (true, "", s)
  else
    let r := s.val.validate (toChar v) s.seq
    (r.next.isSome, r.what,
      { s with seq := r.next.getD s.seq, decoded := r.isLast, validated := true })

/-- `peek` after a byte that is valid. -/
def translate (s : Scanner) (v : Int) : Peeked :=
  if s.crlf ∧ v = 13 then
    let (v1, s) := s.skipCr
    if v1 = 10 then ⟨s.xchar 10, "", s⟩
    -- subsequent calls of `peek` return the newline, too
    else ⟨s.xchar 10, "", { s with unpeek := some (s.xchar 10), eos := v1 = eof }⟩
  else ⟨s.xchar v, "", s⟩

/-- `peek` of a byte that has not been peeked or not been got. -/
def peekNew (s : Scanner) : Peeked :=
  let (v, s) := s.peekByte
  if v = eof then
    if s.decoded then ⟨s.xchar eof, "", { s with eos := true }⟩
    else ⟨s.xchar invalid, "unexpected end of stream", { s with eos := true }⟩
  else
    let (valid, what, s) := s.valid v
    if valid then s.translate v else ⟨s.xchar invalid, what, s⟩

/-- `peek`. -/
def peek (s : Scanner) : Peeked :=
  match s.unget, s.unpeek with
  | c :: _, _ => ⟨c, "", s⟩
  | [], some c => ⟨c, "", s⟩
  | [], none => if s.eos then ⟨s.xchar eof, "", s⟩ else s.peekNew

/-- The stream and the look-ahead after `get` of a character that is not ungot. -/
def consume (c : XChar) (s : Scanner) : Scanner :=
  match s.unpeek with
  | some _ => { s with unpeek := none }
  | none => if c.eos then s else s.getByte

/-- The line, the column and the position after a character. -/
def advance (c : XChar) (s : Scanner) : Scanner :=
  if c.eos then s
  else if c.char = ch '\n' then { s with line := s.line + 1, column := 1, position := s.pos }
  else { s with column := if s.decoded then s.column + 1 else s.column, position := s.pos }

/-- `get (peeked)`. -/
def getPeeked (c : XChar) (s : Scanner) : Scanner :=
  match s.unget with
  | _ :: u => { s with unget := u }
  | [] => (s.consume c).advance c

/-- `get ()`. -/
def get (s : Scanner) : XChar × Scanner :=
  match s.unget with
  | c :: u => (c, { s with unget := u })
  | [] => (s.peek.c, s.peek.scanner.getPeeked s.peek.c)

end Scanner

end Build2.Libbutl.CharScanner
