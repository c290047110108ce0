import Build2.Lib.Decimal
import Build2.Lib.Percent
import Build2.Lib.Stateful

/-! # URLs

`basic_url` with its host and authority: the constructor from a string and `string`. The traits are
a parameter: they translate the scheme and the path, both ways. A scanning position is the suffix
that starts there. -/

namespace Build2.Libbutl.Url

open Build2.Lib.ByteString Build2.Lib.Decimal Build2.Lib.Percent

/-- What is thrown: `std::invalid_argument`, `std::out_of_range` (by `stoull`), a failed
assertion. -/
inductive Fault
  | invalidArgument
  | outOfRange
  | assertion
  deriving DecidableEq, Repr

/-! ### Classes of characters -/

def subDelim (c : UInt8) : Bool := c ∈ str ['!', '$', '&', '=', '(', ')', '*', '+', ',', ';', '\'']

def unreserved (c : UInt8) : Bool := isAlnum c || c ∈ str ['-', '.', '_', '~']

def pathChar (c : UInt8) : Bool :=
  c = ch '/' || c = ch ':' || unreserved c || c = ch '@' || subDelim c

/-- A character of a scheme behind the first. -/
def schemeChar (c : UInt8) : Bool := isAlnum c || c = ch '+' || c = ch '-' || c = ch '.'

/-- A character that the authority does not go past. -/
def isDelim (c : UInt8) : Bool := c = ch '/' || c = ch '?' || c = ch '#'

/-- `url::decode`. -/
def decodeUrl (s : Bytes) : Except Fault Bytes :=
  match decode s with
  | some w => .ok w
  | none => .error .invalidArgument

/-! ### Host -/

inductive HostKind
  | ipv4
  | ipv6
  | name
  deriving DecidableEq, Repr

structure Host where
  value : Bytes := []
  kind : HostKind := .name
  deriving DecidableEq, Repr

/-- The loop that detects an IPv4 address: the octets read and the digits of the next one. -/
structure Octets where
  n : ℕ := 0
  oct : Bytes := []
  deriving DecidableEq, Repr

def Octets.ipv4Oct (t : Octets) : Option Octets :=
  if t.n = 4 ∨ t.oct = [] ∨ 3 < t.oct.length ∨ 255 < value t.oct then none else some ⟨t.n + 1, []⟩

def Octets.step (t : Octets) (c : UInt8) : Option Octets :=
  if isDigit c then some ⟨t.n, t.oct ++ [c]⟩ else if c ≠ ch '.' then none else t.ipv4Oct

def isIpv4 (v : Bytes) : Bool :=
  match v.foldlM Octets.step {} with
  | none => false
  | some t =>
    match t.ipv4Oct with
    | none => false
    | some t => t.n = 4

/-- A character of a host name. -/
def hostChar (c : UInt8) : Bool := unreserved c || subDelim c || c = ch '%'

/-- `basic_url_host (string_type)`. -/
def Host.ofString (v : Bytes) : Except Fault Host :=
  if hd v = ch '[' then
    if v.getLast? ≠ some (ch ']') then .error .invalidArgument
    else .ok ⟨(v.drop 1).take (v.length - 2), .ipv6⟩
  else if isIpv4 v then .ok ⟨v, .ipv4⟩
  else if v.all hostChar then
    if ch '%' ∈ v then (decodeUrl v).map fun v => ⟨v, .name⟩ else .ok ⟨v, .name⟩
  else .error .invalidArgument

def Host.empty (h : Host) : Except Fault Bool :=
  if h.kind = .name ∨ h.value ≠ [] then .ok (h.value = []) else .error .assertion

/-- A character outside the ASCII character set. -/
def nonAscii (c : UInt8) : Bool := 0x80 ≤ c

def Host.string (h : Host) : Except Fault Bytes := do
  if ← h.empty then
    return []
  match h.kind with
  | .ipv4 => return h.value
  | .ipv6 => return ch '[' :: h.value ++ [ch ']']
  | .name => return encode nonAscii h.value

/-! ### Authority -/

structure Authority where
  /-- Empty if not specified. -/
  user : Bytes := []
  host : Host := {}
  /-- Zero if not specified. -/
  port : ℕ := 0
  deriving DecidableEq, Repr

def Authority.empty (a : Authority) : Except Fault Bool := do
  if (← a.host.empty) && !(a.user = [] && a.port = 0) then throw .assertion
  a.host.empty

def Authority.string (a : Authority) : Except Fault Bytes := do
  if ← a.empty then
    return []
  let h ← a.host.string
  return (if a.user ≠ [] then a.user ++ [ch '@'] else []) ++ h ++
    if a.port ≠ 0 then ch ':' :: decimal a.port else []

/-- The user information, in front of the first `@`, and what is behind it. -/
def splitUser (auth : Bytes) : Bytes × Bytes :=
  match auth.dropWhile (· ≠ ch '@') with
  | [] => ([], auth)
  | _ :: rest => (auth.takeWhile (· ≠ ch '@'), rest)

/-- What is in front of the last byte of a class, the byte, and what is behind it. -/
def splitLast (p : UInt8 → Bool) : Bytes → Option (Bytes × UInt8 × Bytes)
  | [] => none
  | c :: s =>
    match splitLast p s with
    | some (a, d, b) => some (c :: a, d, b)
    | none => if p c then some ([], c, s) else none

/-- The byte that the port is looked for behind, or that says there is none. -/
def isPortMark (c : UInt8) : Bool := c = ch ']' || c = ch ':'

/-- The host and the port. -/
def splitPort (auth : Bytes) : Bytes × Bytes :=
  match splitLast isPortMark auth with
  | none => (auth, [])
  | some (host, c, port) => if c = ch ']' then (auth, []) else (host, port)

def parsePort (port : Bytes) : Except Fault ℕ :=
  if port = [] then .ok 0
  else if !port.all isDigit then .error .invalidArgument
  else if 2 ^ 64 ≤ value port then .error .outOfRange
  else if value port = 0 ∨ 65535 < value port then .error .invalidArgument
  else .ok (value port)

def parseAuthority (auth : Bytes) : Except Fault Authority := do
  let (user, rest) := splitUser auth
  let (host, port) := splitPort rest
  let port ← parsePort port
  if host = [] ∧ (user ≠ [] ∨ port ≠ 0) then throw .invalidArgument
  let host ← Host.ofString host
  return ⟨user, host, port⟩

/-! ### URL -/

/-- What a URL has behind the scheme. -/
structure Components (P : Type) where
  authority : Option Authority := none
  path : Option P := none
  query : Option Bytes := none
  fragment : Option Bytes := none
  rootless : Bool := false
  deriving DecidableEq, Repr

structure BasicUrl (H P : Type) extends Components P where
  scheme : H
  empty : Bool := false
  deriving DecidableEq, Repr

/-- `url_traits`. -/
structure Traits (H P : Type) where
  /-- `translate_scheme` from the URL, the scheme and the components, which it may change. -/
  ofScheme : Bytes → Bytes → Components P → Except Fault (Option H × Components P)
  /-- `translate_scheme` to a custom representation, if not empty, and the scheme. -/
  schemeString : H → Components P → Except Fault (Bytes × Bytes)
  /-- `translate_path` from the URL-encoded string. -/
  ofPath : Bytes → Except Fault P
  /-- `translate_path` to the URL-encoded string. -/
  pathString : P → Bytes

variable {H P : Type}

/-- The scheme and the suffix that starts with its `:`, or the end. -/
def scanScheme (first : Bool) : Bytes → Except Fault (Bytes × Bytes)
  | [] => .ok ([], [])
  | c :: s =>
    if c = ch ':' then .ok ([], c :: s)
    else if !(if first then isAlpha c else schemeChar c) then .error .invalidArgument
    else (scanScheme false s).map fun p => (c :: p.1, p.2)

/-- Extracts the scheme and skips the `:`. -/
def parseScheme (u : Bytes) : Except Fault (Bytes × Bytes) := do
  let (sc, rest) ← scanScheme true u
  if sc = [] ∨ rest = [] ∨ sc.length = 1 then throw .invalidArgument
  return (sc, rest.drop 1)

/-- The authority, if any, and the suffix behind it. -/
def parseHier (i : Bytes) : Except Fault (Option Authority × Bytes) :=
  if [ch '/', ch '/'] <+: i then
    let i := i.drop 2
    (parseAuthority (i.takeWhile fun c => !isDelim c)).map fun a =>
      (some a, i.dropWhile fun c => !isDelim c)
  else .ok (none, i)

def isPathEnd (c : UInt8) : Bool := c = ch '?' || c = ch '#'

/-- The path and whether it is rootless, and the suffix behind it. -/
def parsePath (T : Traits H P) (i : Bytes) : Except Fault ((Option P × Bool) × Bytes) := do
  if i = [] ∨ isPathEnd (hd i) then
    return ((none, false), i)
  let rootless := hd i ≠ ch '/'
  let i := if rootless then i else i.drop 1
  let text := i.takeWhile fun c => !isPathEnd c
  if !text.all (fun c => pathChar c || c = ch '%') then throw .invalidArgument
  let path ← T.ofPath text
  return ((some path, rootless), i.dropWhile fun c => !isPathEnd c)

/-- The query and the suffix behind it. -/
def parseQuery (i : Bytes) : Option Bytes × Bytes :=
  if hd i = ch '?' then
    let i := i.drop 1
    (some (i.takeWhile (· ≠ ch '#')), i.dropWhile (· ≠ ch '#'))
  else (none, i)

/-- The fragment, to the end. -/
def parseFragment (i : Bytes) : Option Bytes := if i = [] then none else some (i.drop 1)

def makeUrl (s : H) (c : Components P) : BasicUrl H P := { c with scheme := s }

/-- The `try` block of the constructor. -/
def parseUrl (T : Traits H P) (u : Bytes) : Except Fault (BasicUrl H P) := do
  if u = [] then throw .invalidArgument
  let (sc, i) ← parseScheme u
  let (authority, i) ← parseHier i
  let ((path, rootless), i) ← parsePath T i
  let (query, i) := parseQuery i
  match ← T.ofScheme u sc ⟨authority, path, query, parseFragment i, rootless⟩ with
  | (some s, c) => return makeUrl s c
  | (none, _) => throw .assertion

/-- `basic_url (const string_type&)`: what fails to parse is left to the traits, without a
scheme. -/
def BasicUrl.ofString (T : Traits H P) (u : Bytes) : Except Fault (BasicUrl H P) :=
  match parseUrl T u with
  | .error .invalidArgument => do
    match ← T.ofScheme u [] {} with
    | (some s, c) => return makeUrl s c
    | (none, _) => throw .invalidArgument
  | r => r

def BasicUrl.string (T : Traits H P) (u : BasicUrl H P) : Except Fault Bytes := do
  if u.empty then
    return []
  let (custom, sc) ← T.schemeString u.scheme u.toComponents
  if custom ≠ [] then
    return custom
  let r := if sc ≠ [] then sc ++ [ch ':'] else sc
  let r ← match u.authority with
    | none => pure r
    | some a => a.string.map fun s => (if r ≠ [] then r ++ [ch '/', ch '/'] else r) ++ s
  let r := match u.path with
    | none => r
    | some p => (if u.rootless then r else r ++ [ch '/']) ++ T.pathString p
  let r := match u.query with
    | none => r
    | some q => r ++ ch '?' :: q
  return match u.fragment with
    | none => r
    | some f => r ++ ch '#' :: f

/-! ### The URL of strings -/

/-- `url_traits<std::string>`: every non-empty scheme is as it is, and the path is decoded. -/
def stringTraits : Traits Bytes Bytes where
  ofScheme _ sc c := .ok (if sc ≠ [] then some sc else none, c)
  schemeString s _ := .ok ([], s)
  ofPath := decodeUrl
  pathString := encode fun c => !pathChar c

/-- `url`. -/
abbrev StringUrl := BasicUrl Bytes Bytes

def StringUrl.ofString (s : Bytes) : Except Fault StringUrl := BasicUrl.ofString stringTraits s

def StringUrl.string (u : StringUrl) : Except Fault Bytes := BasicUrl.string stringTraits u

end Build2.Libbutl.Url
