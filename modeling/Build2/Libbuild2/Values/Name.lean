import Build2.Libbutl.Paths.Basic

/-! # Names

The build system's project names and names (`project-name.mxx`, `name.hxx`). -/

namespace Build2.Libbuild2.Values

open Build2.Lib.ByteString Build2.Libbutl.Paths

/-- `project_name`. Besides the names that comply with the specification there are the empty one and
raw strings. -/
structure ProjectName where
  value : Bytes
  deriving DecidableEq, Repr

/-- `com1`, ..., `com9` and `lpt1`, ..., `lpt9`. -/
def numbered (p : Bytes) : List Bytes := (List.range 9).map fun i => p ++ [ch '1' + UInt8.ofNat i]

def illegalPrjNames : List Bytes :=
  [str ['b', 'u', 'i', 'l', 'd'], str ['c', 'o', 'n'], str ['p', 'r', 'n'], str ['a', 'u', 'x'],
    str ['n', 'u', 'l']] ++ numbered (str ['c', 'o', 'm']) ++ numbered (str ['l', 'p', 't'])

def legalPrjChars : Bytes := str ['_', '+', '-', '.']

namespace ProjectName

/-- `project_name (string)`, or `invalid_argument`. -/
def ofString (nm : Bytes) : Option ProjectName :=
  if nm.length < 2 then none
  else if nm ∈ illegalPrjNames then none
  else if !isAlpha (hd nm) then none
  else if nm.tail.dropLast.any fun c => !(isAlnum c || legalPrjChars.contains c) then none
  else if !isAlnum (nm.getLastD 0) && nm.getLastD 0 != ch '+' then none
  else some ⟨nm⟩

/-- `project_name ()`. -/
def empty : ProjectName := ⟨[]⟩

def isEmpty (p : ProjectName) : Bool := p.value.isEmpty

/-- The empty name and those that comply with the specification. -/
def Valid (p : ProjectName) : Prop := p = empty ∨ ofString p.value = some p

end ProjectName

/-- `name`. "A type or project can only be specified if either directory or value are not empty." -/
structure Name where
  proj : Option ProjectName
  dir : DirPath
  type : Bytes
  value : Bytes
  pair : UInt8
  formed : dir = .empty → value = [] → proj = none ∧ type = []
  deriving DecidableEq

namespace Name

/-- `name (dir, string (), value)`. -/
def plain (dir : DirPath) (value : Bytes) : Name :=
  ⟨none, dir, [], value, 0, fun _ _ => ⟨rfl, rfl⟩⟩

/-- `name (value)`. -/
def ofValue (value : Bytes) : Name := plain .empty value

/-- `name (dir)`. -/
def ofDir (dir : DirPath) : Name := plain dir []

/-- `name ()`. -/
def default : Name := plain .empty []

/-- The name with another pair character. -/
def withPair (n : Name) (c : UInt8) : Name := { n with pair := c }

variable (n : Name)

def qualified : Bool := n.proj.isSome

def unqualified : Bool := !n.qualified

def untyped : Bool := n.type.isEmpty

def empty : Bool := n.dir.isEmpty && n.value.isEmpty

def simple (ignoreQual : Bool) : Bool :=
  (ignoreQual || n.unqualified) && n.untyped && n.dir.isEmpty

def directory (ignoreQual : Bool) : Bool :=
  (ignoreQual || n.unqualified) && n.untyped && !n.dir.isEmpty && n.value.isEmpty

variable {n} {d : DirPath} {v : Bytes}

@[simp] theorem plain_dir : (plain d v).dir = d := rfl

@[simp] theorem plain_value : (plain d v).value = v := rfl

@[simp] theorem plain_pair : (plain d v).pair = 0 := rfl

@[simp] theorem plain_proj : (plain d v).proj = none := rfl

@[simp] theorem qualified_plain : (plain d v).qualified = false := rfl

@[simp] theorem unqualified_plain : (plain d v).unqualified = true := rfl

@[simp] theorem untyped_plain : (plain d v).untyped = true := rfl

@[simp] theorem empty_plain : (plain d v).empty = (d.isEmpty && v.isEmpty) := rfl

@[simp] theorem simple_plain (q : Bool) : (plain d v).simple q = d.isEmpty := by
  simp [simple]

@[simp] theorem directory_plain (q : Bool) :
    (plain d v).directory q = (!d.isEmpty && v.isEmpty) := by
  simp [directory]

/-- **An empty name has no parts at all.** -/
theorem eq_of_empty (h : n.empty = true) : n = default.withPair n.pair := by
  obtain ⟨proj, dir, type, value, pair, formed⟩ := n
  simp only [empty, Bool.and_eq_true, AnyPath.isEmpty_iff, List.isEmpty_iff] at h
  obtain ⟨hd, rfl⟩ := h
  obtain rfl : dir = .empty := DirPath.ext (congrArg AnyPath.data hd)
  obtain ⟨rfl, rfl⟩ := formed rfl rfl
  rfl

end Name

end Build2.Libbuild2.Values
