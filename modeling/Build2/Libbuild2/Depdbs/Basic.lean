import Build2.Lib.Files

/-! # The dependency database

A file of lines, which starts with the version of its format and ends with a NUL, the end marker. It
is read line by line until the first line that is out of date, and written from there on. What is
done to the file itself is recorded step by step. -/

namespace Build2.Libbuild2.Depdbs

open Build2.Lib.ByteString Build2.Lib.Files

/-- The newline. -/
def nl : UInt8 := 10

/-- The end marker. -/
def marker : UInt8 := 0

/-- The version of the format. -/
def version : Bytes := [ch '1']

/-! ### The source -/

/-- `depdb_base::state`. -/
inductive State
  | read
  | readEof
  | write
  deriving DecidableEq, Repr

/-- An open database: what is left to be read and where it starts in the file (`tellg`), the start
of the line that is overwritten (`pos_`), and what has been done to the file so far. -/
structure Depdb where
  state : State
  input : Bytes
  tell : ℕ
  pos : ℕ
  steps : List Step
  deriving DecidableEq, Repr

/-- `change`. -/
def change (db : Depdb) (trunc : Bool) : Depdb :=
  { db with
    state := .write
    steps := db.steps ++ (if trunc then [.truncate db.pos] else []) ++ [.seek db.pos] }

/-- `getline`: the line and what comes after the newline, `none` if there is no newline. -/
def getline : Bytes → Option (Bytes × Bytes)
  | [] => none
  | c :: s => if c = nl then some ([], s) else (getline s).map fun r => (c :: r.1, r.2)

/-- `read_`. -/
def readLine (db : Depdb) : Depdb × Option Bytes :=
  let db := { db with pos := db.tell }
  if db.state = .readEof then (db, none)
  else
    match getline db.input with
    | some (line, c :: s) =>
      ({ db with
          state := if c = marker then .readEof else db.state
          input := c :: s
          tell := db.tell + line.length + 1 },
        some line)
    -- corrupt: no newline or nothing after it
    | _ => (change db true, none)

/-- `read`. -/
def read (db : Depdb) : Depdb × Option Bytes :=
  if db.state = .write then (db, none) else readLine db

/-- `write` without arguments. -/
def overwrite (db : Depdb) : Depdb := if db.state ≠ .write then change db true else db

/-- `write`. -/
def write (db : Depdb) (s : Bytes) (newline : Bool) : Depdb :=
  let db := overwrite db
  { db with steps := db.steps ++ puts s ++ if newline then [.put nl] else [] }

/-- `expect`. -/
def expect (db : Depdb) (v : Bytes) : Depdb × Option Bytes :=
  let (db, l) := read db
  if l = some v then (db, none) else (write db v true, l)

/-- The loop of `skip`: what comes after the end marker, `none` if the end is reached. -/
def skipLoop : Bytes → Option Bytes
  | [] => none
  | [_] => none
  | c :: d :: s =>
    if c = nl then if d = marker then some s else skipLoop s
    else skipLoop (d :: s)

/-- `skip`, in the read state or at the end marker. -/
def skip (db : Depdb) : Depdb × Bool :=
  if db.state = .readEof then (db, true)
  else
    let db := { db with pos := db.tell }
    match skipLoop db.input with
    | some s =>
      let tell := db.tell + (db.input.length - s.length)
      ({ db with state := .readEof, input := s, tell := tell }, true)
    | none => (change db true, false)

/-- `close`. -/
def close (db : Depdb) (touch : Bool) : Depdb :=
  match db.state with
  | .readEof =>
    if touch then
      -- the end marker is written over itself
      let db := change { db with pos := db.tell } false
      { db with steps := db.steps ++ [.put marker] }
    else db
  | .read =>
    let db := change { db with pos := db.tell } true
    { db with steps := db.steps ++ [.put marker] }
  | .write => { db with steps := db.steps ++ [.put marker] }

/-- The constructor, for a file that exists or does not. -/
def openDb : Option Bytes → Depdb
  | none => write { state := .write, input := [], tell := 0, pos := 0, steps := [] } version true
  | some f =>
    let (db, l) := read { state := .read, input := f, tell := 0, pos := 0, steps := [] }
    if l = some version then db else write db version true

/-! ### Sequences of operations -/

/-- A text without newlines and end markers. -/
abbrev Text := {s : Bytes // ∀ b ∈ s, b ≠ nl ∧ b ≠ marker}

/-- The operations on an open database. -/
inductive Op
  | read
  | expect (v : Text)
  | write (s : Text) (newline : Bool)
  | overwrite

/-- An operation with its result, the null pointer if it has none. -/
def Op.apply (db : Depdb) : Op → Depdb × Option Bytes
  | .read => Depdbs.read db
  | .expect v => Depdbs.expect db v
  | .write s newline => (Depdbs.write db s newline, none)
  | .overwrite => (Depdbs.overwrite db, none)

/-- A sequence of operations with their results. -/
def run (db : Depdb) : List Op → Depdb × List (Option Bytes)
  | [] => (db, [])
  | op :: ops =>
    let (db, r) := op.apply db
    let (db, rs) := run db ops
    (db, r :: rs)

end Build2.Libbuild2.Depdbs
