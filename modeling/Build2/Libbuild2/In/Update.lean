import Build2.Libbuild2.Depdbs.Text
import Build2.Libbuild2.In.Scan
import Build2.Libbutl.ParseUint

/-! # Updating a target with substitutions

`rule::perform_update` of `in/rule.cxx`: the database of what has been substituted is compared with
the current values, and from the first difference on it is written anew together with the output. -/

namespace Build2.Libbuild2.In

open Build2.Lib.ByteString Build2.Lib.Decimal Build2.Lib.Files Build2.Libbuild2.Depdbs
open Build2.Libbutl.ParseUint (strtoull)

/-- What does not change from run to run: the rule name, the symbol, the mode and the `.in` file
with its content. -/
structure Config where
  ruleId : Bytes
  sym : UInt8
  strict : Bool
  path : Bytes
  input : Bytes

/-- The files of a target: the database and the output. -/
structure Files where
  db : Option Bytes
  out : Option Bytes
  deriving DecidableEq

/-- How an update fails: at a line of the input, or with a name of the database that is not to be
substituted. -/
inductive Failure
  | line (ln : ℕ) (f : Fault)
  | assertion
  deriving DecidableEq

/-- A hexadecimal digit. -/
def hexDigit (d : Fin 16) : UInt8 :=
  if d.val < 10 then UInt8.ofNat (48 + d.val) else UInt8.ofNat (87 + d.val)

/-- `sha256::string`. -/
def hashString (ds : List (Fin 16)) : Bytes := ds.map hexDigit

/-- What comes before and after the last space. -/
def splitLast : Bytes → Option (Bytes × Bytes)
  | [] => none
  | c :: s =>
    match splitLast s with
    | some (a, b) => some (c :: a, b)
    | none => if c = ch ' ' then some ([], s) else none

/-- The line number, the name and the hash of a line of the database. -/
def parseRecord (s : Bytes) : Option (ℕ × Bytes × Bytes) :=
  let c := strtoull s
  let p := s.length - c.stop.length
  match splitLast s with
  | some (a, h) =>
    if hd c.stop = ch ' ' ∧ 1 < a.length - p then some (c.value, a.drop (p + 1), h) else none
  | none => none

/-- The lines of the input. -/
def inputLines (s : Bytes) : List Bytes :=
  match _h : getline s with
  | none => if s = [] then [] else [s]
  | some (l, t) => l :: inputLines t
termination_by s.length
decreasing_by
  obtain ⟨rfl, -⟩ := getline_append _h
  simp only [List.length_append, List.length_cons]
  omega

theorem length_read {db : Depdb} {s : Bytes} (h : (read db).2 = some s) :
    (read db).1.input.length < db.input.length := by
  unfold Depdbs.read readLine at h ⊢
  dsimp only at h ⊢
  split_ifs at h ⊢
  cases hg : getline db.input with
  | none => simp [hg] at h
  | some p =>
    obtain ⟨line, t⟩ := p
    obtain ⟨hin, -⟩ := getline_append hg
    cases t with
    | nil => simp [hg] at h
    | cons c t =>
      rw [hin]
      simp only [List.length_append, List.length_cons]
      omega

section

variable (cfg : Config) (sha256 : Bytes → List (Fin 16)) (lookup : Bytes → Option Bytes)

/-- A line of the database. -/
def record (ln : ℕ) (n v : Bytes) : Bytes :=
  decimal ln ++ (ch ' ' :: (n ++ (ch ' ' :: hashString (sha256 v))))

/-- The loop that compares the database with the current values: the number of good lines. -/
def checkLoop (db : Depdb) (skip : ℕ) : Except Failure (Depdb × ℕ) :=
  if db.state ≠ .read then .ok (db, skip)
  else
    match _h : (read db).2 with
    | none => .ok ((read db).1, skip)
    | some s =>
      match parseRecord s with
      | none => .ok (overwrite (read db).1, skip)
      | some (ln, n, h) =>
        match substitute cfg.strict lookup n with
        | .error f => .error (.line ln f)
        | .ok none => .error .assertion
        | .ok (some v) =>
          if h = hashString (sha256 v) then checkLoop (read db).1 (skip + 1)
          else .ok (overwrite (read db).1, skip)
termination_by db.input.length
decreasing_by exact length_read _h

/-- The substitutions of a line in the database. -/
def saveAll (ln : ℕ) : Depdb → ℕ → List (Bytes × Bytes) → Depdb × ℕ
  | db, skip, [] => (db, skip)
  | db, 0, (n, v) :: vs => saveAll ln (write db (record sha256 ln n v) true) 0 vs
  | db, skip + 1, _ :: vs => saveAll ln db skip vs

/-- The loop over the lines of the input, with the output so far. -/
def processLoop (ln : ℕ) (db : Depdb) (skip : ℕ) (out : Bytes) :
    List Bytes → Except Failure (Depdb × Bytes)
  | [] => .ok (db, out)
  | s :: ss =>
    let r := scan cfg.sym cfg.strict lookup s
    let p := saveAll sha256 ln db skip r.values
    match r.line with
    | .error f => .error (.line ln f)
    | .ok t =>
      processLoop ((ln + 1) % 2 ^ 64) p.1 p.2 (out ++ ((if ln ≠ 1 then [nl] else []) ++ t)) ss

/-- The lines that the database begins with. -/
def header : List Bytes :=
  [cfg.ruleId ++ str [' ', '1'], [cfg.sym],
    if cfg.strict then str ['s', 't', 'r', 'i', 'c', 't'] else str ['l', 'a', 'x'], cfg.path]

/-- The database once its first lines have been compared. -/
def expectHeader (file : Option Bytes) : Depdb :=
  (header cfg).foldl (fun db v => (expect db v).1) (openDb file)

/-- Whether the list is overwritten without looking at it: the prerequisites have changed or the
database is newer than the output (`changed`), there is no output, or something in front of the list
has changed. -/
def needsUpdate (changed : Bool) (st : Files) : Bool :=
  changed || st.out.isNone || (expectHeader cfg st.db).state = .write

/-- `perform_update`: whether the target has changed, and its files. -/
def performUpdate (changed : Bool) (st : Files) : Except Failure (Bool × Files) := do
  let db := expectHeader cfg st.db
  let update := needsUpdate cfg changed st
  let (db, skip) ← (if update then
      pure (overwrite (if db.state = .write then db else (read db).1), 0)
    else checkLoop cfg sha256 lookup db 0)
  if !update && db.state ≠ .write then
    pure (false, { st with db := some (after (st.db.getD []) (close db false).steps) })
  else
    let (db, out) ← processLoop cfg sha256 lookup 1 db skip [] (inputLines cfg.input)
    pure (true, ⟨some (after (st.db.getD []) (close db false).steps), some (out ++ [nl])⟩)

end

end Build2.Libbuild2.In
