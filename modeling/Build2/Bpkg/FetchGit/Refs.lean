import Build2.Lib.Best
import Build2.Libbutl.History
import Build2.Libbutl.PathPattern
import Mathlib.Data.Set.Basic

/-! # Advertised references

The references that a git repository advertises and how names are resolved in them: the class `refs`
and the default reference set of `fetch` in `fetch-git.cxx`. A reference is an entry of the list, so
that a search result has its position. -/

namespace Build2.Bpkg.FetchGit

open Build2.Lib.ByteString Build2.Libbutl
open Build2.Libbutl.ParseUint (Errno Call fresh)
open Build2.Libbutl.StandardVersion (parseStandardVersion)

/-- A reference and its commit id. -/
structure Ref where
  name : Bytes
  commit : Bytes
  peeled : Bool
  deriving DecidableEq, Repr

/-- How a fetch fails: git or the server do not answer, or there is a reason for a message. -/
inductive Fault
  | git
  | notFound (name : Bytes)
  | ambiguous (commit : Bytes)
  | noMatch (pattern : Bytes)
  | unfetched (commit : Bytes)
  | assertion
  deriving DecidableEq, Repr

/-- `refs::search_result`: references with their positions in the list. -/
abbrev SearchResult : Type := List (Ref × ℕ)

/-! ### Resolving -/

/-- The loop of `find_commit`. -/
def findCommitLoop (c : Bytes) (r : Option (Ref × ℕ)) :
    SearchResult → Except Fault (Option (Ref × ℕ))
  | [] => .ok r
  | rf :: rfs =>
    if rf.1.commit.take c.length = c then
      match r with
      | none => findCommitLoop c (some rf) rfs
      | some x => if x.1.commit ≠ rf.1.commit then .error (.ambiguous c) else findCommitLoop c r rfs
    else findCommitLoop c r rfs

/-- `refs::find_commit`, for a commit id that may be abbreviated. -/
def findCommit (refs : List Ref) (c : Bytes) : Except Fault (Option (Ref × ℕ)) :=
  findCommitLoop c none refs.zipIdx

/-- The text in front of the names of tags. -/
def tags : Bytes := str ['r', 'e', 'f', 's', '/', 't', 'a', 'g', 's', '/']

/-- `refs::peel`. -/
def peel (refs : List Ref) (rf : Ref) : Ref :=
  if rf.name.take 10 = tags ∧ !rf.peeled then
    (refs.find? fun r => r.peeled && r.name = rf.name).getD rf
  else rf

/-- `path_pattern`: some component of the path has a wildcard. -/
def pathPattern (s : Bytes) : Bool :=
  (s.splitOn (ch '/')).any fun c => (PathPattern.terms c).any fun t => t.type ≠ .literal

/-- The names that a name is looked up by. -/
def refnames (n : Bytes) : List Bytes :=
  if hd n ≠ ch '/' then
    (if ch '/' ∉ n then [n] else []) ++
      [str ['r', 'e', 'f', 's', '/'] ++ n, tags ++ n,
        str ['r', 'e', 'f', 's', '/', 'h', 'e', 'a', 'd', 's', '/'] ++ n]
  else [str ['r', 'e', 'f', 's'] ++ n]

section

variable (pathMatch : Bytes → Bytes → Bool) (refs : List Ref)

/-- The lambda `search` of `search_names`: the references found are added to the result. -/
def search (pattern : Bool) (r : SearchResult) (n : Bytes) : SearchResult :=
  if pattern then
    refs.zipIdx.foldl (fun r rf =>
      if !rf.1.peeled && pathMatch rf.1.name n && r.all (fun x => x.2 ≠ rf.2) then r ++ [rf]
      else r) r
  else
    match refs.zipIdx.find? fun i => !i.1.peeled && i.1.name = n with
    | some i => r ++ [i]
    | none => r

/-- `refs::search_names`. Paths are matched against patterns with `pathMatch`. -/
def searchNames (n : Bytes) (abbrCommit : Bool) : Except Fault SearchResult := do
  let pattern := pathPattern ((if hd n ≠ ch '/' then n else n.tail).takeWhile (· ≠ 0))
  let r := (refnames n).foldl (search pathMatch refs pattern) []
  let r ← (if r = [] ∧ abbrCommit ∧ !pattern ∧ 7 ≤ n.length then do
      let cr ← findCommit refs n
      pure cr.toList
    else pure r)
  if r = [] ∧ !pattern then throw (.notFound n) else pure r

end

/-! ### The default reference set -/

/-- The flag `allow_stub`. -/
def stubFlags : StandardVersion.Flags := ⟨false, true⟩

/-- What is parsed as the version of a tag. -/
def tagVersion (rf : Ref) : Option Bytes :=
  if !rf.peeled && rf.name.take 11 = tags ++ [ch 'v'] then some (rf.name.drop 11) else none

/-- A reference is added to the default set or takes the place of one with a lesser revision. -/
def addDefault (rf : Ref × ℕ) (v : StandardVersion) :
    List ((Ref × ℕ) × StandardVersion) → List ((Ref × ℕ) × StandardVersion)
  | [] => [(rf, v)]
  | (r, i) :: rs =>
    if i.compare v true = .eq then (if i.cmp v = .lt then (rf, v) else (r, i)) :: rs
    else (r, i) :: addDefault rf v rs

/-- The loop of `default_references`. -/
def defaultLoop (rs : List ((Ref × ℕ) × StandardVersion)) :
    SearchResult → Call (List ((Ref × ℕ) × StandardVersion))
  | [] => pure rs
  | rf :: rfs =>
    match tagVersion rf.1 with
    | none => defaultLoop rs rfs
    | some s => do
      let v ← parseStandardVersion s stubFlags
      match v with
      | some v => defaultLoop (addDefault rf v rs) rfs
      | none => defaultLoop rs rfs

/-- `default_references`, called with the value that `errno` has. -/
def defaultReferences (refs : List Ref) (errno : Errno) : Except Fault SearchResult :=
  match (defaultLoop [] refs.zipIdx).eval errno with
  | .ok rs => .ok (rs.map Prod.fst)
  | .error _ => .error .assertion

/-! ### What is meant -/

/-- The version of a reference that is a tag for one. -/
def version? (rf : Ref) : Option StandardVersion :=
  match tagVersion rf with
  | none => none
  | some s =>
    match fresh (parseStandardVersion s stubFlags) with
    | .ok v => v
    | .error _ => none

/-- Of the tags for a version, compared without revision, the first one with the highest
revision. -/
def IsDefault (refs : List Ref) (r : Ref) : Prop :=
  ∃ pre suf v, refs = pre ++ r :: suf ∧ version? r = some v ∧
    (∀ r' ∈ pre, ∀ v', version? r' = some v' → v'.compare v true = .eq → v'.revision < v.revision) ∧
    ∀ r' ∈ suf, ∀ v', version? r' = some v' → v'.compare v true = .eq → v'.revision ≤ v.revision

/-- The references that a name matches: those that the pattern matches, or the first one of each of
the names it is looked up by, or else the one with the abbreviated commit id. -/
def Matches (pathMatch : Bytes → Bytes → Bool) (refs : List Ref) (n : Bytes) (r : Ref) : Prop :=
  if pathPattern ((if hd n ≠ ch '/' then n else n.tail).takeWhile (· ≠ 0)) then
    r ∈ refs ∧ r.peeled = false ∧ ∃ e ∈ refnames n, pathMatch r.name e = true
  else
    (∃ e ∈ refnames n, refs.find? (fun i => !i.peeled && i.name = e) = some r) ∨
      (7 ≤ n.length ∧ (∀ e ∈ refnames n, ∀ i ∈ refs, i.peeled = false → i.name ≠ e) ∧
        refs.find? (fun i => i.commit.take n.length = n) = some r)

end Build2.Bpkg.FetchGit
