import Build2.Bpkg.FetchGit.Refs

/-! # Fetching from a git repository

The function `fetch` of `fetch-git.cxx`: the filters are turned into fetch specifications, these
into the lists of refspecs, and git fetches them. The answers of git and of the server are a
parameter, with the state of the local repository. -/

namespace Build2.Bpkg.FetchGit

open Build2.Lib.ByteString
open Build2.Libbutl.ParseUint (Errno)

/-- `git_ref_filter`. -/
structure RefFilter where
  name : Option Bytes
  commit : Option Bytes
  exclusion : Bool
  deriving DecidableEq, Repr

/-- `git_ref_filter::default_refs`. -/
def RefFilter.defaultRefs (rf : RefFilter) : Bool := rf.name.isNone && rf.commit.isNone

/-- `capabilities`. -/
inductive Capabilities
  | dumb
  | smart
  | unadv
  deriving DecidableEq, Repr

/-- What git and the server answer, where a failure is `none`: the capabilities, `ls-remote`,
`cat-file -e`, `fetch` with refspecs and perhaps `--depth 1`, and `show --format=%ct`. The value of
`errno` when a filter is reached is left behind by what has been called before. -/
structure Git (σ : Type) where
  caps : Option Capabilities
  refs : Option (List Ref)
  fetched : σ → Bytes → Bool
  fetch : σ → List Bytes → Bool → Option σ
  timestamp : σ → Bytes → Option ℕ
  errno : ℕ → Errno

/-- `fetch_spec`: no refspecs if the commit is fetched already, and empty ones for the whole
history. -/
structure FetchSpec where
  commit : Bytes
  friendlyName : Bytes
  refspecs : Option (List Bytes)
  shallow : Bool
  deriving DecidableEq, Repr

/-- `git_fragment`. -/
structure Fragment where
  commit : Bytes
  timestamp : ℕ
  friendlyName : Bytes
  deriving DecidableEq, Repr

/-! ### Fetch specifications -/

/-- The second branch of `add_spec`: the specification is upgraded to less history. -/
def FetchSpec.upgrade (i : FetchSpec) (rs : Option (List Bytes)) (sh : Bool) (n : Bytes) :
    FetchSpec :=
  match rs, i.refspecs with
  | some r, some q =>
    if (r ≠ [] ∧ q = []) ∨ (sh ∧ !i.shallow) then
      { i with
        refspecs := some r
        shallow := sh
        friendlyName := if n ≠ [] then n else i.friendlyName }
    else if i.friendlyName = [] ∧ n ≠ [] then { i with friendlyName := n }
    else i
  | _, _ => if i.friendlyName = [] ∧ n ≠ [] then { i with friendlyName := n } else i

/-- `add_spec`. -/
def addSpec (c : Bytes) (rs : Option (List Bytes)) (sh : Bool) (n : Bytes) :
    List FetchSpec → Except Fault (List FetchSpec)
  | [] => .ok [⟨c, n, rs, sh⟩]
  | i :: fs =>
    if i.commit = c then
      if rs.isSome ≠ i.refspecs.isSome then .error .assertion else .ok (i.upgrade rs sh n :: fs)
    else (addSpec c rs sh n fs).map (i :: ·)

/-- `remove_spec`. -/
def removeSpec (c : Bytes) (fs : List FetchSpec) : List FetchSpec :=
  fs.eraseP fun i => i.commit = c

/-- `friendly_name`. -/
def friendlyName (n : Bytes) : Bytes :=
  if n.take 5 = str ['r', 'e', 'f', 's', '/'] then n.drop 5 else n

section

variable {σ : Type} (pathMatch : Bytes → Bytes → Bool) (git : Git σ) (dir : σ)

/-- `sense_capabilities`. -/
def senseCapabilities : Except Fault Capabilities :=
  match git.caps with
  | some cap => .ok cap
  | none => .error .git

/-- `load_refs`. -/
def loadRefs : Except Fault (List Ref) :=
  match git.refs with
  | some refs => .ok refs
  | none => .error .git

/-- `commit_advertized`. -/
def commitAdvertized (c : Bytes) : Except Fault Bool := do
  let refs ← loadRefs git
  let r ← findCommit refs c
  pure r.isSome

/-- `shallow_fetch`. -/
def shallowFetch (rf : RefFilter) : Except Fault Bool := do
  match ← senseCapabilities git with
  | .dumb => pure false
  | .smart =>
    match rf.commit with
    | none => pure true
    | some c => commitAdvertized git c
  | .unadv => pure true

/-- The references of a filter without commit. -/
def filterReferences (k : ℕ) (rf : RefFilter) : Except Fault SearchResult := do
  let _ ← senseCapabilities git
  let refs ← loadRefs git
  match rf.name with
  | none => defaultReferences refs (git.errno k)
  | some n => searchNames pathMatch refs n true

/-- The body of the loop over the references of a filter. -/
def applyReference (rf : RefFilter) (r : Ref × ℕ) (fs : List FetchSpec) :
    Except Fault (List FetchSpec) := do
  let refs ← loadRefs git
  let c := (peel refs r.1).commit
  if !rf.exclusion then
    let n := friendlyName r.1.name
    if git.fetched dir c then addSpec c none false n fs
    else do
      let sh ← shallowFetch git rf
      addSpec c (some [c]) sh n fs
  else pure (removeSpec c fs)

/-- The loop over the references of a filter. -/
def applyReferences (rf : RefFilter) : SearchResult → List FetchSpec → Except Fault (List FetchSpec)
  | [], fs => .ok fs
  | r :: rs, fs => do
    let fs ← applyReference git dir rf r fs
    applyReferences rf rs fs

/-- What is added for a commit that is not fetched. -/
def addCommit (rf : RefFilter) (c : Bytes) (fs : List FetchSpec) :
    Except Fault (List FetchSpec) := do
  if ← shallowFetch git rf then addSpec c (some [c]) true [] fs
  else
    match rf.name with
    | some n => do
      let _ ← senseCapabilities git
      let refs ← loadRefs git
      let rs ← searchNames pathMatch refs n false
      if rs = [] then throw (.noMatch n)
      else addSpec c (some (rs.map fun r => r.1.commit)) false [] fs
    | none => do
      let a ← commitAdvertized git c
      addSpec c (some (if a then [c] else [])) false [] fs

/-- The body of the loop over the filters. -/
def applyFilter (k : ℕ) (rf : RefFilter) (fs : List FetchSpec) : Except Fault (List FetchSpec) :=
  match rf.commit with
  | none => do
    let rs ← filterReferences pathMatch git k rf
    applyReferences git dir rf rs fs
  | some c =>
    if rf.exclusion then pure (removeSpec c fs)
    else if git.fetched dir c then addSpec c none false [] fs
    else addCommit pathMatch git rf c fs

/-- The loop over the filters, from the `k`-th one on. -/
def applyFilters (k : ℕ) : List RefFilter → List FetchSpec → Except Fault (List FetchSpec)
  | [], fs => .ok fs
  | rf :: rfs, fs => do
    let fs ← applyFilter pathMatch git dir k rf fs
    applyFilters (k + 1) rfs fs

/-! ### Refspecs -/

/-- The lists of refspecs, and whether the whole history is to be fetched. -/
structure Refspecs where
  scs : List Bytes
  dcs : List Bytes
  fetchRepo : Bool
  deriving DecidableEq, Repr

/-- The body of the loop that separates the refspecs. -/
def collect (x : Refspecs) (fs : FetchSpec) : Refspecs :=
  match fs.refspecs with
  | none => x
  | some rs =>
    if rs = [] then { x with fetchRepo := true }
    else if !x.fetchRepo then
      if fs.shallow then { x with scs := x.scs ++ rs } else { x with dcs := x.dcs ++ rs }
    else x

/-- The refspecs of the specifications. -/
def refspecLists (fs : List FetchSpec) : Refspecs := fs.foldl collect ⟨[], [], false⟩

/-- The fragment of a specification, without its timestamp. -/
def FetchSpec.fragment (fs : FetchSpec) : Fragment :=
  ⟨fs.commit, 0, if fs.friendlyName ≠ [] then fs.friendlyName else fs.commit.take 12⟩

/-! ### Running git -/

/-- The loop of the lambda `sort`. -/
def setTimestamps (dir : σ) : List Fragment → Except Fault (List Fragment)
  | [] => .ok []
  | fr :: frs =>
    match git.timestamp dir fr.commit with
    | none => .error .git
    | some t => do
      let frs ← setTimestamps dir frs
      pure ({ fr with timestamp := t } :: frs)

/-- The lambda `sort`. -/
def sortFragments (dir : σ) (r : List Fragment) : Except Fault (List Fragment) := do
  let r ← setTimestamps git dir r
  pure (r.mergeSort fun x y => x.timestamp ≤ y.timestamp)

/-- The names that commit ids are remapped to. -/
def remap (refs : List Ref) : List Bytes → Except Fault (List Bytes)
  | [] => .ok []
  | c :: cs => do
    let r ← findCommit refs c
    match r with
    | none => throw .assertion
    | some r => do
      let ns ← remap refs cs
      pure (r.1.name :: ns)

/-- The lambda `fetch`. -/
def runFetch (dir : σ) (refspecs : List Bytes) (shallow : Bool) : Except Fault σ := do
  if refspecs = [] ∧ shallow then throw .assertion
  else
    let specs ← (if refspecs = [] then pure refspecs
      else do
        let cap ← senseCapabilities git
        if cap = .unadv then pure refspecs
        else do
          let refs ← loadRefs git
          remap refs refspecs)
    match git.fetch dir specs shallow with
    | some dir => pure dir
    | none => throw .git

/-- The deep fetching, and the shallow fetching of what is not fetched then. -/
def fetchRefspecs (x : Refspecs) : Except Fault σ := do
  let dir' ← (if x.fetchRepo ∨ x.dcs ≠ [] then
      runFetch git dir (if x.fetchRepo then [] else x.dcs) false
    else pure dir)
  let scs := if x.fetchRepo ∨ x.dcs ≠ [] then x.scs.filter fun c => !git.fetched dir' c else x.scs
  if scs ≠ [] then runFetch git dir' scs true else pure dir'

/-- `fetch`. -/
def fetch (rfs : List RefFilter) : Except Fault (List Fragment × σ) := do
  if rfs = [] then throw .assertion
  else
    let fspecs ← applyFilters pathMatch git dir 0 rfs []
    let r := fspecs.map FetchSpec.fragment
    let x := refspecLists fspecs
    if !x.fetchRepo ∧ x.scs = [] ∧ x.dcs = [] then do
      let r ← sortFragments git dir r
      pure (r, dir)
    else do
      let dir' ← fetchRefspecs git dir x
      match r.find? fun fr => !git.fetched dir' fr.commit with
      | some fr => throw (.unfetched fr.commit)
      | none => do
        let r ← sortFragments git dir' r
        pure (r, dir')

end

/-! ### What is meant -/

/-- The commits of the default set that is made up of these tags. -/
def defaultCommits (refs tags : List Ref) : Set Bytes :=
  {c | ∃ r, IsDefault tags r ∧ c = (peel refs r).commit}

/-- The commits that a filter adds or removes, with the commits of the default set. -/
def RefFilter.commits (pathMatch : Bytes → Bytes → Bool) (refs : List Ref) (defaults : Set Bytes)
    (rf : RefFilter) : Set Bytes :=
  match rf.commit, rf.name with
  | some c, _ => {c}
  | none, some n => {c | ∃ r, Matches pathMatch refs n r ∧ c = (peel refs r).commit}
  | none, none => defaults

/-- The commits that are selected once the filters, from the `k`-th one on, are applied from left to
right. -/
def select (pathMatch : Bytes → Bytes → Bool) (refs : List Ref) (defaults : ℕ → Set Bytes) (k : ℕ)
    (s : Set Bytes) : List RefFilter → Set Bytes
  | [] => s
  | rf :: rfs =>
    let cs := rf.commits pathMatch refs (defaults k)
    select pathMatch refs defaults (k + 1) (if rf.exclusion then s \ cs else s ∪ cs) rfs

/-- **The commits that the filters stand for.** -/
def selected (pathMatch : Bytes → Bytes → Bool) (refs : List Ref) (rfs : List RefFilter) :
    Set Bytes :=
  select pathMatch refs (fun _ => defaultCommits refs refs) 0 ∅ rfs

/-- How a commit that is not fetched yet gets fetched: by itself, with the references of a filter
that names it, or with the whole history. -/
def Covered (pathMatch : Bytes → Bytes → Bool) (refs : List Ref) (rfs : List RefFilter)
    (x : Refspecs) (c : Bytes) : Prop :=
  c ∈ x.scs ∨ c ∈ x.dcs ∨ x.fetchRepo = true ∨
    ∃ rf ∈ rfs, rf.exclusion = false ∧ rf.commit = some c ∧ ∃ n, rf.name = some n ∧
      (∃ r, Matches pathMatch refs n r) ∧ ∀ r, Matches pathMatch refs n r → r.commit ∈ x.dcs

end Build2.Bpkg.FetchGit
