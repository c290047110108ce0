import Build2.Libbutl.Paths.Relative

/-! # Default options files

`load_default_options` looks for options files in a start directory and outward, in an extra
directory, in the home directory and in the system directory. Files are read from the innermost
directory outward and the list is reversed at the end. That a directory belongs to a repository is
found out further out, so entries are marked after they were loaded.

Directories are absolute and normalized. The operations on them are those of the paths
(`directory_toPath`, `sub_toPath`). -/

namespace Build2.Libbutl.DefaultOptions

open Build2.Lib.ByteString Build2.Libbutl.Paths

/-- An absolute and normalized directory: its names from the innermost one outward. -/
abbrev Dir := List Bytes

/-- `d / ".build2"`. -/
def build2 (d : Dir) : Dir := str ['.', 'b', 'u', 'i', 'l', 'd', '2'] :: d

/-- `d / "local"`. -/
def localDir (d : Dir) : Dir := str ['l', 'o', 'c', 'a', 'l'] :: d

/-- `sub`: the directory is in the other one or the same. -/
def Dir.sub (x d : Dir) : Bool := d.isSuffixOf x

/-! ### Directories as paths -/

section

def Dir.toPath (d : Dir) : PathData := PathData.rooted d.reverse

theorem directory_toPath {c : Bytes} {d : Dir} (hc : PathData.Plain c) :
    (Dir.toPath (c :: d)).directory = Dir.toPath d := by
  unfold Dir.toPath
  rw [List.reverse_cons]
  exact PathData.directory_rooted hc.not_mem

theorem sub_toPath {x d : Dir} (hx : ∀ c ∈ x, PathData.Plain c) (hd : ∀ c ∈ d, PathData.Plain c) :
    (Dir.toPath x).sub (Dir.toPath d) = x.sub d := by
  have hx' : ∀ c ∈ x.reverse, PathData.Plain c := fun c hc => hx c (List.mem_reverse.mp hc)
  have hd' : ∀ c ∈ d.reverse, PathData.Plain c := fun c hc => hd c (List.mem_reverse.mp hc)
  have hsub := PathData.sub_rooted (PathData.rooted_valid x.reverse)
    (PathData.normalize_rooted hx' false) (PathData.iterate_rooted hx') hd'
  rw [Bool.eq_iff_iff, Dir.toPath, Dir.toPath, hsub, List.reverse_prefix]
  exact List.isSuffixOf_iff_suffix.symm

theorem isRoot_toPath {d : Dir} (hd : ∀ c ∈ d, PathData.Plain c) :
    (Dir.toPath d).path = [sep] ↔ d = [] := by
  cases d with
  | nil => exact ⟨fun _ => rfl, fun _ => rfl⟩
  | cons c d =>
    refine ⟨fun h => absurd h ?_, fun h => (by cases h)⟩
    unfold Dir.toPath
    rw [List.reverse_cons]
    exact PathData.rooted_ne_root fun x hx => hd x (List.mem_reverse.mp (by simpa using hx))

end

/-! ### Files -/

variable {O : Type}

/-- A file system, as far as it is looked at: the directories, the options that a file has, if there
is one, and where there is a `.git`. -/
structure Tree (O : Type) where
  dirExists : Dir → Bool
  file : Dir → Bytes → Option O
  git : Dir → Bool
  outer : ∀ c d, dirExists (c :: d) = true → dirExists d = true
  inside : ∀ d f, (file d f).isSome = true → dirExists d = true

/-- `default_options_entry`. The file is `name` in `dir`. -/
structure Entry (O : Type) where
  dir : Dir
  name : Bytes
  options : O
  remote : Bool
  deriving DecidableEq

variable (t : Tree O) (noDefaultOptions : O → Bool) (fs : List Bytes)

/-- The function `load` in `load_default_options_files`, from the list and the result so far. -/
def loadFrom (d : Dir) (remote : Bool) (s : List (Entry O) × Bool) : List (Entry O) × Bool :=
  fs.reverse.foldl (fun s f =>
    match t.file d f with
    | none => s
    | some o => (s.1 ++ [⟨d, f, o, remote⟩], if noDefaultOptions o then false else s.2)) s

/-- `load_default_options_files`. The result is false if `--no-default-options` is encountered. -/
def loadDefaultOptionsFiles (d : Dir) (remote : Bool) (defOps : List (Entry O))
    (loadSub loadDir : Bool) : List (Entry O) × Bool :=
  let s := (defOps, true)
  let s := if loadSub && t.dirExists (localDir d) then
    loadFrom t noDefaultOptions fs (localDir d) remote s else s
  if loadDir && s.2 then loadFrom t noDefaultOptions fs d remote s else s

/-- The variables of `load_default_options`. -/
structure State (O : Type) where
  entries : List (Entry O)
  load : Bool
  loadExtra : Bool

/-- An entry that is local and not of the extra directory is marked. -/
def markRemote (extra : Option Dir) (e : Entry O) : Entry O :=
  if !e.remote && extra ≠ some e.dir then { e with remote := true } else e

/-- A directory and its `local/` are loaded, and are not remote. -/
def State.loadAll (d : Dir) (s : State O) : State O :=
  let (r, load) := loadDefaultOptionsFiles t noDefaultOptions fs d false s.entries true true
  { s with entries := r, load := load }

/-- The extra directory is loaded. -/
def State.loadExtraDir (x : Dir) (s : State O) : State O :=
  { s.loadAll t noDefaultOptions fs x with loadExtra := false }

variable (extra : Option Dir)

/-- The body of the loop over the start directory and its outer ones. -/
def visit (d : Dir) (s : State O) : State O :=
  let remote := t.git d
  let s := if remote then { s with entries := s.entries.map (markRemote extra) } else s
  if s.load then
    let od := build2 d
    match extra.filter fun x => s.loadExtra && x.sub d with
    | none =>
      if t.dirExists od then
        let (r, load) := loadDefaultOptionsFiles t noDefaultOptions fs od remote s.entries true true
        { s with entries := r, load := load }
      else s
    | some x =>
      let s := s.loadExtraDir t noDefaultOptions fs x
      if s.load && t.dirExists od then
        let (r, load) := loadDefaultOptionsFiles t noDefaultOptions fs od remote s.entries
          (x ≠ localDir od) (x ≠ od)
        { s with entries := r, load := load }
      else s
  else s

/-- The loop, up to the root or the home directory. -/
def traverse (home : Option Dir) : Dir → State O → State O
  | [], s => s
  | c :: d, s =>
    if home = some (c :: d) then s
    else
      let s := visit t noDefaultOptions fs extra (c :: d) s
      if !s.load && t.git (c :: d) then s else traverse home d s

/-- A directory is loaded if there is one. -/
def State.loadOptional (load : Dir → State O → State O) : Option Dir → State O → State O
  | none, s => s
  | some d, s => load d s

/-- The rest of `load_default_options`: the extra directory, if it is not in a traversed one, the
home directory and the system directory. -/
def State.loadRest (sys home : Option Dir) (s : State O) : State O :=
  let s := s.loadOptional (fun x s =>
    if s.load && s.loadExtra then s.loadExtraDir t noDefaultOptions fs x else s) extra
  let s := s.loadOptional (fun d s =>
    if s.load && t.dirExists (build2 d) then s.loadAll t noDefaultOptions fs (build2 d) else s) home
  s.loadOptional (fun d s =>
    if s.load && t.dirExists d then s.loadAll t noDefaultOptions fs d else s) sys

/-- `load_default_options`. -/
def loadDefaultOptions (sys home extra start : Option Dir) : List (Entry O) :=
  let s : State O := ⟨[], true, extra.any t.dirExists⟩
  let s := match start with
    | none => s
    | some d => traverse t noDefaultOptions fs extra home d s
  (s.loadRest t noDefaultOptions fs extra sys home).entries.reverse

end Build2.Libbutl.DefaultOptions
