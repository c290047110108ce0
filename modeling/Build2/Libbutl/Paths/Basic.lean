import Build2.Lib.ByteString
import Mathlib.Data.List.DropRight

/-! # Paths

The classes `path` and `dir_path` on POSIX systems (`path.mxx`, `path.ixx`, `path.txx`). A path is
kept as its traditional string, without a trailing slash unless it is the root directory, together
with what is known of the trailing separator. -/

namespace Build2.Libbutl.Paths

open Build2.Lib.ByteString

/-- The directory separator. -/
def sep : UInt8 := ch '/'

/-- `tsep_`: the trailing slash of the root directory is in the string (`-1`), there is none (`0`),
or there is one that the string leaves out (`1`). -/
inductive Tsep
  | root
  | absent
  | slash
  deriving DecidableEq, Repr

/-- `path_data`. -/
structure PathData where
  path : Bytes
  tsep : Tsep
  deriving DecidableEq, Repr

namespace PathData

theorem ext' {d : PathData} {s : Bytes} {ts : Tsep} (hs : d.path = s) (ht : d.tsep = ts) :
    d = ⟨s, ts⟩ := by
  rw [← hs, ← ht]

/-- What the constructors ensure. -/
structure Valid (d : PathData) : Prop where
  ofEmpty : d.path = [] → d.tsep = .absent
  ofRoot : d.tsep = .root → d.path = [sep]
  ofAbsent : d.tsep = .absent → d.path.getLast? ≠ some sep

/-- The empty path. -/
def empty : PathData := ⟨[], .absent⟩

/-- `path_data (string, difference_type)`. -/
def make (s : Bytes) (ts : Tsep) : PathData := ⟨s, if s = [] then .absent else ts⟩

/-- `path_data (string)`: one trailing slash is taken off. -/
def ofString (s : Bytes) : PathData :=
  if s.getLast? = some sep then
    if s.length = 1 then ⟨s, .root⟩ else ⟨s.dropLast, .slash⟩
  else ⟨s, .absent⟩

/-- `any_path_kind::init`: all trailing slashes are taken off. -/
def init (s : Bytes) : PathData :=
  let m := s.rdropWhile (· == sep)
  if m = s then make s .absent
  else if m = [] then make [sep] .root
  else make m .slash

/-- `dir_path_kind::cast`, and what `dir_path_kind::init` does with the result of
`any_path_kind::init`. -/
def cast (d : PathData) : PathData :=
  if d.path ≠ [] ∧ d.tsep = .absent then ⟨d.path, .slash⟩ else d

/-- The first `_size ()` characters of the string. -/
def pure (d : PathData) : Bytes := if d.tsep = .root then d.path.dropLast else d.path

/-- The characters up to the last separator of a string, which is included. -/
def uptoSeparator (s : Bytes) : Bytes := s.rdropWhile (· != sep)

/-- The characters after the last separator. -/
def afterSeparator (s : Bytes) : Bytes := s.rtakeWhile (· != sep)

def leaf (d : PathData) : PathData :=
  if uptoSeparator d.pure = [] then d else make (afterSeparator d.path) d.tsep

def directory (d : PathData) : PathData :=
  if uptoSeparator d.pure = [] then empty else ofString (uptoSeparator d.pure)

def absolute (d : PathData) : Bool := hd d.path = sep

/-- `combine_impl` with the trailing separator of the right hand side. -/
def combine (d : PathData) (r : Bytes) (rts : Tsep) : PathData :=
  let l := match d.tsep with
    | .absent => if d.path ≠ [] then d.path ++ [sep] else d.path
    | .root => d.path
    | .slash => d.path ++ [sep]
  ⟨l ++ r, rts⟩

/-- The representation with the trailing slash. -/
def representation (d : PathData) : Bytes :=
  if d.tsep = .slash then d.path ++ [sep] else d.path

end PathData

/-- `path`, a path of any kind. -/
structure AnyPath where
  data : PathData
  valid : data.Valid
  deriving DecidableEq

/-- `dir_path`: unless it is empty, it has a trailing separator. -/
structure DirPath extends AnyPath where
  dir : data.path ≠ [] → data.tsep ≠ .absent
  deriving DecidableEq

namespace PathData

variable {d : PathData} {s r : Bytes}

theorem valid_empty : empty.Valid := ⟨fun _ => rfl, by simp [empty], by simp [empty]⟩

theorem valid_plain (h : s.getLast? ≠ some sep) : (PathData.mk s .absent).Valid :=
  ⟨fun _ => rfl, by simp, fun _ => h⟩

theorem valid_slash (h : s ≠ []) : (PathData.mk s .slash).Valid :=
  ⟨fun he => absurd he h, by simp, by simp⟩

theorem valid_root : (PathData.mk [sep] .root).Valid := ⟨by simp, by simp, by simp⟩

theorem getLast?_rdropWhile (s : Bytes) : (s.rdropWhile (· == sep)).getLast? ≠ some sep := by
  intro h
  have hne : s.rdropWhile (· == sep) ≠ [] := by
    intro h0
    simp [h0] at h
  have hlast := List.rdropWhile_last_not (· == sep) s hne
  rw [List.getLast?_eq_getLast_of_ne_nil hne, Option.some_inj] at h
  exact hlast (by simp [h])

theorem rdropWhile_of_getLast? (h : s.getLast? ≠ some sep) : s.rdropWhile (· == sep) = s := by
  rw [List.rdropWhile_eq_self_iff]
  intro hne he
  rw [List.getLast?_eq_getLast_of_ne_nil hne] at h
  exact h (by simpa using he)

theorem valid_ofString : (ofString s).Valid := by
  unfold ofString
  split_ifs with h h1
  · obtain ⟨b, rfl⟩ := List.length_eq_one_iff.mp h1
    obtain rfl : b = sep := by simpa using h
    exact valid_root
  · refine valid_slash fun h0 => ?_
    have hl : s.length - 1 = 0 := by rw [← List.length_dropLast, h0, List.length_nil]
    have hs : s ≠ [] := by
      rintro rfl
      simp at h
    have := List.length_pos_iff.mpr hs
    omega
  · exact valid_plain h

/-- A string without a trailing slash initialises the path of that string. -/
theorem init_of_plain (h : s.getLast? ≠ some sep) : init s = ⟨s, .absent⟩ := by
  simp [init, rdropWhile_of_getLast? h, make]

theorem init_root : init [sep] = ⟨[sep], .root⟩ := by decide

theorem valid_init : (init s).Valid := by
  by_cases h : s.getLast? = some sep
  · unfold init make
    dsimp only
    split_ifs with h1 h2 h3 h4
    · exact valid_plain (by simp [h2])
    · rw [← h1] at h
      exact absurd h (getLast?_rdropWhile s)
    · exact absurd h4 (by simp)
    · exact valid_root
    · exact valid_slash h3
  · rw [init_of_plain h]
    exact valid_plain h

theorem valid_cast (h : d.Valid) : d.cast.Valid := by
  unfold cast
  split_ifs with hc
  · exact valid_slash hc.1
  · exact h

theorem dir_cast : d.cast.path ≠ [] → d.cast.tsep ≠ .absent := by
  unfold cast
  split_ifs with hc
  · simp
  · exact fun hne he => hc ⟨hne, he⟩

/-! ### Taking a path apart -/

theorem uptoSeparator_append (s : Bytes) : uptoSeparator s ++ afterSeparator s = s :=
  List.rdropWhile_append_rtakeWhile

theorem not_mem_afterSeparator : sep ∉ afterSeparator s := fun h => by
  simpa using List.mem_rtakeWhile_imp h

theorem getLast?_of_not_mem (h : sep ∉ s) : s.getLast? ≠ some sep := fun he =>
  h (List.mem_of_getLast? he)

/-- What is left of the last separator ends in it. -/
theorem exists_uptoSeparator (h : uptoSeparator s ≠ []) : ∃ t, uptoSeparator s = t ++ [sep] := by
  have hlast : (uptoSeparator s).getLast h = sep := by
    have hl := List.rdropWhile_last_not (· != sep) s h
    rwa [bne_iff_ne, ne_eq, Decidable.not_not] at hl
  refine ⟨(uptoSeparator s).dropLast, ?_⟩
  conv_lhs => rw [← List.dropLast_append_getLast h, hlast]

theorem ofString_snoc (s : Bytes) :
    ofString (s ++ [sep]) = if s = [] then ⟨[sep], .root⟩ else ⟨s, .slash⟩ := by
  by_cases h : s = []
  · subst h
    decide
  · have hl : s.length ≠ 0 := by simpa using h
    simp [ofString, h]

theorem dir_ofString (h : s.getLast? = some sep) : (ofString s).tsep ≠ .absent := by
  unfold ofString
  split_ifs <;> simp

theorem valid_directory : d.directory.Valid := by
  unfold directory
  split_ifs
  · exact valid_empty
  · exact valid_ofString

theorem dir_directory : d.directory.path ≠ [] → d.directory.tsep ≠ .absent := by
  unfold directory
  split_ifs with h
  · exact fun he => absurd rfl he
  · obtain ⟨t, ht⟩ := exists_uptoSeparator h
    rw [ht]
    exact fun _ => dir_ofString (by simp)

theorem valid_leaf (h : d.Valid) : d.leaf.Valid := by
  unfold leaf
  split_ifs with hn
  · exact h
  by_cases ha : afterSeparator d.path = []
  · simpa [make, ha, empty] using valid_empty
  rw [make, if_neg ha]
  refine ⟨fun he => absurd he ha, fun hr => ?_, fun _ => getLast?_of_not_mem not_mem_afterSeparator⟩
  -- the root directory has no separator but its own
  rw [pure, if_pos hr, h.ofRoot hr] at hn
  exact absurd (by decide) hn

/-! ### Putting a path together -/

theorem valid_combine (hr : r ≠ []) (hl : r.getLast? ≠ some sep) : (combine d r .absent).Valid := by
  refine ⟨fun h => ?_, fun h => ?_, fun _ => ?_⟩
  · exact absurd (List.append_eq_nil_iff.mp h).2 hr
  · cases h
  · rw [combine, List.getLast?_append_of_ne_nil _ hr]
    exact hl

/-- The right hand side of a directory has a trailing separator of its own. -/
theorem valid_combine_slash (hr : r ≠ []) : (combine d r .slash).Valid :=
  valid_slash fun h => hr (List.append_eq_nil_iff.mp h).2

/-- **A path is its directory and its leaf**, unless it has a trailing separator of its own. -/
theorem directory_leaf (h : d.Valid) (ht : d.tsep ≠ .slash) :
    (d.directory = empty ∧ d.leaf = d) ∨
      d.directory.path ≠ [] ∧ d.leaf.path ≠ [] ∧ sep ∉ d.leaf.path ∧
        combine d.directory d.leaf.path .absent = d := by
  by_cases hu : uptoSeparator d.pure = []
  · exact Or.inl ⟨by simp [directory, hu], by simp [leaf, hu]⟩
  right
  have hroot : d.tsep ≠ .root := by
    intro hr
    rw [pure, if_pos hr, h.ofRoot hr] at hu
    exact hu (by decide)
  have hpure : d.pure = d.path := if_neg hroot
  have habs : d.tsep = .absent := by
    cases hts : d.tsep with
    | root => exact absurd hts hroot
    | absent => rfl
    | slash => exact absurd hts ht
  rw [hpure] at hu
  obtain ⟨t, hu'⟩ := exists_uptoSeparator hu
  have hparts := uptoSeparator_append d.path
  rw [hu'] at hparts
  have hne : afterSeparator d.path ≠ [] := by
    intro h0
    rw [h0, List.append_nil] at hparts
    exact h.ofAbsent habs (by rw [← hparts]; simp)
  have hleaf : d.leaf = ⟨afterSeparator d.path, .absent⟩ := by
    simp [leaf, hpure, hu, make, hne, habs]
  have hdir : d.directory = if t = [] then ⟨[sep], .root⟩ else ⟨t, .slash⟩ := by
    rw [directory, hpure, if_neg hu, hu', ofString_snoc]
  rw [hleaf, hdir]
  refine ⟨?_, hne, not_mem_afterSeparator, ?_⟩
  · split_ifs with h0
    · simp
    · exact h0
  · split_ifs with h0
    · subst h0
      rw [combine]
      dsimp only
      rw [← List.nil_append [sep], hparts, ← habs]
    · rw [combine]
      dsimp only
      rw [hparts, ← habs]

end PathData

/-! ### The classes -/

namespace AnyPath

@[ext] theorem ext {p q : AnyPath} (h : p.data = q.data) : p = q := by
  cases p
  cases q
  simpa using h

def empty : AnyPath := ⟨PathData.empty, PathData.valid_empty⟩

instance : Inhabited AnyPath := ⟨empty⟩

/-- `path (string)`. -/
def ofString (s : Bytes) : AnyPath := ⟨PathData.init s, PathData.valid_init⟩

def isEmpty (p : AnyPath) : Bool := p.data.path.isEmpty

def toDirectory (p : AnyPath) : Bool := p.data.tsep ≠ .absent

def leaf (p : AnyPath) : AnyPath := ⟨p.data.leaf, PathData.valid_leaf p.valid⟩

def directory (p : AnyPath) : DirPath :=
  ⟨⟨p.data.directory, PathData.valid_directory⟩, PathData.dir_directory⟩

/-- `path_cast<dir_path>`. -/
def castDir (p : AnyPath) : DirPath :=
  ⟨⟨p.data.cast, PathData.valid_cast p.valid⟩, PathData.dir_cast⟩

/-- `operator/= (string)`, or `invalid_path`. -/
def append (p : AnyPath) (r : Bytes) : Option AnyPath :=
  if hr : r = [] then some p
  else if hs : sep ∈ r then none
  else some ⟨p.data.combine r .absent,
    PathData.valid_combine hr (PathData.getLast?_of_not_mem hs)⟩

end AnyPath

namespace DirPath

@[ext] theorem ext {p q : DirPath} (h : p.data = q.data) : p = q := by
  cases p
  cases q
  simpa using AnyPath.ext h

def empty : DirPath := ⟨AnyPath.empty, fun h => absurd rfl h⟩

instance : Inhabited DirPath := ⟨empty⟩

/-- `dir_path (string)`. -/
def ofString (s : Bytes) : DirPath := (AnyPath.ofString s).castDir

/-- `operator/= (string)`, or `invalid_path`. -/
def append (p : DirPath) (r : Bytes) : Option DirPath :=
  if r = [] then some p else (p.toAnyPath.append r).map AnyPath.castDir

end DirPath

variable {p : AnyPath}

@[simp] theorem AnyPath.isEmpty_iff : p.isEmpty = true ↔ p = .empty := by
  refine ⟨fun h => AnyPath.ext ?_, fun h => by rw [h]; rfl⟩
  have hp : p.data.path = [] := by simpa [isEmpty] using h
  exact PathData.ext' hp (p.valid.ofEmpty hp)

/-- A path without a trailing separator is initialised back from its string. -/
theorem AnyPath.ofString_path (h : p.data.tsep ≠ .slash) : AnyPath.ofString p.data.path = p := by
  apply AnyPath.ext
  show PathData.init p.data.path = p.data
  cases ht : p.data.tsep with
  | root =>
    rw [p.valid.ofRoot ht, PathData.init_root]
    exact (PathData.ext' (p.valid.ofRoot ht) ht).symm
  | absent => rw [PathData.init_of_plain (p.valid.ofAbsent ht), ← ht]
  | slash => exact absurd ht h

theorem AnyPath.castDir_toAnyPath (h : p.toDirectory = true) : p.castDir.toAnyPath = p := by
  apply AnyPath.ext
  have ht : p.data.tsep ≠ .absent := by simpa [toDirectory] using h
  show p.data.cast = p.data
  rw [PathData.cast, if_neg fun hc => ht hc.2]

end Build2.Libbutl.Paths
