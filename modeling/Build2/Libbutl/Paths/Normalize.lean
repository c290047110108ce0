import Build2.Lib.Joined
import Build2.Libbutl.Paths.Basic

/-! # Normalization

`normalize` splits a path into its components, collapses `.` and `..` and puts the path together
again. A normal absolute directory is the root directory or is given by components that are names,
and normalization leaves it alone (`normalize_rooted`). Every absolute directory that can be
normalized becomes one (`Normal.of_normalize`). -/

namespace Build2.Libbutl.Paths

open Build2.Lib.ByteString Build2.Lib.Joined

/-- How the functions fail: with `invalid_path` or an assertion. -/
inductive Fault
  | invalidPath
  | assertion
  deriving DecidableEq, Repr

def current : Bytes := [ch '.']

def parent : Bytes := [ch '.', ch '.']

/-- "Collapse `.` and `..`": the components `r` are kept so far, the last one first. Nothing, if the
path goes past the root directory. -/
def collapse (abs : Bool) (r : List Bytes) : List Bytes → Option (List Bytes)
  | [] => some r.reverse
  | s :: ps =>
    if s = current then collapse abs r ps
    else if s = parent ∧ r ≠ [] ∧ r.head? ≠ some parent then
      if abs ∧ r.length = 1 then none else collapse abs r.tail ps
    else collapse abs (s :: r) ps

namespace PathData

/-- The components of a path. The first one is empty if the path is absolute, consecutive separators
are skipped. -/
def components (d : PathData) : List Bytes :=
  ((d.pure.splitOn sep).take 1) ++ ((d.pure.splitOn sep).drop 1).filter (· ≠ [])

/-- "If the last component is "." or ".." then this is a directory." -/
def trailing (d : PathData) : Bool :=
  d.tsep ≠ .absent || d.components.getLast? = some current || d.components.getLast? = some parent

/-- "Reassemble the path." -/
def reassemble (abs tsep curEmpty : Bool) (r : List Bytes) : PathData :=
  let p := [sep].intercalate r
  if tsep then
    if p = [] then
      if abs then ⟨[sep], .root⟩
      else if curEmpty then ⟨p, .absent⟩
      else ⟨current, .slash⟩
    else ⟨p, .slash⟩
  else ⟨p, .absent⟩

/-- `normalize (actual, cur_empty)`; on POSIX systems there is nothing to actualize. -/
def normalize (actual : Bool) (d : PathData) (curEmpty : Bool := false) : Except Fault PathData :=
  if d.path = [] then .ok d
  else if actual && !d.absolute then .error .assertion
  else
    match collapse d.absolute [] d.components with
    | none => .error .invalidPath
    | some r => .ok (reassemble d.absolute d.trailing curEmpty r)

/-- A component that is a name. -/
structure Plain (c : Bytes) : Prop where
  ne_nil : c ≠ []
  not_mem : sep ∉ c
  ne_current : c ≠ current
  ne_parent : c ≠ parent

/-- The absolute directory with these components. -/
def rooted (cs : List Bytes) : PathData :=
  if cs = [] then ⟨[sep], .root⟩ else ⟨[sep].intercalate ([] :: cs), .slash⟩

/-- **A normal absolute directory.** -/
def Normal (d : PathData) : Prop := ∃ cs, (∀ c ∈ cs, Plain c) ∧ d = rooted cs

variable {d : PathData} {r ps cs : List Bytes}

theorem reassemble_valid {abs : Bool} : (reassemble abs true false r).Valid := by
  unfold reassemble
  dsimp only
  rw [if_pos rfl]
  split_ifs with hp ha hf
  · exact valid_root
  · exact hf.elim
  · exact valid_slash (by decide)
  · exact valid_slash hp

theorem reassemble_tsep {abs : Bool} : (reassemble abs true false r).tsep ≠ .absent := by
  unfold reassemble
  dsimp only
  rw [if_pos rfl]
  split_ifs with hp ha hf
  · simp
  · exact hf.elim
  · simp
  · simp

theorem trailing_of_tsep (h : d.tsep ≠ .absent) : d.trailing = true := by
  simp [trailing, h]

theorem normalize_dir {actual : Bool} {x : PathData} (hv : d.Valid)
    (hd : d.path ≠ [] → d.tsep ≠ .absent) (h : d.normalize actual = .ok x) :
    x.Valid ∧ (x.path ≠ [] → x.tsep ≠ .absent) := by
  unfold normalize at h
  split_ifs at h with h0 h1
  · obtain rfl : d = x := by simpa using h
    exact ⟨hv, hd⟩
  · cases hc : collapse d.absolute [] d.components with
    | none => simp [hc] at h
    | some r =>
      obtain rfl : reassemble d.absolute d.trailing false r = x := by simpa [hc] using h
      rw [trailing_of_tsep (hd h0)]
      exact ⟨reassemble_valid, fun _ => reassemble_tsep⟩

/-! ### Names are kept -/

theorem collapse_plain (abs : Bool) (h : ∀ c ∈ ps, c ≠ current ∧ c ≠ parent) :
    collapse abs r ps = some (r.reverse ++ ps) := by
  induction ps generalizing r with
  | nil => simp [collapse]
  | cons c ps ih =>
    have hc := h c List.mem_cons_self
    rw [collapse, if_neg hc.1, if_neg fun he => hc.2 he.1,
      ih fun c' hc' => h c' (List.mem_cons_of_mem _ hc')]
    simp

theorem rooted_pure (cs : List Bytes) : (rooted cs).pure = [sep].intercalate ([] :: cs) := by
  unfold rooted
  split_ifs with h
  · subst h
    decide
  · rfl

theorem rooted_absolute (cs : List Bytes) : (rooted cs).absolute = true := by
  unfold rooted
  split_ifs with h
  · decide
  · obtain ⟨c, cs, rfl⟩ := List.exists_cons_of_ne_nil h
    simp [absolute, List.intercalate_cons_cons]

theorem rooted_tsep (cs : List Bytes) : (rooted cs).tsep ≠ .absent := by
  unfold rooted
  split_ifs <;> simp

theorem rooted_path (cs : List Bytes) : (rooted cs).path ≠ [] := by
  intro h
  have ha := rooted_absolute cs
  rw [absolute, h] at ha
  exact absurd ha (by decide)

theorem rooted_components (h : ∀ c ∈ cs, Plain c) : (rooted cs).components = [] :: cs := by
  have hs : ([sep].intercalate ([] :: cs)).splitOn sep = [] :: cs := by
    refine List.splitOn_intercalate sep (fun l hl => ?_) (by simp)
    rcases List.mem_cons.mp hl with rfl | hl
    · exact List.not_mem_nil
    · exact (h l hl).not_mem
  rw [components, rooted_pure, hs]
  have hf : cs.filter (· ≠ []) = cs := by
    rw [List.filter_eq_self]
    intro c hc
    simpa using (h c hc).ne_nil
  simpa using hf

theorem reassemble_rooted (cs : List Bytes) (h : ∀ c ∈ cs, Plain c) :
    reassemble true true false ([] :: cs) = rooted cs := by
  unfold reassemble rooted
  dsimp only
  rw [if_pos rfl]
  by_cases hcs : cs = []
  · subst hcs
    decide
  · rw [if_neg hcs, if_neg]
    obtain ⟨c, cs, rfl⟩ := List.exists_cons_of_ne_nil hcs
    simp [List.intercalate_cons_cons]

/-- **Normalization leaves a normal directory alone.** -/
theorem normalize_rooted (h : ∀ c ∈ cs, Plain c) (actual : Bool) :
    (rooted cs).normalize actual = .ok (rooted cs) := by
  have hplain : ∀ c ∈ [] :: cs, c ≠ current ∧ c ≠ parent := by
    intro c hc
    rcases List.mem_cons.mp hc with rfl | hc
    · decide
    · exact ⟨(h c hc).ne_current, (h c hc).ne_parent⟩
  rw [normalize, if_neg (rooted_path cs), rooted_absolute, if_neg (by simp), rooted_components h,
    collapse_plain true hplain, trailing_of_tsep (rooted_tsep cs)]
  simpa using reassemble_rooted cs h

/-! ### What normalization returns -/

/-- The components kept of an absolute path are names, after the empty first one. -/
theorem collapse_kept {out : List Bytes} (hcs : ∀ c ∈ cs, Plain c)
    (hps : ∀ c ∈ ps, c ≠ [] ∧ sep ∉ c) (h : collapse true (cs ++ [[]]) ps = some out) :
    ∃ ds, (∀ c ∈ ds, Plain c) ∧ out = [] :: ds := by
  induction ps generalizing cs with
  | nil =>
    refine ⟨cs.reverse, fun c hc => hcs c (List.mem_reverse.mp hc), ?_⟩
    simpa [collapse] using h.symm
  | cons s ps ih =>
    have hs := hps s List.mem_cons_self
    have hps' : ∀ c ∈ ps, c ≠ [] ∧ sep ∉ c := fun c hc => hps c (List.mem_cons_of_mem _ hc)
    have hhead : (cs ++ [[]]).head? ≠ some parent := by
      cases cs with
      | nil => decide
      | cons c cs => simpa using (hcs c List.mem_cons_self).ne_parent
    rw [collapse] at h
    split_ifs at h with hc hp hl
    · exact ih hcs hps' h
    · -- one directory up
      obtain ⟨c, cs, rfl⟩ := List.exists_cons_of_ne_nil (l := cs) (by rintro rfl; simp at hl)
      exact ih (fun c hc => hcs c (List.mem_cons_of_mem _ hc)) hps' h
    · have hpl : Plain s := ⟨hs.1, hs.2, hc, fun he => hp ⟨he, by simp, hhead⟩⟩
      have hcons : ∀ c ∈ s :: cs, Plain c := by
        intro c hc
        rcases List.mem_cons.mp hc with rfl | hc
        · exact hpl
        · exact hcs c hc
      exact ih hcons hps' h

/-- The components of an absolute path after the first one. -/
theorem components_absolute (h : d.absolute = true) (hr : d.Valid) :
    ∃ ps, d.components = [] :: ps ∧ ∀ c ∈ ps, c ≠ [] ∧ sep ∉ c := by
  have hsplit : ∃ xs, d.pure.splitOn sep = [] :: xs := by
    by_cases ht : d.tsep = .root
    · rw [pure, if_pos ht, hr.ofRoot ht]
      exact ⟨[], by decide⟩
    · rw [pure, if_neg ht]
      obtain ⟨b, s, hb⟩ := List.exists_cons_of_ne_nil (l := d.path) (by
        intro h0
        rw [absolute, h0] at h
        exact absurd h (by decide))
      obtain rfl : b = sep := by simpa [absolute, hb] using h
      rw [hb]
      exact ⟨s.splitOn sep, by rw [List.splitOn_cons_eq_if_modifyHead, if_pos (by simp)]⟩
  obtain ⟨xs, hxs⟩ := hsplit
  refine ⟨xs.filter (· ≠ []), by simp [components, hxs], fun c hc => ?_⟩
  obtain ⟨hm, hne⟩ := List.mem_filter.mp hc
  refine ⟨by simpa using hne, not_mem_of_mem_splitOn (s := d.pure) ?_⟩
  rw [hxs]
  exact List.mem_cons_of_mem _ hm

/-- **An absolute directory is normalized to a normal one.** -/
theorem Normal.of_normalize {actual : Bool} {x : PathData} (hv : d.Valid) (ht : d.tsep ≠ .absent)
    (ha : d.absolute = true) (h : d.normalize actual = .ok x) : Normal x := by
  obtain ⟨ps, hps, hmem⟩ := components_absolute ha hv
  have hne : d.path ≠ [] := fun h0 => ht (hv.ofEmpty h0)
  rw [normalize, if_neg hne, ha, if_neg (by simp), hps, trailing_of_tsep ht] at h
  have hfirst : collapse true [] ([] :: ps) = collapse true ([] ++ [[]]) ps := by
    rw [collapse, if_neg (by decide), if_neg (by simp), List.nil_append]
  rw [hfirst] at h
  cases hc : collapse true ([] ++ [[]]) ps with
  | none =>
    rw [hc] at h
    cases h
  | some r =>
    have hnil : ∀ c ∈ ([] : List Bytes), Plain c := by simp
    obtain ⟨ds, hds, rfl⟩ := collapse_kept hnil hmem hc
    rw [hc] at h
    obtain rfl : reassemble true true false ([] :: ds) = x := by simpa using h
    exact ⟨ds, hds, reassemble_rooted ds hds⟩

end PathData

namespace DirPath

theorem tsep_of_relative {d : DirPath} (ha : ¬d.data.absolute = true) (hd : d.data.path ≠ []) :
    d.data.tsep = .slash := by
  cases ht : d.data.tsep with
  | root =>
    rw [PathData.absolute, d.valid.ofRoot ht] at ha
    exact absurd (by decide) ha
  | absent => exact absurd ht (d.dir hd)
  | slash => rfl

theorem valid_complete {cwd d : DirPath} (ha : ¬d.data.absolute = true) (hd : d.data.path ≠ []) :
    (cwd.data.combine d.data.path d.data.tsep).Valid := by
  rw [tsep_of_relative ha hd]
  exact PathData.valid_combine_slash hd

theorem dir_complete {cwd d : DirPath} (_ : ¬d.data.absolute = true) (hd : d.data.path ≠ []) :
    (cwd.data.combine d.data.path d.data.tsep).path ≠ [] →
      (cwd.data.combine d.data.path d.data.tsep).tsep ≠ .absent := fun _ => d.dir hd

/-- `complete`, in the current directory `cwd`. -/
def complete (d cwd : DirPath) : DirPath :=
  if ha : d.data.absolute = true then d
  else if hd : d.data.path = [] then cwd
  else ⟨⟨cwd.data.combine d.data.path d.data.tsep, valid_complete ha hd⟩, dir_complete ha hd⟩

/-- `normalize`. -/
def normalize (actual : Bool) (d : DirPath) : Except Fault DirPath :=
  match h : d.data.normalize actual with
  | .ok x => .ok ⟨⟨x, (PathData.normalize_dir d.valid d.dir h).1⟩,
      (PathData.normalize_dir d.valid d.dir h).2⟩
  | .error e => .error e

variable {cwd d x : DirPath}

theorem normalize_eq_ok {actual : Bool} :
    d.normalize actual = .ok x ↔ d.data.normalize actual = .ok x.data := by
  unfold normalize
  split
  · next y hy =>
    refine ⟨fun h => ?_, fun h => ?_⟩
    · rw [← Except.ok.inj h]
      exact hy
    · exact congrArg Except.ok (DirPath.ext (Except.ok.inj (hy.symm.trans h)))
  · next e he =>
    refine ⟨fun h => (by cases h), fun h => ?_⟩
    cases he.symm.trans h

theorem normalize_of_normal (h : d.data.Normal) (actual : Bool) : d.normalize actual = .ok d := by
  obtain ⟨cs, hcs, hd⟩ := h
  rw [normalize_eq_ok, hd]
  exact PathData.normalize_rooted hcs actual

end DirPath

end Build2.Libbutl.Paths
