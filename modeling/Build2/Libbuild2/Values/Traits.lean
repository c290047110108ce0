import Build2.Libbuild2.Values.Name
import Build2.Libbutl.ParseUint
import Build2.Libbutl.Paths.Normalize
import Build2.Libbutl.TargetTriplet

/-! # Simple values

`value_traits<T>` of the simple types (`variable.cxx`, `variable.ixx`, `variable.hxx`): how a value
is made from a name or a pair of names, and how it is reversed into a name. The texts of the errors
are left out, the callers catch `invalid_argument` and issue their own diagnostics.

A value is *representable* by its name if it is converted back from it. For a type all of whose
values are representable nothing is asked, for the others the predicate says what the documentation
of the type promises of its values. -/

namespace Build2.Libbuild2.Values

open Build2.Lib.ByteString Build2.Lib.Decimal Build2.Libbutl.ParseUint Build2.Libbutl.Paths
  Build2.Libbutl.TargetTriplet

/-- `value_traits<T>`. A conversion that throws `invalid_argument` gives nothing. -/
structure ValueTraits (T : Type) where
  convert : Name → Option Name → Option T
  reverse : T → Name
  empty : T → Bool
  /-- "True if can be constructed from empty names as T()." -/
  emptyValue : Bool
  default : T

/-- The current working directory. -/
structure Cwd where
  dir : DirPath
  absolute : dir.data.absolute = true

/-! ### Words and numbers -/

def boolTraits : ValueTraits Bool where
  convert n r :=
    if r.isNone && n.simple false then
      if n.value = str ['t', 'r', 'u', 'e'] then some true
      else if n.value = str ['f', 'a', 'l', 's', 'e'] then some false
      else none
    else none
  reverse x := Name.ofValue (if x then str ['t', 'r', 'u', 'e'] else str ['f', 'a', 'l', 's', 'e'])
  empty _ := false
  emptyValue := false
  default := false

/-- `stoull` that consumes the whole string, or its exception. -/
def stoull (s : Bytes) : Option UInt64 :=
  let c := strtoull s
  if c.stop = s ∨ c.overflow then none
  else if c.stop = [] then some (UInt64.ofNat c.value)
  else none

def uint64Traits : ValueTraits UInt64 where
  convert n r := if r.isNone && n.simple false then stoull n.value else none
  reverse x := Name.ofValue (decimal x.toNat)
  empty _ := false
  emptyValue := false
  default := 0

/-! ### Strings -/

/-- A simple or directory name, possibly qualified. -/
def stringLike (n : Name) : Bool := n.simple true || n.directory true

/-- The original representation of such a name. -/
def original (n : Name) : Bytes :=
  let s := if n.directory true then n.dir.data.representation else n.value
  match n.proj with
  | some p => p.value ++ ch '%' :: s
  | none => s

def stringTraits : ValueTraits Bytes where
  convert n r :=
    if stringLike n && (r.elim true stringLike) then
      some (original n ++ r.elim [] fun r => ch '@' :: original r)
    else none
  reverse x := Name.ofValue x
  empty x := x.isEmpty
  emptyValue := true
  default := []

/-! ### Paths -/

def pathTraits : ValueTraits AnyPath where
  convert n r :=
    if r.isNone then
      -- A directory path is a path.
      if n.directory false then some n.dir.toAnyPath
      else if n.simple false then some (AnyPath.ofString n.value)
      -- Reassemble split dir/value.
      else if n.untyped && n.unqualified then n.dir.toAnyPath.append n.value
      else none
    else none
  reverse x := if x.toDirectory then Name.ofDir x.castDir else Name.ofValue x.data.path
  empty x := x.isEmpty
  emptyValue := true
  default := .empty

def dirPathTraits : ValueTraits DirPath where
  convert n r :=
    if r.isNone then
      if n.directory false then some n.dir
      else if n.simple false then some (DirPath.ofString n.value)
      else if n.untyped && n.unqualified then n.dir.append n.value
      else none
    else none
  reverse x := Name.ofDir x
  empty x := x.isEmpty
  emptyValue := true
  default := .empty

/-- `abs_dir_path`: "the idea is to have a different type that we automatically complete". It is
also normalized, and the empty path is left as it is. -/
structure AbsDirPath where
  dir : DirPath
  deriving DecidableEq

/-- What `convert` makes of a directory. -/
def absolutize (cwd : Cwd) (d : DirPath) : Option AbsDirPath :=
  if d.isEmpty then some ⟨d⟩
  else
    match (d.complete cwd.dir).normalize true with
    | .ok d => some ⟨d⟩
    | .error _ => none

def absDirPathTraits (cwd : Cwd) : ValueTraits AbsDirPath where
  convert n r :=
    if r.isNone && (n.simple false || n.directory false) then
      absolutize cwd (if n.simple false then DirPath.ofString n.value else n.dir)
    else none
  reverse x := Name.ofDir x.dir
  empty x := x.dir.isEmpty
  emptyValue := true
  default := ⟨.empty⟩

/-- The values of `abs_dir_path` that are made from names: absolute and normal, or empty. -/
def AbsDirPath.Canonical (x : AbsDirPath) : Prop := x.dir = .empty ∨ x.dir.data.Normal

/-! ### Names, targets and projects -/

def nameTraits : ValueTraits Name where
  convert n r := if r.isNone then some n else none
  reverse x := x
  empty x := x.empty
  emptyValue := true
  default := .default

def targetTripletTraits : ValueTraits Triplet where
  convert n r :=
    if r.isNone && n.simple false then
      if n.empty then some .default else (parse n.value).toOption
    else none
  reverse x := Name.ofValue x.string
  empty x := x.empty
  emptyValue := true
  default := .default

/-- The empty triplet and those that are read from a string and not ambiguous. -/
def CanonicalTriplet (t : Triplet) : Prop := t = .default ∨ t.Parsed ∧ Unambiguous t

def projectNameTraits : ValueTraits ProjectName where
  convert n r :=
    if r.isNone && n.simple false then
      if n.empty then some .empty else ProjectName.ofString n.value
    else none
  -- The special unnamed subproject representation ends in a separator.
  reverse x := Name.ofValue (if x.isEmpty || x.value.getLastD 0 == sep then [] else x.value)
  empty x := x.isEmpty
  emptyValue := true
  default := .empty

/-! ### Representable values -/

/-- **A value that its own name is converted back to.** If it is empty, then it is also the one that
no names are converted to. -/
structure ValueTraits.Faithful {T : Type} (tr : ValueTraits T) (x : T) : Prop where
  convert : tr.convert (tr.reverse x) none = some x
  empty : tr.empty x = true → tr.emptyValue = true ∧ x = tr.default
  pair : (tr.reverse x).pair = 0

section

variable {v : Bytes}

@[simp] theorem simple_ofValue (q : Bool) : (Name.ofValue v).simple q = true := by
  rw [Name.ofValue, Name.simple_plain]
  rfl

@[simp] theorem directory_ofValue (q : Bool) : (Name.ofValue v).directory q = false := by
  rw [Name.ofValue, Name.directory_plain]
  rfl

@[simp] theorem value_ofValue : (Name.ofValue v).value = v := rfl

@[simp] theorem pair_ofValue : (Name.ofValue v).pair = 0 := rfl

@[simp] theorem empty_ofValue : (Name.ofValue v).empty = v.isEmpty := by
  rw [Name.ofValue, Name.empty_plain]
  rfl

theorem faithful_bool (x : Bool) : boolTraits.Faithful x := by
  refine ⟨?_, fun h => ?_, rfl⟩
  · cases x <;> decide
  · cases h

theorem stoull_decimal (x : UInt64) : stoull (decimal x.toNat) = some x := by
  have hlt : x.toNat < 2 ^ 64 := x.toNat_lt
  have hnum := numeral_decimal x.toNat
  have hshape : Shape (decimal x.toNat) [] [] (decimal x.toNat) [] := by
    refine ⟨by simp, by simp, Or.inl rfl, hnum.2, by simp, ?_, fun _ => ?_⟩
    · obtain ⟨b, ds, hb⟩ := List.exists_cons_of_ne_nil hnum.1
      rw [hb]
      simpa using isSpace_of_isDigit (hnum.2 b (by rw [hb]; simp))
    · rw [List.append_nil]
      exact isSign_of_isDigit hnum.isDigit_hd
  have hle : ¬2 ^ 64 ≤ x.toNat := Nat.not_le.mpr hlt
  have hs : strtoull (decimal x.toNat) = ⟨x.toNat, [], false⟩ := by
    rw [hshape.strtoull_eq, if_neg hnum.1, value_decimal, if_neg hle, if_neg (by simp)]
  simp [stoull, hs, (decimal_ne_nil x.toNat).symm]

theorem faithful_uint64 (x : UInt64) : uint64Traits.Faithful x := by
  refine ⟨?_, fun h => ?_, rfl⟩
  · simpa [uint64Traits] using stoull_decimal x
  · cases h

theorem faithful_string (x : Bytes) : stringTraits.Faithful x := by
  refine ⟨?_, fun h => ⟨rfl, ?_⟩, rfl⟩
  · have ho : original (Name.ofValue x) = x := by
      unfold original
      rw [directory_ofValue]
      rfl
    simp [stringTraits, stringLike, ho]
  · simpa [stringTraits] using h

theorem not_isEmpty_of_toDirectory {p : AnyPath} (h : p.toDirectory = true) :
    p.isEmpty = false := by
  rw [Bool.eq_false_iff]
  intro he
  rw [AnyPath.isEmpty_iff.mp he] at h
  exact absurd h (by decide)

theorem faithful_path (x : AnyPath) : pathTraits.Faithful x := by
  refine ⟨?_, fun h => ⟨rfl, AnyPath.isEmpty_iff.mp h⟩, ?_⟩
  · by_cases hd : x.toDirectory = true
    · have hne := not_isEmpty_of_toDirectory hd
      simp [pathTraits, hd, Name.ofDir, hne, AnyPath.castDir_toAnyPath hd]
    · have ht : x.data.tsep ≠ .slash := by
        intro hs
        exact hd (by simp [AnyPath.toDirectory, hs])
      simp [pathTraits, hd, AnyPath.ofString_path ht]
  · by_cases hd : x.toDirectory = true
    · simp [pathTraits, hd, Name.ofDir]
    · simp [pathTraits, hd]

theorem dirPath_eq_empty {d : DirPath} (h : d.isEmpty = true) : d = .empty :=
  DirPath.ext (congrArg AnyPath.data (AnyPath.isEmpty_iff.mp h))

theorem faithful_dirPath (x : DirPath) : dirPathTraits.Faithful x := by
  refine ⟨?_, fun h => ⟨rfl, dirPath_eq_empty h⟩, rfl⟩
  by_cases he : x.isEmpty = true
  · obtain rfl := dirPath_eq_empty he
    decide
  · simp [dirPathTraits, Name.ofDir, he]

theorem faithful_absDirPath (cwd : Cwd) {x : AbsDirPath} (h : x.Canonical) :
    (absDirPathTraits cwd).Faithful x := by
  obtain ⟨d⟩ := x
  refine ⟨?_, fun h => ⟨rfl, congrArg AbsDirPath.mk (dirPath_eq_empty h)⟩, rfl⟩
  rcases h with h | h
  · obtain rfl : d = .empty := h
    rfl
  · have hn : d.data.Normal := h
    have habs : d.data.absolute = true := by
      obtain ⟨cs, -, hd⟩ := hn
      rw [hd]
      exact PathData.rooted_absolute cs
    have hne : d.isEmpty = false := by
      rw [Bool.eq_false_iff]
      intro he
      rw [dirPath_eq_empty he] at habs
      exact absurd habs (by decide)
    have hc : d.complete cwd.dir = d := by rw [DirPath.complete, dif_pos habs]
    simp [absDirPathTraits, Name.ofDir, hne, absolutize, hc, DirPath.normalize_of_normal hn]

theorem faithful_name {x : Name} (h : x.pair = 0) : nameTraits.Faithful x := by
  refine ⟨rfl, fun he => ⟨rfl, ?_⟩, h⟩
  have hx := Name.eq_of_empty he
  rw [h] at hx
  exact hx

theorem faithful_targetTriplet {x : Triplet} (h : CanonicalTriplet x) :
    targetTripletTraits.Faithful x := by
  rcases h with rfl | ⟨hp, hu⟩
  · exact ⟨rfl, fun _ => ⟨rfl, rfl⟩, rfl⟩
  · obtain ⟨hne, hs⟩ := hp.parse_string hu
    refine ⟨?_, fun he => absurd ?_ hne, rfl⟩
    · have hstr : x.string ≠ [] := by
        intro h0
        rw [h0] at hs
        cases hs
      simp [targetTripletTraits, hstr, hs, Except.toOption]
    · simpa [targetTripletTraits, Triplet.empty] using he

/-- A name that complies with the specification is not empty and does not end in a separator. -/
theorem ofString_last {nm : Bytes} {x : ProjectName} (h : ProjectName.ofString nm = some x) :
    nm ≠ [] ∧ nm.getLastD 0 ≠ sep := by
  unfold ProjectName.ofString at h
  split_ifs at h with h1 h2 h3 h4 h5
  refine ⟨?_, fun hl => ?_⟩
  · rintro rfl
    exact h1 (by decide)
  · rw [hl] at h5
    exact h5 (by decide)

theorem faithful_projectName {x : ProjectName} (h : x.Valid) : projectNameTraits.Faithful x := by
  rcases h with rfl | h
  · exact ⟨rfl, fun _ => ⟨rfl, rfl⟩, rfl⟩
  · obtain ⟨hne, hl⟩ := ofString_last h
    have hc : (x.isEmpty || x.value.getLastD 0 == sep) = false :=
      Bool.or_eq_false_iff.mpr ⟨by simpa [ProjectName.isEmpty] using hne, beq_false_of_ne hl⟩
    have hrev : projectNameTraits.reverse x = Name.ofValue x.value := by
      simp only [projectNameTraits, hc]
      rfl
    refine ⟨?_, fun he => absurd ?_ hne, ?_⟩
    · rw [hrev]
      simp [projectNameTraits, hne, h]
    · simpa [projectNameTraits, ProjectName.isEmpty] using he
    · rw [hrev, pair_ofValue]

end

end Build2.Libbuild2.Values
