import Build2.Libbuild2.Values.Containers
import Mathlib.Order.Lex
import Mathlib.Data.List.Lex

/-! # Typed values

`typify` and `untypify` over the value types that `variable.cxx` registers. A value is NULL, a
sequence of names or a value of a type. The main result is that a typed value which keeps to what
the documentation of its type says survives being untyped and typed again. -/

namespace Build2.Libbuild2.Values

open Build2.Lib Build2.Lib.ByteString Build2.Libbutl.Paths Build2.Libbutl.TargetTriplet

/-- The registered value types. -/
inductive ValueType
  | bool
  | uint64
  | string
  | path
  | dirPath
  | absDirPath
  | name
  | namePair
  | processPath
  | processPathEx
  | targetTriplet
  | projectName
  | strings
  | nameVector
  | paths
  | dirPaths
  | uint64s
  | stringPairs
  | stringMap
  | projectMap
  deriving DecidableEq, Repr

/-- Strings are ordered by their characters. -/
def stringRank (s : Bytes) : List ℕ := s.map UInt8.toNat

/-- Project names are compared as C strings and without regard to case. -/
def projectRank (p : ProjectName) : List ℕ :=
  ((p.value.takeWhile (· != 0)).map toLower).map UInt8.toNat

/-- The C++ type of the values. -/
def ValueType.Data : ValueType → Type
  | bool => Bool
  | uint64 => UInt64
  | string => Bytes
  | path => AnyPath
  | dirPath => DirPath
  | absDirPath => AbsDirPath
  | name => Name
  | namePair => Name × Name
  | processPath => ProcessPath
  | processPathEx => ProcessPathEx
  | targetTriplet => Triplet
  | projectName => ProjectName
  | strings => List Bytes
  | nameVector => List Name
  | paths => List AnyPath
  | dirPaths => List DirPath
  | uint64s => List UInt64
  | stringPairs => List (Bytes × Bytes)
  | stringMap => OrderedMap stringRank Bytes
  | projectMap => OrderedMap projectRank DirPath

/-- The callbacks. -/
def ValueType.callbacks (cwd : Cwd) : (t : ValueType) → Callbacks t.Data
  | bool => simple boolTraits
  | uint64 => simple uint64Traits
  | string => simple stringTraits
  | path => simple pathTraits
  | dirPath => simple dirPathTraits
  | absDirPath => simple (absDirPathTraits cwd)
  | name => simple nameTraits
  | namePair => Values.namePair
  | processPath => Values.processPath
  | processPathEx => Values.processPathEx
  | targetTriplet => simple targetTripletTraits
  | projectName => simple projectNameTraits
  | strings => vector stringTraits
  | nameVector => vector nameTraits
  | paths => vector pathTraits
  | dirPaths => vector dirPathTraits
  | uint64s => vector uint64Traits
  | stringPairs => pairVector stringTraits stringTraits
  | stringMap => map stringRank stringTraits stringTraits
  | projectMap => map projectRank projectNameTraits dirPathTraits

/-- `value`. -/
inductive Value
  | null (type : Option ValueType)
  | names (ns : List Name)
  | typed (t : ValueType) (x : t.Data)

/-- `typify`. -/
def typify (cwd : Cwd) (v : Value) (t : ValueType) : Except Failure Value :=
  match v with
  | .null none => .ok (.null (some t))
  | .null (some t') => if t' = t then .ok v else .error .typeMismatch
  | .names ns => ((t.callbacks cwd).assign ns).map (.typed t)
  | .typed t' _ => if t' = t then .ok v else .error .typeMismatch

/-- `untypify`. -/
def untypify (cwd : Cwd) (v : Value) : Value :=
  match v with
  | .null _ => .null none
  | .names ns => .names ns
  | .typed t x => .names ((t.callbacks cwd).reverse x)

def AllUnpaired (ns : List Name) : Prop := ∀ n ∈ ns, Unpaired n

def ValidKeys (m : OrderedMap projectRank DirPath) : Prop := ∀ e ∈ m.entries, e.1.Valid

/-- **The values that the documentation of a type has.** -/
def ValueType.Documented : (t : ValueType) → t.Data → Prop
  | bool, _ => True
  | uint64, _ => True
  | string, _ => True
  | path, _ => True
  | dirPath, _ => True
  | absDirPath, x => x.Canonical
  | name, x => Unpaired x
  | namePair, x => Unpaired x.1 ∧ Unpaired x.2 ∧ Specified x
  | processPath, x => x.Stored
  | processPathEx, x => x.toProcessPath.Stored
  | targetTriplet, x => CanonicalTriplet x
  | projectName, x => x.Valid
  | strings, _ => True
  | nameVector, xs => AllUnpaired xs
  | paths, _ => True
  | dirPaths, _ => True
  | uint64s, _ => True
  | stringPairs, _ => True
  | stringMap, _ => True
  | projectMap, m => ValidKeys m

theorem indifferent_string : Indifferent stringTraits := fun _ _ => rfl

theorem indifferent_projectName : Indifferent projectNameTraits := fun _ _ => rfl

/-- **A documented value is assigned back from its names.** -/
theorem ValueType.survives (cwd : Cwd) (t : ValueType) (x : t.Data) (h : t.Documented x) :
    (t.callbacks cwd).Survives x := by
  cases t with
  | bool => exact survives_simple (faithful_bool x)
  | uint64 => exact survives_simple (faithful_uint64 x)
  | string => exact survives_simple (faithful_string x)
  | path => exact survives_simple (faithful_path x)
  | dirPath => exact survives_simple (faithful_dirPath x)
  | absDirPath => exact survives_simple (faithful_absDirPath cwd h)
  | name => exact survives_simple (faithful_name h)
  | namePair => exact survives_namePair h.1 h.2.1 h.2.2
  | processPath => exact survives_processPath h
  | processPathEx => exact survives_processPathEx h
  | targetTriplet => exact survives_simple (faithful_targetTriplet h)
  | projectName => exact survives_simple (faithful_projectName h)
  | strings => exact survives_vector fun y _ => faithful_string y
  | nameVector => exact survives_vector fun y hy => faithful_name (h y hy)
  | paths => exact survives_vector fun y _ => faithful_path y
  | dirPaths => exact survives_vector fun y _ => faithful_dirPath y
  | uint64s => exact survives_vector fun y _ => faithful_uint64 y
  | stringPairs =>
    exact survives_pairVector indifferent_string fun e _ =>
      ⟨faithful_string e.1, faithful_string e.2⟩
  | stringMap =>
    exact survives_map indifferent_string fun e _ => ⟨faithful_string e.1, faithful_string e.2⟩
  | projectMap =>
    exact survives_map indifferent_projectName fun e he =>
      ⟨faithful_projectName (h e he), faithful_dirPath e.2⟩

/-- **Documented values survive `untypify`.** -/
theorem typify_untypify (cwd : Cwd) (t : ValueType) (x : t.Data) (h : t.Documented x) :
    typify cwd (untypify cwd (.typed t x)) t = .ok (.typed t x) := by
  show Except.map _ ((t.callbacks cwd).assign ((t.callbacks cwd).reverse x)) = _
  rw [t.survives cwd x h]
  rfl

theorem typed_injective {t : ValueType} {x y : t.Data} (h : Value.typed t x = Value.typed t y) :
    x = y := by
  cases h
  rfl

theorem unnamed_ne : ProjectName.empty ≠ ⟨str ['a', '/']⟩ := by decide

/-- The root directory as the current one. -/
def rootCwd : Cwd := ⟨.ofString [sep], by decide⟩

theorem typify_untypify_pair :
    typify rootCwd (untypify rootCwd (.typed .namePair (.ofValue nameKey, .ofValue checksumKey)))
      .namePair = .ok (.typed .namePair (.ofValue nameKey, .ofValue checksumKey)) :=
  typify_untypify rootCwd .namePair (.ofValue nameKey, .ofValue checksumKey)
    ⟨rfl, rfl, fun h => absurd h (by decide)⟩

/-- Other values do not survive: the second half of a pair becomes the first one, the name of an
unnamed subproject is lost, a directory that is run loses its trailing slash, a relative directory
is completed, and the first part of a system is taken for the vendor that was dropped. -/
theorem typify_untypify_fails :
    (¬∀ (t : ValueType) (x : t.Data),
      typify rootCwd (untypify rootCwd (.typed t x)) t = .ok (.typed t x)) ∧
    typify rootCwd (untypify rootCwd (.typed .namePair (.default, .ofValue nameKey))) .namePair =
      .ok (.typed .namePair (.ofValue nameKey, .default)) ∧
    typify rootCwd (untypify rootCwd (.typed .projectName ⟨str ['a', '/']⟩)) .projectName =
      .ok (.typed .projectName ⟨[]⟩) ∧
    typify rootCwd (untypify rootCwd (.typed .processPath ⟨.ofString (str ['a', '/']), .empty⟩))
      .processPath = .ok (.typed .processPath ⟨.ofString (str ['a']), .empty⟩) ∧
    typify rootCwd (untypify rootCwd (.typed .absDirPath ⟨.ofString (str ['a', '/'])⟩))
      .absDirPath = .ok (.typed .absDirPath ⟨.ofString (str ['/', 'a', '/'])⟩) ∧
    parse (str ['x', '-', 'p', 'c', '-', 'a', '-', 'b']) = .ok
      ⟨str ['x'], [], str ['a', '-', 'b'], [], str ['o', 't', 'h', 'e', 'r']⟩ ∧
    typify rootCwd (untypify rootCwd (.typed .targetTriplet
      ⟨str ['x'], [], str ['a', '-', 'b'], [], str ['o', 't', 'h', 'e', 'r']⟩)) .targetTriplet =
      .ok (.typed .targetTriplet
        ⟨str ['x'], str ['a'], str ['b'], [], str ['o', 't', 'h', 'e', 'r']⟩) :=
  ⟨fun h => unnamed_ne (typed_injective (Except.ok.inj (h .projectName ⟨str ['a', '/']⟩))), rfl,
    rfl, rfl, rfl, rfl, rfl⟩

end Build2.Libbuild2.Values
