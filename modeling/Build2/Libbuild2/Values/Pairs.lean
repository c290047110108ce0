import Build2.Libbuild2.Values.Traits

/-! # Values represented by pairs of names

`name_pair`, `process_path` and `process_path_ex`. A pair is a name with the pair character `@` and
the name after it. The last type has further pairs, with the keys `name` and `checksum`, at the
end. -/

namespace Build2.Libbuild2.Values

open Build2.Lib.ByteString Build2.Libbutl.Paths

/-- How a value cannot be assigned: with diagnostics, or because names are missing that the code
accesses. -/
inductive Failure
  | invalidValue
  | pairExpected
  | pairStyle
  | typeMismatch
  | undefined
  deriving DecidableEq, Repr

/-- The `assign` and `reverse` callbacks of a value type. -/
structure Callbacks (T : Type) where
  assign : List Name → Except Failure T
  reverse : T → List Name

/-- A conversion that throws `invalid_argument` is reported as an invalid value. -/
def orInvalid {T : Type} (x : Option T) : Except Failure T :=
  match x with
  | some x => .ok x
  | none => .error .invalidValue

/-- The pair character. -/
def pairChar : UInt8 := ch '@'

/-! ### name_pair -/

/-- `value_traits<name_pair>::convert`. -/
def namePairConvert (n : Name) (r : Option Name) : Name × Name :=
  (n.withPair 0, r.getD .default)

/-- `name_pair`. -/
def namePair : Callbacks (Name × Name) where
  assign
    | [] => .ok (.default, .default)
    | [n] => .ok (namePairConvert n none)
    | [n, r] => .ok (namePairConvert n (some r))
    | _ => .error .invalidValue
  reverse p :=
    if p.1.empty && p.2.empty then []
    else if p.1.empty then [p.2]
    else if p.2.empty then [p.1]
    else [p.1.withPair pairChar, p.2]

/-! ### process_path -/

structure ProcessPath where
  recallPath : AnyPath
  effectPath : AnyPath
  deriving DecidableEq

/-- The path a name stands for. -/
def pathOf (n : Name) : Option AnyPath :=
  if n.dir.isEmpty then some (AnyPath.ofString n.value) else n.dir.toAnyPath.append n.value

/-- A name that is not empty, neither typed nor qualified. -/
def pathLike (n : Name) : Bool := n.untyped && n.unqualified && !n.empty

/-- `process_path_convert`. -/
def processPathConvert (n : Name) (r : Option Name) : Option ProcessPath :=
  if pathLike n && r.elim true pathLike then do
    let rp ← pathOf n
    let ep ← r.elim (some .empty) pathOf
    some ⟨rp, ep⟩
  else none

/-- The name of a path. -/
def nameOf (p : AnyPath) : Name := Name.plain p.directory p.leaf.data.path

/-- `process_path_reverse_impl`. -/
def processPathReverse (x : ProcessPath) : List Name :=
  if x.effectPath.isEmpty then [nameOf x.recallPath]
  else [(nameOf x.recallPath).withPair pairChar, nameOf x.effectPath]

def ProcessPath.isEmpty (x : ProcessPath) : Bool := x.recallPath.isEmpty && x.effectPath.isEmpty

/-- `process_path`. A default-constructed value has no `initial` to make the recall path from. -/
def processPath : Callbacks ProcessPath where
  assign
    | [] => .error .undefined
    | [n] => orInvalid (processPathConvert n none)
    | [n, r] => orInvalid (processPathConvert n (some r))
    | _ => .error .invalidValue
  reverse x := if x.isEmpty then [] else processPathReverse x

/-! ### process_path_ex -/

structure ProcessPathEx extends ProcessPath where
  name : Option Bytes
  checksum : Option Bytes
  deriving DecidableEq

def nameKey : Bytes := str ['n', 'a', 'm', 'e']

def checksumKey : Bytes := str ['c', 'h', 'e', 'c', 'k', 's', 'u', 'm']

/-- The loop over the pairs after the process path. -/
def convertTail (pp : ProcessPathEx) : List Name → Except Failure ProcessPathEx
  | [] => .ok pp
  | i :: ns =>
    if i.pair = 0 || !i.simple false then .error .invalidValue
    else if i.value = nameKey ∨ i.value = checksumKey then
      match ns with
      | [] => .error .undefined
      | v :: ns =>
        if !v.simple false then .error .invalidValue
        else if i.value = nameKey then convertTail { pp with name := some v.value } ns
        else convertTail { pp with checksum := some v.value } ns
    else .error .invalidValue

/-- The process path at the front with no name and checksum yet. -/
def convertHead (n : Name) (r : Option Name) : Except Failure ProcessPathEx :=
  (orInvalid (processPathConvert n r)).map fun x => ⟨x, none, none⟩

/-- The pair for a key, if there is a value. -/
def keyPair (k : Bytes) (v : Option Bytes) : List Name :=
  v.elim [] fun v => [(Name.ofValue k).withPair pairChar, Name.ofValue v]

/-- `process_path_ex`. -/
def processPathEx : Callbacks ProcessPathEx where
  assign
    | [] => .error .undefined
    | n :: ns =>
      if n.pair = 0 then do
        let pp ← convertHead n none
        convertTail pp ns
      else
        match ns with
        | [] => .error .undefined
        | r :: ns => do
          let pp ← convertHead n (some r)
          convertTail pp ns
  reverse x :=
    if x.isEmpty then []
    else processPathReverse x.toProcessPath ++ keyPair nameKey x.name ++
      keyPair checksumKey x.checksum

/-! ### What survives -/

/-- **A value that is assigned back from its names.** -/
def Callbacks.Survives {T : Type} (cb : Callbacks T) (x : T) : Prop :=
  cb.assign (cb.reverse x) = .ok x

/-- "An empty first or second half of a pair is treated as unspecified", and a single name is taken
for the first half. -/
def Specified (p : Name × Name) : Prop := p.1.empty = true → p.2.empty = true

/-- The names of a value are no halves of pairs themselves. -/
def Unpaired (n : Name) : Prop := n.pair = 0

section

variable {n : Name}

@[simp] theorem withPair_withPair (c d : UInt8) : (n.withPair c).withPair d = n.withPair d := rfl

theorem withPair_self (h : Unpaired n) : n.withPair 0 = n := by
  unfold Unpaired at h
  rw [← h]
  rfl

theorem eq_default (h : Unpaired n) (he : n.empty = true) : n = .default := by
  have hn := Name.eq_of_empty he
  rw [h] at hn
  exact hn

theorem survives_namePair {p : Name × Name} (h1 : Unpaired p.1) (h2 : Unpaired p.2)
    (hs : Specified p) : namePair.Survives p := by
  obtain ⟨f, s⟩ := p
  dsimp only [Specified] at h1 h2 hs
  unfold Callbacks.Survives
  by_cases hf : f.empty = true
  · have hse := hs hf
    rw [eq_default h1 hf, eq_default h2 hse]
    rfl
  by_cases hse : s.empty = true
  · have hrev : namePair.reverse (f, s) = [f] := by simp [namePair, hf, hse]
    rw [hrev, eq_default h2 hse]
    show Except.ok (f.withPair 0, Name.default) = _
    rw [withPair_self h1]
  · have hrev : namePair.reverse (f, s) = [f.withPair pairChar, s] := by
      simp [namePair, hf, hse]
    rw [hrev]
    show Except.ok ((f.withPair pairChar).withPair 0, s) = _
    rw [withPair_withPair, withPair_self h1]

/-- A path without a trailing separator of its own. -/
def Untrailed (p : AnyPath) : Prop := p.data.tsep ≠ .slash

/-- "Instances that we store always have non-empty recall." The paths are those of files. -/
structure ProcessPath.Stored (x : ProcessPath) : Prop where
  nonempty : x.recallPath.isEmpty = false
  ofRecall : Untrailed x.recallPath
  ofEffect : Untrailed x.effectPath

/-- **A path is that of its name.** -/
theorem pathOf_nameOf {p : AnyPath} (he : p.isEmpty = false) (ht : Untrailed p) :
    pathLike (nameOf p) = true ∧ pathOf (nameOf p) = some p := by
  have hne : p.data.path ≠ [] := by simpa [AnyPath.isEmpty] using he
  rcases PathData.directory_leaf p.valid ht with ⟨hd, hl⟩ | ⟨hd, hl, hs, hc⟩
  · have hdir : p.directory.isEmpty = true := by
      show List.isEmpty (PathData.directory p.data).path = true
      rw [hd]
      rfl
    have hleaf : p.leaf.data.path = p.data.path := congrArg PathData.path hl
    refine ⟨?_, ?_⟩
    · simp [pathLike, nameOf, hleaf, hne]
    · rw [pathOf, nameOf, Name.plain_dir, hdir, Name.plain_value, hleaf, if_pos rfl,
        AnyPath.ofString_path ht]
  · have hdir : p.directory.isEmpty = false := by
      rw [Bool.eq_false_iff]
      intro h0
      exact hd (List.isEmpty_iff.mp h0)
    refine ⟨by simp [pathLike, nameOf, hdir], ?_⟩
    rw [pathOf, nameOf, Name.plain_dir, hdir, Name.plain_value, if_neg (by simp), AnyPath.append,
      dif_neg (show ¬p.leaf.data.path = [] from hl), dif_neg (show sep ∉ p.leaf.data.path from hs)]
    exact congrArg some (AnyPath.ext hc)

@[simp] theorem pathLike_withPair (c : UInt8) : pathLike (n.withPair c) = pathLike n := rfl

@[simp] theorem pathOf_withPair (c : UInt8) : pathOf (n.withPair c) = pathOf n := rfl

theorem ProcessPath.Stored.isEmpty {x : ProcessPath} (h : x.Stored) : x.isEmpty = false := by
  rw [ProcessPath.isEmpty, h.nonempty, Bool.false_and]

/-- **A process path is converted back from its one or two names.** -/
theorem convert_processPathReverse {x : ProcessPath} (h : x.Stored) :
    (x.effectPath.isEmpty = true ∧ processPathReverse x = [nameOf x.recallPath] ∧
      processPathConvert (nameOf x.recallPath) none = some x) ∨
    (x.effectPath.isEmpty = false ∧
      processPathReverse x = [(nameOf x.recallPath).withPair pairChar, nameOf x.effectPath] ∧
      processPathConvert ((nameOf x.recallPath).withPair pairChar) (some (nameOf x.effectPath)) =
        some x) := by
  obtain ⟨hr, hrp⟩ := pathOf_nameOf h.nonempty h.ofRecall
  by_cases he : x.effectPath.isEmpty = true
  · refine Or.inl ⟨he, by simp [processPathReverse, he], ?_⟩
    have hx : x = ⟨x.recallPath, .empty⟩ := by rw [← AnyPath.isEmpty_iff.mp he]
    rw [processPathConvert, hr, hrp, hx]
    rfl
  · rw [Bool.not_eq_true] at he
    obtain ⟨hq, hqp⟩ := pathOf_nameOf he h.ofEffect
    refine Or.inr ⟨he, by simp [processPathReverse, he], ?_⟩
    simp [processPathConvert, hr, hrp, hq, hqp]

theorem survives_processPath {x : ProcessPath} (h : x.Stored) : processPath.Survives x := by
  unfold Callbacks.Survives processPath
  dsimp only
  rw [h.isEmpty]
  rcases convert_processPathReverse h with ⟨-, hrev, hc⟩ | ⟨-, hrev, hc⟩
  · rw [hrev]
    simp [hc, orInvalid]
  · rw [hrev]
    simp [hc, orInvalid]

/-! ### Names and checksums -/

@[simp] theorem simple_withPair (c : UInt8) (q : Bool) : (n.withPair c).simple q = n.simple q := rfl

@[simp] theorem value_withPair (c : UInt8) : (n.withPair c).value = n.value := rfl

@[simp] theorem pair_withPair (c : UInt8) : (n.withPair c).pair = c := rfl

theorem convertTail_name (pp : ProcessPathEx) (v : Option Bytes) (h : pp.name = none)
    (ns : List Name) :
    convertTail pp (keyPair nameKey v ++ ns) = convertTail { pp with name := v } ns := by
  cases v with
  | none =>
    obtain ⟨x, nm, ck⟩ := pp
    subst h
    rfl
  | some v =>
    have hp : ¬pairChar = 0 := by decide
    simp [keyPair, convertTail, hp]

theorem convertTail_checksum (pp : ProcessPathEx) (v : Option Bytes) (h : pp.checksum = none)
    (ns : List Name) :
    convertTail pp (keyPair checksumKey v ++ ns) = convertTail { pp with checksum := v } ns := by
  cases v with
  | none =>
    obtain ⟨x, nm, ck⟩ := pp
    subst h
    rfl
  | some v =>
    have hp : ¬pairChar = 0 := by decide
    have hk : ¬checksumKey = nameKey := by decide
    simp [keyPair, convertTail, hp, hk]

/-- **The pairs for the name and the checksum are told apart by their keys.** -/
theorem convertTail_keyPairs (x : ProcessPathEx) :
    convertTail ⟨x.toProcessPath, none, none⟩
      (keyPair nameKey x.name ++ keyPair checksumKey x.checksum) = .ok x := by
  rw [convertTail_name _ _ rfl, ← List.append_nil (keyPair checksumKey x.checksum),
    convertTail_checksum _ _ rfl]
  rfl

theorem survives_processPathEx {x : ProcessPathEx} (h : x.toProcessPath.Stored) :
    processPathEx.Survives x := by
  have htail := convertTail_keyPairs x
  have hp : ¬pairChar = 0 := by decide
  unfold Callbacks.Survives processPathEx
  dsimp only
  rw [h.isEmpty]
  rcases convert_processPathReverse h with ⟨-, hrev, hc⟩ | ⟨-, hrev, hc⟩
  · have hpair : (nameOf x.recallPath).pair = 0 := rfl
    have hhead : convertHead (nameOf x.recallPath) none = .ok ⟨x.toProcessPath, none, none⟩ := by
      rw [convertHead, hc]
      rfl
    rw [if_neg (by simp), hrev, List.append_assoc, List.singleton_append]
    dsimp only
    rw [if_pos hpair, hhead]
    exact htail
  · have hhead : convertHead ((nameOf x.recallPath).withPair pairChar)
        (some (nameOf x.effectPath)) = .ok ⟨x.toProcessPath, none, none⟩ := by
      rw [convertHead, hc]
      rfl
    rw [if_neg (by simp), hrev, List.append_assoc]
    simp only [List.cons_append, List.nil_append]
    rw [if_neg (by simpa using hp), hhead]
    exact htail

end

end Build2.Libbuild2.Values
