import Build2.Lib.OrderedMap
import Build2.Libbuild2.Values.Pairs

/-! # Simple values and containers of them

The callbacks of `variable.txx`: simple values, vectors, vectors of pairs and maps. An element of a
container is one name or a pair of names, an entry of the last two is always a pair. -/

namespace Build2.Libbuild2.Values

open Build2.Lib Build2.Lib.ByteString

variable {T K V C : Type}

/-- `simple_assign` and `simple_reverse`. -/
def simple (tr : ValueTraits T) : Callbacks T where
  assign
    | [] => if tr.emptyValue then .ok tr.default else .error .invalidValue
    | [n] => orInvalid (tr.convert n none)
    | _ => .error .invalidValue
  -- "Represent an empty simple value as empty name sequence rather than a single empty name."
  reverse x := if tr.empty x then [] else [tr.reverse x]

/-! ### Vectors -/

/-- `vector_append`. -/
def vectorAppend (tr : ValueTraits T) (p : List T) : List Name → Except Failure (List T)
  | [] => .ok p
  | n :: ns =>
    if n.pair = 0 then
      match tr.convert n none with
      | some x => vectorAppend tr (p ++ [x]) ns
      | none => .error .invalidValue
    else
      match ns with
      | [] => .error .undefined
      | r :: ns =>
        if n.pair ≠ pairChar then .error .pairStyle
        else
          match tr.convert n (some r) with
          | some x => vectorAppend tr (p ++ [x]) ns
          | none => .error .invalidValue

/-- `vector_assign` and `vector_reverse`. -/
def vector (tr : ValueTraits T) : Callbacks (List T) where
  assign := vectorAppend tr []
  reverse xs := xs.map tr.reverse

/-! ### Vectors of pairs and maps -/

/-- The loop of `pair_vector_append` and `map_append`, which differ in how an entry is added. -/
def entriesAppend (kt : ValueTraits K) (vt : ValueTraits V) (emplace : C → K → V → C) (p : C) :
    List Name → Except Failure C
  | [] => .ok p
  | l :: ns =>
    if l.pair = 0 then .error .pairExpected
    else
      match ns with
      | [] => .error .undefined
      | r :: ns =>
        if l.pair ≠ pairChar then .error .pairStyle
        else
          match kt.convert l none, vt.convert r none with
          | some k, some v => entriesAppend kt vt emplace (emplace p k v) ns
          | _, _ => .error .invalidValue

/-- The names of the entries. -/
def entriesReverse (kt : ValueTraits K) (vt : ValueTraits V) (es : List (K × V)) : List Name :=
  es.flatMap fun e => [(kt.reverse e.1).withPair pairChar, vt.reverse e.2]

/-- `pair_vector_assign` and `pair_vector_reverse`. -/
def pairVector (kt : ValueTraits K) (vt : ValueTraits V) : Callbacks (List (K × V)) where
  assign := entriesAppend kt vt (fun p k v => p ++ [(k, v)]) []
  reverse := entriesReverse kt vt

/-- `map_assign` and `map_reverse`. The keys are compared by their rank. -/
def map {O : Type} [LinearOrder O] (rank : K → O) (kt : ValueTraits K) (vt : ValueTraits V) :
    Callbacks (OrderedMap rank V) where
  assign := entriesAppend kt vt OrderedMap.emplace (OrderedMap.empty rank V)
  reverse m := entriesReverse kt vt m.entries

/-! ### What survives -/

theorem survives_simple {tr : ValueTraits T} {x : T} (h : tr.Faithful x) :
    (simple tr).Survives x := by
  unfold Callbacks.Survives simple
  dsimp only
  by_cases he : tr.empty x = true
  · obtain ⟨hv, hd⟩ := h.empty he
    rw [if_pos he, ← hd]
    simp [hv]
  · rw [if_neg he]
    simp [h.convert, orInvalid]

theorem vectorAppend_reverse {tr : ValueTraits T} {xs : List T} (h : ∀ x ∈ xs, tr.Faithful x)
    (p : List T) : vectorAppend tr p (xs.map tr.reverse) = .ok (p ++ xs) := by
  induction xs generalizing p with
  | nil => simp [vectorAppend]
  | cons x xs ih =>
    have hx := h x List.mem_cons_self
    rw [List.map_cons, vectorAppend.eq_def]
    simp only [hx.pair, if_true, hx.convert]
    rw [ih (fun y hy => h y (List.mem_cons_of_mem _ hy)), List.append_assoc, List.singleton_append]

theorem survives_vector {tr : ValueTraits T} {xs : List T} (h : ∀ x ∈ xs, tr.Faithful x) :
    (vector tr).Survives xs := vectorAppend_reverse h []

/-- A name that is half of a pair is converted as by itself. -/
def Indifferent (kt : ValueTraits K) : Prop :=
  ∀ (n : Name) (c : UInt8), kt.convert (n.withPair c) none = kt.convert n none

theorem entriesAppend_reverse {kt : ValueTraits K} {vt : ValueTraits V} (hi : Indifferent kt)
    (emplace : C → K → V → C) {es : List (K × V)}
    (h : ∀ e ∈ es, kt.Faithful e.1 ∧ vt.Faithful e.2) (p : C) :
    entriesAppend kt vt emplace p (entriesReverse kt vt es) =
      .ok (es.foldl (fun p e => emplace p e.1 e.2) p) := by
  induction es generalizing p with
  | nil => rfl
  | cons e es ih =>
    have he := h e List.mem_cons_self
    have hp : ¬pairChar = 0 := by decide
    rw [entriesReverse, List.flatMap_cons, ← entriesReverse, List.cons_append, List.cons_append,
      List.nil_append, entriesAppend.eq_def]
    simp only [pair_withPair, hp, if_false, ne_eq, not_true_eq_false, hi _ _, he.1.convert,
      he.2.convert]
    rw [ih (fun y hy => h y (List.mem_cons_of_mem _ hy)), List.foldl_cons]

theorem survives_pairVector {kt : ValueTraits K} {vt : ValueTraits V} (hi : Indifferent kt)
    {es : List (K × V)} (h : ∀ e ∈ es, kt.Faithful e.1 ∧ vt.Faithful e.2) :
    (pairVector kt vt).Survives es := by
  unfold Callbacks.Survives pairVector
  dsimp only
  rw [entriesAppend_reverse hi _ h]
  have hfold : ∀ (p es : List (K × V)), es.foldl (fun p e => p ++ [(e.1, e.2)]) p = p ++ es := by
    intro p es
    induction es generalizing p with
    | nil => simp
    | cons e es ih => rw [List.foldl_cons, ih, List.append_assoc, List.singleton_append]
  rw [hfold, List.nil_append]

theorem survives_map {O : Type} [LinearOrder O] {rank : K → O} {kt : ValueTraits K}
    {vt : ValueTraits V} (hi : Indifferent kt) {m : OrderedMap rank V}
    (h : ∀ e ∈ m.entries, kt.Faithful e.1 ∧ vt.Faithful e.2) : (map rank kt vt).Survives m := by
  unfold Callbacks.Survives map
  dsimp only
  rw [entriesAppend_reverse hi _ h, m.foldl_emplace_entries]

end Build2.Libbuild2.Values
