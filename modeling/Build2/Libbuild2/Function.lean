import Build2.Lib.ByteString
import Mathlib.Data.List.ReduceOption

/-! # Calling functions

`function_map` of `function.cxx`. A call selects among the overloads of the name those whose
parameters the arguments convert to with the least rank. It is made as documented but for one kind
of calls, which runs into a failed assertion: some argument is to be untypified and there are more
arguments than typed parameters (`call_resolves_iff`). -/

namespace Build2.Libbuild2.Function

open Build2.Lib.ByteString

/-- `value_type`, with the types it is derived from. -/
inductive ValueType
  | root (name : Bytes)
  | derived (name : Bytes) (base : ValueType)
  deriving DecidableEq, Repr

def ValueType.name : ValueType → Bytes
  | root n => n
  | derived n _ => n

/-- The walk along `base_type`: the type is derived from the given one. -/
def ValueType.derivedFrom : ValueType → ValueType → Bool
  | root _, _ => false
  | derived _ base, ft => base = ft || base.derivedFrom ft

/-- `value`. Untyped values have no type and null ones no data. -/
structure Value (D : Type) where
  type : Option ValueType
  data : Option D
  deriving DecidableEq, Repr

variable {D S : Type}

/-- `untypify`. The `reverse` functions of the types are given. -/
def untypify (reverse : ValueType → D → D) (v : Value D) : Value D :=
  match v.type with
  | none => v
  | some t => ⟨none, v.data.map (reverse t)⟩

/-- An entry of `arg_types`: any type, or else the type or untyped. -/
abbrev Parameter := Option (Option ValueType)

/-- What an implementation may throw. -/
inductive Thrown
  | invalidArgument (what : Bytes)
  | failed
  deriving DecidableEq, Repr

/-- `function_overload`. The implementation gets the scope and the arguments. -/
structure Overload (S D : Type) where
  altName : Option Bytes
  argMin : ℕ
  argMax : ℕ
  argTypes : List Parameter
  impl : S → List (Value D) → Except Thrown (Value D)

/-- `arg_variadic`. -/
def argVariadic : ℕ := 18446744073709551615

/-- The sanity checks of `insert`. -/
def Overload.Sane (f : Overload S D) : Prop := f.argMin ≤ f.argMax ∧ f.argTypes.length ≤ f.argMax

instance (f : Overload S D) : Decidable f.Sane := inferInstanceAs (Decidable (_ ∧ _))

/-- `function_map`: the overloads in the order of the multimap, each with its name. -/
structure FunctionMap (S D : Type) where
  entries : List (Bytes × Overload S D)
  sane : ∀ e ∈ entries, e.2.Sane

/-- Names are compared by their characters. -/
def rankOf (name : Bytes) : List ℕ := name.map UInt8.toNat

/-- Where `emplace` of a multimap puts an element: after those with names that are not greater. -/
def emplace (name : Bytes) (f : Overload S D) :
    List (Bytes × Overload S D) → List (Bytes × Overload S D)
  | [] => [(name, f)]
  | e :: es => if rankOf name < rankOf e.1 then (name, f) :: e :: es else e :: emplace name f es

theorem mem_emplace {name : Bytes} {f : Overload S D} {es : List (Bytes × Overload S D)}
    {e : Bytes × Overload S D} : e ∈ emplace name f es ↔ e = (name, f) ∨ e ∈ es := by
  induction es with
  | nil => simp [emplace]
  | cons x es ih =>
    rw [emplace]
    split_ifs
    · exact List.mem_cons
    · rw [List.mem_cons, ih, List.mem_cons]
      exact or_left_comm

theorem FunctionMap.sane_emplace (m : FunctionMap S D) (name : Bytes) {f : Overload S D}
    (hf : f.Sane) (e : Bytes × Overload S D) (he : e ∈ emplace name f m.entries) : e.2.Sane := by
  rcases mem_emplace.mp he with rfl | he
  · exact hf
  · exact m.sane e he

/-- `function_map::insert`. Without a result, one of the sanity checks has failed. -/
def FunctionMap.insert (m : FunctionMap S D) (name : Bytes) (f : Overload S D) :
    Option (FunctionMap S D) :=
  if hf : f.Sane then some ⟨emplace name f m.entries, m.sane_emplace name hf⟩ else none

def FunctionMap.empty : FunctionMap S D := ⟨[], fun _ he => absurd he (List.not_mem_nil)⟩

/-- `equal_range`. -/
def FunctionMap.equalRange (m : FunctionMap S D) (name : Bytes) : List (Overload S D) :=
  (m.entries.filter fun e => e.1 = name).map Prod.snd

/-! ### Overload resolution -/

/-- The loop over the parameters that have arguments, with the rank so far. -/
def typesMatch : ℕ → List Parameter → List (Value D) → Option ℕ
  | r, p :: ps, v :: vs =>
    match p with
    | none => typesMatch r ps vs
    | some ft =>
      if v.type = ft then typesMatch r ps vs
      else if (v.type.any fun t => ft.any fun t' => t.derivedFrom t') then
        typesMatch (if r < 1 then 1 else r) ps vs
      else if ft = none then typesMatch (if r < 2 then 2 else r) ps vs
      else none
  | r, _, _ => some r

/-- The checks of the number of arguments and of their types: the rank of the overload. -/
def Overload.matchRank (f : Overload S D) (args : List (Value D)) : Option ℕ :=
  if args.length < f.argMin ∨ f.argMax < args.length then none else typesMatch 0 f.argTypes args

/-- The loop over the overloads: the least rank so far and the overloads with it. -/
def resolve (args : List (Value D)) : ℕ → List (Overload S D) → List (Overload S D) →
    ℕ × List (Overload S D)
  | rank, ovls, [] => (rank, ovls)
  | rank, ovls, f :: fs =>
    match f.matchRank args with
    | none => resolve args rank ovls fs
    | some r =>
      if r ≤ rank then
        if r < rank then resolve args r [f] fs else resolve args rank (ovls ++ [f]) fs
      else resolve args rank ovls fs

/-- The value that `rank` has at first. -/
def noRank : ℕ := 18446744073709551615

/-- The second loop over the parameters. -/
def reverseArgs (reverse : ValueType → D → D) : List Parameter → List (Value D) → List (Value D)
  | p :: ps, v :: vs =>
    (if p = some none ∧ v.type ≠ none then untypify reverse v else v) :: reverseArgs reverse ps vs
  | _, vs => vs

/-! ### The call -/

/-- The text of the call in diagnostics. -/
def printCall (name : Bytes) (args : List (Value D)) : Bytes :=
  let texts := args.map fun v =>
    match v.type with
    | some t => t.name
    | none => str "<untyped>".toList
  name ++ [ch '('] ++ [ch ',', ch ' '].intercalate texts ++ [ch ')']

/-- The diagnostics, with the overloads that are listed as candidates. -/
inductive Diagnostics (S D : Type)
  | ofFunction
  | invalidArgument (what : Bytes)
  | unmatched (call : Bytes) (candidates : List (Overload S D))
  | ambiguous (call : Bytes) (candidates : List (Overload S D))

/-- How a call ends. It may return a value, with whether a function has been called. -/
inductive Outcome (S D : Type)
  | returned (v : Value D) (called : Bool)
  | failed (d : Diagnostics S D)
  | assertion

/-- The qualified functions that end with an unqualified name. -/
def FunctionMap.qualified (m : FunctionMap S D) (name : Bytes) : List (Overload S D) :=
  if ch '.' ∈ name then []
  else
    (m.entries.filter fun e =>
      e.2.altName ≠ some name ∧ name.length < e.1.length ∧
        e.1.drop (e.1.length - name.length - 1) = ch '.' :: name).map Prod.snd

/-- Calling the implementation. -/
def Overload.run (f : Overload S D) (base : S) (args : List (Value D)) : Outcome S D :=
  match f.impl base args with
  | .ok v => .returned v true
  | .error (.invalidArgument what) => .failed (.invalidArgument what)
  | .error .failed => .failed .ofFunction

/-- What is done without a match. -/
def FunctionMap.unmatched (m : FunctionMap S D) (name : Bytes) (args : List (Value D)) (fa : Bool) :
    Outcome S D :=
  if fa then
    .failed (.unmatched (printCall name args) (m.equalRange name ++ m.qualified name))
  else .returned ⟨none, none⟩ false

/-- `function_map::call`. -/
def FunctionMap.call (m : FunctionMap S D) (reverse : ValueType → D → D) (base : S) (name : Bytes)
    (args : List (Value D)) (fa : Bool) : Outcome S D :=
  let (rank, ovls) := resolve args noRank [] (m.equalRange name)
  match ovls with
  | [f] =>
    if rank = 2 then
      if args.length ≤ f.argTypes.length then f.run base (reverseArgs reverse f.argTypes args)
      else .assertion
    else f.run base args
  | [] => m.unmatched name args fa
  | _ => .failed (.ambiguous (printCall name args) ovls)

/-! ### What is documented -/

/-- The rank of the conversion of an argument to a parameter. -/
def conversion (p : Parameter) (v : Value D) : Option ℕ :=
  match p with
  | none => some 0
  | some ft =>
    if v.type = ft then some 0
    else if (v.type.any fun t => ft.any fun t' => t.derivedFrom t') then some 1
    else if ft = none then some 2
    else none

/-- The conversions of the arguments that have a parameter. -/
def conversions (f : Overload S D) (args : List (Value D)) : List (Option ℕ) :=
  List.zipWith conversion f.argTypes args

/-- The overload can be called with the arguments. -/
def Overload.Matches (f : Overload S D) (args : List (Value D)) : Prop :=
  f.argMin ≤ args.length ∧ args.length ≤ f.argMax ∧ none ∉ conversions f args

instance (f : Overload S D) (args : List (Value D)) : Decidable (f.Matches args) :=
  inferInstanceAs (Decidable (_ ∧ _))

/-- The rank of the overload: that of the conversion with the greatest one. -/
def Overload.rank (f : Overload S D) (args : List (Value D)) : ℕ :=
  (conversions f args).reduceOption.foldr max 0

/-- The matching overloads with the minimal rank. -/
def best (fs : List (Overload S D)) (args : List (Value D)) : List (Overload S D) :=
  fs.filter fun f => f.Matches args ∧ ∀ g ∈ fs, g.Matches args → f.rank args ≤ g.rank args

/-- The arguments that the function is called with. -/
def reversed (reverse : ValueType → D → D) (f : Overload S D) (args : List (Value D)) :
    List (Value D) :=
  args.mapIdx fun i v =>
    if f.argTypes[i]? = some (some none) ∧ v.type ≠ none then untypify reverse v else v

/-- A call ends as documented. -/
def FunctionMap.Resolves (m : FunctionMap S D) (reverse : ValueType → D → D) (base : S)
    (name : Bytes) (args : List (Value D)) (fa : Bool) : Prop :=
  m.call reverse base name args fa =
    match best (m.equalRange name) args with
    | [] => m.unmatched name args fa
    | [f] => f.run base (reversed reverse f args)
    | fs => .failed (.ambiguous (printCall name args) fs)

variable {reverse : ValueType → D → D} {f g : Overload S D} {fs pre : List (Overload S D)}
  {args vs : List (Value D)} {v : Value D} {p : Parameter} {ps : List Parameter} {r i : ℕ}

/-! ### Ranks -/

theorem conversion_le {k : ℕ} (h : conversion p v = some k) : k ≤ 2 := by
  rcases p with _ | ft
  · obtain rfl := Option.some.inj h
    exact Nat.zero_le 2
  · rw [conversion] at h
    split_ifs at h <;> (obtain rfl := Option.some.inj h; decide)

theorem conversion_eq_two : conversion p v = some 2 ↔ p = some none ∧ v.type ≠ none := by
  rcases p with _ | _ | ft
  · simp [conversion]
  · rcases ht : v.type with _ | t <;> simp [conversion, ht]
  · rw [conversion]
    split_ifs <;> simp_all

theorem typesMatch_cons : typesMatch r (p :: ps) (v :: vs) =
    (conversion p v).bind fun k => typesMatch (max r k) ps vs := by
  rcases p with _ | ft
  · rw [conversion, Option.bind_some, Nat.max_zero]
    rfl
  · have hone : (if r < 1 then 1 else r) = max r 1 := by split_ifs <;> omega
    have htwo : (if r < 2 then 2 else r) = max r 2 := by split_ifs <;> omega
    conv_lhs => unfold typesMatch
    rw [conversion, hone, htwo]
    dsimp only
    split_ifs
    · rw [Option.bind_some, Nat.max_zero]
    · rfl
    · rfl
    · rfl

theorem typesMatch_eq : typesMatch r ps vs =
    if none ∈ List.zipWith conversion ps vs then none
    else some (max r ((List.zipWith conversion ps vs).reduceOption.foldr max 0)) := by
  induction ps generalizing r vs with
  | nil => simp [typesMatch]
  | cons p ps ih =>
    rcases vs with _ | ⟨v, vs⟩
    · simp [typesMatch]
    · rw [typesMatch_cons, List.zipWith_cons_cons]
      rcases hc : conversion p v with _ | k
      · rw [if_pos List.mem_cons_self]
        rfl
      · rw [Option.bind_some, ih, List.reduceOption_cons_of_some, List.foldr_cons, max_assoc]
        simp only [List.mem_cons, reduceCtorEq, false_or]

theorem matchRank_eq : f.matchRank args = if f.Matches args then some (f.rank args) else none := by
  have hcount : (args.length < f.argMin ∨ f.argMax < args.length) ↔
      ¬(f.argMin ≤ args.length ∧ args.length ≤ f.argMax) := by omega
  rw [Overload.matchRank, typesMatch_eq, Nat.zero_max]
  by_cases hn : f.argMin ≤ args.length ∧ args.length ≤ f.argMax
  · rw [if_neg (fun hc => hcount.mp hc hn)]
    by_cases hm : none ∈ conversions f args
    · rw [if_neg (fun hc : f.Matches args => hc.2.2 hm)]
      exact if_pos hm
    · rw [if_pos (show f.Matches args from ⟨hn.1, hn.2, hm⟩)]
      exact if_neg hm
  · rw [if_pos (hcount.mpr hn), if_neg fun hc : f.Matches args => hn ⟨hc.1, hc.2.1⟩]

theorem matchRank_some : f.matchRank args = some r ↔ f.Matches args ∧ f.rank args = r := by
  rw [matchRank_eq]
  split_ifs with h <;> simp [h]

theorem foldr_max_le {l : List ℕ} {n : ℕ} : l.foldr max 0 ≤ n ↔ ∀ k ∈ l, k ≤ n := by
  induction l with
  | nil => simp
  | cons k l ih => rw [List.foldr_cons, Nat.max_le, ih, List.forall_mem_cons]

theorem conversions_le {k : ℕ} (hk : k ∈ (conversions f args).reduceOption) : k ≤ 2 := by
  obtain ⟨i, hi⟩ := List.mem_iff_getElem?.mp (List.reduceOption_mem_iff.mp hk)
  obtain ⟨p, v, -, -, hc⟩ := List.getElem?_zipWith_eq_some.mp hi
  exact conversion_le hc

theorem rank_le (f : Overload S D) (args : List (Value D)) : f.rank args ≤ 2 :=
  foldr_max_le.mpr fun _ hk => conversions_le hk

/-- Some argument is typed where the parameter is untyped. -/
def Overload.Reverses (f : Overload S D) (args : List (Value D)) : Prop :=
  ∃ (i : ℕ) (v : Value D),
    f.argTypes[i]? = some (some none) ∧ args[i]? = some v ∧ v.type ≠ none

theorem rank_eq_two : f.rank args = 2 ↔ f.Reverses args := by
  have hmem : f.rank args = 2 ↔ 2 ∈ (conversions f args).reduceOption := by
    constructor
    · intro h
      by_contra hc
      have hle : f.rank args ≤ 1 := by
        refine foldr_max_le.mpr fun k hk => ?_
        have hne : k ≠ 2 := fun hk2 => hc (hk2 ▸ hk)
        have hk2 := conversions_le hk
        omega
      omega
    · intro h
      have hge : 2 ≤ f.rank args := foldr_max_le.mp le_rfl 2 h
      have hle := rank_le f args
      omega
  rw [hmem, List.reduceOption_mem_iff, List.mem_iff_getElem?]
  constructor
  · rintro ⟨i, hi⟩
    obtain ⟨p, v, hp, hv, hc⟩ := List.getElem?_zipWith_eq_some.mp hi
    obtain ⟨rfl, ht⟩ := conversion_eq_two.mp hc
    exact ⟨i, v, hp, hv, ht⟩
  · rintro ⟨i, v, hp, hv, ht⟩
    exact ⟨i, List.getElem?_zipWith_eq_some.mpr
      ⟨some none, v, hp, hv, conversion_eq_two.mpr ⟨rfl, ht⟩⟩⟩

/-! ### Selecting -/

/-- The least of the ranks that match, and `noRank` without any. -/
def least (fs : List (Overload S D)) (args : List (Value D)) : ℕ :=
  (fs.filterMap fun f => f.matchRank args).foldl min noRank

/-- The overloads with the least rank. -/
def leastOnes (fs : List (Overload S D)) (args : List (Value D)) : List (Overload S D) :=
  fs.filter fun f => f.matchRank args = some (least fs args)

theorem foldl_min_le (l : List ℕ) (n : ℕ) : l.foldl min n ≤ n ∧ ∀ k ∈ l, l.foldl min n ≤ k := by
  induction l generalizing n with
  | nil => exact ⟨le_rfl, fun k hk => absurd hk List.not_mem_nil⟩
  | cons x l ih =>
    obtain ⟨hn, hl⟩ := ih (min n x)
    refine ⟨hn.trans (Nat.min_le_left n x), fun k hk => ?_⟩
    rcases List.mem_cons.mp hk with rfl | hk
    · exact hn.trans (Nat.min_le_right n k)
    · exact hl k hk

theorem foldl_min_mem (l : List ℕ) (n : ℕ) : l.foldl min n = n ∨ l.foldl min n ∈ l := by
  induction l generalizing n with
  | nil => exact .inl rfl
  | cons x l ih =>
    rw [List.foldl_cons, List.mem_cons]
    rcases ih (min n x) with h | h
    · rw [h]
      rcases Nat.le_total n x with hle | hle
      · exact .inl (Nat.min_eq_left hle)
      · exact .inr (.inl (Nat.min_eq_right hle))
    · exact .inr (.inr h)

theorem least_le (hf : f ∈ fs) (hr : f.matchRank args = some r) : least fs args ≤ r :=
  (foldl_min_le _ _).2 r (List.mem_filterMap.mpr ⟨f, hf, hr⟩)

theorem least_snoc_none (h : f.matchRank args = none) :
    least (pre ++ [f]) args = least pre args := by
  have hone : [f].filterMap (fun f => f.matchRank args) = [] := by simp [h]
  rw [least, List.filterMap_append, hone, List.append_nil, least]

theorem least_snoc_some (h : f.matchRank args = some r) :
    least (pre ++ [f]) args = min (least pre args) r := by
  have hone : [f].filterMap (fun f => f.matchRank args) = [r] := by simp [h]
  rw [least, List.filterMap_append, hone, List.foldl_append]
  rfl

theorem filter_of_lt (h : r < least pre args) :
    pre.filter (fun f => f.matchRank args = some r) = [] := by
  rw [List.filter_eq_nil_iff]
  intro f hf hc
  have hle := least_le hf (of_decide_eq_true hc)
  omega

/-- **The loop**: behind some overloads it has the least of their ranks and those with it. -/
theorem resolve_eq (args : List (Value D)) (pre fs : List (Overload S D)) :
    resolve args (least pre args) (leastOnes pre args) fs =
      (least (pre ++ fs) args, leastOnes (pre ++ fs) args) := by
  induction fs generalizing pre with
  | nil => rw [resolve, List.append_nil]
  | cons f fs ih =>
    have hrest := ih (pre ++ [f])
    rw [List.append_assoc, List.singleton_append] at hrest
    rw [← hrest, resolve]
    rcases hf : f.matchRank args with _ | r
    · have hsame : leastOnes (pre ++ [f]) args = leastOnes pre args := by
        rw [leastOnes, least_snoc_none hf, List.filter_append, List.filter_singleton, hf]
        exact List.append_nil _
      rw [least_snoc_none hf, hsame]
    · dsimp only
      split_ifs with hle hlt
      · -- better
        have hmin : least (pre ++ [f]) args = r := by
          rw [least_snoc_some hf]
          exact Nat.min_eq_right hle
        have hones : leastOnes (pre ++ [f]) args = [f] := by
          rw [leastOnes, hmin, List.filter_append, filter_of_lt hlt, List.filter_singleton, hf]
          simp
        rw [hmin, hones]
      · -- just as good
        have heq : r = least pre args := Nat.le_antisymm hle (Nat.not_lt.mp hlt)
        have hmin : least (pre ++ [f]) args = least pre args := by
          rw [least_snoc_some hf, heq, Nat.min_self]
        have hones : leastOnes (pre ++ [f]) args = leastOnes pre args ++ [f] := by
          rw [leastOnes, hmin, List.filter_append, List.filter_singleton, hf, heq]
          simp [leastOnes]
        rw [hmin, hones]
      · have hmin : least (pre ++ [f]) args = least pre args := by
          rw [least_snoc_some hf]
          exact Nat.min_eq_left (Nat.le_of_not_le hle)
        have hones : leastOnes (pre ++ [f]) args = leastOnes pre args := by
          have hne : r ≠ least pre args := fun hc => hle hc.le
          rw [leastOnes, hmin, List.filter_append, List.filter_singleton, hf]
          simp [leastOnes, hne]
        rw [hmin, hones]

theorem leastOnes_eq (fs : List (Overload S D)) (args : List (Value D)) :
    leastOnes fs args = best fs args := by
  refine List.filter_congr fun f hf => ?_
  rw [decide_eq_decide, matchRank_some]
  constructor
  · rintro ⟨hm, hr⟩
    refine ⟨hm, fun g hg hgm => ?_⟩
    rw [hr]
    exact least_le hg (matchRank_some.mpr ⟨hgm, rfl⟩)
  · rintro ⟨hm, hall⟩
    have hle := least_le hf (matchRank_some.mpr ⟨hm, rfl⟩)
    refine ⟨hm, Nat.le_antisymm ?_ hle⟩
    rcases foldl_min_mem (fs.filterMap fun f => f.matchRank args) noRank with h | h
    · -- the least rank is one of those that match
      have htwo := rank_le f args
      rw [least, h, noRank] at hle
      omega
    · obtain ⟨g, hg, hgr⟩ := List.mem_filterMap.mp h
      obtain ⟨hgm, hgr⟩ := matchRank_some.mp hgr
      rw [least, ← hgr]
      exact hall g hg hgm

theorem resolve_all (args : List (Value D)) (fs : List (Overload S D)) :
    resolve args noRank [] fs = (least fs args, best fs args) := by
  have hloop := resolve_eq args [] fs
  rw [List.nil_append, leastOnes_eq fs] at hloop
  exact hloop

theorem least_of_best (hf : f ∈ best fs args) : least fs args = f.rank args := by
  rw [← leastOnes_eq, leastOnes, List.mem_filter] at hf
  exact ((matchRank_some.mp (of_decide_eq_true hf.2)).2).symm

/-- If the least rank is that of the reversal, then all the matching overloads have it. -/
theorem best_of_rank (hf : f ∈ best fs args) (hr : f.rank args = 2) :
    best fs args = fs.filter fun f => f.Matches args := by
  refine List.filter_congr fun g hg => ?_
  rw [decide_eq_decide]
  refine ⟨And.left, fun hm => ⟨hm, fun k hk hkm => ?_⟩⟩
  obtain ⟨-, hall⟩ := of_decide_eq_true (List.mem_filter.mp hf).2
  have hge := hall k hk hkm
  have hle := rank_le g args
  omega

/-- A single matching overload is the best one. -/
theorem best_of_single (h : (fs.filter fun f => f.Matches args) = [f]) : best fs args = [f] := by
  rw [← h]
  refine List.filter_congr fun g hg => ?_
  rw [decide_eq_decide]
  refine ⟨And.left, fun hm => ⟨hm, fun k hk hkm => ?_⟩⟩
  have hone : ∀ k ∈ fs, k.Matches args → k = f := fun k hk hkm =>
    List.mem_singleton.mp (h ▸ List.mem_filter.mpr ⟨hk, decide_eq_true hkm⟩)
  rw [hone g hg hm, hone k hk hkm]

/-! ### Untypifying -/

theorem reverseArgs_eq : reverseArgs reverse ps vs =
    vs.mapIdx fun i v => if ps[i]? = some (some none) ∧ v.type ≠ none then untypify reverse v
      else v := by
  induction ps generalizing vs with
  | nil =>
    have hsame : reverseArgs reverse [] vs = vs := by cases vs <;> rfl
    rw [hsame]
    refine List.ext_getElem? fun i => ?_
    rw [List.getElem?_mapIdx]
    cases vs[i]? <;> rfl
  | cons p ps ih =>
    rcases vs with _ | ⟨v, vs⟩
    · rfl
    · rw [reverseArgs, ih, List.mapIdx_cons]
      simp only [List.getElem?_cons_zero, List.getElem?_cons_succ, Option.some.injEq]

theorem reversed_eq (f : Overload S D) (args : List (Value D)) :
    reversed reverse f args = reverseArgs reverse f.argTypes args :=
  reverseArgs_eq.symm

theorem reversed_of_rank (h : f.rank args ≠ 2) : reversed reverse f args = args := by
  refine List.ext_getElem? fun i => ?_
  rw [reversed, List.getElem?_mapIdx]
  rcases hv : args[i]? with _ | v
  · rfl
  · have hnot : ¬(f.argTypes[i]? = some (some none) ∧ v.type ≠ none) :=
      fun hc => h (rank_eq_two.mpr ⟨i, v, hc.1, hv, hc.2⟩)
    rw [Option.map_some, if_neg hnot]

/-! ### The call -/

theorem run_ne_assertion (f : Overload S D) (base : S) (args : List (Value D)) :
    f.run base args ≠ .assertion := by
  rw [Overload.run]
  rcases f.impl base args with (_ | _) | v <;> simp

/-- The call that goes wrong: a single overload matches, by the reversal to untyped, and there are
more arguments than typed parameters. -/
def Excess (fs : List (Overload S D)) (args : List (Value D)) : Prop :=
  ∃ f, (fs.filter fun f => f.Matches args) = [f] ∧ f.Reverses args ∧
    f.argTypes.length < args.length

/-- **Calls.** A call ends as documented unless it is one of those. -/
theorem call_resolves_iff (m : FunctionMap S D) (reverse : ValueType → D → D) (base : S)
    (name : Bytes) (args : List (Value D)) (fa : Bool) :
    m.Resolves reverse base name args fa ↔ ¬Excess (m.equalRange name) args := by
  rw [FunctionMap.Resolves, FunctionMap.call, resolve_all]
  dsimp only
  rcases hb : best (m.equalRange name) args with _ | ⟨f, _ | ⟨g, fs⟩⟩
  · refine iff_of_true rfl ?_
    rintro ⟨f, hf, -, -⟩
    rw [best_of_single hf] at hb
    exact absurd hb (List.cons_ne_nil f [])
  · have hmem : f ∈ best (m.equalRange name) args := hb ▸ List.mem_singleton_self f
    have hexcess : Excess (m.equalRange name) args ↔
        f.rank args = 2 ∧ f.argTypes.length < args.length := by
      constructor
      · rintro ⟨g, hg, hrev, hlen⟩
        rw [best_of_single hg] at hb
        obtain rfl := List.singleton_inj.mp hb
        exact ⟨rank_eq_two.mpr hrev, hlen⟩
      · rintro ⟨hr, hlen⟩
        exact ⟨f, (best_of_rank hmem hr).symm.trans hb, rank_eq_two.mp hr, hlen⟩
    rw [hexcess, least_of_best hmem]
    dsimp only
    by_cases hr : f.rank args = 2
    · rw [if_pos hr, reversed_eq]
      by_cases hlen : args.length ≤ f.argTypes.length
      · rw [if_pos hlen]
        exact iff_of_true rfl fun hc => absurd hc.2 (Nat.not_lt.mpr hlen)
      · rw [if_neg hlen]
        refine iff_of_false (run_ne_assertion f base _).symm (not_not_intro ⟨hr, ?_⟩)
        exact Nat.not_le.mp hlen
    · rw [if_neg hr, reversed_of_rank hr]
      exact iff_of_true rfl fun hc => hr hc.1
  · refine iff_of_true rfl ?_
    rintro ⟨k, hk, -, -⟩
    rw [best_of_single hk] at hb
    exact absurd (List.cons.inj hb).2.symm (List.cons_ne_nil g fs)

/-- A variadic function with an untyped first parameter. -/
def variadic : Overload Unit Bytes := ⟨none, 1, argVariadic, [some none], fun _ args => .ok
  (args.headD ⟨none, none⟩)⟩

/-- The argument of a type and an untyped one after it. -/
def typedFirst : List (Value Bytes) :=
  [⟨some (.root (str "string".toList)), some (str "a".toList)⟩, ⟨none, some (str "b".toList)⟩]

theorem variadic_assertion : ∃ m : FunctionMap Unit Bytes,
    FunctionMap.empty.insert (str "f".toList) variadic = some m ∧
      m.call (fun _ d => d) () (str "f".toList) typedFirst true = .assertion ∧
      ¬m.Resolves (fun _ d => d) () (str "f".toList) typedFirst true := by
  refine ⟨⟨[(str "f".toList, variadic)], _⟩, rfl, rfl, fun h => ?_⟩
  -- the overload is the best one, but it is not called
  have hrun : Outcome.assertion = variadic.run () (reversed (fun _ d => d) variadic typedFirst) := h
  exact run_ne_assertion variadic () _ hrun.symm

end Build2.Libbuild2.Function
