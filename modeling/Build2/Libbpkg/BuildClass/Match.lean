import Build2.Lib.Chain
import Build2.Lib.OrderedMap
import Build2.Libbpkg.BuildClass.RoundTrip
import Mathlib.Data.List.Lex

/-! # Matching classes against an expression

`match_classes` of `manifest.cxx` skips the terms that cannot change the result and stops looking
for a name at the first class that has it. It computes the plain evaluation of the expression from
left to right (`matchClasses_eq`), for any classes whose inheritance has no cycles: the source does
not verify that, and its loop over the bases takes fuel here. -/

namespace Build2.Libbpkg.BuildClass

open Build2.Lib Build2.Lib.ByteString Build2.Lib.Chain Relation

/-- Class names are compared as strings. -/
def nameRank (s : Bytes) : List ℕ := s.map UInt8.toNat

/-- `build_class_inheritance_map`: from derived classes to their bases. -/
abbrev InheritanceMap : Type := OrderedMap nameRank Bytes

/-! ### The code -/

/-- The loop over the base classes. -/
def baseMatches (im : InheritanceMap) (n : ℕ) (name c : Bytes) : Option Bool :=
  along im.find (fun base => base = name) n c

/-- The loop over the classes. -/
def classMatches (im : InheritanceMap) (n : ℕ) (name : Bytes) : List Bytes → Option Bool
  | [] => some false
  | c :: cs =>
    if c = name then some true
    else
      match baseMatches im n name c with
      | none => none
      | some true => some true
      | some false => classMatches im n name cs

/-- What a term does to the result. -/
def Operation.update : Operation → Bool → Bool → Bool
  | plus, r, m => if m then true else r
  | minus, r, m => if m then false else r
  | and, r, m => r && m

mutual

/-- Whether a term matches, before its inversion. -/
def termMatches (cs : List Bytes) (im : InheritanceMap) (n : ℕ) : Term → Option Bool
  | .simple _ _ name => classMatches im n name cs
  | .compound _ _ e => matchClasses cs im n e false

/-- `match_classes`. -/
def matchClasses (cs : List Bytes) (im : InheritanceMap) (n : ℕ) : List Term → Bool → Option Bool
  | [], r => some r
  | t :: ts, r =>
    -- `+` may only invert false, and `-` and `&` may only invert true
    if decide (t.operation = .plus) = r then matchClasses cs im n ts r
    else
      match termMatches cs im n t with
      | none => none
      | some m => matchClasses cs im n ts (t.operation.update r (if t.inverted then !m else m))

end

/-! ### The plain evaluation -/

/-- A class in the list, or one of its transitive bases, has the name. -/
def HasClass (cs : List Bytes) (im : InheritanceMap) (name : Bytes) : Prop :=
  ∃ c ∈ cs, ReflTransGen (Link im.find) c name

/-- `+` is or, `-` is and-not, `&` is and. -/
def Operation.combine : Operation → Prop → Prop → Prop
  | plus, r, m => r ∨ m
  | minus, r, m => r ∧ ¬m
  | and, r, m => r ∧ m

/-- `!` negates. -/
def inverting (inverted : Bool) (m : Prop) : Prop := if inverted then ¬m else m

mutual

/-- A name holds if a class has it, and a nested expression starts from false. -/
def Term.Holds (has : Bytes → Prop) : Term → Prop
  | .simple _ _ name => has name
  | .compound _ _ e => Evaluates has False e

/-- The evaluation from left to right. -/
def Evaluates (has : Bytes → Prop) : Prop → List Term → Prop
  | r, [] => r
  | r, t :: ts => Evaluates has (t.operation.combine r (inverting t.inverted (t.Holds has))) ts

end

/-! ### The code computes the evaluation -/

section Names

variable {cs : List Bytes} {im : InheritanceMap} {n : ℕ} (hac : Acyclic im.find)
  (hn : im.entries.length < n)
include hac hn

theorem baseMatches_eq (name c : Bytes) : ∃ b, baseMatches im n name c = some b ∧
    (b = true ↔ TransGen (Link im.find) c name) := by
  have hks : ∀ a b, im.find a = some b → a ∈ im.entries.map Prod.fst := by
    intro a b h
    obtain ⟨e, he, hr⟩ := OrderedMap.mem_of_find h
    have hinj : Function.Injective nameRank :=
      List.map_injective_iff.mpr fun x y hxy => UInt8.toNat_inj.mp hxy
    exact List.mem_map.mpr ⟨e, he, hinj hr⟩
  have hlen : (im.entries.map Prod.fst).length < n := by rwa [List.length_map]
  obtain ⟨b, hb⟩ := Option.isSome_iff_exists.mp
    (along_isSome (p := fun base => base = name) (a := c) hac hks hlen)
  refine ⟨b, hb, (along_spec hb).trans ⟨?_, fun h => ⟨name, h, by simp⟩⟩⟩
  rintro ⟨d, hd, hp⟩
  rwa [← of_decide_eq_true hp]

theorem classMatches_eq (name : Bytes) : ∀ cs : List Bytes,
    ∃ b, classMatches im n name cs = some b ∧ (b = true ↔ HasClass cs im name)
  | [] => ⟨false, rfl, by simp [HasClass]⟩
  | c :: cs => by
    obtain ⟨b, hb, hbase⟩ := baseMatches_eq hac hn name c
    obtain ⟨r, hr, hrest⟩ := classMatches_eq name cs
    have hcons : HasClass (c :: cs) im name ↔
        (c = name ∨ TransGen (Link im.find) c name) ∨ HasClass cs im name := by
      unfold HasClass
      simp only [List.mem_cons, exists_eq_or_imp]
      rw [reflTransGen_iff_eq_or_transGen, eq_comm]
    rw [classMatches, hcons]
    by_cases hc : c = name
    · exact ⟨true, if_pos hc, by simp [hc]⟩
    · rw [if_neg hc, hb]
      cases b with
      | true => exact ⟨true, rfl, by simp [hbase.mp rfl]⟩
      | false =>
        have hno : ¬ TransGen (Link im.find) c name := fun h => by cases hbase.mpr h
        exact ⟨r, hr, by simp [hrest, hc, hno]⟩

end Names

/-- A term that is skipped would not change the result. -/
theorem combine_skipped {o : Operation} {r : Bool} (h : decide (o = .plus) = r) (m : Prop) :
    o.combine (r = true) m = (r = true) := by
  subst h
  cases o <;> simp [Operation.combine]

theorem combine_update (o : Operation) (r m : Bool) :
    o.combine (r = true) (m = true) = (o.update r m = true) := by
  cases o <;> cases r <;> cases m <;> simp [Operation.combine, Operation.update]

theorem inverting_eq (i m : Bool) :
    inverting i (m = true) = ((if i then !m else m) = true) := by
  cases i <;> cases m <;> simp [inverting]

section Terms

variable (cs : List Bytes) {im : InheritanceMap} {n : ℕ}

mutual

theorem termMatches_eq (hac : Acyclic im.find) (hn : im.entries.length < n) : ∀ t : Term,
    ∃ m, termMatches cs im n t = some m ∧ (m = true) = t.Holds (HasClass cs im)
  | .simple _ _ name => by
    obtain ⟨m, h1, h2⟩ := classMatches_eq hac hn name cs
    exact ⟨m, h1, propext h2⟩
  | .compound _ _ e => by
    obtain ⟨m, h1, h2⟩ := matchClasses_eq hac hn e false
    refine ⟨m, h1, h2.trans ?_⟩
    rw [Term.Holds, eq_false Bool.false_ne_true]

/-- **The optimised match computes the plain evaluation.** -/
theorem matchClasses_eq (hac : Acyclic im.find) (hn : im.entries.length < n) :
    ∀ (ts : List Term) (r : Bool), ∃ b, matchClasses cs im n ts r = some b ∧
      (b = true) = Evaluates (HasClass cs im) (r = true) ts
  | [], r => ⟨r, rfl, rfl⟩
  | t :: ts, r => by
    rw [matchClasses, Evaluates]
    by_cases hskip : decide (t.operation = .plus) = r
    · rw [if_pos hskip, combine_skipped hskip]
      exact matchClasses_eq hac hn ts r
    · obtain ⟨m, hm, hholds⟩ := termMatches_eq hac hn t
      rw [if_neg hskip, hm, ← hholds, inverting_eq, combine_update]
      exact matchClasses_eq hac hn ts _

end

end Terms

/-- **Build class expressions** are read back from their representation, and matching them ends with
the plain evaluation. -/
theorem read_back_and_matched :
    (∀ (s c : Bytes) (e : Expr), Expr.ofString s c = .ok e →
      ∀ c', Expr.ofString e.string c' = .ok { e with comment := c' }) ∧
    ∀ (ts : List Term) (cs : List Bytes) (im : InheritanceMap), Acyclic im.find → ∀ r : Bool,
      ∃ b : Bool, (b = true ↔ Evaluates (HasClass cs im) (r = true) ts) ∧
        ∃ n, ∀ m, n ≤ m → matchClasses cs im m ts r = some b := by
  refine ⟨fun s c e h c' => ofString_string (ofString_valid h).1 c', fun ts cs im hac r => ?_⟩
  obtain ⟨b, -, hb⟩ := matchClasses_eq cs hac (Nat.lt_succ_self _) ts r
  refine ⟨b, iff_of_eq hb, im.entries.length + 1, fun m hm => ?_⟩
  obtain ⟨b', h', hb'⟩ := matchClasses_eq cs hac hm ts r
  have hbb : b' = b := Bool.eq_iff_iff.mpr (iff_of_eq (hb'.trans hb.symm))
  rw [h', hbb]

/-- A class derived from another one. -/
def derivedGcc : InheritanceMap := (OrderedMap.empty nameRank Bytes).emplace
  (str "linux-gcc".toList) (str "gcc".toList)

theorem acyclic_derivedGcc : Acyclic derivedGcc.find := by
  have hlink : ∀ a b, Link derivedGcc.find a b →
      a = str "linux-gcc".toList ∧ b = str "gcc".toList := by
    intro a b h
    obtain ⟨e, he, rfl⟩ := Option.map_eq_some_iff.mp h
    have hmem := List.mem_of_find?_eq_some he
    have hrank : nameRank e.1 = nameRank a := by simpa using List.find?_some he
    rw [show derivedGcc.entries = [(str "linux-gcc".toList, str "gcc".toList)] from rfl,
      List.mem_singleton] at hmem
    subst hmem
    exact ⟨(List.map_injective_iff.mpr (fun x y hxy => UInt8.toNat_inj.mp hxy) hrank).symm, rfl⟩
  intro a h
  obtain ⟨b, hb, hba⟩ := TransGen.head'_iff.mp h
  obtain ⟨rfl, rfl⟩ := hlink a b hb
  rcases ReflTransGen.cases_head hba with h | ⟨c, hc, -⟩
  · exact absurd h (by decide)
  · exact absurd (hlink _ c hc).1 (by decide)

theorem read_back_and_matched_gcc :
    Expr.ofString (str "default : &( +gcc )".toList) [] =
        .ok ⟨[], [str "default".toList],
          [.compound .and false [.simple .plus false (str "gcc".toList)]]⟩ ∧
      (∀ e, Expr.ofString (str "default : &( +gcc )".toList) [] = .ok e →
        Expr.ofString e.string [] = .ok { e with comment := [] }) ∧
      ∃ b : Bool,
        (b = true ↔ Evaluates (HasClass [str "linux-gcc".toList] derivedGcc) (false = true)
          [.simple .plus false (str "gcc".toList)]) ∧
        ∃ n, ∀ m, n ≤ m → matchClasses [str "linux-gcc".toList] derivedGcc m
          [.simple .plus false (str "gcc".toList)] false = some b :=
  ⟨by with_unfolding_all rfl, fun e he => read_back_and_matched.1 _ [] e he [],
    read_back_and_matched.2 _ _ derivedGcc acyclic_derivedGcc false⟩

end Build2.Libbpkg.BuildClass
