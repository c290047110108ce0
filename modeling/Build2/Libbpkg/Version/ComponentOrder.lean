import Build2.Libbpkg.Version.Agreement
import Build2.Libbpkg.Version.Standard
import Mathlib.Order.Basic

/-! # The order of versions by components

The canonical upstream and release parts are strings, and comparing these amounts to comparing the
lists of components. `compare` is the lexicographic comparison of the epoch, the two parts, the
revision and the iteration, hence a total preorder. -/

namespace Build2.Libbpkg.Version

open Build2.Lib.ByteString Build2.Lib.Decimal Build2.Lib.Joined Build2.Lib.Lex
  Build2.Libbutl.ParseUint

/-! ### Comparing components -/

/-- Zero-padded to sixteen digits, if there are digits only. -/
def padded (a : Bytes) : Bytes :=
  if a.all isDigit then List.replicate (16 - a.length) (ch '0') ++ a else a

/-- Numbers compare by value, other components by character without regard to case. -/
def compareComponent (a b : Bytes) : Ordering :=
  if a.all isDigit && b.all isDigit then Ord.compare (value a) (value b)
  else Ord.compare ((padded a).map toLower) ((padded b).map toLower)

/-- The components of a part without the trailing zero ones. -/
def significant (s : Bytes) : List Bytes := trim (·.all isZero) ((cString s).splitOn dot)

/-- Parts compare component by component. -/
def comparePart (s t : Bytes) : Ordering :=
  List.compareLex compareComponent (significant s) (significant t)

/-- An absent release is greater than all others. -/
def compareRelease : Option Bytes → Option Bytes → Ordering
  | none, none => .eq
  | none, some _ => .gt
  | some _, none => .lt
  | some s, some t => comparePart s t

/-- A component without leading zeros and case. -/
def essence (a : Bytes) : Bytes := if a.all isDigit then decimal (value a) else a.map toLower

section

variable {a b : Bytes}

theorem toLower_of_isDigit {c : UInt8} (h : isDigit c = true) : toLower c = c := by
  have h1 := isDigit_iff.mp h
  refine if_neg ?_
  simp only [Bool.and_eq_true, decide_eq_true_eq, UInt8.le_iff_toNat_le, not_and]
  intro h2
  have h3 : (ch 'A').toNat = 65 := rfl
  omega

theorem isDigit_toLower (c : UInt8) : isDigit (toLower c) = isDigit c := by
  by_cases h : isDigit c = true
  · rw [toLower_of_isDigit h]
  · rw [eq_false_of_ne_true h]
    refine eq_false_of_ne_true fun h' => h ?_
    unfold toLower at h'
    split_ifs at h' with hu
    · have h1 := isDigit_iff.mp h'
      simp only [Bool.and_eq_true, decide_eq_true_eq, UInt8.le_iff_toNat_le] at hu
      have h2 : (ch 'A').toNat = 65 := rfl
      have h3 : (ch 'Z').toNat = 90 := rfl
      have h4 : (32 : UInt8).toNat = 32 := rfl
      rw [UInt8.toNat_add, h4] at h1
      omega
    · exact h'

theorem all_isDigit_toLower : (a.map toLower).all isDigit = a.all isDigit := by
  rw [List.all_map]
  exact congrArg a.all (funext isDigit_toLower)

theorem map_toLower_padded : (padded a).map toLower = canonComp a := by
  unfold padded canonComp
  split_ifs with h
  · have hall : ∀ c ∈ List.replicate (16 - a.length) (ch '0') ++ a, isDigit c = true := by
      intro c hc
      rcases List.mem_append.mp hc with hc | hc
      · rw [List.eq_of_mem_replicate hc]
        decide
      · exact List.all_eq_true.mp h c hc
    refine (List.map_congr_left fun c hc => ?_).trans (List.map_id _)
    exact toLower_of_isDigit (hall c hc)
  · rfl

/-- The canonical forms of numbers compare as the numbers. -/
theorem compare_canonComp (ha : IsWord a ∧ Fits a) (hb : IsWord b ∧ Fits b) :
    compareComponent a b = Ord.compare (canonComp a) (canonComp b) := by
  unfold compareComponent
  by_cases h : (a.all isDigit && b.all isDigit) = true
  · rw [if_pos h]
    rw [Bool.and_eq_true] at h
    obtain ⟨h1, h2, h3⟩ := canonComp_numeral ⟨ha.1.1, List.all_eq_true.mp h.1⟩ (ha.2 h.1)
    obtain ⟨k1, k2, k3⟩ := canonComp_numeral ⟨hb.1.1, List.all_eq_true.mp h.2⟩ (hb.2 h.2)
    rw [compare_of_length_eq (h1.trans k1.symm) h2 k2, h3, k3]
  · rw [if_neg h, map_toLower_padded, map_toLower_padded]

theorem all_isDigit_canonComp : (canonComp a).all isDigit = a.all isDigit := by
  unfold canonComp
  split_ifs with h
  · rw [List.all_append, h, Bool.and_true, List.all_eq_true]
    intro c hc
    rw [List.eq_of_mem_replicate hc]
    decide
  · exact all_isDigit_toLower

theorem all_isDigit_essence : (essence a).all isDigit = a.all isDigit := by
  unfold essence
  split_ifs with h
  · rw [h]
    exact List.all_eq_true.mpr (numeral_decimal _).2
  · exact all_isDigit_toLower

theorem toNat_canonComp_lt (h : ∀ c ∈ a, isAlnum c = true) : ∀ c ∈ canonComp a, c.toNat < 126 := by
  have hal : ∀ {c : UInt8}, isAlnum c = true → (toLower c).toNat < 126 := by
    intro c hc
    simp only [isAlnum, isAlpha, isDigit, Bool.or_eq_true, Bool.and_eq_true, decide_eq_true_eq,
      UInt8.le_iff_toNat_le] at hc
    have h1 : (ch 'z').toNat = 122 := rfl
    have h2 : (ch 'Z').toNat = 90 := rfl
    have h3 : (ch '9').toNat = 57 := rfl
    have h4 : (32 : UInt8).toNat = 32 := rfl
    unfold toLower
    split_ifs with hu
    · simp only [Bool.and_eq_true, decide_eq_true_eq, UInt8.le_iff_toNat_le] at hu
      rw [UInt8.toNat_add, h4]
      omega
    · omega
  intro b hb
  rw [← map_toLower_padded] at hb
  obtain ⟨c, hc, rfl⟩ := List.mem_map.mp hb
  refine hal ?_
  unfold padded at hc
  split_ifs at hc with hd
  · rcases List.mem_append.mp hc with h0 | h1
    · rw [List.eq_of_mem_replicate h0]
      decide
    · exact h c h1
  · exact h c hc

/-- Components with one canonical form differ in leading zeros and case only. -/
theorem canonComp_inj (ha : IsWord a ∧ Fits a) (hb : IsWord b ∧ Fits b) :
    canonComp a = canonComp b ↔ essence a = essence b := by
  by_cases h : a.all isDigit = b.all isDigit
  · by_cases hd : a.all isDigit = true
    · have hd' := h.symm.trans hd
      obtain ⟨h1, h2, h3⟩ := canonComp_numeral ⟨ha.1.1, List.all_eq_true.mp hd⟩ (ha.2 hd)
      obtain ⟨k1, k2, k3⟩ := canonComp_numeral ⟨hb.1.1, List.all_eq_true.mp hd'⟩ (hb.2 hd')
      unfold essence
      rw [if_pos hd, if_pos hd']
      constructor
      · intro he
        rw [← h3, ← k3, he]
      · intro he
        have hv := congrArg value he
        rw [value_decimal, value_decimal] at hv
        exact eq_of_value_eq (h1.trans k1.symm) h2 k2 (h3.trans (hv.trans k3.symm))
    · unfold canonComp essence
      rw [if_neg hd, if_neg (h ▸ hd), if_neg hd, if_neg (h ▸ hd)]
  · refine iff_of_false (fun he => h ?_) fun he => h ?_
    · rw [← all_isDigit_canonComp, he, all_isDigit_canonComp]
    · rw [← all_isDigit_essence, he, all_isDigit_essence]

end

/-! ### Comparing parts -/

section

variable {s t c d : Bytes}

theorem splitOn_closed {xs : List Bytes} {y : Bytes} (hxs : ∀ x ∈ xs, IsWord x)
    (hy : ∀ b ∈ y, isAlnum b = true) : (closed dot xs ++ y).splitOn dot = xs ++ [y] := by
  have hne : ∀ {x : Bytes}, (∀ b ∈ x, isAlnum b = true) → ∀ b ∈ x, (b == dot) = false := by
    intro x hx b hb
    exact beq_false_of_ne (ne_of_class (hx b hb) (by decide))
  rw [List.splitOn_eq_splitOnP]
  induction xs with
  | nil => exact List.splitOnP_eq_singleton (hne hy)
  | cons x xs ih =>
    rw [closed_cons, List.append_assoc, List.cons_append, List.splitOnP_append_cons_of_forall_mem
      (hne (hxs x (by simp)).2) dot (by decide), ih fun z hz => hxs z (List.mem_cons_of_mem _ hz)]
    rfl

/-- **The canonical form of a part** is made of its significant components. -/
theorem PartForm.significant (h : PartForm s c) : (∀ x ∈ significant s, IsWord x ∧ Fits x) ∧
    c = joined dot ((Version.significant s).map canonComp) := by
  obtain ⟨xs, y, hpart, rfl⟩ := h
  have hsig : Version.significant s = trim (·.all isZero) (components xs y) := by
    unfold Version.significant
    rw [hpart.text, splitOn_closed (fun x hx => (hpart.words x hx).1) hpart.alnum, components]
    split_ifs with hy
    · rw [trim_snoc, hy]
      rfl
    · rfl
  have hwords : ∀ x ∈ components xs y, IsWord x ∧ Fits x := by
    unfold components
    split_ifs with hy
    · exact hpart.words
    · exact forall_mem_snoc.mpr ⟨hpart.words, ⟨hy, hpart.alnum⟩, hpart.fits⟩
  rw [hsig]
  refine ⟨fun x hx => hwords x ((trim_initial _).subset hx), congrArg (joined dot) ?_⟩
  refine trim_map _ fun x _ => ?_
  rw [all_isZero_canonComp, Bool.and_eq_right_iff_imp]
  intro hz
  exact List.all_eq_true.mpr fun b hb => isDigit_of_isZero (List.all_eq_true.mp hz b hb)

theorem compareLex_map {α β : Type} [Ord β] {f : α → β} {cmp : α → α → Ordering} :
    ∀ {xs ys : List α}, (∀ x ∈ xs, ∀ y ∈ ys, cmp x y = Ord.compare (f x) (f y)) →
      List.compareLex cmp xs ys = Ord.compare (xs.map f) (ys.map f)
  | [], [], _ => rfl
  | [], _ :: _, _ => rfl
  | _ :: _, [], _ => rfl
  | x :: xs, y :: ys, h => by
    rw [List.compareLex_cons_cons, List.map_cons, List.map_cons, List.compare_cons_cons,
      h x (by simp) y (by simp), compareLex_map fun x hx y hy =>
        h x (List.mem_cons_of_mem _ hx) y (List.mem_cons_of_mem _ hy)]

/-- **Canonical parts compare as the lists of components.** -/
theorem compare_part (hs : PartForm s c) (ht : PartForm t d) :
    Ord.compare c d = comparePart s t := by
  obtain ⟨h1, rfl⟩ := hs.significant
  obtain ⟨h2, rfl⟩ := ht.significant
  have habove : ∀ {xs : List Bytes}, (∀ x ∈ xs, IsWord x ∧ Fits x) →
      ∀ x ∈ xs.map canonComp, x ≠ [] ∧ Above dot x := by
    intro xs hxs z hz
    obtain ⟨x, hx, rfl⟩ := List.mem_map.mp hz
    exact ⟨canonComp_ne_nil (hxs x hx).1.1, above_canonComp (hxs x hx).1.2⟩
  rw [compare_joined (habove h1) (habove h2)]
  have hcmp : ∀ x ∈ significant s, ∀ y ∈ significant t,
      compareComponent x y = Ord.compare (canonComp x) (canonComp y) := by
    intro x hx y hy
    exact compare_canonComp (h1 x hx) (h2 y hy)
  exact (compareLex_map hcmp).symm

/-- Parts compare as equal when their components differ in leading zeros and case only. -/
theorem canonical_part_inj (hs : PartForm s c) (ht : PartForm t d) :
    c = d ↔ (significant s).map essence = (significant t).map essence := by
  obtain ⟨h1, rfl⟩ := hs.significant
  obtain ⟨h2, rfl⟩ := ht.significant
  have hinj : ∀ {xs ys : List Bytes}, (∀ x ∈ xs, IsWord x ∧ Fits x) →
      (∀ y ∈ ys, IsWord y ∧ Fits y) →
      (xs.map canonComp = ys.map canonComp ↔ xs.map essence = ys.map essence) := by
    intro xs
    induction xs with
    | nil =>
      intro ys _ _
      simp [eq_comm]
    | cons x xs ih =>
      intro ys hxs hys
      cases ys with
      | nil => simp
      | cons y ys =>
        rw [List.forall_mem_cons] at hxs hys
        rw [List.map_cons, List.map_cons, List.map_cons, List.map_cons, List.cons_eq_cons,
          List.cons_eq_cons, canonComp_inj hxs.1 hys.1, ih hxs.2 hys.2]
  rw [← hinj h1 h2]
  refine ⟨fun h => ?_, fun h => by rw [h]⟩
  have heq : comparePart s t = .eq := by
    rw [← compare_part hs ht, h]
    exact Std.ReflCmp.compare_self
  have hcmp : ∀ x ∈ significant s, ∀ y ∈ significant t,
      compareComponent x y = Ord.compare (canonComp x) (canonComp y) := by
    intro x hx y hy
    exact compare_canonComp (h1 x hx) (h2 y hy)
  unfold comparePart at heq
  rw [compareLex_map hcmp] at heq
  exact Std.LawfulEqCmp.eq_of_compare heq

theorem compare_tilde_part (h : PartForm s c) : Ord.compare (str ['~']) c = .gt := by
  obtain ⟨h1, rfl⟩ := h.significant
  cases hx : Version.significant s with
  | nil => rfl
  | cons x xs =>
    have hw := (h1 x (by rw [hx]; simp)).1
    obtain ⟨b, w, hb⟩ := List.exists_cons_of_ne_nil (canonComp_ne_nil hw.1)
    have hal : b.toNat < 126 := toNat_canonComp_lt hw.2 b (by rw [hb]; simp)
    have hgt : Ord.compare (ch '~') b = .gt := by
      rw [Std.OrientedOrd.eq_swap, show Ord.compare b (ch '~') = .lt from ?_]
      · rfl
      · show compareOfLessAndEq b (ch '~') = .lt
        unfold compareOfLessAndEq
        rw [if_pos (UInt8.lt_iff_toNat_lt.mpr hal)]
    rw [List.map_cons, joined_cons, hb]
    refine (List.compare_cons_cons).trans ?_
    rw [hgt]
    rfl

end

/-! ### The order of versions -/

/-- The versions there are: the empty one and those that the constructors make. -/
inductive Constructed : Version → Prop
  | empty : Constructed {}
  | ofString {s : Bytes} {fold : Bool} {v : Version} : ofString s fold = .ok v → Constructed v
  | ofParts {e : ℕ} {u : Bytes} {l : Option Bytes} {r : Option ℕ} {i : ℕ} {v : Version} :
    ofParts e u l r i = .ok v → Constructed v

section

variable {x y z : Version}

/-- The canonical parts are those of the upstream and the release part. -/
theorem Constructed.forms (h : Constructed x) : PartForm x.upstream x.canonicalUpstream ∧
    ReleaseForm x.release x.canonicalRelease := by
  have hparts : ∀ {e u l r i} {v : Version}, Version.ofParts e u l r i = .ok v →
      PartForm v.upstream v.canonicalUpstream ∧ ReleaseForm v.release v.canonicalRelease := by
    intro e u l r i v hv
    obtain ⟨-, cu, cl, hu, hl, rfl⟩ := ofParts_eq_ok.mp hv
    exact ⟨hu, hl⟩
  cases h with
  | empty => exact hparts (e := 0) (u := []) (l := some []) (r := none) (i := 0) (by rfl)
  | ofString h =>
    have h' := hparts (ofParts_of_ofString h (i := 0) fun _ => rfl)
    exact h'
  | ofParts h => exact hparts h

/-- Releases without leading zeros, case and trailing zero components. -/
def releaseEssence (l : Option Bytes) : Option (List Bytes) :=
  l.map fun s => (significant s).map essence

theorem compare_release {l m : Option Bytes} {c d : Bytes} (hl : ReleaseForm l c)
    (hm : ReleaseForm m d) : Ord.compare c d = compareRelease l m := by
  cases l with
  | none =>
    obtain rfl : c = str ['~'] := hl
    cases m with
    | none =>
      obtain rfl : d = str ['~'] := hm
      rfl
    | some t => exact compare_tilde_part hm
  | some s =>
    cases m with
    | none =>
      obtain rfl : d = str ['~'] := hm
      rw [Std.OrientedOrd.eq_swap, compare_tilde_part hl]
      rfl
    | some t => exact compare_part hl hm

theorem release_inj {l m : Option Bytes} {c d : Bytes} (hl : ReleaseForm l c)
    (hm : ReleaseForm m d) : c = d ↔ releaseEssence l = releaseEssence m := by
  have hne : ∀ {s c}, PartForm s c → str ['~'] ≠ c := by
    rintro s c h rfl
    have hgt := compare_tilde_part h
    cases Std.ReflCmp.compare_self.symm.trans hgt
  cases l with
  | none =>
    obtain rfl : c = str ['~'] := hl
    cases m with
    | none =>
      obtain rfl : d = str ['~'] := hm
      simp
    | some t => exact iff_of_false (hne hm) nofun
  | some s =>
    cases m with
    | none =>
      obtain rfl : d = str ['~'] := hm
      exact iff_of_false (fun h => hne hl h.symm) nofun
    | some t => simpa [releaseEssence] using canonical_part_inj hl hm

/-- `compare` as a comparison of one part after the other. -/
def compareParts (ignoreRevision ignoreIteration : Bool) : Version → Version → Ordering :=
  compareLex (compareOn (·.epoch)) <| compareLex (compareOn (·.canonicalUpstream)) <|
    compareLex (compareOn (·.canonicalRelease)) <|
    compareLex (compareOn fun v => if ignoreRevision then none else v.revision)
      (compareOn fun v => if ignoreRevision || ignoreIteration then 0 else v.iteration)

theorem compare_revision (m n : Option ℕ) : Ord.compare m n =
    if m ≠ n then if revisionLt m n then .lt else .gt else .eq := by
  cases m with
  | none => cases n <;> rfl
  | some m =>
    cases n with
    | none => rfl
    | some n =>
      have h := compare_ite m n .eq
      rw [Ordering.then_eq] at h
      show Ord.compare m n = _
      rw [← h]
      simp [revisionLt]

theorem compare_eq_compareParts (ir ii : Bool) : x.compare y ir ii = compareParts ir ii x y := by
  have hiter := compare_ite x.iteration y.iteration .eq
  rw [Ordering.then_eq] at hiter
  unfold Version.compare compareParts
  simp only [compareLex, compareOn]
  rw [← compare_ite x.epoch]
  congr 4
  cases ir with
  | true => rfl
  | false =>
    simp only [Bool.false_eq_true, if_false, Bool.false_or, compare_revision]
    by_cases h : x.revision = y.revision
    · cases ii with
      | true => simp [h]
      | false => simp [h, ← hiter]
    · simp only [ne_eq, h, not_false_eq_true, if_true]
      split_ifs <;> rfl

/-- The lexicographic comparison is one by a total preorder. -/
instance (ir ii : Bool) : Std.TransCmp (compareParts ir ii) := by
  unfold compareParts
  infer_instance

theorem compare_refl (x : Version) (ir ii : Bool) : x.compare x ir ii = .eq :=
  (compare_eq_compareParts ir ii).trans Std.ReflCmp.compare_self

theorem compare_swap (x y : Version) (ir ii : Bool) :
    y.compare x ir ii = (x.compare y ir ii).swap := by
  have h : compareParts ir ii y x = (compareParts ir ii x y).swap := Std.OrientedCmp.eq_swap
  rw [compare_eq_compareParts, compare_eq_compareParts, h]

theorem compare_trans {ir ii : Bool} (hxy : x.compare y ir ii ≠ .gt)
    (hyz : y.compare z ir ii ≠ .gt) : x.compare z ir ii ≠ .gt := by
  rw [compare_eq_compareParts] at hxy hyz ⊢
  exact Ordering.ne_gt_iff_isLE.mpr (Std.TransCmp.isLE_trans (Ordering.ne_gt_iff_isLE.mp hxy)
    (Ordering.ne_gt_iff_isLE.mp hyz))

theorem compare_eq_eq (hx : Constructed x) (hy : Constructed y) (ir ii : Bool) :
    x.compare y ir ii = .eq ↔ x.epoch = y.epoch ∧
      (significant x.upstream).map essence = (significant y.upstream).map essence ∧
      releaseEssence x.release = releaseEssence y.release ∧
      (ir = false → x.revision = y.revision ∧ (ii = false → x.iteration = y.iteration)) := by
  obtain ⟨hu, hl⟩ := hx.forms
  obtain ⟨hu', hl'⟩ := hy.forms
  rw [compare_eq_compareParts, ← canonical_part_inj hu hu', ← release_inj hl hl']
  unfold compareParts
  simp only [compareLex_eq_eq, compareOn, Std.LawfulEqCmp.compare_eq_iff_eq]
  cases ir <;> cases ii <;> simp

/-- **The order of versions.** The canonical parts compare as the lists of components, `compare` is
a total preorder, and versions compare as equal when they differ in case, leading zeros and trailing
zero components only. -/
theorem order_by_components (x y : Version) (hx : Constructed x) (hy : Constructed y) :
    Ord.compare x.canonicalUpstream y.canonicalUpstream = comparePart x.upstream y.upstream ∧
    Ord.compare x.canonicalRelease y.canonicalRelease = compareRelease x.release y.release ∧
    ∀ ir ii,
      x.compare x ir ii = .eq ∧ y.compare x ir ii = (x.compare y ir ii).swap ∧
      (∀ z, Constructed z → x.compare y ir ii ≠ .gt → y.compare z ir ii ≠ .gt →
        x.compare z ir ii ≠ .gt) ∧
      (x.compare y ir ii = .eq ↔ x.epoch = y.epoch ∧
        (significant x.upstream).map essence = (significant y.upstream).map essence ∧
        releaseEssence x.release = releaseEssence y.release ∧
        (ir = false → x.revision = y.revision ∧ (ii = false → x.iteration = y.iteration))) := by
  refine ⟨compare_part hx.forms.1 hy.forms.1, compare_release hx.forms.2 hy.forms.2,
    fun ir ii => ?_⟩
  exact ⟨compare_refl x ir ii, compare_swap x y ir ii, fun _ _ => compare_trans,
    compare_eq_eq hx hy ir ii⟩

/-- `1.A.0` and `01.a`. -/
theorem order_by_components_at :
    Version.compare ⟨1, str ['1', '.', 'A', '.', '0'], none, none, 0,
        canonical [str ['1'], str ['a']], str ['~']⟩
      ⟨1, str ['0', '1', '.', 'a'], none, none, 0, canonical [str ['1'], str ['a']], str ['~']⟩
      false false = .eq :=
  ((order_by_components _ _
    (.ofParts (e := 1) (u := str ['1', '.', 'A', '.', '0']) (l := none) (r := none) (i := 0)
      (by rfl))
    (.ofParts (e := 1) (u := str ['0', '1', '.', 'a']) (l := none) (r := none) (i := 0)
      (by rfl))).2.2 false false).2.2.2.mpr (by decide)

end

end Build2.Libbpkg.Version
