import Mathlib.Data.List.Infix
import Mathlib.Data.List.Lex
import Mathlib.Order.Bounds.Basic

/-! # Nearest members of a forest

In a forest the elements above an element form a chain. A member of a set that is nearest above an
element is the greatest of those above it, and a new member takes the place of another exactly where
it comes in between. The order is that of depth: `x ≤ y` says that `x` is at or above `y`. -/

namespace Build2.Lib.Forest

variable {K : Type*} [PartialOrder K]

/-- The elements above each element form a chain. -/
def IsForest (K : Type*) [PartialOrder K] : Prop := ∀ x y z : K, x ≤ z → y ≤ z → x ≤ y ∨ y ≤ x

/-- The greatest element of a set, when it has any. -/
def Greatest (S : Set K) : Option K → Prop
  | none => S = ∅
  | some a => IsGreatest S a

theorem Greatest.unique {S : Set K} {a b : Option K} (ha : Greatest S a) (hb : Greatest S b) :
    a = b := by
  cases a with
  | none =>
    cases b with
    | none => rfl
    | some b =>
      have hm : b ∈ S := hb.1
      rw [show S = ∅ from ha] at hm
      exact hm.elim
  | some a =>
    cases b with
    | none =>
      have hm : a ∈ S := ha.1
      rw [show S = ∅ from hb] at hm
      exact hm.elim
    | some b => rw [IsGreatest.unique ha hb]

variable {S R : Set K} {k p x : K}

/-! ### A new member -/

/-- Between the new member and what is nearest above it there is no other: those above an element
below the new member are above that one or below the new one. -/
theorem greatest_below (hf : IsForest K) (hk : k ∉ S) (hp : IsGreatest (S ∩ Set.Iio k) p)
    (hx : k < x) {q : K} (hq : IsGreatest (S ∩ Set.Iio x) q) : q = p ∨ k < q := by
  rcases hf q k x hq.1.2.le hx.le with h | h
  · have hqk : q < k := lt_of_le_of_ne h fun e => hk (e ▸ hq.1.1)
    exact .inl (le_antisymm (hp.2 ⟨hq.1.1, hqk⟩) (hq.2 ⟨hp.1.1, hp.1.2.trans hx⟩))
  · exact .inr (lt_of_le_of_ne h fun e => hk (e ▸ hq.1.1))

/-- The new member takes the place of the one nearest above it. -/
theorem greatest_insert_parent (hf : IsForest K) (hk : k ∉ S) (hp : IsGreatest (S ∩ Set.Iio k) p)
    (hx : k < x) {q : K} (hq : IsGreatest (S ∩ Set.Iio x) q) [Decidable (q = p)] :
    IsGreatest (insert k S ∩ Set.Iio x) (if q = p then k else q) := by
  split
  · rename_i h
    refine ⟨⟨Set.mem_insert _ _, hx⟩, ?_⟩
    rintro y ⟨rfl | hy, hyx⟩
    · exact le_rfl
    · exact (hq.2 ⟨hy, hyx⟩).trans (h ▸ hp.1.2.le)
  · rename_i h
    refine ⟨⟨Set.mem_insert_of_mem _ hq.1.1, hq.1.2⟩, ?_⟩
    rintro y ⟨rfl | hy, hyx⟩
    · exact ((greatest_below hf hk hp hx hq).resolve_left h).le
    · exact hq.2 ⟨hy, hyx⟩

/-- A new root is the root of what lies below it and had the root that it has itself so far. -/
theorem greatest_insert_root (hf : IsForest K) (hk : k ∉ R) {a b : Option K}
    (ha : Greatest (R ∩ Set.Iic k) a) (hx : k < x) (hb : Greatest (R ∩ Set.Iic x) b)
    [Decidable (b = a)] : Greatest (insert k R ∩ Set.Iic x) (if b = a then some k else b) := by
  split
  · rename_i h
    subst h
    refine ⟨⟨Set.mem_insert _ _, hx.le⟩, ?_⟩
    rintro y ⟨rfl | hy, hyx⟩
    · exact le_rfl
    · cases b with
      | none =>
        have hm : y ∈ R ∩ Set.Iic x := ⟨hy, hyx⟩
        rw [show R ∩ Set.Iic x = ∅ from hb] at hm
        exact hm.elim
      | some c => exact (hb.2 ⟨hy, hyx⟩).trans ha.1.2
  · rename_i h
    cases b with
    | none =>
      -- nothing above the new member either
      refine absurd (Greatest.unique (S := R ∩ Set.Iic k) ?_ ha) h
      exact Set.eq_empty_of_subset_empty fun y hy => by
        rw [← show R ∩ Set.Iic x = ∅ from hb]
        exact ⟨hy.1, hy.2.trans hx.le⟩
    | some c =>
      refine ⟨⟨Set.mem_insert_of_mem _ hb.1.1, hb.1.2⟩, ?_⟩
      rintro y ⟨rfl | hy, hyx⟩
      · refine (hf y c x hx.le hb.1.2).resolve_right fun hc => h ?_
        have hg : Greatest (R ∩ Set.Iic y) (some c) :=
          ⟨⟨hb.1.1, hc⟩, fun z hz => hb.2 ⟨hz.1, hz.2.trans hx.le⟩⟩
        exact hg.unique ha
      · exact hb.2 ⟨hy, hyx⟩

theorem greatest_insert_self : IsGreatest (insert k R ∩ Set.Iic k) k :=
  ⟨⟨Set.mem_insert _ _, le_rfl⟩, fun _ h => h.2⟩

theorem greatest_of_parent {a : Option K} (hR : R ⊆ S) (hk : k ∉ R)
    (hp : IsGreatest (S ∩ Set.Iio k) p) (ha : Greatest (R ∩ Set.Iic p) a) :
    Greatest (R ∩ Set.Iic k) a := by
  have he : R ∩ Set.Iic k = R ∩ Set.Iic p := by
    ext y
    refine and_congr_right fun hy => ⟨fun h => ?_, fun h => h.trans hp.1.2.le⟩
    exact hp.2 ⟨hR hy, lt_of_le_of_ne h fun e => hk (e ▸ hy)⟩
  rwa [he]

/-- The nearest member above an element is also nearest above a new member, when the element is one
of the first below it. -/
theorem greatest_of_first (hx : k < x) (hq : IsGreatest (S ∩ Set.Iio x) p)
    (hfirst : ∀ y ∈ S, k ≤ y → ¬y < x) (hf : IsForest K) : IsGreatest (S ∩ Set.Iio k) p := by
  have hpk : p < k := by
    rcases hf p k x hq.1.2.le hx.le with h | h
    · exact lt_of_le_of_ne h fun e => hfirst p hq.1.1 e.symm.le hq.1.2
    · exact absurd hq.1.2 (hfirst p hq.1.1 h)
  exact ⟨⟨hq.1.1, hpk⟩, fun y hy => hq.2 ⟨hy.1, hy.2.trans hx⟩⟩

/-! ### The forest of lists -/

/-- Lists with the order of being a prefix. -/
def Branch (A : Type*) := List A

instance {A : Type*} : PartialOrder (Branch A) where
  le x y := List.IsPrefix x y
  le_refl _ := List.prefix_rfl
  le_trans _ _ _ := List.IsPrefix.trans
  le_antisymm _ _ h h' := h.eq_of_length_le h'.length_le

theorem isForest_branch {A : Type*} : IsForest (Branch A) :=
  fun _ _ _ => List.prefix_or_prefix_of_prefix

theorem not_lt_of_isPrefix {A : Type*} [LinearOrder A] {p x : List A} (h : p <+: x) : ¬x < p :=
  List.not_lt.mpr h.le

/-- In lexicographic order the lists with one prefix follow it without a gap. -/
theorem isPrefix_of_between {A : Type*} [LinearOrder A] {p x y : List A} (hp : ¬x < p)
    (hy : ¬y < x) (h : p <+: y) : p <+: x := by
  induction p generalizing x y with
  | nil => exact List.nil_prefix
  | cons a p ih =>
    obtain ⟨y, rfl, hpy⟩ : ∃ t, y = a :: t ∧ p <+: t := by
      obtain ⟨t, rfl⟩ := h
      exact ⟨p ++ t, rfl, List.prefix_append _ _⟩
    cases x with
    | nil => exact absurd (List.nil_lt_cons a p) hp
    | cons b x =>
      rw [List.cons_lt_cons_iff, not_or] at hp hy
      have hab : a = b := le_antisymm (not_lt.mp hp.1) (not_lt.mp hy.1)
      subst hab
      rw [List.cons_prefix_cons]
      exact ⟨rfl, ih (fun h => hp.2 ⟨rfl, h⟩) (fun h => hy.2 ⟨rfl, h⟩) hpy⟩

end Build2.Lib.Forest
