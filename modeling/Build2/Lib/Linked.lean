import Mathlib.Data.List.Basic
import Mathlib.Data.List.Nodup
import Mathlib.Data.List.Sublists
import Mathlib.Data.Set.Insert

/-! # Linked lists

A `std::list` with its iterators: a node has an identity from its insertion to its erasure, and an
iterator is the identity of a node or the end. Insertion keeps every node and the order between
them, so what is before what stays so. -/

namespace Build2.Lib.Linked

open scoped List

/-- An iterator: a node or, if `none`, the end. -/
abbrev Iter := Option ℕ

/-- A list of nodes, each with its identity, and an identity that was not used yet. -/
structure NodeList (α : Type) where
  nodes : List (ℕ × α) := []
  unused : ℕ := 0
  nodup : (nodes.map Prod.fst).Nodup := by simp
  lt_unused : ∀ x ∈ nodes, x.1 < unused := by simp

variable {α : Type}

/-- The list without nodes. -/
def NodeList.nil : NodeList α := {}

/-- The elements in their order. -/
def NodeList.values (l : NodeList α) : List α := l.nodes.map Prod.snd

/-- The identities in their order. -/
def NodeList.ids (l : NodeList α) : List ℕ := l.nodes.map Prod.fst

/-- A node goes in front of the node at the iterator, or to the end. -/
def insertBefore (i : Iter) (x : ℕ × α) : List (ℕ × α) → List (ℕ × α)
  | [] => [x]
  | y :: l => if i = some y.1 then x :: y :: l else y :: insertBefore i x l

theorem exists_split (i : Iter) (x : ℕ × α) (l : List (ℕ × α)) : ∃ a b, l = a ++ b ∧
    insertBefore i x l = a ++ x :: b ∧ (∀ y ∈ a, i ≠ some y.1) ∧
      (b = [] ∨ ∃ y c, b = y :: c ∧ i = some y.1) := by
  induction l with
  | nil => exact ⟨[], [], rfl, rfl, by simp, Or.inl rfl⟩
  | cons y l ih =>
    by_cases h : i = some y.1
    · exact ⟨[], y :: l, rfl, by simp [insertBefore, h], by simp, Or.inr ⟨y, l, rfl, h⟩⟩
    · obtain ⟨a, b, rfl, h2, h3, h4⟩ := ih
      refine ⟨y :: a, b, rfl, by simp [insertBefore, h, h2], ?_, h4⟩
      exact List.forall_mem_cons.mpr ⟨h, h3⟩

/-- `insert`: the list and the iterator of the new node. -/
def NodeList.insert (l : NodeList α) (i : Iter) (a : α) : NodeList α × Iter :=
  (⟨insertBefore i (l.unused, a) l.nodes, l.unused + 1, by
      obtain ⟨s, t, h1, h2, -⟩ := exists_split i (l.unused, a) l.nodes
      have hn := l.nodup
      have hu : l.unused ∉ l.nodes.map Prod.fst := fun h => by
        obtain ⟨x, hx, h'⟩ := List.mem_map.mp h
        have := l.lt_unused x hx
        omega
      rw [h1, List.map_append] at hn hu
      rw [h2, List.map_append, List.map_cons, List.nodup_middle, List.nodup_cons]
      exact ⟨hu, hn⟩, by
      obtain ⟨s, t, h1, h2, -⟩ := exists_split i (l.unused, a) l.nodes
      intro x hx
      rw [h2, List.mem_append, List.mem_cons] at hx
      rcases hx with hx | rfl | hx
      · have := l.lt_unused x (by rw [h1]; exact List.mem_append_left _ hx)
        omega
      · exact Nat.lt_succ_self _
      · have := l.lt_unused x (by rw [h1]; exact List.mem_append_right _ hx)
        omega⟩, some l.unused)

/-- `erase`. -/
def NodeList.erase (l : NodeList α) (i : Iter) : NodeList α where
  nodes := l.nodes.filter fun x => i ≠ some x.1
  unused := l.unused
  nodup := (l.nodup.sublist (List.filter_sublist.map _))
  lt_unused x hx := l.lt_unused x (List.mem_of_mem_filter hx)

/-- The walk of an iterator from `j`, over the nodes from there on, to see if it gets to `i`. -/
def walk (i j : Iter) : List (ℕ × α) → Iter
  | [] => i
  | _ :: l => if l.head?.map Prod.fst = i then j else walk i j l

/-- The iterator `j` if it is before `i`, else `i`. -/
def NodeList.earlier (l : NodeList α) (i j : Iter) : Iter :=
  if i = j then i else walk i j (l.nodes.dropWhile fun x => j ≠ some x.1)

variable {l : NodeList α} {i j : Iter} {a b : α} {k m : ℕ} {x y : ℕ × α}

/-! ### What is before what -/

/-- The iterator `i` is not behind `j`. -/
def NodeList.Le (l : NodeList α) (i : Iter) : Iter → Prop
  | none => True
  | some m => ∃ k, i = some k ∧ (k = m ∨ [k, m] <+ l.ids)

/-- The iterator is that of a node or the end. -/
def NodeList.Valid (l : NodeList α) (i : Iter) : Prop := ∀ k ∈ i, k ∈ l.ids

theorem NodeList.mem_ids (h : x ∈ l.nodes) : x.1 ∈ l.ids := List.mem_map_of_mem h

theorem NodeList.eq_of_fst_eq (hx : x ∈ l.nodes) (hy : y ∈ l.nodes) (h : x.1 = y.1) : x = y :=
  List.inj_on_of_nodup_map l.nodup hx hy h

/-- Two nodes one before the other, seen through their elements. -/
theorem NodeList.values_sublist (hx : (k, a) ∈ l.nodes) (hy : (m, b) ∈ l.nodes)
    (h : [k, m] <+ l.ids) : [a, b] <+ l.values := by
  obtain ⟨s, hs, he⟩ := List.sublist_map_iff.mp h
  rcases s with _ | ⟨x, _ | ⟨y, _ | ⟨z, s⟩⟩⟩
  · cases he
  · simp at he
  · simp only [List.map_cons, List.map_nil, List.cons.injEq, and_true] at he
    have h1 : (k, a) = x := l.eq_of_fst_eq hx (hs.subset (by simp)) he.1
    have h2 : (m, b) = y := l.eq_of_fst_eq hy (hs.subset (by simp)) he.2
    rw [← h1, ← h2] at hs
    exact hs.map Prod.snd
  · simp at he

/-- Two elements one before the other, seen through their nodes. -/
theorem NodeList.ids_sublist (hv : l.values.Nodup) (hx : (k, a) ∈ l.nodes) (hy : (m, b) ∈ l.nodes)
    (h : [a, b] <+ l.values) : [k, m] <+ l.ids := by
  obtain ⟨s, hs, he⟩ := List.sublist_map_iff.mp h
  rcases s with _ | ⟨x, _ | ⟨y, _ | ⟨z, s⟩⟩⟩
  · cases he
  · simp at he
  · simp only [List.map_cons, List.map_nil, List.cons.injEq, and_true] at he
    have h1 : (k, a) = x := List.inj_on_of_nodup_map hv hx (hs.subset (by simp)) he.1
    have h2 : (m, b) = y := List.inj_on_of_nodup_map hv hy (hs.subset (by simp)) he.2
    rw [← h1, ← h2] at hs
    exact hs.map Prod.fst
  · simp at he

/-! ### Insertion -/

theorem NodeList.mem_insert : x ∈ (l.insert i a).1.nodes ↔ x = (l.unused, a) ∨ x ∈ l.nodes := by
  obtain ⟨s, t, h1, h2, -⟩ := exists_split i (l.unused, a) l.nodes
  change x ∈ insertBefore i (l.unused, a) l.nodes ↔ _
  rw [h2, h1]
  simp only [List.mem_append, List.mem_cons]
  tauto

theorem NodeList.nodes_sublist_insert : l.nodes <+ (l.insert i a).1.nodes := by
  obtain ⟨s, t, h1, h2, -⟩ := exists_split i (l.unused, a) l.nodes
  change l.nodes <+ insertBefore i (l.unused, a) l.nodes
  rw [h2, h1]
  exact (List.sublist_cons_self _ t).append_left s

/-- **The new node is before all that the iterator is not behind.** -/
theorem NodeList.insert_before (h : l.Le i (some m)) (hm : m ∈ l.ids) :
    [l.unused, m] <+ (l.insert i a).1.ids := by
  obtain ⟨k, rfl, hk⟩ := h
  obtain ⟨s, t, h1, h2, h3, h4⟩ := exists_split (some k) (l.unused, a) l.nodes
  have hs : k ∉ s.map Prod.fst := fun h => by
    obtain ⟨x, hx, rfl⟩ := List.mem_map.mp h
    exact h3 x hx rfl
  have hids : l.ids = s.map Prod.fst ++ t.map Prod.fst := by
    unfold ids
    rw [h1, List.map_append]
  have hmt : m ∈ t.map Prod.fst := by
    rcases hk with rfl | hk
    · rw [hids, List.mem_append] at hm
      exact hm.resolve_left hs
    · rw [hids] at hk
      -- `m` behind `k`, and `k` is not in the first part
      obtain ⟨s1, s2, he, hs1, hs2⟩ := List.sublist_append_iff.mp hk
      cases s1 with
      | nil =>
        obtain rfl : [k, m] = s2 := he
        exact hs2.subset (by simp)
      | cons z s1 =>
        obtain ⟨rfl, -⟩ := List.cons.inj he
        exact absurd (hs1.subset List.mem_cons_self) hs
  change [l.unused, m] <+ (insertBefore (some k) (l.unused, a) l.nodes).map Prod.fst
  rw [h2, List.map_append, List.map_cons]
  exact ((List.singleton_sublist.mpr hmt).cons_cons _).trans (List.sublist_append_right _ _)

/-- **The new node is behind all that is before the iterator.** -/
theorem NodeList.insert_behind (h : ∀ m ∈ i, [k, m] <+ l.ids) (hk : k ∈ l.ids) :
    [k, l.unused] <+ (l.insert i a).1.ids := by
  obtain ⟨s, t, h1, h2, h3, h4⟩ := exists_split i (l.unused, a) l.nodes
  have hids : l.ids = s.map Prod.fst ++ t.map Prod.fst := by
    unfold ids
    rw [h1, List.map_append]
  have hks : k ∈ s.map Prod.fst := by
    rcases h4 with rfl | ⟨y, c, rfl, rfl⟩
    · simpa [hids] using hk
    · -- before the first node of the second part
      have hn := l.nodup
      rw [h1, List.map_append, List.map_cons] at hn
      have hky := h y.1 rfl
      rw [hids, List.map_cons] at hky
      obtain ⟨b, d, he, hb, hd⟩ := List.cons_sublist_iff.mp hky
      rw [List.singleton_sublist] at hd
      rcases List.append_eq_append_iff.mp he with ⟨e, rfl, he'⟩ | ⟨e, hs, -⟩
      · cases e with
        | nil => simpa using hb
        | cons z e =>
          obtain ⟨rfl, hc⟩ := List.cons.inj he'
          rw [List.nodup_middle, List.nodup_cons] at hn
          have hy : y.1 ∈ c.map Prod.fst := by
            rw [hc]
            exact List.mem_append_right _ hd
          exact absurd (List.mem_append_right _ hy) hn.1
      · rw [hs]
        exact List.mem_append_left _ hb
  change [k, l.unused] <+ (insertBefore i (l.unused, a) l.nodes).map Prod.fst
  rw [h2, List.map_append, List.map_cons]
  exact (List.singleton_sublist.mpr hks).append (List.singleton_sublist.mpr List.mem_cons_self)

theorem NodeList.values_sublist_insert : l.values <+ (l.insert i a).1.values :=
  nodes_sublist_insert.map _

theorem NodeList.Le.mono {l' : NodeList α} (h : l.Le i j) (hl : l.nodes <+ l'.nodes) :
    l'.Le i j := by
  cases j with
  | none => trivial
  | some m =>
    obtain ⟨k, rfl, hk⟩ := h
    exact ⟨k, rfl, hk.imp_right fun h => h.trans (hl.map _)⟩

theorem NodeList.Valid.mono {l' : NodeList α} (h : l.Valid i) (hl : l.nodes <+ l'.nodes) :
    l'.Valid i :=
  fun k hk => (hl.map _).subset (h k hk)

/-! ### The earlier iterator -/

theorem NodeList.Le.refl (h : l.Valid i) : l.Le i i := by
  cases i with
  | none => trivial
  | some m => exact ⟨m, rfl, Or.inl rfl⟩

/-- What the walk from a node says: whether the iterator is behind the node. -/
theorem walk_cases {s : List (ℕ × α)} (hs : i ≠ some x.1) : walk i j (x :: s) =
    if i = none ∨ ∃ y ∈ s, i = some y.1 then j else i := by
  induction s generalizing x with
  | nil =>
    rw [walk]
    cases i with
    | none => simp
    | some m => simp [walk]
  | cons y s ih =>
    rw [walk]
    by_cases hy : i = some y.1
    · rw [if_pos (by simp [hy]), if_pos (Or.inr ⟨y, List.mem_cons_self, hy⟩)]
    · rw [if_neg (by simpa using Ne.symm hy), ih hy]
      refine if_congr ?_ rfl rfl
      simp [hy]

/-- **The earlier of two iterators** is one of them and not behind either. -/
theorem NodeList.earlier_spec (hi : l.Valid i) (hm : m ∈ l.ids) :
    l.Valid (l.earlier i (some m)) ∧ l.Le (l.earlier i (some m)) i ∧
      l.Le (l.earlier i (some m)) (some m) ∧
      (l.earlier i (some m) = i ∨ l.earlier i (some m) = some m) := by
  obtain ⟨x, hx, rfl⟩ := List.mem_map.mp hm
  have hvx : l.Valid (some x.1) := fun k hk => by
    cases hk
    exact mem_ids hx
  obtain ⟨s, t, hst⟩ := List.append_of_mem hx
  have hn : x.1 ∉ s.map Prod.fst := by
    have := l.nodup
    rw [hst, List.map_append, List.map_cons, List.nodup_middle, List.nodup_cons,
      List.mem_append, not_or] at this
    exact this.1.1
  have hdrop : l.nodes.dropWhile (fun y => some x.1 ≠ some y.1) = x :: t := by
    rw [hst, List.dropWhile_append_of_pos]
    · simp
    · intro y hy
      have hne : x.1 ≠ y.1 := fun h => hn (h ▸ List.mem_map_of_mem hy)
      simpa using hne
  unfold earlier
  by_cases he : i = some x.1
  · rw [if_pos he, ← he]
    exact ⟨hi, Le.refl hi, Le.refl hi, Or.inl rfl⟩
  · rw [if_neg he, hdrop, walk_cases he]
    have hids : l.ids = s.map Prod.fst ++ x.1 :: t.map Prod.fst := by
      unfold ids
      rw [hst, List.map_append, List.map_cons]
    by_cases hb : i = none ∨ ∃ y ∈ t, i = some y.1
    · -- the walk got to `i`
      rw [if_pos hb]
      refine ⟨hvx, ?_, Le.refl hvx, Or.inr rfl⟩
      rcases hb with rfl | ⟨y, hy, rfl⟩
      · trivial
      · refine ⟨x.1, rfl, Or.inr ?_⟩
        rw [hids]
        exact ((List.singleton_sublist.mpr (List.mem_map_of_mem hy)).cons_cons _).trans
          (List.sublist_append_right _ _)
    · rw [if_neg hb]
      refine ⟨hi, Le.refl hi, ?_, Or.inl rfl⟩
      obtain ⟨k, rfl⟩ : ∃ k, i = some k := Option.ne_none_iff_exists'.mp (fun h => hb (Or.inl h))
      refine ⟨k, rfl, Or.inr ?_⟩
      have hk := hi k rfl
      rw [hids, List.mem_append, List.mem_cons] at hk
      rcases hk with hk | rfl | hk
      · rw [hids]
        exact (List.singleton_sublist.mpr hk).append (List.singleton_sublist.mpr List.mem_cons_self)
      · exact absurd rfl he
      · obtain ⟨y, hy, rfl⟩ := List.mem_map.mp hk
        exact absurd (Or.inr ⟨y, hy, rfl⟩) hb

theorem pair_trans {β : Type} {s : List β} {p q r : β} (hs : s.Nodup) (h1 : [p, q] <+ s)
    (h2 : [q, r] <+ s) : [p, r] <+ s := by
  obtain ⟨a, b, rfl, hp, hq⟩ := List.cons_sublist_iff.mp h1
  obtain ⟨c, d, he, hq', hr⟩ := List.cons_sublist_iff.mp h2
  rw [List.singleton_sublist] at hq hr
  rcases List.append_eq_append_iff.mp he with ⟨e, rfl, rfl⟩ | ⟨e, rfl, rfl⟩
  · exact List.cons_sublist_iff.mpr ⟨a, e ++ d, rfl, hp,
      List.singleton_sublist.mpr (List.mem_append_right _ hr)⟩
  · exact (List.disjoint_of_nodup_append hs (List.mem_append_left _ hq') hq).elim

theorem NodeList.Le.trans {i' : Iter} (h1 : l.Le i i') (h2 : l.Le i' j) : l.Le i j := by
  cases j with
  | none => trivial
  | some m =>
    obtain ⟨k, rfl, hk⟩ := h2
    obtain ⟨n, rfl, hn⟩ := h1
    refine ⟨n, rfl, ?_⟩
    rcases hn with rfl | hn
    · exact hk
    · rcases hk with rfl | hk
      · exact Or.inr hn
      · exact Or.inr (pair_trans l.nodup hn hk)

/-- The iterator is not behind the nodes of any of these elements. -/
structure NodeList.Front (l : NodeList α) (ds : Set α) (i : Iter) : Prop where
  valid : l.Valid i
  le : ∀ d ∈ ds, ∃ m, (m, d) ∈ l.nodes ∧ l.Le i (some m)

theorem NodeList.Front.mono {l' : NodeList α} {ds : Set α} (h : l.Front ds i)
    (hl : l.nodes <+ l'.nodes) : l'.Front ds i where
  valid := h.valid.mono hl
  le d hd := (h.le d hd).imp fun _ hm => ⟨hl.subset hm.1, hm.2.mono hl⟩

theorem NodeList.Front.empty : l.Front ∅ none :=
  ⟨fun _ h => (by cases h), fun _ h => h.elim⟩

theorem NodeList.Front.earlier {ds : Set α} (h : l.Front ds i) (hk : (k, a) ∈ l.nodes) :
    l.Front (Insert.insert a ds) (l.earlier i (some k)) := by
  obtain ⟨h1, h2, h3, -⟩ := NodeList.earlier_spec h.valid (NodeList.mem_ids hk)
  refine ⟨h1, fun c hc => ?_⟩
  rcases hc with rfl | hc
  · exact ⟨k, hk, h3⟩
  · obtain ⟨m, hm, hle⟩ := h.le c hc
    exact ⟨m, hm, h2.trans hle⟩

/-! ### Erasure -/

theorem NodeList.mem_erase : x ∈ (l.erase i).nodes ↔ x ∈ l.nodes ∧ i ≠ some x.1 := by
  simp [erase]

theorem NodeList.values_erase [DecidableEq α] (h : ∀ x ∈ l.nodes, i = some x.1 ↔ x.2 = a) :
    (l.erase i).values = l.values.filter (· ≠ a) := by
  change (l.nodes.filter fun x => i ≠ some x.1).map Prod.snd = (l.nodes.map Prod.snd).filter _
  rw [List.filter_map]
  refine congrArg _ (List.filter_congr fun x hx => ?_)
  simp only [Function.comp_apply, ne_eq, h x hx]

end Build2.Lib.Linked
