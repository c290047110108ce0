import Build2.Bpkg.PkgDrop.Order
import Mathlib.Order.Bounds.Basic

/-! # What is left on the list

A prerequisite stays on the list if all that depends on it is in the map. Its dependents are in
front of it, so they are decided on before: what stays is the largest set of prerequisites that
nothing else needs (`filterPrerequisites_spec`). -/

namespace Build2.Bpkg.PkgDrop

open Relation Build2.Lib Build2.Lib.ByteString Build2.Lib.Linked
open PkgBuild (PackageName PackageState)
open LifeCycle (SelectedPackage Database)
open DropPackages
open scoped List

variable {db : Database} {args : List PackageName} {s : DropPackages} {n m : PackageName}

/-- All that depends on one of these candidates is dropped, too. -/
structure Droppable (db : Database) (args : List PackageName) (S : Set PackageName) : Prop where
  subset : S ⊆ Candidates db args
  dependents : ∀ n ∈ S, ∀ m, Requires db m n → m ∈ Removed db args ∨ m ∈ S

/-- The candidates that are not needed. -/
def Unused (db : Database) (args : List PackageName) : Set PackageName :=
  {n | ∃ S, Droppable db args S ∧ n ∈ S}

/-- What is dropped. -/
def Dropped (db : Database) (args : List PackageName) : Set PackageName :=
  Removed db args ∪ Unused db args

theorem droppable_unused : Droppable db args (Unused db args) where
  subset := fun _ ⟨_, hS, hn⟩ => hS.subset hn
  dependents := fun n ⟨S, hS, hn⟩ m hm => (hS.dependents n hn m hm).imp_right fun h => ⟨S, hS, h⟩

/-- **The packages that are not needed** are the largest set of candidates without dependents that
stay. -/
theorem isGreatest_unused : IsGreatest {S | Droppable db args S} (Unused db args) :=
  ⟨droppable_unused, fun S hS _ hn => ⟨S, hS, hn⟩⟩

theorem mem_unused_iff (hn : n ∈ Candidates db args) :
    n ∈ Unused db args ↔ ∀ m, Requires db m n → m ∈ Dropped db args := by
  refine ⟨droppable_unused.dependents n, fun h => ?_⟩
  refine ⟨insert n (Unused db args), ⟨?_, ?_⟩, Set.mem_insert n _⟩
  · exact Set.insert_subset hn droppable_unused.subset
  · rintro a (rfl | ha) m hm
    · exact (h m hm).imp_right (Set.mem_insert_of_mem _)
    · exact (droppable_unused.dependents a ha m hm).imp_right (Set.mem_insert_of_mem _)

theorem removed_of_requires (h : Requires db m n) (hn : n ∈ Removed db args) :
    m ∈ Removed db args := by
  obtain ⟨a, ha, hna⟩ := hn
  exact ⟨a, ha, ReflTransGen.head h hna⟩

/-- The list that is filtered: everything that may be dropped, in order. -/
structure Listed (db : Database) (args : List PackageName) (s : DropPackages) : Prop where
  inOrder : InOrder db (Removed db args ∪ Candidates db args) s
  all : ∀ n, n ∈ s.list.values ↔ n ∈ Removed db args ∪ Candidates db args
  reason : ∀ n d, s.package n = some d → (d.reason = .prerequisite ↔ n ∉ Removed db args)

theorem mem_of_pair {α : Type} {a b : α} {l r : List α} (hn : (l ++ b :: r).Nodup)
    (h : [a, b] <+ l ++ b :: r) : a ∈ l := by
  obtain ⟨l', r', heq, ha, hb⟩ := List.cons_sublist_iff.mp h
  rw [List.singleton_sublist] at hb
  rw [heq] at hn
  rcases List.append_eq_append_iff.mp heq with ⟨c, rfl, hc⟩ | ⟨c, rfl, -⟩
  · cases c with
    | nil => rwa [List.append_nil] at ha
    | cons e c =>
      obtain ⟨rfl, -⟩ := List.cons.inj hc
      have hmem : b ∈ l ++ b :: c := List.mem_append_right l List.mem_cons_self
      exact (List.disjoint_of_nodup_append hn hmem hb).elim
  · exact List.mem_append_left c ha

open scoped Classical in
/-- The list is filtered up to the nodes `suf`. -/
structure Filtered (db : Database) (args : List PackageName) (s : DropPackages)
    (pre suf : List (ℕ × PackageName)) (x : DropPackages × Bool) : Prop where
  nodes : x.1.list.nodes = pre.filter (fun y => y.2 ∈ Dropped db args) ++ suf
  find : ∀ n, x.1.map.find n =
    if n ∈ Dropped db args ∨ n ∈ suf.map Prod.snd then s.map.find n else none
  remain : x.2 = true ↔ ∃ y ∈ pre, y.2 ∈ Unused db args

variable {pre suf : List (ℕ × PackageName)} {x : DropPackages × Bool} {k : ℕ}

/-- When a package is filtered, those of its dependents are in the map that are dropped. -/
theorem Filtered.find_of_requires (hs : Listed db args s)
    (hsplit : s.list.nodes = pre ++ (k, n) :: suf) (hx : Filtered db args s pre ((k, n) :: suf) x)
    (hm : Requires db m n) : (x.1.map.find m).isNone = true ↔ m ∉ Dropped db args := by
  have hvalues : s.list.values = pre.map Prod.snd ++ n :: suf.map Prod.snd := by
    rw [NodeList.values, hsplit, List.map_append, List.map_cons]
  rw [Option.isNone_iff_eq_none, hx.find]
  by_cases hd : m ∈ Dropped db args
  · have hmem : m ∈ s.marked := by
      rw [hs.inOrder.marked]
      exact hd.imp_right fun h => droppable_unused.subset h
    obtain ⟨e, he⟩ := mem_marked.mp hmem
    simp [hd, he]
  · have hnot : m ∉ ((k, n) :: suf).map Prod.snd := by
      intro hmem
      have hn : n ∈ Removed db args ∪ Candidates db args := by
        rw [← hs.all, hvalues]
        exact List.mem_append_right _ List.mem_cons_self
      have hmv : m ∈ s.list.values := by
        rw [hvalues]
        exact List.mem_append_right _ hmem
      have hbefore := hs.inOrder.before m hmv n hn hm
      have hnodup := hs.inOrder.values_nodup
      rw [hvalues] at hbefore hnodup
      exact List.disjoint_of_nodup_append hnodup (mem_of_pair hnodup hbefore) hmem
    exact ⟨fun _ => hd, fun _ => if_neg (not_or.mpr ⟨hd, hnot⟩)⟩

open scoped Classical in
/-- **A round of the filter** keeps the package if and only if it is dropped. -/
theorem filterNode_spec (hdb : Sound db) (hs : Listed db args s)
    (hsplit : s.list.nodes = pre ++ (k, n) :: suf)
    (hx : Filtered db args s pre ((k, n) :: suf) x) :
    Filtered db args s (pre ++ [(k, n)]) suf (filterNode db x (k, n)) := by
  have hnv : n ∈ s.list.values := mem_values.mpr ⟨k, by rw [hsplit]; simp⟩
  have hnM := (hs.all n).mp hnv
  obtain ⟨e, he⟩ := mem_marked.mp (hs.inOrder.marked.symm ▸ hnM)
  have hpkg : x.1.package n = some e.package := by
    rw [package, hx.find, if_pos (Or.inr (by simp)), he]
    rfl
  have hname : e.package.package.name = n := hdb.named n _ (hs.inOrder.loaded n e he)
  have hreason := hs.reason n e.package (by rw [package, he]; rfl)
  have hsuf : ∀ a, a ∈ Dropped db args ∨ a ∈ ((k, n) :: suf).map Prod.snd ↔
      (a ∈ Dropped db args ∨ a ∈ suf.map Prod.snd) ∨ a = n := by
    intro a
    rw [List.map_cons, List.mem_cons]
    tauto
  -- a package that is kept
  have hkeep : n ∈ Dropped db args → ∀ b : Bool,
      (b = true ↔ ∃ y ∈ pre ++ [(k, n)], y.2 ∈ Unused db args) →
      Filtered db args s (pre ++ [(k, n)]) suf (x.1, b) := by
    intro hn b hb
    refine ⟨?_, fun a => ?_, hb⟩
    · rw [hx.nodes, List.filter_append, List.filter_singleton, List.append_assoc]
      simp [hn]
    · rw [hx.find a]
      refine if_congr ((hsuf a).trans (or_iff_left_of_imp ?_)) rfl rfl
      rintro rfl
      exact Or.inl hn
  unfold filterNode
  rw [hpkg]
  dsimp only
  by_cases hr : e.package.reason = .prerequisite
  · have hnR := hreason.mp hr
    have hcand : n ∈ Candidates db args := hnM.resolve_left hnR
    rw [if_pos hr, hname]
    have hany : ((Database.dependents db n).any fun pd => (x.1.map.find pd.1).isNone) = true ↔
        n ∉ Unused db args := by
      rw [mem_unused_iff hcand, List.any_eq_true, not_forall]
      constructor
      · rintro ⟨pd, hpd, hnone⟩
        have hreq : Requires db pd.1 n := mem_dependents.mp (List.mem_map_of_mem hpd)
        exact ⟨pd.1, fun h => (hx.find_of_requires hs hsplit hreq).mp hnone (h hreq)⟩
      · rintro ⟨m, hm⟩
        rw [Classical.not_imp] at hm
        obtain ⟨pd, hpd, rfl⟩ := List.mem_map.mp (mem_dependents.mpr hm.1)
        exact ⟨pd, hpd, (hx.find_of_requires hs hsplit hm.1).mpr hm.2⟩
    by_cases hu : n ∈ Unused db args
    · rw [if_neg (fun h => hany.mp h hu)]
      exact hkeep (Or.inr hu) true ⟨fun _ => ⟨(k, n), by simp, hu⟩, fun _ => rfl⟩
    · rw [if_pos (hany.mpr hu)]
      have hnot : n ∉ Dropped db args := fun h => h.elim hnR hu
      refine ⟨?_, fun a => ?_, ?_⟩
      · -- only this node has the identity
        have hids : ((pre.filter fun y => y.2 ∈ Dropped db args) ++ (k, n) :: suf).map Prod.fst
            |>.Nodup := by
          rw [← hx.nodes]
          exact x.1.list.nodup
        rw [List.map_append, List.map_cons, List.nodup_middle, List.nodup_cons, ← List.map_append,
          List.mem_map, not_exists] at hids
        have hother : ∀ y ∈ (pre.filter fun y => y.2 ∈ Dropped db args) ++ suf,
            some k ≠ some y.1 := by
          intro y hy heq
          exact hids.1 y ⟨hy, (Option.some.inj heq).symm⟩
        change x.1.list.nodes.filter (fun y => some k ≠ some y.1) = _
        rw [hx.nodes, List.filter_append, List.filter_cons_of_neg (by simp), ← List.filter_append,
          List.filter_eq_self.mpr fun y hy => decide_eq_true (hother y hy), List.filter_append,
          List.filter_cons_of_neg (by simpa using hnot), List.filter_nil, List.append_nil]
      · change (x.1.map.erase n).find a = _
        rw [OrderedMap.find_erase nameRank_injective, hx.find a]
        by_cases ha : a = n
        · subst ha
          have hsufn : a ∉ suf.map Prod.snd := by
            have hnodup := hs.inOrder.values_nodup
            rw [NodeList.values, hsplit, List.map_append, List.map_cons, List.nodup_middle,
              List.nodup_cons, List.mem_append, not_or] at hnodup
            exact hnodup.1.2
          rw [if_pos rfl, if_neg (not_or.mpr ⟨hnot, hsufn⟩)]
        · rw [if_neg ha]
          exact if_congr ((hsuf a).trans (or_iff_left ha)) rfl rfl
      · rw [hx.remain]
        simp only [List.mem_append, List.mem_singleton]
        constructor
        · exact fun ⟨y, hy, hyu⟩ => ⟨y, Or.inl hy, hyu⟩
        · rintro ⟨y, hy | rfl, hyu⟩
          · exact ⟨y, hy, hyu⟩
          · exact absurd hyu hu
  · have hnR : n ∈ Removed db args := not_not.mp (mt hreason.mpr hr)
    rw [if_neg hr]
    refine hkeep (Or.inl hnR) x.2 (hx.remain.trans ⟨fun ⟨y, hy, hyu⟩ => ⟨y, ?_, hyu⟩, ?_⟩)
    · exact List.mem_append_left _ hy
    · rintro ⟨y, hy, hyu⟩
      refine ⟨y, (List.mem_append.mp hy).resolve_right fun h => ?_, hyu⟩
      rw [List.mem_singleton.mp h] at hyu
      exact (droppable_unused.subset hyu).1 hnR

open scoped Classical in
/-- What is dropped is left on the list. -/
structure Final (db : Database) (args : List PackageName) (s t : DropPackages) : Prop where
  values : t.list.values = s.list.values.filter (· ∈ Dropped db args)
  mem : ∀ n, n ∈ t.list.values ↔ n ∈ Dropped db args
  package : ∀ n ∈ Dropped db args, t.package n = s.package n

open scoped Classical in
/-- **Filtering the list** leaves what the user removes and what is not needed after that. -/
theorem filterPrerequisites_spec (hdb : Sound db) (hs : Listed db args s) :
    Final db args s (s.filterPrerequisites db).1 ∧
      ((s.filterPrerequisites db).2 = true ↔ (Unused db args).Nonempty) := by
  suffices h : ∀ (suf pre : List (ℕ × PackageName)) (x : DropPackages × Bool),
      s.list.nodes = pre ++ suf → Filtered db args s pre suf x →
        Filtered db args s s.list.nodes [] (suf.foldl (filterNode db) x) by
    have hfirst : Filtered db args s [] s.list.nodes (s, false) := by
      refine ⟨rfl, fun n => ?_, by simp⟩
      split_ifs with hn
      · rfl
      · refine not_mem_marked.mp fun hmem => hn (Or.inr ?_)
        rw [hs.inOrder.marked] at hmem
        exact (hs.all n).mpr hmem
    have hf := h s.list.nodes [] (s, false) rfl hfirst
    have hnodes := hf.nodes
    rw [List.append_nil] at hnodes
    refine ⟨⟨?_, fun n => ?_, fun n hn => ?_⟩, hf.remain.trans ?_⟩
    · rw [filterPrerequisites, NodeList.values, hnodes, NodeList.values, List.filter_map]
      rfl
    · rw [mem_values, filterPrerequisites, hnodes]
      simp only [List.mem_filter, decide_eq_true_eq]
      refine ⟨fun ⟨k, hk⟩ => hk.2, fun hn => ?_⟩
      have hmem := (hs.all n).mpr (hn.imp_right fun h => droppable_unused.subset h)
      obtain ⟨k, hk⟩ := mem_values.mp hmem
      exact ⟨k, hk, hn⟩
    · rw [filterPrerequisites, package, hf.find n, if_pos (Or.inl hn)]
      rfl
    · constructor
      · exact fun ⟨y, _, hy⟩ => ⟨y.2, hy⟩
      · rintro ⟨n, hn⟩
        have hmem := (hs.all n).mpr (Or.inr (droppable_unused.subset hn))
        obtain ⟨k, hk⟩ := mem_values.mp hmem
        exact ⟨(k, n), hk, hn⟩
  intro suf
  induction suf with
  | nil =>
    intro pre x hsplit hx
    rw [List.append_nil] at hsplit
    rw [hsplit]
    exact hx
  | cons y suf ih =>
    intro pre x hsplit hx
    exact ih (pre ++ [y]) _ (by rw [hsplit, List.append_assoc]; rfl)
      (filterNode_spec hdb hs hsplit hx)

end Build2.Bpkg.PkgDrop
