import Build2.Bpkg.PkgDrop.Collect

/-! # The list is in order

Every call of `order` puts packages of the map on the list, each in front of its prerequisites there
(`InOrder`). A package is not put on the list while its prerequisites are ordered, since they form
no cycle: the recursion goes along a path of requirements (`order_spec`). -/

namespace Build2.Bpkg.PkgDrop

open Relation Build2.Lib Build2.Lib.ByteString Build2.Lib.Linked
open PkgBuild (PackageName PackageState)
open LifeCycle (SelectedPackage Database)
open DropPackages
open scoped List

variable {db : Database} {M : Set PackageName} {s t u : DropPackages} {n d name : PackageName}
  {i : Iter} {k : ℕ}

/-- The map has the packages `M`, and the list is in order. -/
structure InOrder (db : Database) (M : Set PackageName) (s : DropPackages) : Prop where
  marked : s.marked = M
  loaded : ∀ n d, s.map.find n = some d → db.find n = some d.package.package
  placed : ∀ k n, (k, n) ∈ s.list.nodes ↔ s.position n = some (some k)
  before : ∀ n ∈ s.list.values, ∀ d ∈ M, Requires db n d → [n, d] <+ s.list.values

theorem position_of_find {e : Data} (h : s.map.find n = some e) :
    s.position n = some e.position := by
  rw [position, h]
  rfl

theorem mem_values : n ∈ s.list.values ↔ ∃ k, (k, n) ∈ s.list.nodes := by
  unfold NodeList.values
  rw [List.mem_map]
  exact ⟨fun ⟨⟨k, m⟩, hx, hm⟩ => ⟨k, (show m = n from hm) ▸ hx⟩, fun ⟨k, h⟩ => ⟨(k, n), h, rfl⟩⟩

theorem InOrder.mem_of_mem_values (h : InOrder db M s) (hn : n ∈ s.list.values) : n ∈ M := by
  obtain ⟨k, hk⟩ := mem_values.mp hn
  obtain ⟨e, he, -⟩ := Option.map_eq_some_iff.mp ((h.placed k n).mp hk)
  rw [← h.marked]
  exact mem_marked.mpr ⟨e, he⟩

theorem InOrder.values_nodup (h : InOrder db M s) : s.list.values.Nodup := by
  refine List.Nodup.map_on (fun x hx y hy hxy => ?_) (List.Nodup.of_map _ s.list.nodup)
  have h1 := (h.placed x.1 x.2).mp hx
  have h2 := (h.placed y.1 y.2).mp hy
  rw [hxy, h2] at h1
  exact Prod.ext (Option.some.inj (Option.some.inj h1)).symm hxy

/-- What a call of `order` for a package comes to. -/
structure Orders (db : Database) (M : Set PackageName) (name : PackageName) (s t : DropPackages) :
    Prop where
  inOrder : InOrder db M t
  grown : s.list.nodes <+ t.list.nodes
  package : t.package = s.package
  reached : ∀ m ∈ t.list.values, m ∈ s.list.values ∨ ReflTransGen (Requires db) name m

/-- A package is put on the list and its position is stored. -/
def place (s : DropPackages) (i : Iter) (name : PackageName) : DropPackages :=
  ⟨s.map.adjust name fun d => { d with position := (s.list.insert i name).2 },
    (s.list.insert i name).1⟩

theorem package_place : (place s i name).package = s.package := by
  funext n
  unfold package place
  rw [OrderedMap.find_adjust nameRank_injective]
  split_ifs
  · rw [Option.map_map]
    rfl
  · rfl

theorem marked_eq_of_package (h : t.package = s.package) : t.marked = s.marked := by
  ext n
  have hn := congrArg Option.isSome (congrFun h n)
  unfold package at hn
  rw [Option.isSome_map, Option.isSome_map] at hn
  exact (congrArg (· = true) hn).to_iff

theorem loaded_of_package (h : t.package = s.package)
    (hs : ∀ n d, s.map.find n = some d → db.find n = some d.package.package) :
    ∀ n d, t.map.find n = some d → db.find n = some d.package.package := by
  intro n d hd
  have hn := congrFun h n
  unfold package at hn
  rw [hd] at hn
  obtain ⟨e, he, hed⟩ := Option.map_eq_some_iff.mp hn.symm
  rw [hs n e he, hed]

theorem position_place (hn : name ∈ s.marked) : (place s i name).position n =
    if n = name then some (some s.list.unused) else s.position n := by
  unfold position place
  rw [OrderedMap.find_adjust nameRank_injective]
  split_ifs with h
  · obtain ⟨e, he⟩ := mem_marked.mp hn
    rw [h, he]
    rfl
  · rfl

/-- **A package is put before its prerequisites.** -/
theorem InOrder.place (h : InOrder db M s) (hn : name ∈ M) (habs : name ∉ s.list.values)
    (hf : s.list.Front {d | d ∈ M ∧ Requires db name d} i) : InOrder db M (place s i name) := by
  have hmem : ∀ {x}, x ∈ (PkgDrop.place s i name).list.nodes ↔ x = (s.list.unused, name) ∨
      x ∈ s.list.nodes := NodeList.mem_insert
  have hmarked : name ∈ s.marked := h.marked ▸ hn
  refine ⟨(marked_eq_of_package package_place).trans h.marked,
    loaded_of_package package_place h.loaded, fun k n => ?_, fun n hns d hd hreq => ?_⟩
  · rw [hmem, position_place hmarked]
    by_cases hne : n = name
    · subst hne
      have hno : (k, n) ∉ s.list.nodes := fun hk => habs (mem_values.mpr ⟨k, hk⟩)
      simp [hno, @eq_comm _ k]
    · simp [hne, h.placed k n]
  · obtain ⟨k, hk⟩ := mem_values.mp hns
    rcases hmem.mp hk with hk' | hk'
    · -- the package itself
      obtain ⟨rfl, rfl⟩ := Prod.mk.inj hk'
      obtain ⟨m, hm, hle⟩ := hf.le d ⟨hd, hreq⟩
      exact NodeList.values_sublist hk (hmem.mpr (Or.inr hm))
        (NodeList.insert_before hle (NodeList.mem_ids hm))
    · exact (h.before n (mem_values.mpr ⟨k, hk'⟩) d hd hreq).trans NodeList.values_sublist_insert

/-- A call of `order` returns the position of the package. -/
def Returns (db : Database) (M : Set PackageName) (name : PackageName) (s : DropPackages)
    (z : Except Fault (Iter × DropPackages)) : Prop :=
  ∃ j t, z = .ok (some j, t) ∧ (j, name) ∈ t.list.nodes ∧ Orders db M name s t

/-- **The loop over the prerequisites** ends in front of those in the map. -/
theorem orderNext_loop (order : PackageName → DropPackages → Except Fault (Iter × DropPackages)) :
    ∀ (l : List PackageName) (s : DropPackages) (i : Iter) (ds : Set PackageName),
      (∀ d ∈ l, d ∈ M → ∀ s, InOrder db M s → Returns db M d s (order d s)) →
      InOrder db M s → s.list.Front ds i →
      ∃ j t, l.foldlM (orderNext order) (i, s) = .ok (j, t) ∧ InOrder db M t ∧
        s.list.nodes <+ t.list.nodes ∧ t.package = s.package ∧
        t.list.Front (ds ∪ {d | d ∈ l ∧ d ∈ M}) j ∧
        ∀ m ∈ t.list.values, m ∈ s.list.values ∨ ∃ d ∈ l, ReflTransGen (Requires db) d m := by
  intro l
  induction l with
  | nil =>
    intro s i ds _ hs hf
    refine ⟨i, s, rfl, hs, List.Sublist.refl _, rfl, ?_, fun m hm => Or.inl hm⟩
    rwa [show ds ∪ {d | d ∈ [] ∧ d ∈ M} = ds by ext; simp]
  | cons d l ih =>
    intro s i ds horder hs hf
    have hdl := List.forall_mem_cons.mp horder
    have hfind : (s.map.find d).isSome ↔ d ∈ M := by rw [← hs.marked]; rfl
    rw [List.foldlM_cons, orderNext]
    by_cases hd : d ∈ M
    · obtain ⟨j, t, ht, hj, hot⟩ := hdl.1 hd s hs
      obtain ⟨j', u, hu, hu1, hu2, hu3, hu4, hu5⟩ := ih t (t.list.earlier i (some j)) (insert d ds)
        hdl.2 hot.inOrder ((hf.mono hot.grown).earlier hj)
      refine ⟨j', u, ?_, hu1, hot.grown.trans hu2, hu3.trans hot.package, ?_, fun m hm => ?_⟩
      · rw [if_pos (hfind.mpr hd)]
        change (order d s >>= _) >>= _ = _
        rw [ht]
        exact hu
      · have hset : ds ∪ {e | e ∈ d :: l ∧ e ∈ M} = insert d ds ∪ {e | e ∈ l ∧ e ∈ M} := by
          ext e
          by_cases he : e = d
          · simp [he, hd]
          · simp [he]
        rwa [hset]
      · rcases hu5 m hm with hm | ⟨e, he, hem⟩
        · exact (hot.reached m hm).imp_right fun hdm => ⟨d, List.mem_cons_self, hdm⟩
        · exact Or.inr ⟨e, List.mem_cons_of_mem d he, hem⟩
    · obtain ⟨j', u, hu, hu1, hu2, hu3, hu4, hu5⟩ := ih s i ds hdl.2 hs hf
      refine ⟨j', u, ?_, hu1, hu2, hu3, ?_, fun m hm => (hu5 m hm).imp_right ?_⟩
      · rw [if_neg (fun h => hd (hfind.mp h))]
        exact hu
      · have hset : ds ∪ {e | e ∈ d :: l ∧ e ∈ M} = ds ∪ {e | e ∈ l ∧ e ∈ M} := by
          ext e
          by_cases he : e = d
          · simp [he, hd]
          · simp [he]
        rwa [hset]
      · exact fun ⟨e, he, hem⟩ => ⟨e, List.mem_cons_of_mem d he, hem⟩

/-- **Ordering a package** puts it and its prerequisites on the list. The recursion has come to it
along a `chain` of packages that require one another. -/
theorem order_spec (hdb : Sound db) : ∀ (k : ℕ) (name : PackageName) (chain : List PackageName)
    (s : DropPackages), InOrder db M s → name ∈ M → chain.Nodup →
      (∀ c ∈ chain, c ∈ db.keys ∧ TransGen (Requires db) c name) →
      db.keys.length < chain.length + k → Returns db M name s (order k name s) := by
  intro k
  induction k with
  | zero =>
    intro name chain s _ _ hnodup hchain hlt
    have hle := (List.subperm_of_subset hnodup fun c hc => (hchain c hc).1).length_le
    omega
  | succ k ih =>
    intro name chain s hs hname hnodup hchain hlt
    obtain ⟨e, he⟩ := mem_marked.mp (hs.marked.symm ▸ hname)
    have hload := hs.loaded name e he
    rw [order, he]
    dsimp only
    cases hp : e.position with
    | some j =>
      have hpos := position_of_find he
      rw [hp] at hpos
      exact ⟨j, s, if_pos (by simp), (hs.placed j name).mpr hpos, hs, List.Sublist.refl _, rfl,
        fun m hm => Or.inl hm⟩
    | none =>
      have habs : name ∉ s.list.values := by
        intro hmem
        obtain ⟨j, hj⟩ := mem_values.mp hmem
        have hpos := (hs.placed j name).mp hj
        rw [position_of_find he, hp] at hpos
        cases hpos
      rw [if_neg (by simp)]
      -- the prerequisites
      have hloop : ∃ j t, (if e.package.package.state = .configured then
            e.package.package.prerequisites.keys.foldlM (orderNext (order k)) (none, s)
          else .ok (none, s)) = .ok (j, t) ∧ InOrder db M t ∧ s.list.nodes <+ t.list.nodes ∧
          t.package = s.package ∧ t.list.Front {d | d ∈ M ∧ Requires db name d} j ∧
          ∀ m ∈ t.list.values, m ∈ s.list.values ∨ TransGen (Requires db) name m := by
        by_cases hstate : e.package.package.state = .configured
        · have hkeys : ∀ d, d ∈ e.package.package.prerequisites.keys ↔ Requires db name d := by
            intro d
            refine ⟨fun hd => ⟨_, hload, AList.mem_keys.mpr hd⟩, ?_⟩
            rintro ⟨p, hp, hd⟩
            rw [Option.some.inj (hload.symm.trans hp)]
            exact AList.mem_keys.mp hd
          have hnot : name ∉ chain := fun hmem => hdb.acyclic name (hchain name hmem).2
          obtain ⟨j, t, ht, ht1, ht2, ht3, ht4, ht5⟩ := orderNext_loop (order k)
            e.package.package.prerequisites.keys s none ∅
            (fun d hd hdM t ht => ih d (chain ++ [name]) t ht hdM
              (List.nodup_append'.mpr ⟨hnodup, List.nodup_singleton _,
                List.disjoint_singleton.mpr hnot⟩)
              (fun c hc => by
                have hreq := (hkeys d).mp hd
                rcases List.mem_append.mp hc with hc | hc
                · exact ⟨(hchain c hc).1, (hchain c hc).2.tail hreq⟩
                · rw [List.mem_singleton.mp hc]
                  exact ⟨mem_keys_of_find hload, TransGen.single hreq⟩)
              (by rw [List.length_append, List.length_singleton]; omega))
            hs NodeList.Front.empty
          refine ⟨j, t, by rw [if_pos hstate]; exact ht, ht1, ht2, ht3, ?_, fun m hm => ?_⟩
          · refine ⟨ht4.valid, fun d hd => ht4.le d (Or.inr ⟨(hkeys d).mpr hd.2, hd.1⟩)⟩
          · refine (ht5 m hm).imp_right fun ⟨d, hd, hdm⟩ => ?_
            exact TransGen.head' ((hkeys d).mp hd) hdm
        · refine ⟨none, s, if_neg hstate, hs, List.Sublist.refl _, rfl, ?_, fun m hm => Or.inl hm⟩
          refine ⟨fun _ h => (by cases h), fun d hd => ?_⟩
          exact absurd (hdb.state_of_requires hd.2 hload) hstate
      obtain ⟨j, t, ht, ht1, ht2, ht3, ht4, ht5⟩ := hloop
      have habs' : name ∉ t.list.values := fun hmem =>
        (ht5 name hmem).elim habs (hdb.acyclic name)
      refine ⟨t.list.unused, place t j name, ?_, NodeList.mem_insert.mpr (Or.inl rfl),
        ht1.place hname habs' ht4, ht2.trans NodeList.nodes_sublist_insert,
        package_place.trans ht3, fun m hm => ?_⟩
      · by_cases hstate : e.package.package.state = .configured
        · rw [if_pos hstate] at ht ⊢
          rw [ht]
          rfl
        · rw [if_neg hstate] at ht ⊢
          rw [ht]
          rfl
      · obtain ⟨l, hl⟩ := mem_values.mp hm
        rcases NodeList.mem_insert.mp hl with hl | hl
        · rw [(Prod.mk.inj hl).2]
          exact Or.inr ReflTransGen.refl
        · exact (ht5 m (mem_values.mpr ⟨l, hl⟩)).imp_right TransGen.to_reflTransGen

/-- **Ordering packages one after the other.** -/
theorem orderAll_spec (hdb : Sound db) : ∀ (l : List PackageName) (s : DropPackages),
    InOrder db M s → (∀ n ∈ l, n ∈ M) →
      ∃ t, orderAll db l s = .ok t ∧ InOrder db M t ∧ t.package = s.package ∧
        (∀ m ∈ s.list.values, m ∈ t.list.values) ∧ ∀ n ∈ l, n ∈ t.list.values := by
  intro l
  induction l with
  | nil => exact fun s hs _ => ⟨s, rfl, hs, rfl, fun m hm => hm, fun _ h => by cases h⟩
  | cons n l ih =>
    intro s hs hl
    have hnl := List.forall_mem_cons.mp hl
    obtain ⟨j, t, ht, hj, hot⟩ := order_spec hdb (bound db) n [] s hs hnl.1 List.nodup_nil
      (fun _ h => by cases h) (by rw [List.length_nil, Nat.zero_add]; exact Nat.lt_succ_self _)
    obtain ⟨u, hu, hu1, hu2, hu3, hu4⟩ := ih t hot.inOrder hnl.2
    refine ⟨u, ?_, hu1, hu2.trans hot.package, fun m hm => hu3 m ((hot.grown.map _).subset hm), ?_⟩
    · rw [orderAll, List.foldlM_cons]
      rw [ht]
      exact hu
    · exact List.forall_mem_cons.mpr ⟨hu3 n (mem_values.mpr ⟨j, hj⟩), hu4⟩

end Build2.Bpkg.PkgDrop
