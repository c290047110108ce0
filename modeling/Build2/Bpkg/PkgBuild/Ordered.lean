import Build2.Bpkg.PkgBuild.Environment
import Build2.Bpkg.PkgBuild.Order
import Build2.Lib.Stateful

/-! # The list is in order

The invariant of the list (`InOrder`): the stored positions are those of the nodes and a package is
before all it requires. A package is put before the earliest of its prerequisites (`InOrder.place`),
which `orderChain_ends` finds by induction on the depth, the chain being a path in the map. When a
package is ordered again, its prerequisites stay where they are (`order_again`). -/

namespace Build2.Bpkg.PkgBuild.BuildPackages

open Relation Build2.Lib.Linked Build2.Lib.Stateful Build2.Libbpkg
open scoped List

/-- A package requires its relevant prerequisites. -/
def Requires (s : BuildPackages) (n d : PackageName) : Prop :=
  ∃ p, s.package n = some p ∧ d ∈ s.relevant p

/-- The list is in order. -/
structure InOrder (s : BuildPackages) : Prop where
  placed : ∀ k n, (k, n) ∈ s.list.nodes ↔ s.position n = some (some k)
  before : ∀ n ∈ s.list.values, ∀ d, s.Requires n d → [n, d] <+ s.list.values

/-- The list is in order but for a package, which is not listed. -/
structure InOrderBut (s : BuildPackages) (name : PackageName) : Prop where
  placed : ∀ k n, n ≠ name → ((k, n) ∈ s.list.nodes ↔ s.position n = some (some k))
  absent : name ∉ s.list.values
  before : ∀ n ∈ s.list.values, ∀ d, s.Requires n d → d ≠ name → [n, d] <+ s.list.values

/-- The packages from `name` on require one another in a cycle. -/
def Cyclic (s : BuildPackages) (name : PackageName) : Prop :=
  ∃ x, ReflTransGen s.Requires name x ∧ TransGen s.Requires x x

/-- A package is put on the list and its position is stored. -/
def place (s : BuildPackages) (i : Iter) (name : PackageName) (e : Entry) : BuildPackages :=
  ⟨s.map.insert name { e with position := (s.list.insert i name).2 }, (s.list.insert i name).1⟩

/-- A package is taken off the list. Its position stays stored. -/
def takeOff (s : BuildPackages) (i : Iter) : BuildPackages := { s with list := s.list.erase i }

variable {s s' s0 : BuildPackages} {p : BuildPackage} {a : Action} {e : Entry} {i : Iter}
  {n name d : PackageName}

/-! ### What depends on the packages only -/

theorem relevant_congr (h : s.package = s'.package) : s.relevant p = s'.relevant p := by
  unfold relevant prerequisitesWith
  rw [h]

theorem requires_congr (h : s.package = s'.package) : s.Requires = s'.Requires := by
  funext n d
  unfold Requires
  rw [h]
  simp only [relevant_congr h]

theorem Collected.congr (hc : Collected s) (h : s'.package = s.package) : Collected s' := by
  intro n p a hp ha
  rw [h] at hp
  have hcp := hc n p a hp ha
  refine ⟨hcp.substate, hcp.version, ?_⟩
  rw [h]
  exact hcp.dependencies

theorem mem_prerequisitesWith {f : BuildPackage → Bool} (h : d ∈ s.prerequisitesWith p f) :
    ∃ q, s.package d = some q ∧ f q = true := by
  unfold prerequisitesWith at h
  exact (Option.any_eq_true _ _).mp (List.mem_filter.mp h).2

theorem action_of_disfigure (h : holds (disfigure p) = true) : p.action.isSome := by
  unfold disfigure at h
  cases ha : p.action with
  | none =>
    rw [ha] at h
    cases h
  | some a => rfl

/-- A relevant prerequisite has an action or is a dependency of the manifest. -/
theorem mem_relevant (h : d ∈ s.relevant p) : (∃ q, s.package d = some q ∧ q.action.isSome) ∨
    (p.action = some .build ∧ p.system = false) ∧ holds (sameConfigured p) = false ∧
      ∃ ap, p.available = some ap ∧ d ∈ manifestNames ap := by
  have hdis : d ∈ (if holds (needsDisfigure p) then
      s.prerequisitesWith p fun q => holds (disfigure q) else []) →
      ∃ q, s.package d = some q ∧ q.action.isSome := by
    intro h
    split_ifs at h
    · obtain ⟨q, hq, hf⟩ := mem_prerequisitesWith h
      exact ⟨q, hq, action_of_disfigure hf⟩
    · cases h
  unfold relevant at h
  by_cases hb : p.action = some .build ∧ p.system = false
  · cases hs : holds (sameConfigured p) with
    | true =>
      simp only [hb, hs, and_self, if_true] at h
      exact Or.inl (mem_prerequisitesWith h)
    | false =>
      simp only [hb, hs, and_self, Bool.false_eq_true, if_true, if_false, List.mem_append] at h
      rcases h with h | h
      · cases hap : p.available with
        | none =>
          rw [hap] at h
          cases h
        | some ap =>
          rw [hap] at h
          exact Or.inr ⟨hb, rfl, ap, rfl, h⟩
      · exact Or.inl (hdis h)
  · simp only [hb, if_false] at h
    exact Or.inl (hdis h)

/-- **The relevant prerequisites can be ordered.** -/
theorem Collected.relevant (hc : Collected s) (hp : s.package n = some p)
    (h : d ∈ s.relevant p) : ∃ q b, s.package d = some q ∧ q.action = some b := by
  suffices hs : ∃ q, s.package d = some q ∧ q.action.isSome by
    obtain ⟨q, hq, hs⟩ := hs
    exact ⟨q, _, hq, (Option.some_get hs).symm⟩
  rcases mem_relevant h with h | ⟨hb, hs, ap, hap, h⟩
  · exact h
  · -- the dependencies of the manifest are collected
    obtain ⟨da, hda, h⟩ := List.mem_flatMap.mp h
    obtain ⟨-, d', hd', hq⟩ := (hc n p .build hp hb.1).dependencies rfl hb.2 hs ap hap da
      (List.mem_reverse.mp hda)
    rw [hd'] at h
    simp only [List.mem_map, List.mem_filter, List.mem_singleton] at h
    obtain ⟨_, ⟨rfl, hsp⟩, rfl⟩ := h
    exact hq ((Bool.not_eq_true' _).mp hsp)

theorem package_takeOff (i : Iter) : (s.takeOff i).package = s.package := rfl

theorem package_place (h : s.package name = some e.package) :
    (s.place i name e).package = s.package := by
  funext n
  unfold package place
  by_cases hn : n = name
  · subst hn
    rw [AList.lookup_insert]
    exact h.symm
  · rw [AList.lookup_insert_ne hn]

theorem position_place : (s.place i name e).position n =
    if n = name then some (some s.list.unused) else s.position n := by
  unfold position place
  split_ifs with hn
  · subst hn
    rw [AList.lookup_insert]
    rfl
  · rw [AList.lookup_insert_ne hn]

/-! ### Putting a package on the list -/

theorem mem_values : n ∈ s.list.values ↔ ∃ k, (k, n) ∈ s.list.nodes := by
  unfold NodeList.values
  rw [List.mem_map]
  exact ⟨fun ⟨⟨k, m⟩, hx, hm⟩ => ⟨k, (show m = n from hm) ▸ hx⟩, fun ⟨k, h⟩ => ⟨(k, n), h, rfl⟩⟩

theorem InOrder.values_nodup (h : s.InOrder) : s.list.values.Nodup := by
  refine List.Nodup.map_on (fun x hx y hy hxy => ?_) (List.Nodup.of_map _ s.list.nodup)
  have h1 := (h.placed x.1 x.2).mp hx
  have h2 := (h.placed y.1 y.2).mp hy
  rw [hxy, h2] at h1
  exact Prod.ext (Option.some.inj (Option.some.inj h1)).symm hxy

theorem InOrder.but (h : s.InOrder) (hn : name ∉ s.list.values) : s.InOrderBut name :=
  ⟨fun k n _ => h.placed k n, hn, fun n hn d hd _ => h.before n hn d hd⟩

theorem InOrder.values_takeOff {k : ℕ} (h : s.InOrder) (hp : s.position name = some (some k)) :
    (s.takeOff (some k)).list.values = s.list.values.filter (· ≠ name) := by
  refine NodeList.values_erase fun x hx => ⟨fun hk => ?_, fun hn => ?_⟩
  · rw [s.list.eq_of_fst_eq hx ((h.placed k name).mpr hp) (Option.some.inj hk).symm]
  · have hx' := (h.placed x.1 x.2).mp hx
    rw [hn, hp] at hx'
    exact Option.some.inj hx'

theorem InOrder.takeOff {k : ℕ} (h : s.InOrder) (hp : s.position name = some (some k)) :
    (s.takeOff (some k)).InOrderBut name := by
  have hv := h.values_takeOff hp
  refine ⟨fun m n hn => ?_, ?_, fun n hn d hd hdn => ?_⟩
  · rw [show (s.takeOff (some k)).position = s.position from rfl, ← h.placed m n]
    refine NodeList.mem_erase.trans ⟨And.left, fun hm => ⟨hm, fun hk => hn ?_⟩⟩
    exact congrArg Prod.snd
      (s.list.eq_of_fst_eq hm ((h.placed k name).mpr hp) (Option.some.inj hk).symm)
  · rw [hv]
    simp
  · rw [hv] at hn ⊢
    have hn' := List.mem_filter.mp hn
    have hs := (h.before n hn'.1 d hd).filter (· ≠ name)
    rwa [List.filter_eq_self.mpr] at hs
    simpa [hdn] using hn'.2

/-- The iterator is at one of the packages and not behind any of them. -/
structure Front (s : BuildPackages) (ds : List PackageName) (i : Iter) : Prop where
  valid : s.list.Valid i
  le : ∀ d ∈ ds, ∃ m, (m, d) ∈ s.list.nodes ∧ s.list.Le i (some m)
  at_one : ∀ m ∈ i, ∃ d ∈ ds, (m, d) ∈ s.list.nodes

theorem Front.mono {ds : List PackageName} (h : s.Front ds i)
    (hl : s.list.nodes <+ s'.list.nodes) : s'.Front ds i where
  valid := h.valid.mono hl
  le d hd := (h.le d hd).imp fun _ hm => ⟨hl.subset hm.1, hm.2.mono hl⟩
  at_one m hm := (h.at_one m hm).imp fun _ hd => ⟨hd.1, hl.subset hd.2⟩

theorem Front.nil : s.Front [] none where
  valid _ h := by cases h
  le _ h := by cases h
  at_one _ h := by cases h

theorem Front.earlier {ds : List PackageName} {k : ℕ} (h : s.Front ds i)
    (hk : (k, d) ∈ s.list.nodes) : s.Front (ds ++ [d]) (s.list.earlier i (some k)) := by
  obtain ⟨h1, h2, h3, h4⟩ := NodeList.earlier_spec h.valid (NodeList.mem_ids hk)
  refine ⟨h1, fun c hc => ?_, fun m hm => ?_⟩
  · rw [List.mem_append, List.mem_singleton] at hc
    rcases hc with hc | rfl
    · obtain ⟨m, hm, hle⟩ := h.le c hc
      exact ⟨m, hm, h2.trans hle⟩
    · exact ⟨k, hk, h3⟩
  · rcases h4 with h4 | h4
    · rw [h4] at hm
      obtain ⟨c, hc, hm⟩ := h.at_one m hm
      exact ⟨c, List.mem_append_left _ hc, hm⟩
    · rw [h4] at hm
      obtain rfl := Option.some.inj hm
      exact ⟨d, by simp, hk⟩

/-- **A package is put before its prerequisites** and behind those that require it. -/
theorem InOrderBut.place {ds : List PackageName} (h : s.InOrderBut name)
    (hp : s.package name = some e.package) (hf : s.Front ds i)
    (hds : ∀ d, s.Requires name d → d ∈ ds)
    (hb : ∀ n ∈ s.list.values, s.Requires n name → ∀ d ∈ ds, [n, d] <+ s.list.values)
    (hv : s.list.values.Nodup) : (s.place i name e).InOrder := by
  have hmem : ∀ {x}, x ∈ (s.place i name e).list.nodes ↔ x = (s.list.unused, name) ∨
      x ∈ s.list.nodes := NodeList.mem_insert
  have hreq := requires_congr (package_place (i := i) hp)
  refine ⟨fun k n => ?_, fun n hn d hd => ?_⟩
  · rw [hmem, position_place]
    by_cases hn : n = name
    · subst hn
      have habs : (k, n) ∉ s.list.nodes := fun hk => h.absent (mem_values.mpr ⟨k, hk⟩)
      simp [habs, @eq_comm _ k]
    · simp [hn, h.placed k n hn]
  · rw [hreq] at hd
    obtain ⟨k, hk⟩ := mem_values.mp hn
    rcases hmem.mp hk with hk' | hk'
    · -- the package itself
      obtain ⟨rfl, rfl⟩ := Prod.mk.inj hk'
      obtain ⟨m, hm, hle⟩ := hf.le d (hds d hd)
      exact NodeList.values_sublist hk (hmem.mpr (Or.inr hm))
        (NodeList.insert_before hle (NodeList.mem_ids hm))
    · have hn' : n ∈ s.list.values := mem_values.mpr ⟨k, hk'⟩
      by_cases hdn : d = name
      · subst hdn
        refine NodeList.values_sublist hk (hmem.mpr (Or.inl rfl))
          (NodeList.insert_behind (fun m hm => ?_) (NodeList.mem_ids hk'))
        obtain ⟨c, hc, hm⟩ := hf.at_one m hm
        exact NodeList.ids_sublist hv hk' hm (hb n hn' hd c hc)
      · exact (h.before n hn' d hd hdn).trans NodeList.values_sublist_insert

/-! ### The loop over the prerequisites -/

section

variable {order : PackageName → BuildPackages → Except Fault (Iter × BuildPackages)}
  {G : BuildPackages → Prop} {E : Fault → Prop} {ds done : List PackageName}

/-- The state is in `G`, has every node there was, and the iterator is that of the package. -/
structure Listed (G : BuildPackages → Prop) (s : BuildPackages) (name : PackageName)
    (y : Iter × BuildPackages) : Prop where
  good : G y.2
  grown : s.list.nodes <+ y.2.list.nodes
  listed : ∃ k, y.1 = some k ∧ (k, name) ∈ y.2.list.nodes

/-- **The loop over packages that are listed in turn** ends in front of them. -/
theorem visits_end (h : ∀ d ∈ ds, ∀ s, G s → Ends E (Listed G s d) (order d s)) (hg : G s)
    (hf : s.Front done i) : Ends E
      (fun y => G y.2 ∧ s.list.nodes <+ y.2.list.nodes ∧ y.2.Front (done ++ ds) y.1)
      (ds.foldlM (visit order) (i, s)) := by
  induction ds generalizing s i done with
  | nil => exact ⟨hg, List.Sublist.refl _, by rwa [List.append_nil]⟩
  | cons d ds ih =>
    rw [List.forall_mem_cons] at h
    rw [List.foldlM_cons]
    have hvisit : Ends E (fun y => G y.2 ∧ s.list.nodes <+ y.2.list.nodes ∧
        y.2.Front (done ++ [d]) y.1) (visit order (i, s) d) := by
      refine (h.1 s hg).bind fun y hy => ⟨hy.good, hy.grown, ?_⟩
      obtain ⟨k, hk, hkd⟩ := hy.listed
      change y.2.Front (done ++ [d]) (y.2.list.earlier i y.1)
      rw [hk]
      exact (hf.mono hy.grown).earlier hkd
    refine hvisit.bind fun y ⟨hy1, hy2, hy3⟩ => ?_
    refine (ih h.2 hy1 hy3).mono (fun _ he => he) fun z ⟨hz1, hz2, hz3⟩ => ⟨hz1, hy2.trans hz2, ?_⟩
    rwa [List.append_assoc, List.singleton_append] at hz3

end

/-! ### The packages stay the same -/

section

variable {order : PackageName → BuildPackages → Except Fault (Iter × BuildPackages)}
  {x x' : Iter × BuildPackages}

theorem foldlM_keeps {β : Type} {f : Iter × BuildPackages → β → Except Fault (Iter × BuildPackages)}
    (hf : ∀ x b x', f x b = .ok x' → x'.2.package = x.2.package) {l : List β}
    (h : l.foldlM f x = .ok x') : x'.2.package = x.2.package := by
  induction l generalizing x with
  | nil =>
    cases h
    rfl
  | cons b l ih =>
    rw [List.foldlM_cons] at h
    obtain ⟨x1, h1, h2⟩ := bind_eq_ok.mp h
    rw [ih h2, hf x b x1 h1]

variable (hk : Keeps order)

include hk

theorem orderConfigured_keeps {l : List (PackageName × Option VersionConstraint)}
    (h : orderConfigured order l x = .ok x') : x'.2.package = x.2.package := by
  refine foldlM_keeps (fun x d x' h => ?_) h
  split_ifs at h
  · exact hk.visit h
  · cases h
    rfl

theorem orderDisfigured_keeps {l : List (PackageName × Option VersionConstraint)}
    (h : orderDisfigured order l x = .ok x') : x'.2.package = x.2.package := by
  refine foldlM_keeps (fun x d x' h => ?_) h
  split at h
  · cases h
    rfl
  · obtain ⟨b, -, h⟩ := bind_eq_ok.mp h
    split_ifs at h
    · exact hk.visit h
    · cases h
      rfl

theorem orderManifest_keeps {ap : AvailablePackage} (h : orderManifest order x ap = .ok x') :
    x'.2.package = x.2.package := by
  refine foldlM_keeps (fun x da x' h => ?_) h
  split at h
  · split_ifs at h
    · cases h
      rfl
    · exact hk.visit h
  · cases h

theorem orderPrerequisites_keeps (h : orderPrerequisites order p a s = .ok x') :
    x'.2.package = s.package := by
  unfold orderPrerequisites at h
  obtain ⟨b, -, h⟩ := bind_eq_ok.mp h
  have hdis : ∀ {l} {y : Iter × BuildPackages}, y.2.package = s.package →
      (if b = true then orderDisfigured order l y else .ok y) = .ok x' →
      x'.2.package = s.package := by
    intro l y hy h
    split_ifs at h
    · exact (orderDisfigured_keeps hk h).trans hy
    · cases h
      exact hy
  by_cases ha : a = .build
  · rw [if_pos ha] at h
    cases hap : p.available with
    | none =>
      rw [hap] at h
      cases h
    | some ap =>
      rw [hap] at h
      simp only at h
      by_cases hs : p.system = true
      · rw [if_pos hs] at h
        exact hdis rfl h
      · rw [if_neg hs] at h
        obtain ⟨c, -, h⟩ := bind_eq_ok.mp h
        by_cases hc : c = true
        · rw [if_pos hc] at h
          exact orderConfigured_keeps hk h
        · rw [if_neg hc] at h
          obtain ⟨y, hy, h⟩ := bind_eq_ok.mp h
          exact hdis (orderManifest_keeps hk hy) h
  · rw [if_neg ha] at h
    exact hdis rfl h

end

/-- A package that is not listed is put in front of its prerequisites. -/
theorem orderChain_absent {k : ℕ} {chain : List PackageName} {reorder : Bool}
    (he : s.map.lookup name = some e) (ha : e.package.action = some a) (hn : name ∉ chain)
    (hp : e.position = none) : orderChain (k + 1) name chain reorder s =
      (orderPrerequisites (fun d s => orderChain k d (chain ++ [name]) false s) e.package a s >>=
        fun x => .ok ((x.2.list.insert x.1 name).2, x.2.place x.1 name e)) := by
  rw [orderChain]
  simp only [he, ha, hn, hp, if_false, ne_eq, not_true_eq_false, false_and]
  rfl

/-- A listed package stays or is taken off and put in front of its prerequisites again. -/
theorem orderChain_listed {k m : ℕ} {chain : List PackageName} {reorder : Bool}
    (he : s.map.lookup name = some e) (ha : e.package.action = some a) (hn : name ∉ chain)
    (hp : e.position = some m) : orderChain (k + 1) name chain reorder s =
      if reorder then orderPrerequisites (fun d s => orderChain k d (chain ++ [name]) false s)
        e.package a (s.takeOff (some m)) >>=
          fun x => .ok ((x.2.list.insert x.1 name).2, x.2.place x.1 name e)
      else .ok (some m, s) := by
  rw [orderChain]
  simp only [he, ha, hn, hp, if_false, ne_eq, reduceCtorEq, not_false_eq_true, true_and, if_true]
  cases reorder with
  | true => rfl
  | false => rfl

theorem package_of_lookup (he : s.map.lookup name = some e) : s.package name = some e.package := by
  unfold package
  rw [he]
  rfl

theorem position_of_lookup (he : s.map.lookup name = some e) :
    s.position name = some e.position := by
  unfold position
  rw [he]
  rfl

theorem orderChain_keeps {k : ℕ} {chain : List PackageName} {reorder : Bool}
    {y : Iter × BuildPackages} (h : orderChain k name chain reorder s = .ok y) :
    y.2.package = s.package := by
  induction k generalizing name chain reorder s y with
  | zero => cases h
  | succ k ih =>
    have hk : Keeps fun d s => orderChain k d (chain ++ [name]) false s := fun d s i s' h => ih h
    have hplace : ∀ {s1 : BuildPackages} {e : Entry} {a : Action}, s1.package = s.package →
        s.map.lookup name = some e →
        (orderPrerequisites (fun d s => orderChain k d (chain ++ [name]) false s) e.package a s1 >>=
          fun x => .ok ((x.2.list.insert x.1 name).2, x.2.place x.1 name e)) = .ok y →
        y.2.package = s.package := by
      intro s1 e a hs1 he h
      obtain ⟨x, hx, h⟩ := bind_eq_ok.mp h
      cases h
      have hxs := (orderPrerequisites_keeps hk hx).trans hs1
      rw [← hxs]
      exact package_place (by rw [hxs, package_of_lookup he])
    cases he : s.map.lookup name with
    | none =>
      unfold orderChain at h
      rw [he] at h
      cases h
    | some e =>
      cases ha : e.package.action with
      | none =>
        unfold orderChain at h
        simp only [he, ha] at h
        cases h
      | some a =>
        by_cases hn : name ∈ chain
        · unfold orderChain at h
          simp only [he, ha, hn, if_true] at h
          cases h
        · cases hp : e.position with
          | none =>
            rw [orderChain_absent he ha hn hp] at h
            exact hplace rfl he h
          | some m =>
            rw [orderChain_listed he ha hn hp] at h
            split_ifs at h
            · exact hplace (s.package_takeOff _) he h
            · cases h
              rfl

/-! ### One call -/

/-- The packages are these, the list is in order and the chain is not on it. -/
structure Growing (s0 : BuildPackages) (chain : List PackageName) (s : BuildPackages) : Prop where
  same : s.package = s0.package
  inOrder : s.InOrder
  absent : ∀ c ∈ chain, c ∉ s.list.values

theorem Cyclic.head (h : s.Requires name d) : s.Cyclic d → s.Cyclic name :=
  fun ⟨x, hx, hc⟩ => ⟨x, hx.head h, hc⟩

theorem InOrder.position_none (h : s.InOrder) (hp : s.position name = some none) :
    name ∉ s.list.values := by
  intro hv
  obtain ⟨k, hk⟩ := mem_values.mp hv
  rw [h.placed, hp] at hk
  cases hk

/-- **Ordering a package** that is not to be ordered again, below a chain that leads to it. The
chain has no package twice, so it is not longer than the map: a call that is too deep has none to
go to. -/
theorem orderChain_ends (hc : Collected s0) {ks : List PackageName}
    (hks : ∀ n p, s0.package n = some p → n ∈ ks) {k : ℕ} {chain : List PackageName}
    (hs : s0.Growing chain s) (hp : s0.package name = some p) (ha : p.action = some a)
    (hn : chain.Nodup) (hsub : chain ⊆ ks) (hk : ks.length < k + chain.length)
    (hch : ∀ c ∈ chain, TransGen s0.Requires c name) :
    Ends (fun f => f ≠ .tooDeep ∧ s0.Cyclic name) (Listed (s0.Growing chain) s name)
      (orderChain k name chain false s) := by
  induction k generalizing name chain s p a with
  | zero =>
    have := (List.subperm_of_subset hn hsub).length_le
    omega
  | succ k ih =>
    obtain ⟨e, he, rfl⟩ : ∃ e, s.map.lookup name = some e ∧ e.package = p := by
      rw [← hs.same] at hp
      exact Option.map_eq_some_iff.mp hp
    by_cases hmem : name ∈ chain
    · -- a cycle through the package itself
      have hcyc : s0.Cyclic name := ⟨name, .refl, hch name hmem⟩
      rw [orderChain]
      simp only [he, ha, hmem, if_true]
      refine ⟨?_, hcyc⟩
      unfold cycleFault
      simp only
      split_ifs <;> exact Fault.noConfusion
    cases hpos : e.position with
    | some m =>
      rw [orderChain_listed he ha hmem hpos]
      refine ⟨hs, List.Sublist.refl _, m, rfl, (hs.inOrder.placed m name).mpr ?_⟩
      rw [position_of_lookup he, hpos]
    | none =>
      rw [orderChain_absent he ha hmem hpos]
      have hk' : Keeps fun d s => orderChain k d (chain ++ [name]) false s :=
        fun d s i s' h => orderChain_keeps h
      have hps := package_of_lookup he
      rw [orderPrerequisites_eq hk' (hc.congr hs.same) hps ha]
      have habs := hs.inOrder.position_none (by rw [position_of_lookup he, hpos])
      have hg : s0.Growing (chain ++ [name]) s := by
        refine ⟨hs.same, hs.inOrder, fun c hcm => ?_⟩
        rw [List.mem_append, List.mem_singleton] at hcm
        rcases hcm with hcm | rfl
        · exact hs.absent c hcm
        · exact habs
      refine (visits_end (G := s0.Growing (chain ++ [name])) (fun d hd s1 hs1 => ?_) hg
        Front.nil).bind fun y ⟨hy, hgrown, hf⟩ => ?_
      · rw [relevant_congr hs.same] at hd
        have hreq : s0.Requires name d := ⟨e.package, hp, hd⟩
        obtain ⟨q, b, hq, hb⟩ := hc.relevant hp hd
        refine (ih hs1 hq hb ?_ ?_ ?_ ?_).mono (fun f hf => ⟨hf.1, hf.2.head hreq⟩) fun y hy => hy
        · exact hn.append (List.nodup_singleton _) (List.disjoint_singleton.mpr hmem)
        · exact List.append_subset.mpr ⟨hsub, by simpa using hks name _ hp⟩
        · rw [List.length_append, List.length_singleton]
          omega
        · intro c hcm
          rw [List.mem_append, List.mem_singleton] at hcm
          rcases hcm with hcm | rfl
          · exact (hch c hcm).tail hreq
          · exact .single hreq
      · -- the package itself
        have habs' : name ∉ y.2.list.values := hy.absent name (by simp)
        have hpy : y.2.package name = some e.package := by rw [hy.same, hp]
        have hin : (y.2.place y.1 name e).InOrder := by
          refine (hy.inOrder.but habs').place hpy hf (fun d hd => ?_) (fun n hn hr => ?_)
            hy.inOrder.values_nodup
          · obtain ⟨q, hq, hd⟩ := hd
            rw [hpy] at hq
            obtain rfl := Option.some.inj hq
            rwa [relevant_congr (hy.same.trans hs.same.symm)] at hd
          · exact absurd ((hy.inOrder.before n hn name hr).subset (by simp)) habs'
        refine ⟨⟨(package_place hpy).trans hy.same, hin, fun c hcm hcv => ?_⟩,
          hgrown.trans NodeList.nodes_sublist_insert, _, rfl, NodeList.mem_insert.mpr (Or.inl rfl)⟩
        obtain ⟨m, hm⟩ := mem_values.mp hcv
        rcases NodeList.mem_insert.mp hm with hm | hm
        · obtain ⟨-, rfl⟩ := Prod.mk.inj hm
          exact hmem hcm
        · exact hy.absent c (by simp [hcm]) (mem_values.mpr ⟨m, hm⟩)

/-- What a call returns: a list in order with the package at the iterator, and with all that was
listed. -/
structure Answer (s : BuildPackages) (name : PackageName) (y : Iter × BuildPackages) : Prop where
  same : y.2.package = s.package
  inOrder : y.2.InOrder
  listed : ∃ k, y.1 = some k ∧ (k, name) ∈ y.2.list.nodes
  stay : s.list.values ⊆ y.2.list.values

/-- **Ordering a listed package again.** What it requires is listed and stays where it is, and what
requires it is before all that. -/
theorem order_again {k m : ℕ} (hc : Collected s) (hs : s.InOrder) (he : s.map.lookup name = some e)
    (ha : e.package.action = some a) (hm : e.position = some m) :
    Ends (fun _ => False) (Answer s name) (orderChain (k + 2) name [] true s) := by
  have hpos : s.position name = some (some m) := by rw [position_of_lookup he, hm]
  have hps := package_of_lookup he
  have hvals := hs.values_takeOff hpos
  have hbefore : ∀ d ∈ s.relevant e.package, [name, d] <+ s.list.values := fun d hd =>
    hs.before name (mem_values.mpr ⟨m, (hs.placed m name).mpr hpos⟩) d ⟨e.package, hps, hd⟩
  have hne : ∀ d ∈ s.relevant e.package, d ≠ name := fun d hd hdn => by
    have := hs.values_nodup.sublist (hbefore d hd)
    rw [hdn, List.nodup_cons] at this
    exact this.1 List.mem_cons_self
  rw [orderChain_listed he ha List.not_mem_nil hm, if_pos rfl]
  have hk' : Keeps fun d s => orderChain (k + 1) d ([] ++ [name]) false s :=
    fun d s i s' h => orderChain_keeps h
  rw [orderPrerequisites_eq hk' (hc.congr (s.package_takeOff _)) hps ha,
    relevant_congr (s.package_takeOff (some m))]
  refine (visits_end (G := (· = s.takeOff (some m))) (fun d hd s1 hs1 => ?_) rfl Front.nil).bind
    fun y ⟨hy, _, hf⟩ => ?_
  · -- a prerequisite is found on the list
    subst hs1
    obtain ⟨q, b, hq, hb⟩ := hc.relevant hps hd
    obtain ⟨e', he', rfl⟩ := Option.map_eq_some_iff.mp hq
    obtain ⟨j, hj⟩ := mem_values.mp ((hbefore d hd).subset (List.mem_cons_of_mem _
      List.mem_cons_self))
    have hj' := (hs.placed j d).mp hj
    rw [position_of_lookup he'] at hj'
    rw [orderChain_listed (s := s.takeOff (some m)) he' hb (by simpa using hne d hd)
      (Option.some.inj hj')]
    refine ⟨rfl, List.Sublist.refl _, j, rfl, ?_⟩
    rw [(hs.takeOff hpos).placed j d (hne d hd)]
    exact (hs.placed j d).mp hj
  · obtain ⟨i, s1⟩ := y
    obtain rfl : s1 = s.takeOff (some m) := hy
    have hin := (hs.takeOff hpos).place (e := e) (i := i) hps hf (fun d hd => ?_)
      (fun n hn hr d hd => ?_) ?_
    · refine ⟨package_place hps, hin, ⟨_, rfl, NodeList.mem_insert.mpr (Or.inl rfl)⟩, ?_⟩
      intro n hn
      by_cases hnn : n = name
      · exact mem_values.mpr ⟨_, NodeList.mem_insert.mpr (Or.inl (by rw [hnn]))⟩
      · refine NodeList.values_sublist_insert.subset ?_
        rw [hvals]
        simp [hn, hnn]
    · obtain ⟨q, hq, hd⟩ := hd
      rw [s.package_takeOff, hps] at hq
      obtain rfl := Option.some.inj hq
      exact hd
    · -- behind what requires the package
      rw [hvals] at hn ⊢
      have hn' := List.mem_filter.mp hn
      have h1 := hs.before n hn'.1 name hr
      have h2 := (pair_trans hs.values_nodup h1 (hbefore d hd)).filter (· ≠ name)
      rwa [List.filter_eq_self.mpr] at h2
      simpa [hne d hd] using hn'.2
    · rw [hvals]
      exact hs.values_nodup.filter _

/-- **A call of `order`.** -/
theorem order_ends (hc : Collected s) (hs : s.InOrder) (hp : s.package name = some p)
    (ha : p.action = some a) (reorder : Bool) : Ends (fun f => f ≠ .tooDeep ∧ s.Cyclic name)
      (Answer s name) (order s name reorder) := by
  have hks : ∀ n p, s.package n = some p → n ∈ s.map.keys := by
    intro n p h
    obtain ⟨e, he, -⟩ := Option.map_eq_some_iff.mp h
    exact AList.lookup_isSome.mp (Option.isSome_of_mem he)
  have hfirst : Ends (fun f => f ≠ .tooDeep ∧ s.Cyclic name) (Answer s name)
      (orderChain (s.map.keys.length + 1) name [] false s) := by
    have hg : s.Growing [] s := ⟨rfl, hs, fun c h => (by cases h)⟩
    refine (orderChain_ends hc hks hg hp ha List.nodup_nil (List.nil_subset _) (by simp)
      fun c h => (by cases h)).mono (fun f h => h)
        fun y hy => ⟨hy.good.same, hy.good.inOrder, hy.listed, (hy.grown.map Prod.snd).subset⟩
  obtain ⟨e, he, rfl⟩ := Option.map_eq_some_iff.mp hp
  unfold order
  cases hpos : e.position with
  | none =>
    rw [orderChain_absent he ha List.not_mem_nil hpos] at hfirst ⊢
    exact hfirst
  | some m =>
    cases reorder with
    | false => exact hfirst
    | true =>
      obtain ⟨k, hk⟩ : ∃ k, s.map.keys.length = k + 1 :=
        Nat.exists_eq_succ_of_ne_zero (List.length_pos_of_mem (hks name _ hp)).ne'
      rw [hk]
      exact (order_again hc hs he ha hpos).mono (fun f h => h.elim) fun y hy => hy

/-! ### Every sequence of calls -/

/-- The states that calls get to, from the collected packages on. -/
inductive Reached (s0 : BuildPackages) : BuildPackages → Prop
  | start : Reached s0 s0.clearOrder
  | call {s s' : BuildPackages} {name : PackageName} {p : BuildPackage} {a : Action}
      {reorder : Bool} {i : Iter} (hr : Reached s0 s) (hp : s.package name = some p)
      (ha : p.action = some a) (h : order s name reorder = .ok (i, s')) : Reached s0 s'

theorem lookup_clearOrder : s.clearOrder.map.lookup n =
    (s.map.lookup n).map fun e => { e with position := none } := by
  change List.dlookup n (s.map.entries.map fun e =>
    (⟨e.1, { e.2 with position := none }⟩ : Σ _ : PackageName, Entry)) =
      (List.dlookup n s.map.entries).map _
  induction s.map.entries with
  | nil => rfl
  | cons x l ih =>
    obtain ⟨m, e⟩ := x
    rw [List.map_cons]
    by_cases hn : n = m
    · subst hn
      rw [List.dlookup_cons_eq, List.dlookup_cons_eq]
      rfl
    · rw [List.dlookup_cons_ne _ _ hn, List.dlookup_cons_ne _ _ hn, ih]

theorem package_clearOrder : s.clearOrder.package = s.package := by
  funext n
  unfold package
  rw [lookup_clearOrder, Option.map_map]
  rfl

theorem inOrder_clearOrder : s.clearOrder.InOrder := by
  refine ⟨fun k n => ⟨fun h => (by cases h), fun h => ?_⟩, fun n hn => (by cases hn)⟩
  unfold position at h
  rw [lookup_clearOrder, Option.map_map] at h
  obtain ⟨e, -, he⟩ := Option.map_eq_some_iff.mp h
  cases he

theorem Reached.inOrder (hc : Collected s0) (hr : Reached s0 s) :
    s.package = s0.package ∧ s.InOrder := by
  induction hr with
  | start => exact ⟨package_clearOrder, inOrder_clearOrder⟩
  | call hr hp ha h ih =>
    have hy := order_ends (hc.congr ih.1) ih.2 hp ha ‹Bool›
    rw [h] at hy
    exact ⟨hy.same.trans ih.1, hy.inOrder⟩

/-- **Calls of `order` keep the list in order.** Each fails for a cycle among the prerequisites of a
package that the ordered one leads to, or it leaves a list without repetition with the package, with
all that was listed and with every listed package before all its prerequisites. -/
theorem order_keeps_in_order (hc : Collected s0) (hr : Reached s0 s)
    (hp : s.package name = some p) (ha : p.action = some a) (reorder : Bool) :
    (∃ f, order s name reorder = .error f ∧ f ≠ .tooDeep ∧ s.Cyclic name) ∨
      ∃ i s', order s name reorder = .ok (i, s') ∧ s'.Requires = s.Requires ∧ s'.InOrder ∧
        s'.list.values.Nodup ∧ s'.position name = some i ∧ name ∈ s'.list.values ∧
        s.list.values ⊆ s'.list.values := by
  obtain ⟨hsame, hin⟩ := hr.inOrder hc
  have h := order_ends (hc.congr hsame) hin hp ha reorder
  cases ho : order s name reorder with
  | error f =>
    rw [ho] at h
    exact Or.inl ⟨f, rfl, h⟩
  | ok y =>
    rw [ho] at h
    obtain ⟨k, hk, hkn⟩ := h.listed
    refine Or.inr ⟨y.1, y.2, rfl, requires_congr h.same, h.inOrder, h.inOrder.values_nodup, ?_,
      mem_values.mpr ⟨k, hkn⟩, h.stay⟩
    rw [hk]
    exact (h.inOrder.placed k name).mp hkn

/-! A package and its dependency, both new. -/

/-- A new package to be built in this version. -/
def sampleBuild (name : PackageName) (named : name ≠ .empty)
    (dependencies : List DependencyAlternatives) : BuildPackage :=
  ⟨some .build, none, some (.one name named dependencies), none, none, none, [], false, false,
    [], [.empty], {}⟩

def sample : BuildPackages where
  map := ((∅ : AList fun _ : PackageName => Entry).insert sampleLib
    ⟨none, sampleBuild sampleLib sampleLib_ne []⟩).insert sampleExe
      ⟨none, sampleBuild sampleExe sampleExe_ne [⟨false, false, [⟨sampleLib, none⟩]⟩]⟩
  list := .nil

theorem collected_sample : Collected sample := by
  have hbuild : ∀ name named l, ∃ v, (sampleBuild name named l).availableVersion = .ok v :=
    fun name named l => ⟨versionOne, rfl⟩
  intro n p a hp ha
  have hpn : (n = sampleExe ∧ p = sampleBuild sampleExe sampleExe_ne
        [⟨false, false, [⟨sampleLib, none⟩]⟩]) ∨
      (n = sampleLib ∧ p = sampleBuild sampleLib sampleLib_ne []) := by
    obtain ⟨e, he, rfl⟩ := Option.map_eq_some_iff.mp hp
    unfold sample at he
    by_cases h1 : n = sampleExe
    · subst h1
      rw [AList.lookup_insert] at he
      exact Or.inl ⟨rfl, (congrArg Entry.package (Option.some.inj he)).symm⟩
    · rw [AList.lookup_insert_ne h1] at he
      by_cases h2 : n = sampleLib
      · subst h2
        rw [AList.lookup_insert] at he
        exact Or.inr ⟨rfl, (congrArg Entry.package (Option.some.inj he)).symm⟩
      · rw [AList.lookup_insert_ne h2] at he
        cases he
  rcases hpn with ⟨rfl, rfl⟩ | ⟨rfl, rfl⟩
  · refine ⟨fun sp hsp => (by cases hsp), fun _ => hbuild _ _ _, fun _ _ _ ap hap da hda => ?_⟩
    obtain rfl := Option.some.inj hap
    obtain rfl := List.mem_singleton.mp hda
    exact ⟨rfl, ⟨sampleLib, none⟩, rfl,
      fun _ => ⟨sampleBuild sampleLib sampleLib_ne [], by decide, rfl⟩⟩
  · refine ⟨fun sp hsp => (by cases hsp), fun _ => hbuild _ _ _, fun _ _ _ ap hap da hda => ?_⟩
    obtain rfl := Option.some.inj hap
    cases hda

theorem sample_keeps_in_order :
    (∃ f, order sample.clearOrder sampleExe true = .error f ∧ f ≠ .tooDeep ∧
      sample.clearOrder.Cyclic sampleExe) ∨
      ∃ i s', order sample.clearOrder sampleExe true = .ok (i, s') ∧
        s'.Requires = sample.clearOrder.Requires ∧ s'.InOrder ∧ s'.list.values.Nodup ∧
        s'.position sampleExe = some i ∧ sampleExe ∈ s'.list.values ∧
        sample.clearOrder.list.values ⊆ s'.list.values :=
  order_keeps_in_order collected_sample .start (by rw [package_clearOrder]; rfl) rfl true

end Build2.Bpkg.PkgBuild.BuildPackages
