import Build2.Bpkg.PkgDrop.Filter

/-! # What is dropped

The list has each package once, every package in front of its prerequisites, and it is made of the
user selection, all that depends on it, and the largest set of prerequisites that nothing else
needs. When it is disfigured from left to right, with or without these prerequisites,
`pkg_disfigure` never finds dependents (`dropSet`). -/

namespace Build2.Bpkg.PkgDrop

open Relation Build2.Lib Build2.Lib.ByteString Build2.Lib.Linked
open PkgBuild (PackageName PackageState)
open LifeCycle (SelectedPackage Database Failure DisfigureActions find_update find_erase)
open DropPackages
open scoped List

variable {db db' : Database} {args : List PackageName} {s t : DropPackages} {n m : PackageName}
  {p p' q : SelectedPackage} {dps pre all : List DropPackage} {dp : DropPackage}

/-! ### The list -/

/-- The names on the list, in its order. -/
def DropPackages.names (s : DropPackages) : List PackageName :=
  s.packages.map fun dp => dp.package.name

/-- The packages on the list that are marked as prerequisites. -/
def DropPackages.prerequisites (s : DropPackages) : Set PackageName :=
  {n | ∃ dp ∈ s.packages, dp.package.name = n ∧ dp.reason = .prerequisite}

/-- What is said of the final list. -/
structure IsDropList (db : Database) (args : List PackageName) (t : DropPackages) : Prop where
  nodup : t.names.Nodup
  mem : ∀ n, n ∈ t.names ↔ n ∈ Removed db args ∨ n ∈ t.prerequisites
  unused : IsGreatest {S | Droppable db args S} t.prerequisites
  before : ∀ n ∈ t.names, ∀ d ∈ t.names, Requires db n d → [n, d] <+ t.names

open scoped Classical in
theorem Final.isDropList (hdb : Sound db) (hs : Listed db args s) (ht : Final db args s t) :
    IsDropList db args t := by
  have hsub : t.list.values <+ s.list.values := ht.values ▸ List.filter_sublist
  have hpkg : ∀ n ∈ t.list.values, ∃ dp, t.package n = some dp ∧ dp.package.name = n ∧
      (dp.reason = .prerequisite ↔ n ∈ Unused db args) := by
    intro n hn
    have hd := (ht.mem n).mp hn
    have hM := (hs.all n).mp (hsub.subset hn)
    obtain ⟨e, he⟩ := mem_marked.mp (hs.inOrder.marked.symm ▸ hM)
    have hpkg : s.package n = some e.package := by rw [DropPackages.package, he]; rfl
    refine ⟨e.package, (ht.package n hd).trans hpkg, hdb.named n _ (hs.inOrder.loaded n e he), ?_⟩
    rw [hs.reason n e.package hpkg]
    exact ⟨hd.resolve_left, fun hu hr => (droppable_unused.subset hu).1 hr⟩
  have hnames : t.names = t.list.values := by
    unfold names packages
    rw [List.map_filterMap]
    have hsome : ∀ n ∈ t.list.values,
        ((t.package n).map fun dp => dp.package.name) = some n := by
      intro n hn
      obtain ⟨dp, hdp, hname, -⟩ := hpkg n hn
      rw [hdp, Option.map_some, hname]
    rw [List.filterMap_congr hsome, List.filterMap_some]
  have hprq : t.prerequisites = Unused db args := by
    ext n
    constructor
    · rintro ⟨dp, hdp, rfl, hr⟩
      obtain ⟨m, hm, hmdp⟩ := List.mem_filterMap.mp hdp
      obtain ⟨dp', hdp', hname, hreason⟩ := hpkg m hm
      obtain rfl := Option.some.inj (hmdp.symm.trans hdp')
      rw [hname]
      exact hreason.mp hr
    · intro hn
      have hv := (ht.mem n).mpr (Or.inr hn)
      obtain ⟨dp, hdp, hname, hreason⟩ := hpkg n hv
      exact ⟨dp, List.mem_filterMap.mpr ⟨n, hv, hdp⟩, hname, hreason.mpr hn⟩
  refine ⟨hnames ▸ hs.inOrder.values_nodup.sublist hsub, fun n => ?_, ?_, ?_⟩
  · rw [hnames, hprq]
    exact ht.mem n
  · rw [hprq]
    exact isGreatest_unused
  · intro n hn d hd hreq
    rw [hnames] at hn hd ⊢
    have hM := (hs.all d).mp (hsub.subset hd)
    have hbefore := (hs.inOrder.before n (hsub.subset hn) d hM hreq).filter
      fun a => decide (a ∈ Dropped db args)
    rw [ht.values]
    rwa [List.filter_eq_self.mpr] at hbefore
    intro a ha
    rcases List.mem_pair.mp ha with rfl | rfl
    · exact decide_eq_true ((ht.mem a).mp hn)
    · exact decide_eq_true ((ht.mem a).mp hd)

/-! ### Assembling -/

/-- **The list is assembled**, and it is the list of what is to be dropped. -/
theorem assemble_spec (hdb : Sound db)
    (hargs : ∀ n ∈ args, ∃ p, db.find n = some p ∧ p.state ≠ .broken) :
    ∃ a, assemble db args = .ok a ∧ IsDropList db args a.pkgs := by
  obtain ⟨x, hx, hsel⟩ := select_spec hdb hargs
  obtain ⟨y, hy, hdep⟩ := collectDependents_spec hdb hsel
  obtain ⟨z, hz, hprq⟩ := collectPrerequisites_spec hdb hdep
  have hfirst : InOrder db (Removed db args ∪ Candidates db args) z.1 := by
    refine ⟨hprq.marked, fun n d hd => (hprq.loaded n d hd).1, fun k n => ?_, ?_⟩
    · rw [hprq.list]
      refine ⟨fun h => (by cases h), fun h => ?_⟩
      obtain ⟨d, hd, hpos⟩ := Option.map_eq_some_iff.mp h
      rw [(hprq.loaded n d hd).2] at hpos
      cases hpos
    · rw [hprq.list]
      exact fun n hn => by cases hn
  obtain ⟨s, hs, hs1, hs2, -, hs3⟩ := orderAll_spec hdb (x.2 ++ y.2.map DependentName.name) z.1
    hfirst fun n hn => Or.inl ((hdep.names n).mp hn)
  have hlisted : Listed db args s := by
    refine ⟨hs1, fun n => ⟨hs1.mem_of_mem_values, fun hn => ?_⟩, fun n d hd => ?_⟩
    · -- what is reached from listed packages is listed
      have hremoved : ∀ a ∈ Removed db args, a ∈ s.list.values := fun a ha =>
        hs3 a ((hdep.names a).mpr ha)
      rcases hn with hn | ⟨-, a, ha, han⟩
      · exact hremoved n hn
      · have hreach : ∀ b, TransGen (RequiresUnheld db) a b → b ∈ s.list.values := by
          intro b hab
          have hM : b ∈ Removed db args ∪ Candidates db args := by
            by_cases hb : b ∈ Removed db args
            · exact Or.inl hb
            · exact Or.inr ⟨hb, a, ha, hab⟩
          induction hab with
          | single hab => exact (hs1.before a (hremoved a ha) _ hM hab.1).subset (by simp)
          | @tail b c hab hbc ih =>
            have hbM : b ∈ Removed db args ∪ Candidates db args := by
              by_cases hb : b ∈ Removed db args
              · exact Or.inl hb
              · exact Or.inr ⟨hb, a, ha, hab⟩
            exact (hs1.before b (ih hbM) _ hM hbc.1).subset (by simp)
        exact hreach n han
    · rw [hs2] at hd
      obtain ⟨e, he, rfl⟩ := Option.map_eq_some_iff.mp hd
      exact hprq.reason n e he
  refine ⟨⟨(s.filterPrerequisites db).1, y.2, (s.filterPrerequisites db).2⟩, ?_,
    (filterPrerequisites_spec hdb hlisted).1.isDropList hdb hlisted⟩
  unfold assemble
  rw [hx]
  change (x.1.collectDependents db >>= _) = _
  rw [hy]
  change (y.1.collectPrerequisites db >>= _) = _
  rw [hz]
  change (orderAll db (x.2 ++ y.2.map DependentName.name) z.1 >>= _) = _
  rw [hs]
  rfl

/-! ### Disfiguring -/

/-- What is left of a database of which the packages `done` are dropped. -/
structure Left (db : Database) (done : List PackageName) (db' : Database) : Prop where
  named : ∀ n p, db'.find n = some p → p.name = n
  kept : ∀ n p, db'.find n = some p → p.prerequisites = ∅ ∨ db.find n = some p ∧ n ∉ done

theorem disfigure_ok {clean : Bool} {fs : DisfigureActions}
    (h : LifeCycle.disfigure db p clean fs = .ok (p', db')) :
    ∀ m q, db'.find m = some q →
      m = p.name ∧ q.name = m ∧ q.prerequisites = ∅ ∨ m ≠ p.name ∧ db.find m = some q := by
  intro m q hq
  unfold LifeCycle.disfigure at h
  split_ifs at h
  · obtain ⟨-, rfl⟩ := Prod.mk.inj (Except.ok.inj h)
    rw [find_erase] at hq
    split_ifs at hq with hm
    exact Or.inr ⟨hm, hq⟩
  · obtain ⟨-, rfl⟩ := Prod.mk.inj (Except.ok.inj h)
    rw [find_update] at hq
    split_ifs at hq with hm
    · obtain rfl := Option.some.inj hq
      exact Or.inl ⟨hm, hm.symm, rfl⟩
    · exact Or.inr ⟨hm, hq⟩

theorem Left.disfigure {done : List PackageName} {clean : Bool} {fs : DisfigureActions}
    {db0 : Database} (h : Left db0 done db)
    (hd : LifeCycle.disfigure db p clean fs = .ok (p', db')) :
    Left db0 (done ++ [p.name]) db' where
  named n q hq := by
    rcases disfigure_ok hd n q hq with ⟨-, hn, -⟩ | ⟨-, hq⟩
    · exact hn
    · exact h.named n q hq
  kept n q hq := by
    rcases disfigure_ok hd n q hq with ⟨-, -, he⟩ | ⟨hn, hq⟩
    · exact Or.inl he
    · refine (h.kept n q hq).imp_right fun ⟨hq0, hnot⟩ => ⟨hq0, ?_⟩
      simp [hnot, hn]

theorem Left.pass {done : List PackageName} {db0 : Database} (hdb : Sound db0)
    (h : Left db0 done db) (hn : ∀ p, db.find n = some p → p.state ≠ .configured) :
    Left db0 (done ++ [n]) db where
  named := h.named
  kept m q hq := by
    rcases h.kept m q hq with he | ⟨hq0, hnot⟩
    · exact Or.inl he
    · by_cases hmn : m = n
      · subst hmn
        exact Or.inl (hdb.unconfigured m q hq0 (hn q hq))
      · refine Or.inr ⟨hq0, ?_⟩
        simp [hnot, hmn]

/-- A package that is left depends on nothing that is in front of it only. -/
theorem Left.not_requires {done : List PackageName} {db0 : Database} (h : Left db0 done db)
    (hn : ∀ m, Requires db0 m n → m ∈ done) (hq : db.find m = some q) : n ∉ q.prerequisites := by
  intro hmem
  rcases h.kept m q hq with he | ⟨hq0, hnot⟩
  · rw [he] at hmem
    exact AList.notMem_empty n hmem
  · exact hnot (hn m ⟨q, hq0, hmem⟩)

/-- The names of the packages that are not skipped. -/
def considered (dropPrq : Bool) (dps : List DropPackage) : List PackageName :=
  (dps.filter fun dp => ¬ (dp.reason = .prerequisite ∧ !dropPrq)).map fun dp => dp.package.name

/-- No package of the database depends on the one that `pkg_disfigure` is called with. -/
def Free (c : Database × SelectedPackage) : Prop :=
  ∀ m q, c.1.find m = some q → q.state = .configured → c.2.name ∉ q.prerequisites

/-- **Disfiguring from left to right** finds no dependents if they are all in front and are not
skipped. -/
theorem disfigureAll_free (hdb : Sound db) {dropPrq : Bool} {fs : PackageName → DisfigureActions}
    (hfront : ∀ pre dp suf, all = pre ++ dp :: suf → ¬ (dp.reason = .prerequisite ∧ !dropPrq) →
      ∀ m, Requires db m dp.package.name → m ∈ considered dropPrq pre) :
    ∀ (dps pre : List DropPackage) (db' : Database), all = pre ++ dps →
      Left db (considered dropPrq pre) db' → ∀ c ∈ (disfigureAll dropPrq fs dps db').1, Free c := by
  intro dps
  induction dps with
  | nil => exact fun _ _ _ _ c hc => by cases hc
  | cons dp dps ih =>
    intro pre db' hall hleft
    have hall' : all = (pre ++ [dp]) ++ dps := by rw [hall, List.append_assoc]; rfl
    have hconsidered : considered dropPrq (pre ++ [dp]) = considered dropPrq pre ++
        if dp.reason = .prerequisite ∧ !dropPrq then [] else [dp.package.name] := by
      unfold considered
      rw [List.filter_append, List.map_append]
      by_cases h : dp.reason = .prerequisite ∧ !dropPrq
      · rw [if_pos h, List.filter_cons_of_neg (by simpa using h)]
        rfl
      · simp only [List.filter_cons, h, not_false_eq_true, decide_true, if_true, if_false,
          List.filter_nil, List.map_cons, List.map_nil]
    rw [disfigureAll]
    by_cases hskip : dp.reason = .prerequisite ∧ !dropPrq
    · rw [if_pos hskip, List.append_nil] at hconsidered
      rw [if_pos hskip]
      exact ih _ db' hall' (hconsidered ▸ hleft)
    rw [if_neg hskip] at hconsidered
    rw [if_neg hskip]
    cases hp : db'.find dp.package.name with
    | none =>
      refine ih _ db' hall' (hconsidered ▸ hleft.pass hdb fun p h => ?_)
      rw [hp] at h
      cases h
    | some p =>
      have hname := hleft.named _ p hp
      have hfree : Free (db', p) := by
        intro m q hq _
        change p.name ∉ _
        rw [hname]
        exact hleft.not_requires (hfront pre dp dps hall hskip) hq
      dsimp only
      by_cases hstate : p.state = .configured
      · rw [if_neg (not_not.mpr hstate)]
        cases hd : LifeCycle.disfigure db' p true (fs p.name) with
        | error e => exact fun c hc => List.mem_singleton.mp hc ▸ hfree
        | ok r =>
          obtain ⟨p', db''⟩ := r
          dsimp only
          by_cases hp' : p'.state = .unpacked ∨ p'.state = .transient
          · rw [if_pos hp']
            have hnext := ih _ db'' hall' (by rw [hconsidered, ← hname]; exact hleft.disfigure hd)
            exact List.forall_mem_cons.mpr ⟨hfree, hnext⟩
          · rw [if_neg hp']
            exact fun c hc => List.mem_singleton.mp hc ▸ hfree
      · rw [if_pos hstate]
        refine ih _ db' hall' (hconsidered ▸ hleft.pass hdb fun q hq => ?_)
        rwa [← Option.some.inj (hp.symm.trans hq)]

/-- **The drop set**: the list has each package once, it is the user selection with all that depends
on it and the largest set of not held prerequisites that only what is dropped depends on, and every
package is in front of its prerequisites. Disfiguring it never comes to a package on which a
configured one depends. -/
theorem dropSet (hdb : Sound db)
    (hargs : ∀ n ∈ args, ∃ p, db.find n = some p ∧ p.state ≠ .broken) :
    ∃ a, assemble db args = .ok a ∧ IsDropList db args a.pkgs ∧
      ∀ dropPrq fs, ∀ c ∈ (disfigureAll dropPrq fs a.pkgs.packages db).1, Free c := by
  obtain ⟨a, ha, hlist⟩ := assemble_spec hdb hargs
  refine ⟨a, ha, hlist, fun dropPrq fs => ?_⟩
  suffices hfront : ∀ pre dp suf, a.pkgs.packages = pre ++ dp :: suf →
      ¬ (dp.reason = .prerequisite ∧ !dropPrq) →
      ∀ m, Requires db m dp.package.name → m ∈ considered dropPrq pre from
    disfigureAll_free hdb hfront a.pkgs.packages [] db rfl
      ⟨hdb.named, fun n p hp => Or.inr ⟨hp, List.not_mem_nil⟩⟩
  intro pre dp suf hall hskip m hreq
  have hnames : a.pkgs.names = (pre.map fun dp => dp.package.name) ++
      dp.package.name :: suf.map fun dp => dp.package.name := by
    rw [names, hall, List.map_append, List.map_cons]
  have hdp : dp ∈ a.pkgs.packages := by rw [hall]; simp
  have hn : dp.package.name ∈ a.pkgs.names := List.mem_map_of_mem hdp
  have hnd : dp.package.name ∈ Removed db args ∨ dp.package.name ∈ a.pkgs.prerequisites :=
    (hlist.mem _).mp hn
  have hm : m ∈ Removed db args ∨ dp.package.name ∈ a.pkgs.prerequisites ∧
      m ∈ a.pkgs.prerequisites := by
    rcases hnd with h | h
    · exact Or.inl (removed_of_requires hreq h)
    · exact (hlist.unused.1.dependents _ h m hreq).imp_right fun hm => ⟨h, hm⟩
  have hmn : m ∈ a.pkgs.names := (hlist.mem m).mpr (hm.imp_right And.right)
  have hbefore := hlist.before m hmn _ hn hreq
  have hnodup := hlist.nodup
  rw [hnames] at hbefore hnodup
  obtain ⟨dp', hdp', rfl⟩ := List.mem_map.mp (mem_of_pair hnodup hbefore)
  refine List.mem_map_of_mem (List.mem_filter.mpr ⟨hdp', decide_eq_true fun hskip' => ?_⟩)
  -- what depends on a package that is not skipped is not skipped
  have hmem' : dp'.package.name ∈ a.pkgs.prerequisites :=
    ⟨dp', by rw [hall]; exact List.mem_append_left _ hdp', rfl, hskip'.1⟩
  rcases hm with hm | ⟨⟨dp2, hdp2, hname, hreason⟩, -⟩
  · exact (hlist.unused.1.subset hmem').1 hm
  · obtain rfl : dp2 = dp := List.inj_on_of_nodup_map hlist.nodup hdp2 hdp hname
    exact hskip ⟨hreason, hskip'.2⟩

/-- A package that is configured from sources, with these prerequisites. -/
def configuredPackage (spelling : Bytes) (held : Bool) (prqs : LifeCycle.PackagePrerequisites) :
    SelectedPackage :=
  { spelling := spelling, version := wildcardVersion, state := .configured,
    substate := .none, holdPackage := held, holdVersion := false, repositoryFragment := .pkg,
    archive := none, purgeArchive := false, srcRoot := some spelling, purgeSrc := true,
    manifestChecksum := some [], outRoot := some spelling, prerequisites := prqs }

/-- `foo`, which is held, and its prerequisite `libfoo`. -/
def fooDatabase : Database :=
  (Database.update ∅ (configuredPackage LifeCycle.libfoo false ∅)).update
    (configuredPackage LifeCycle.foo true (AList.singleton (.ofString LifeCycle.libfoo) none))

theorem sound_fooDatabase : Sound fooDatabase := by
  have hne : PackageName.ofString LifeCycle.libfoo ≠ .ofString LifeCycle.foo := by decide
  have hfind : ∀ n, fooDatabase.find n =
      if n = .ofString LifeCycle.foo then some (configuredPackage LifeCycle.foo true
        (AList.singleton (.ofString LifeCycle.libfoo) none))
      else if n = .ofString LifeCycle.libfoo then some (configuredPackage LifeCycle.libfoo false ∅)
      else none := by
    intro n
    rw [fooDatabase, find_update, find_update]
    rfl
  have hreq : ∀ n d, Requires fooDatabase n d →
      n = .ofString LifeCycle.foo ∧ d = .ofString LifeCycle.libfoo := by
    rintro n d ⟨p, hp, hd⟩
    rw [hfind] at hp
    split_ifs at hp with h1 h2
    · obtain rfl := Option.some.inj hp
      exact ⟨h1, List.mem_singleton.mp hd⟩
    · obtain rfl := Option.some.inj hp
      exact absurd hd (AList.notMem_empty d)
  refine ⟨fun n p hp => ?_, fun n p hp hs => ?_, fun n d hd => ?_, fun n hn => ?_⟩
  · rw [hfind] at hp
    split_ifs at hp with h1 h2
    · rw [← Option.some.inj hp, h1]
      rfl
    · rw [← Option.some.inj hp, h2]
      rfl
  · rw [hfind] at hp
    split_ifs at hp with h1 h2
    · exact absurd (Option.some.inj hp ▸ rfl) hs
    · exact absurd (Option.some.inj hp ▸ rfl) hs
  · rw [(hreq n d hd).2, hfind, if_neg hne, if_pos rfl]
    exact ⟨_, rfl, rfl⟩
  · obtain ⟨m, hnm, hmn⟩ := TransGen.head'_iff.mp hn
    rcases reflTransGen_iff_eq_or_transGen.mp hmn with rfl | hmn
    · exact hne ((hreq _ _ hnm).2.symm.trans (hreq _ _ hnm).1)
    · obtain ⟨k, hmk, -⟩ := TransGen.head'_iff.mp hmn
      exact hne ((hreq _ _ hnm).2.symm.trans (hreq _ _ hmk).1)

/-- Dropping `foo`. -/
theorem dropSet_foo : ∃ a, assemble fooDatabase [.ofString LifeCycle.foo] = .ok a ∧
    IsDropList fooDatabase [.ofString LifeCycle.foo] a.pkgs ∧
      ∀ dropPrq fs, ∀ c ∈ (disfigureAll dropPrq fs a.pkgs.packages fooDatabase).1, Free c :=
  dropSet sound_fooDatabase fun n hn => by
    rw [List.mem_singleton.mp hn]
    exact ⟨_, rfl, by decide⟩

example : (assemble fooDatabase [.ofString LifeCycle.foo]).map (fun a => (a.pkgs.names, a.unused))
    = .ok ([.ofString LifeCycle.foo, .ofString LifeCycle.libfoo], true) := by decide

end Build2.Bpkg.PkgDrop
