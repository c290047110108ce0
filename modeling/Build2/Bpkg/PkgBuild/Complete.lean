import Build2.Bpkg.PkgBuild.Candidate

/-! # What collection leaves complete

An entry is complete if it is a build whose dependencies are builds in the map, or one that is not
looked into. Collection never takes a build from the map, and each entry that it changes is complete
or postponed afterwards (`Advances`, `collectBuild_advances`). -/

namespace Build2.Bpkg.PkgBuild

open Relation Build2.Lib.Stateful Build2.Libbpkg BuildPackages Collection

/-- What the dependencies of an entry follow from. -/
def BuildPackage.kind (p : BuildPackage) :
    Option Action × Option SelectedPackage × Option AvailablePackage × Bool :=
  (p.action, p.selected, p.available, p.system)

/-- A system package or one that is configured already: its dependencies are not looked at. -/
def BuildPackage.Pruned (p : BuildPackage) : Prop := p.system = true ∨ sameConfigured p = .ok true

namespace Collection

def Built (s : Collection) (n : PackageName) : Prop :=
  ∃ p, s.package n = some p ∧ p.action = some .build

/-- The dependency is special or a build in the map. -/
def Provides (s : Collection) (da : DependencyAlternatives) : Prop :=
  ∃ dp, da.alternatives = [dp] ∧ (isSpecial da dp.name = true ∨ s.Built dp.name)

/-- The entry is a build and has its dependencies in the map. -/
def Complete (s : Collection) (n : PackageName) : Prop :=
  ∃ p, s.package n = some p ∧ p.action = some .build ∧
    (p.Pruned ∨ ∃ ap, p.available = some ap ∧ ∀ da ∈ ap.dependencies, s.Provides da)

/-- The entry has stayed what it was, up to what was merged into it. -/
def Same (s s' : Collection) (n : PackageName) : Prop :=
  (s.package n).map BuildPackage.kind = (s'.package n).map BuildPackage.kind

/-- The entry is complete or postponed. -/
def Handled (s : Collection) (n : PackageName) : Prop := n ∈ s.postponed ∨ s.Complete n

/-- **What collection of packages of a kind does to the state.** A package that is postponed was not
complete at some point. -/
structure Advances (P : BuildPackage → Prop) (s s' : Collection) : Prop where
  steps : Steps P s s'
  postponed : s.postponed ⊆ s'.postponed
  pending : ∀ n ∈ s'.postponed, n ∈ s.postponed ∨
    s'.Built n ∧ ∃ s0, Steps P s s0 ∧ Steps P s0 s' ∧ ¬ s0.Complete n
  built : ∀ n, s.Built n → s'.Built n
  changed : ∀ n, s.Same s' n ∨ s'.Handled n

section

variable {s s' s'' : Collection} {n : PackageName} {da : DependencyAlternatives}
  {P : BuildPackage → Prop}

theorem sameConfigured_congr {p q : BuildPackage} (h : p.kind = q.kind) :
    sameConfigured p = sameConfigured q := by
  unfold BuildPackage.kind at h
  simp only [Prod.mk.injEq] at h
  obtain ⟨-, hs, ha, hy⟩ := h
  unfold sameConfigured BuildPackage.availableVersion
  rw [hs, ha, hy]

theorem Same.cases {p : BuildPackage} (h : s.Same s' n) (hp : s.package n = some p) :
    ∃ q, s'.package n = some q ∧ p.kind = q.kind := by
  unfold Same at h
  rw [hp] at h
  obtain ⟨q, hq, hk⟩ := Option.map_eq_some_iff.mp h.symm
  exact ⟨q, hq, hk.symm⟩

theorem Provides.mono (hb : ∀ n, s.Built n → s'.Built n) (h : s.Provides da) : s'.Provides da :=
  h.imp fun dp h => ⟨h.1, h.2.imp_right (hb dp.name)⟩

theorem Complete.of_same (h : s.Complete n) (hs : s.Same s' n)
    (hb : ∀ n, s.Built n → s'.Built n) : s'.Complete n := by
  obtain ⟨p, hp, ha, hd⟩ := h
  obtain ⟨q, hq, hk⟩ := hs.cases hp
  have hpruned : p.Pruned → q.Pruned := fun h => by
    unfold BuildPackage.Pruned at h ⊢
    rwa [← sameConfigured_congr hk, ← show p.system = q.system from congrArg (·.2.2.2) hk]
  refine ⟨q, hq, (congrArg Prod.fst hk).symm.trans ha, hd.imp hpruned ?_⟩
  rintro ⟨ap, hap, hall⟩
  have hav : p.available = q.available := congrArg (·.2.2.1) hk
  exact ⟨ap, hav.symm.trans hap, fun da hda => (hall da hda).mono hb⟩

theorem Advances.handled (h : Advances P s s') (hn : s.Handled n) : s'.Handled n := by
  rcases h.changed n with hs | hh
  · exact hn.imp (fun hp => h.postponed hp) fun hc => hc.of_same hs h.built
  · exact hh

theorem Advances.refl (s : Collection) : Advances P s s :=
  ⟨.refl, List.Subset.refl _, fun _ h => Or.inl h, fun _ h => h, fun _ => Or.inl rfl⟩

theorem Advances.trans (h : Advances P s s') (h' : Advances P s' s'') : Advances P s s'' where
  steps := ReflTransGen.trans h.steps h'.steps
  postponed := List.Subset.trans h.postponed h'.postponed
  pending n hn := by
    rcases h'.pending n hn with hn | ⟨hb, s0, h0, h1, hc⟩
    · refine (h.pending n hn).imp_right fun ⟨hb, s0, h0, h1, hc⟩ => ?_
      exact ⟨h'.built n hb, s0, h0, h1.trans h'.steps, hc⟩
    · exact Or.inr ⟨hb, s0, ReflTransGen.trans h.steps h0, h1, hc⟩
  built n hn := h'.built n (h.built n hn)
  changed n := by
    rcases h'.changed n with hs' | hh
    · rcases h.changed n with hs | hh
      · exact Or.inl (hs.trans hs')
      · exact Or.inr (h'.handled hh)
    · exact Or.inr hh

end

end Collection

/-! ### Collection -/

section

variable {env : Environment} {s s' : Collection} {entry name : PackageName} {b : Bool}
  {collect : BuildPackage → Collection → Except Fault (Bool × Collection)}
  {l : List DependencyAlternatives} {da : DependencyAlternatives} {pkg p : BuildPackage}
  {ap : AvailablePackage} {k : ℕ} {P : BuildPackage → Prop}

theorem Outcome.kept_kind {met : Option BuildPackage} (h : Outcome name pkg met false p) :
    ∃ bp, met = some bp ∧ bp.kind = p.kind := by
  cases h with
  | @kept bp _ _ _ h =>
    have hm := BuildPackage.merge_eq_ok h
    refine ⟨bp, rfl, ?_⟩
    simp only [BuildPackage.kind, hm.action, hm.selected, hm.available, hm.system]

theorem Outcome.put_kind {met : Option BuildPackage} (h : Outcome name pkg met true p) :
    p.kind = pkg.kind := by
  cases h with
  | added => rfl
  | merged _ h | replaced _ _ h =>
    have hm := BuildPackage.merge_eq_ok h
    simp only [BuildPackage.kind, hm.action, hm.selected, hm.available, hm.system]

/-- Only the entry of the package changes, and this not in kind if another one is kept. -/
theorem put_kind (hap : pkg.available = some ap) (h : s.put pkg = .ok (b, s')) :
    s'.postponed = s.postponed ∧ (∀ m, m ≠ ap.name → s'.package m = s.package m) ∧
      s'.Built ap.name ∧ (b = false → s.Same s' ap.name) := by
  obtain ⟨ap', p, hap', ha, ho, rfl⟩ := Collection.put_cases h
  obtain rfl := Option.some.inj (hap.symm.trans hap')
  have hp : (s.store ap.name p pkg).package ap.name = some p := by
    rw [Collection.package_store, if_pos rfl]
  refine ⟨rfl, fun m hm => by rw [Collection.package_store, if_neg hm], ⟨p, hp, ?_⟩, ?_⟩
  · generalize s.package ap.name = met at ho
    cases ho with
    | added => exact ha
    | merged _ h | replaced _ _ h => exact (BuildPackage.merge_eq_ok h).action.trans ha
    | kept hb _ h => exact (BuildPackage.merge_eq_ok h).action.trans hb
  · rintro rfl
    obtain ⟨bp, hbp, hk⟩ := ho.kept_kind
    unfold Collection.Same
    rw [hp, hbp]
    exact congrArg some hk

theorem put_advances_of_kept (hP : P pkg) (hap : pkg.available = some ap)
    (h : s.put pkg = .ok (false, s')) : Advances P s s' := by
  obtain ⟨hpost, hne, hb, hs⟩ := put_kind hap h
  have hsame : ∀ m, s.Same s' m := fun m => by
    by_cases hm : m = ap.name
    · exact hm ▸ hs rfl
    · unfold Collection.Same
      rw [hne m hm]
  refine ⟨.single (.put hP h), hpost ▸ List.Subset.refl _, fun m hm => Or.inl (hpost ▸ hm),
    fun m hm => ?_, fun m => Or.inl (hsame m)⟩
  obtain ⟨p, hp, ha⟩ := hm
  obtain ⟨q, hq, hk⟩ := (hsame m).cases hp
  exact ⟨q, hq, (congrArg Prod.fst hk).symm.trans ha⟩

theorem advances_of_put {s1 : Collection} (hP : P pkg) (hap : pkg.available = some ap)
    (h : s.put pkg = .ok (true, s1)) (ha : Advances P s1 s') (hh : s'.Handled ap.name) :
    Advances P s s' := by
  obtain ⟨hpost, hne, hb, -⟩ := put_kind hap h
  refine ⟨.head (.put hP h) ha.steps, hpost ▸ ha.postponed, fun m hm => ?_,
    fun m hm => ha.built m ?_, fun m => ?_⟩
  · refine (ha.pending m hm).imp (fun hm => hpost ▸ hm) fun ⟨hb, s0, h0, h1, hc⟩ => ?_
    exact ⟨hb, s0, .head (.put hP h) h0, h1, hc⟩
  · by_cases he : m = ap.name
    · exact he ▸ hb
    · obtain ⟨p, hp⟩ := hm
      exact ⟨p, by rw [hne m he]; exact hp.1, hp.2⟩
  · by_cases he : m = ap.name
    · exact Or.inr (he ▸ hh)
    · refine (ha.changed m).imp_left fun hs => ?_
      unfold Collection.Same at hs ⊢
      rw [← hs, hne m he]

theorem mem_postpone (env : Environment) (s : Collection) (n m : PackageName) :
    m ∈ (postpone env s n).postponed ↔ m = n ∨ m ∈ s.postponed := by
  unfold postpone
  split_ifs with h
  · exact ⟨Or.inr, fun hm => hm.elim (fun he => he ▸ h) id⟩
  · exact List.mem_orderedInsert _

/-- A package that is postponed because of a dependency, and was not complete before. -/
theorem advances_of_postpone {s1 : Collection} (env : Environment) {n : PackageName}
    (h : Advances P s s1) (hn : s.Built n) (hc : ¬ s.Complete n) :
    Advances P s (postpone env s1 n) := by
  have hpkg : (postpone env s1 n).packages = s1.packages := by
    unfold postpone
    split_ifs <;> rfl
  have hbuilt : ∀ m, s1.Built m → (postpone env s1 n).Built m := fun m hm => by
    unfold Collection.Built Collection.package at hm ⊢
    rwa [hpkg]
  have hsame : ∀ m, s1.Same (postpone env s1 n) m := fun m => by
    unfold Collection.Same Collection.package
    rw [hpkg]
  have hsteps : Steps P s1 (postpone env s1 n) := steps_postpone env s1 n
  refine ⟨ReflTransGen.trans h.steps hsteps, fun m hm => ?_, fun m hm => ?_,
    fun m hm => hbuilt m (h.built m hm), fun m => ?_⟩
  · exact (mem_postpone env s1 n m).mpr (Or.inr (h.postponed hm))
  · rcases (mem_postpone env s1 n m).mp hm with rfl | hm
    · exact Or.inr ⟨hbuilt m (h.built m hn), s, .refl, ReflTransGen.trans h.steps hsteps, hc⟩
    · refine (h.pending m hm).imp_right fun ⟨hb, s0, h0, h1, hc⟩ => ?_
      exact ⟨hbuilt m hb, s0, h0, h1.trans hsteps, hc⟩
  · rcases h.changed m with hs | hh
    · exact Or.inl (hs.trans (hsame m))
    · refine Or.inr (hh.imp (fun hp => (mem_postpone env s1 n m).mpr (Or.inr hp)) fun hc => ?_)
      exact hc.of_same (hsame m) hbuilt

/-- What the collection of a package promises to the collection of its dependents. -/
def Promises (P : BuildPackage → Prop)
    (collect : BuildPackage → Collection → Except Fault (Bool × Collection)) : Prop :=
  ∀ pkg ap s b s', P pkg → pkg.available = some ap → collect pkg s = .ok (b, s') →
    Advances P s s' ∧ s'.Built ap.name

/-- A dependency that is waited for is not in the map as a build. -/
theorem next_cases {a : Next} (h : next env s entry name true da = .ok a) :
    ∃ dp, da.alternatives = [dp] ∧ (a = .nothing → isSpecial da dp.name = true) ∧
      (a = .postpone → ¬ s.Provides da) ∧ ∀ dp' r, a = .collect dp' r → dp' = dp := by
  unfold next at h
  split_ifs at h
  split at h
  swap
  · cases h
  rename_i dp halt
  split_ifs at h with hsp
  · obtain ⟨_, -, h⟩ := bind_eq_ok.mp h
    cases h
    exact ⟨dp, halt, fun _ => hsp, fun h => (by cases h), fun _ _ h => (by cases h)⟩
  obtain ⟨o, ho, h⟩ := bind_eq_ok.mp h
  cases o with
  | some r =>
    cases h
    exact ⟨dp, halt, fun h => (by cases h), fun h => (by cases h), fun _ _ h => (by cases h; rfl)⟩
  | none =>
    cases h
    refine ⟨dp, halt, fun h => (by cases h), fun _ hp => ?_, fun _ _ h => (by cases h)⟩
    obtain ⟨dp', halt', hp⟩ := hp
    rw [halt, List.singleton_inj] at halt'
    subst halt'
    obtain ⟨p, hpk, ha⟩ := hp.resolve_left hsp
    -- the entry is not pre-entered, so that the dependency is not waited for
    have hd : desired (s.package dp.name) = .ok none := hpk ▸ desired_build ha
    unfold resolve at ho
    obtain ⟨d, hd', ho⟩ := bind_eq_ok.mp ho
    obtain rfl := Except.ok.inj (hd.symm.trans hd')
    obtain ⟨_, -, ho⟩ := bind_eq_ok.mp ho
    obtain ⟨x, -, ho⟩ := bind_eq_ok.mp ho
    split at ho
    · cases ho
    unfold resolveAvailable at ho
    split at ho
    · cases ho
    obtain ⟨z, -, ho⟩ := bind_eq_ok.mp ho
    cases z with
    | none => cases ho
    | some z =>
      simp only at ho
      split_ifs at ho
      · split at ho
        · cases ho
        · obtain ⟨b, -, ho⟩ := bind_eq_ok.mp ho
          split_ifs at ho
          cases ho
      all_goals
        split at ho
        · cases ho
        · obtain ⟨b, -, ho⟩ := bind_eq_ok.mp ho
          cases ho

variable (hn : env.Named) (hP : Supplies env P)

include hn hP

theorem collectDependency_advances (hc : Promises P collect)
    (h : collectDependency env collect entry ap.name true da s = .ok (b, s')) :
    if b then Advances P s s' ∧ s'.Provides da
    else s' = postpone env s entry ∧ ¬ s.Provides da := by
  unfold collectDependency at h
  obtain ⟨a, ha, h⟩ := bind_eq_ok.mp h
  obtain ⟨dp, halt, hnothing, hpostpone, hcollect⟩ := next_cases ha
  cases a with
  | nothing =>
    cases h
    exact ⟨.refl s, dp, halt, Or.inl (hnothing rfl)⟩
  | postpone =>
    cases h
    exact ⟨rfl, hpostpone rfl⟩
  | collect dp' r =>
    obtain rfl := hcollect dp' r rfl
    obtain ⟨x, hx, h⟩ := bind_eq_ok.mp h
    split_ifs at h
    cases h
    obtain ⟨hadv, hb⟩ := hc _ r.available _ _ _ (hP _ _ _ _ _ _ _ ha) rfl hx
    have hname := hn _ _ (candidateFor_next ha).1
    exact ⟨hadv, dp', halt, Or.inr (hname ▸ hb)⟩

theorem collectDependencies_advances (hc : Promises P collect)
    (h : collectDependencies env collect entry ap.name true l s = .ok s') :
    (Advances P s s' ∧ ∀ da ∈ l, s'.Provides da) ∨
      ∃ s1, Advances P s s1 ∧ s' = postpone env s1 entry ∧ ∃ da ∈ l, ¬ s1.Provides da := by
  induction l generalizing s with
  | nil =>
    cases h
    exact Or.inl ⟨.refl _, fun da hda => (by cases hda)⟩
  | cons da l ih =>
    obtain ⟨⟨more, s1⟩, h1, h⟩ := bind_eq_ok.mp h
    have hda := collectDependency_advances hn hP hc h1
    cases more with
    | true =>
      obtain ⟨hadv, hda⟩ := hda
      rcases ih h with ⟨hadv', hl⟩ | ⟨s2, hadv', rfl, da', hmem, hno⟩
      · exact Or.inl ⟨hadv.trans hadv',
          List.forall_mem_cons.mpr ⟨Collection.Provides.mono hadv'.built hda, hl⟩⟩
      · exact Or.inr ⟨s2, hadv.trans hadv', rfl, da', List.mem_cons_of_mem _ hmem, hno⟩
    | false =>
      cases h
      exact Or.inr ⟨s, .refl s, hda.1, da, List.mem_cons_self, hda.2⟩

/-- **After its prerequisites were collected an entry is complete**, or it is postponed. -/
theorem collectPrerequisites_advances (hc : Promises P collect)
    (h : collectPrerequisites env collect entry true s = .ok s') :
    Advances P s s' ∧ s'.Handled entry := by
  unfold collectPrerequisites at h
  cases hp : s.package entry with
  | none =>
    rw [hp] at h
    cases h
  | some p =>
    rw [hp] at h
    simp only at h
    split_ifs at h with ha hsys
    · cases h
      exact ⟨.refl s, Or.inr ⟨p, hp, not_not.mp ha, Or.inl (Or.inl hsys)⟩⟩
    cases hap : p.available with
    | none =>
      rw [hap] at h
      cases h
    | some ap =>
      rw [hap] at h
      obtain ⟨same, hsame, h⟩ := bind_eq_ok.mp h
      cases same with
      | true =>
        cases h
        exact ⟨.refl s, Or.inr ⟨p, hp, not_not.mp ha, Or.inl (Or.inr hsame)⟩⟩
      | false =>
        rcases collectDependencies_advances hn hP hc h with
          ⟨hadv, hl⟩ | ⟨s1, hadv, rfl, da, hda, hno⟩
        · refine ⟨hadv, ?_⟩
          -- the entry may have been replaced while its dependencies were collected
          rcases hadv.changed entry with hs | hh
          · obtain ⟨q, hq, hk⟩ := hs.cases hp
            have hav : p.available = q.available := congrArg (·.2.2.1) hk
            exact Or.inr ⟨q, hq, (congrArg Prod.fst hk).symm.trans (not_not.mp ha),
              Or.inr ⟨ap, hav.symm.trans hap, hl⟩⟩
          · exact hh
        · refine ⟨advances_of_postpone env hadv ⟨p, hp, not_not.mp ha⟩ fun hc => ?_,
            Or.inl ((mem_postpone env s1 entry entry).mpr (Or.inl rfl))⟩
          obtain ⟨p', hp', -, hd⟩ := hc
          obtain rfl := Option.some.inj (hp.symm.trans hp')
          rcases hd with (hs | hs) | ⟨ap', hap', hall⟩
          · exact hsys hs
          · cases hsame.symm.trans hs
          · obtain rfl := Option.some.inj (hap.symm.trans hap')
            exact hno ((hall da hda).mono hadv.built)

/-- **Collecting a package**, by induction on the depth. -/
theorem collectBuild_advances : Promises P (collectBuild env true k) := by
  induction k with
  | zero => exact fun _ _ _ _ _ _ _ h => (by cases h)
  | succ k ih =>
    intro pkg ap s b s' hpkg hap h
    unfold collectBuild at h
    obtain ⟨⟨added, s1⟩, h1, h⟩ := bind_eq_ok.mp h
    cases added with
    | true =>
      simp only [Bool.and_self, if_true, hap] at h
      obtain ⟨s2, h2, h⟩ := bind_eq_ok.mp h
      cases h
      obtain ⟨hadv, hh⟩ := collectPrerequisites_advances hn hP ih h2
      exact ⟨advances_of_put hpkg hap h1 hadv hh, hadv.built _ (put_kind hap h1).2.2.1⟩
    | false =>
      cases h
      exact ⟨put_advances_of_kept hpkg hap h1, (put_kind hap h1).2.2.1⟩

/-- **A round** handles all the packages. -/
theorem collectRound_advances {pkgs : List PackageName}
    (h : collectRound env k true pkgs s = .ok s') : Advances P s s' ∧ ∀ n ∈ pkgs, s'.Handled n := by
  unfold collectRound at h
  induction pkgs generalizing s with
  | nil =>
    cases h
    exact ⟨.refl _, fun n hn => (by cases hn)⟩
  | cons n pkgs ih =>
    rw [List.foldlM_cons] at h
    obtain ⟨s1, h1, h⟩ := bind_eq_ok.mp h
    obtain ⟨hadv, hh⟩ := collectPrerequisites_advances hn hP (collectBuild_advances hn hP) h1
    obtain ⟨hadv', hall⟩ := ih h
    exact ⟨hadv.trans hadv', List.forall_mem_cons.mpr ⟨hadv'.handled hh, hall⟩⟩

end

end Build2.Bpkg.PkgBuild
