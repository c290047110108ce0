import Build2.Bpkg.LifeCycle.Basic
import Build2.Bpkg.Satisfaction.Soundness
import Build2.Lib.Outcome

/-! # The prerequisites of a package

Of each dependency the first alternative that is configured in a satisfactory version is chosen, and
of the constraints that the chosen ones place on a package the strictest is captured. -/

namespace Build2.Bpkg.LifeCycle

open Build2.Lib.ByteString Build2.Libbpkg Build2.Lib.Outcome
open Build2.Lib.Stateful (bind_eq_ok)
open PkgBuild (PackageName Dependency DependencyAlternatives PackageState PackageSubstate)

/-! ### Satisfaction -/

/-- A version of a selected package. -/
def Selectable (v : Version) : Prop := IsAvailable v ∨ v = wildcardVersion

/-- The constraint, if any, is complete. -/
def Complete (c : Option VersionConstraint) : Prop := ∀ x ∈ c, IsComplete x

section

variable {v : Version} {c : VersionConstraint} {l r q : Option VersionConstraint}

theorem satisfiesVersion_ok (hv : Selectable v) (hc : IsComplete c) :
    ∃ b, satisfiesVersion v c = .ok b := by
  by_cases hw : v.cmp wildcardVersion = .eq
  · exact ⟨true, satisfiesVersion_wildcard hc hw⟩
  rcases hv with hv | rfl
  · unfold satisfiesVersion
    rw [hc.notEmpty, hc.complete, if_neg (by decide), if_neg hw,
      ofParts_revise hv.constructed hv.notEarliest]
    exact ⟨_, rfl⟩
  · exact absurd (by decide) hw

theorem versionSatisfies_ok (hv : Selectable v) (hc : Complete l) :
    ∃ b, versionSatisfies v l = .ok b := by
  cases l with
  | none => exact ⟨true, rfl⟩
  | some c =>
    obtain ⟨b, hb⟩ := satisfiesVersion_ok hv (hc c rfl)
    exact ⟨b, mapError_eq_ok.mpr hb⟩

theorem satisfies_ok {c c' : VersionConstraint} (hl : IsComplete c) (hr : IsComplete c') :
    ∃ b, satisfies c c' = .ok b := by
  have hmin : ∃ b, minWithin c c' = .ok b := by
    unfold minWithin
    split
    · next m m' hm hm' =>
      rw [norm_eq true _ (hl.minVersion m hm).constructed,
        norm_eq true _ (hr.minVersion m' hm').constructed]
      exact ⟨_, rfl⟩
    · exact ⟨_, rfl⟩
    · exact ⟨_, rfl⟩
  have hmax : ∃ b, maxWithin c c' = .ok b := by
    unfold maxWithin
    split
    · next m m' hm hm' =>
      rw [norm_eq false _ (hl.maxVersion m hm).constructed,
        norm_eq false _ (hr.maxVersion m' hm').constructed]
      exact ⟨_, rfl⟩
    · exact ⟨_, rfl⟩
    · exact ⟨_, rfl⟩
  obtain ⟨b, hb⟩ := hmin
  unfold satisfies
  rw [hl.notEmpty, hl.complete, hr.notEmpty, hr.complete, if_neg (by decide), hb]
  cases b with
  | true => exact hmax
  | false => exact ⟨false, rfl⟩

theorem constraintSatisfies_ok (hl : Complete l) (hr : Complete r) :
    ∃ b, constraintSatisfies l r = .ok b := by
  cases l with
  | none => exact ⟨_, rfl⟩
  | some c =>
    cases r with
    | none => exact ⟨_, rfl⟩
    | some c' =>
      obtain ⟨b, hb⟩ := satisfies_ok (hl c rfl) (hr c' rfl)
      exact ⟨b, mapError_eq_ok.mpr hb⟩

theorem constraintSatisfies_some {c c' : VersionConstraint} :
    constraintSatisfies (some c) (some c') = .ok true ↔ satisfies c c' = .ok true :=
  mapError_eq_ok

theorem constraintSatisfies_refl (hl : Complete l) : constraintSatisfies l l = .ok true := by
  cases l with
  | none => rfl
  | some c => exact constraintSatisfies_some.mpr (satisfies_refl (hl c rfl))

theorem constraintSatisfies_trans (hl : Complete l) (hr : Complete r) (hq : Complete q)
    (h1 : constraintSatisfies l r = .ok true) (h2 : constraintSatisfies r q = .ok true) :
    constraintSatisfies l q = .ok true := by
  cases q with
  | none => cases l <;> rfl
  | some z =>
    cases r with
    | none => cases h2
    | some y =>
      cases l with
      | none => cases h1
      | some x =>
        rw [constraintSatisfies_some] at *
        exact satisfies_trans (hl x rfl) (hr y rfl) (hq z rfl) h1 h2

/-- Any version that satisfies `l` also satisfies `r`. As for `satisfies`, versions have no
iteration. -/
def Implies (l r : Option VersionConstraint) : Prop :=
  ∀ v, IsAvailable v → v.iteration = 0 → versionSatisfies v l = .ok true →
    versionSatisfies v r = .ok true

theorem implies_of_satisfies (hl : Complete l) (hr : Complete r)
    (hm : ∀ x ∈ l, ∀ y ∈ r, satisfies x y = .ok true → ¬ Misled x y)
    (h : constraintSatisfies l r = .ok true) : Implies l r := by
  intro v hv hi
  cases r with
  | none => exact fun _ => rfl
  | some y =>
    cases l with
    | none => cases h
    | some x =>
      rw [constraintSatisfies_some] at h
      have hs := (satisfies_sound_iff (hl x rfl) (hr y rfl) h).mpr (hm x rfl y rfl h) v hv hi
      exact fun hv => mapError_eq_ok.mpr (hs (mapError_eq_ok.mp hv))

end

/-! ### The choice of alternatives -/

/-- The selected packages have versions that can be selected. -/
def AllSelectable (db : Database) : Prop := ∀ n p, db.find n = some p → Selectable p.version

/-- The operation fails and nothing has been committed. -/
def Aborted (db : Database) (e : Failure) : Prop := e = .failed db

/-- The dependencies that are chosen in turn. -/
def choices (db : Database) (tools : Tools) : List DependencyAlternatives → List Dependency
  | [] => []
  | da :: deps =>
    match chooseAlternative db tools da.buildtime da.alternatives with
    | .ok (some d) =>
      if da.buildtime && isTool d.name then choices db tools deps else d :: choices db tools deps
    | _ => choices db tools deps

/-- The package is configured in a version that satisfies the constraint. -/
def Met (db : Database) (n : PackageName) (c : Option VersionConstraint) : Prop :=
  ∃ q, db.find n = some q ∧ q.state = .configured ∧ versionSatisfies q.version c = .ok true

section

variable {db : Database} {tools : Tools} {d : Dependency} {ds : List Dependency}

theorem isConfigured_ends (hdb : AllSelectable db) (hd : Complete d.constraint) :
    Ends (isConfigured db d) (Aborted db) fun b => b = true → Met db d.name d.constraint := by
  unfold isConfigured
  split
  · exact fun h => by cases h
  · next q hq =>
    refine ends_ite (fun _ h => by cases h) fun hs => ?_
    obtain ⟨b, hb⟩ := versionSatisfies_ok (hdb _ _ hq) hd
    exact .of_eq hb fun h => ⟨q, hq, not_not.mp hs, by rw [hb, h]⟩

theorem satisfyTool_ends (hd : Complete d.constraint) :
    Ends (satisfyTool db tools d) (Aborted db) fun _ => True := by
  unfold satisfyTool
  refine ends_ite (fun _ => trivial) fun _ => ?_
  split
  · rfl
  · next v hv =>
    have hav : Selectable v := by
      refine Or.inl ?_
      split_ifs at hv
      · exact tools.isAvailable v hv
      · cases hv
        exact tools.bpkgIsAvailable
    obtain ⟨b, hb⟩ := versionSatisfies_ok hav hd
    refine Ends.bind (P := fun _ => True) (.of_eq hb trivial) fun b _ => ?_
    exact ends_ite (fun _ => trivial) fun _ => rfl

theorem chooseAlternative_ends (tools : Tools) (hdb : AllSelectable db) (buildtime : Bool) :
    ∀ ds : List Dependency, (∀ d ∈ ds, Complete d.constraint) →
      Ends (chooseAlternative db tools buildtime ds) (Aborted db) fun r => ∀ d ∈ r,
        d ∈ ds ∧ ((buildtime && isTool d.name) = true ∨ Met db d.name d.constraint)
  | [], _ => fun _ h => by cases h
  | d :: ds, hds => by
    have hd := hds d List.mem_cons_self
    unfold chooseAlternative
    refine ends_ite (fun htool => ?_) fun _ => ?_
    · refine (satisfyTool_ends hd).bind fun _ _ e he => ?_
      cases he
      exact ⟨List.mem_cons_self, Or.inl htool⟩
    · refine (isConfigured_ends hdb hd).bind fun b hb => ends_ite (fun hb' e he => ?_) fun _ => ?_
      · cases he
        exact ⟨List.mem_cons_self, Or.inr (hb hb')⟩
      · refine (chooseAlternative_ends tools hdb buildtime ds fun d hd =>
          hds d (List.mem_cons_of_mem _ hd)).imp fun r hr e he => ?_
        exact ⟨List.mem_cons_of_mem _ (hr e he).1, (hr e he).2⟩

end

/-! ### The captured constraints -/

/-- What is captured of the chosen dependencies: a constraint for each that is stricter than that
of the dependency, and that one of them places. -/
structure Captured (r : PackagePrerequisites) (ds : List Dependency) : Prop where
  recorded : ∀ d ∈ ds, ∃ c, r.lookup d.name = some c ∧
    constraintSatisfies c d.constraint = .ok true
  placed : ∀ n c, r.lookup n = some c → ∃ d ∈ ds, d.name = n ∧ d.constraint = c

section

variable {db : Database} {tools : Tools} {d : Dependency} {ds : List Dependency}
  {r : PackagePrerequisites}

theorem captured_nil : Captured ∅ [] where
  recorded _ h := absurd h List.not_mem_nil
  placed n c h := by rw [AList.lookup_empty] at h; cases h

/-- The constraint of a dependency is recorded, and it is not weaker than what was recorded. -/
theorem Captured.insert (h : Captured r ds) (hd : Complete d.constraint)
    (hle : ∀ e ∈ ds, e.name = d.name → constraintSatisfies d.constraint e.constraint = .ok true) :
    Captured (AList.insert d.name d.constraint r) (ds ++ [d]) where
  recorded e he := by
    by_cases hn : e.name = d.name
    · refine ⟨d.constraint, by rw [hn, AList.lookup_insert], ?_⟩
      rcases List.mem_append.mp he with he | he
      · exact hle e he hn
      · rw [List.mem_singleton.mp he]
        exact constraintSatisfies_refl hd
    · have hne : e ∈ ds := (List.mem_append.mp he).resolve_right fun h' =>
        hn (by rw [List.mem_singleton.mp h'])
      obtain ⟨c, hc, hs⟩ := h.recorded e hne
      exact ⟨c, by rw [AList.lookup_insert_ne hn, hc], hs⟩
  placed n c hc := by
    by_cases hn : n = d.name
    · rw [hn, AList.lookup_insert] at hc
      exact ⟨d, List.mem_append_right _ (List.mem_singleton_self d), hn.symm, Option.some.inj hc⟩
    · rw [AList.lookup_insert_ne hn] at hc
      obtain ⟨e, he, hen⟩ := h.placed n c hc
      exact ⟨e, List.mem_append_left _ he, hen⟩

/-- The constraint of a dependency is not stricter than what is recorded. -/
theorem Captured.keep (h : Captured r ds) {c : Option VersionConstraint}
    (hc : r.lookup d.name = some c) (hs : constraintSatisfies c d.constraint = .ok true) :
    Captured r (ds ++ [d]) where
  recorded e he := by
    rcases List.mem_append.mp he with he | he
    · exact h.recorded e he
    · rw [List.mem_singleton.mp he]
      exact ⟨c, hc, hs⟩
  placed n c' hc' := by
    obtain ⟨e, he, hen⟩ := h.placed n c' hc'
    exact ⟨e, List.mem_append_left _ he, hen⟩

theorem capture_ends (h : Captured r ds) (hds : ∀ e ∈ ds, Complete e.constraint)
    (hd : Complete d.constraint) :
    Ends (capture db r d) (Aborted db) fun r' => Captured r' (ds ++ [d]) := by
  unfold capture
  split
  · next hn =>
    refine h.insert hd fun e he hen => ?_
    obtain ⟨c, hc, -⟩ := h.recorded e he
    rw [hen, hn] at hc
    cases hc
  · next c hc =>
    obtain ⟨e₀, he₀, hen₀, rfl⟩ := h.placed _ _ hc
    obtain ⟨s1, h1⟩ := constraintSatisfies_ok (hds e₀ he₀) hd
    obtain ⟨s2, h2⟩ := constraintSatisfies_ok hd (hds e₀ he₀)
    rw [h1, h2]
    refine ends_ite (fun _ => rfl) fun hfail => ?_
    show Captured _ _
    split_ifs with hs
    · rw [Bool.and_eq_true, Bool.not_eq_true'] at hs
      rw [hs.1] at h2
      refine h.insert hd fun e he hen => ?_
      obtain ⟨c, hc', hce⟩ := h.recorded e he
      rw [hen, hc, Option.some.injEq] at hc'
      subst hc'
      exact constraintSatisfies_trans hd (hds e₀ he₀) (hds e he) h2 hce
    · refine h.keep hc ?_
      rw [h1]
      cases s1 <;> cases s2 <;> simp at hs hfail ⊢

/-- **The captured constraints.** -/
theorem pkgConfigurePrerequisites_ends (tools : Tools) (hdb : AllSelectable db) :
    ∀ (deps : List DependencyAlternatives) (r : PackagePrerequisites) (ds : List Dependency),
      Captured r ds → (∀ e ∈ ds, Complete e.constraint ∧ Met db e.name e.constraint) →
      (∀ da ∈ deps, da.conditional = false ∧ ∀ d ∈ da.alternatives, Complete d.constraint) →
      Ends (pkgConfigurePrerequisites db tools r deps) (Aborted db) fun r' =>
        Captured r' (ds ++ choices db tools deps) ∧
          ∀ d ∈ choices db tools deps, Complete d.constraint ∧ Met db d.name d.constraint ∧
            ∃ da ∈ deps, d ∈ da.alternatives
  | [], r, ds, h, _, _ => ⟨by rwa [choices, List.append_nil], fun _ h => absurd h List.not_mem_nil⟩
  | da :: deps, r, ds, h, hds, hdeps => by
    obtain ⟨hcond, hda⟩ := hdeps da List.mem_cons_self
    have htail := fun x hx => hdeps x (List.mem_cons_of_mem da hx)
    have hlift : ∀ d ∈ choices db tools deps, (Complete d.constraint ∧ Met db d.name d.constraint ∧
        ∃ da ∈ deps, d ∈ da.alternatives) → Complete d.constraint ∧ Met db d.name d.constraint ∧
        ∃ x ∈ da :: deps, d ∈ x.alternatives := by
      rintro d - ⟨hc, hm, x, hx, hd⟩
      exact ⟨hc, hm, x, List.mem_cons_of_mem da hx, hd⟩
    have hchosen := chooseAlternative_ends tools hdb da.buildtime da.alternatives hda
    unfold pkgConfigurePrerequisites choices
    rw [if_neg (by rw [hcond]; decide)]
    cases hr : chooseAlternative db tools da.buildtime da.alternatives with
    | error e =>
      rw [hr] at hchosen
      exact hchosen
    | ok o =>
      rw [hr] at hchosen
      cases o with
      | none => rfl
      | some d =>
        obtain ⟨hmem, hmet⟩ := hchosen d rfl
        show Ends (if _ then _ else _) _ _
        by_cases htool : (da.buildtime && isTool d.name) = true
        · simp only [if_pos htool]
          refine (pkgConfigurePrerequisites_ends tools hdb deps r ds h hds htail).imp ?_
          exact fun r' hr' => ⟨hr'.1, fun d hd => hlift d hd (hr'.2 d hd)⟩
        · simp only [if_neg htool]
          have hmet := hmet.resolve_left htool
          refine (capture_ends h (fun e he => (hds e he).1) (hda d hmem)).bind fun r' hr' => ?_
          have hds' : ∀ e ∈ ds ++ [d], Complete e.constraint ∧ Met db e.name e.constraint := by
            intro e he
            rcases List.mem_append.mp he with he | he
            · exact hds e he
            · rw [List.mem_singleton.mp he]
              exact ⟨hda d hmem, hmet⟩
          refine (pkgConfigurePrerequisites_ends tools hdb deps r' _ hr' hds' htail).imp ?_
          rintro r'' ⟨hc, hall⟩
          rw [List.append_assoc, List.singleton_append] at hc
          refine ⟨hc, fun e he => ?_⟩
          rcases List.mem_cons.mp he with rfl | he
          · exact ⟨hda e hmem, hmet, da, List.mem_cons_self, hmem⟩
          · exact hlift e he (hall e he)

end

end Build2.Bpkg.LifeCycle
