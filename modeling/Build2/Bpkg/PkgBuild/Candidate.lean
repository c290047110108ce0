import Build2.Bpkg.PkgBuild.Kept

/-! # What dependencies are built from

A dependency is built from an available package of its name and the selected one
(`candidateFor_next`), and there are finitely many of them in a database
(`Database.finite_candidates`). -/

namespace Build2.Bpkg.PkgBuild

open Build2.Lib.Stateful Build2.Libbpkg BuildPackages

/-- An available package that a dependency of the name may be built from. -/
def Environment.CandidateFor (env : Environment) (n : PackageName) (ap : AvailablePackage) : Prop :=
  (∃ c rf f, env.findAvailableOne n c rf = .ok (some (ap, f))) ∨
    ∃ sp f, env.selected n = some sp ∧ env.makeAvailable sp = some (ap, f)

/-- An available package that a dependency may be built from. -/
def Environment.Candidate (env : Environment) (ap : AvailablePackage) : Prop :=
  ∃ n, env.CandidateFor n ap

/-- What is found under a name has it. -/
def Environment.Named (env : Environment) : Prop :=
  ∀ n ap, env.CandidateFor n ap → ap.name = n

section

variable {env : Environment} {s : Collection} {n entry name : PackageName} {r : Resolution}

theorem desired_build {p : BuildPackage} (h : p.action = some .build) :
    desired (some p) = .ok none := by
  unfold desired
  simp only [h, reduceCtorEq, false_and, if_false]

/-- **What is already selected** is built from the package on disk or from the one found in the root
in its version. -/
theorem resolveSelected_cases {c : Option VersionConstraint} {strong : Option Bool} {force : Bool}
    (h : resolveSelected env n c strong = .ok (some r, force)) :
    ∃ sp f, env.selected n = some sp ∧ r.selected = some sp ∧
      (env.makeAvailable sp = some (r.available, f) ∨
        ∃ c', env.findAvailableOne n c' [] = .ok (some (r.available, f)) ∧
          (r.system = false → c' = some (exactly sp.version) ∧
            (strong = none → versionSatisfies sp.version c = .ok true))) := by
  unfold resolveSelected at h
  cases hsp : env.selected n with
  | none =>
    rw [hsp] at h
    cases h
  | some sp =>
    rw [hsp] at h
    simp only at h
    split_ifs at h
    obtain ⟨good, hgood, h⟩ := bind_eq_ok.mp h
    obtain ⟨same, hsame, h⟩ := bind_eq_ok.mp h
    split_ifs at h with hs
    · obtain ⟨system, -, h⟩ := bind_eq_ok.mp h
      obtain ⟨root, hroot, h⟩ := bind_eq_ok.mp h
      cases hf : root.filter fun r => !r.1.stub with
      | none =>
        rw [hf] at h
        simp only at h
        cases hm : env.makeAvailable sp with
        | none =>
          rw [hm] at h
          cases h
        | some z =>
          rw [hm] at h
          cases h
          exact ⟨sp, z.2, rfl, rfl, Or.inl hm⟩
      | some z =>
        rw [hf] at h
        cases h
        obtain ⟨hz, -⟩ := Option.filter_eq_some_iff.mp hf
        rw [hz, BuildPackage.orAbort_eq_ok] at hroot
        refine ⟨sp, z.2, rfl, rfl, Or.inr ?_⟩
        split_ifs at hroot with hsys
        · exact ⟨none, hroot, fun h => absurd (hsys.symm.trans h) (by decide)⟩
        · refine ⟨_, hroot, fun _ => ⟨rfl, ?_⟩⟩
          rintro rfl
          cases hsame
          rw [hgood, hs]
    · cases h

theorem candidateFor_resolveSelected {c : Option VersionConstraint} {strong : Option Bool}
    {force : Bool} (h : resolveSelected env n c strong = .ok (some r, force)) :
    env.CandidateFor n r.available ∧ r.selected = env.selected n := by
  obtain ⟨sp, f, hsp, hr, hm | ⟨c', hc, -⟩⟩ := resolveSelected_cases h
  · exact ⟨Or.inr ⟨sp, f, hsp, hm⟩, hr.trans hsp.symm⟩
  · exact ⟨Or.inl ⟨c', [], f, hc⟩, hr.trans hsp.symm⟩

/-- **What is not selected yet** is found in the repositories of the dependent. -/
theorem resolveAvailable_cases {c : Option VersionConstraint} {strong : Option Bool}
    {force recursively : Bool} {fragment : Option RepositoryFragment}
    (h : resolveAvailable env n name c strong force recursively fragment = .ok (some r)) :
    r.selected = env.selected n ∧ ∃ c' af f,
      env.findAvailableOne n c' af = .ok (some (r.available, f)) ∧ (strong = none → c' = c) := by
  unfold resolveAvailable at h
  cases fragment with
  | none => cases h
  | some af =>
    obtain ⟨o, ho, h⟩ := bind_eq_ok.mp h
    rw [BuildPackage.orAbort_eq_ok] at ho
    cases o with
    | none =>
      simp only at h
      split_ifs at h
      cases h
    | some z =>
      have hc : strong = none → (if !strong.getD false then c else none) = c := by
        rintro rfl
        rfl
      obtain ⟨dap, rf⟩ := z
      simp only at h
      split_ifs at h with hst ha
      · split at h
        · cases h
        · obtain ⟨b, -, h⟩ := bind_eq_ok.mp h
          split_ifs at h
          cases h
          exact ⟨rfl, _, af, rf, ho, hc⟩
      all_goals
        split at h
        · cases h
          exact ⟨rfl, _, af, rf, ho, hc⟩
        · obtain ⟨b, -, h⟩ := bind_eq_ok.mp h
          cases h
          exact ⟨rfl, _, af, rf, ho, hc⟩

theorem candidateFor_resolveAvailable {c : Option VersionConstraint} {strong : Option Bool}
    {force recursively : Bool} {fragment : Option RepositoryFragment}
    (h : resolveAvailable env n name c strong force recursively fragment = .ok (some r)) :
    env.CandidateFor n r.available ∧ r.selected = env.selected n := by
  obtain ⟨hr, c', af, f, hf, -⟩ := resolveAvailable_cases h
  exact ⟨Or.inl ⟨c', af, f, hf⟩, hr⟩

/-- **What is collected** is the one alternative of an unconditional dependency that is on no tool.
-/
theorem next_collect {recursively : Bool} {da : DependencyAlternatives} {dp : Dependency}
    (h : next env s entry name recursively da = .ok (.collect dp r)) :
    da.conditional = false ∧ da.alternatives = [dp] ∧ isSpecial da dp.name = false ∧
      resolve env s entry name dp recursively = .ok (some r) := by
  unfold next at h
  split_ifs at h with hc
  split at h
  swap
  · cases h
  rename_i dp' hda
  split_ifs at h with hsp
  · obtain ⟨_, -, h⟩ := bind_eq_ok.mp h
    cases h
  · obtain ⟨o, ho, h⟩ := bind_eq_ok.mp h
    cases o with
    | none => cases h
    | some r' =>
      cases h
      exact ⟨Bool.eq_false_iff.mpr hc, hda, Bool.eq_false_iff.mpr hsp, ho⟩

/-- A dependency is resolved to what is selected or to what is available, with the constraint of the
user if it has one. -/
theorem resolve_cases {recursively : Bool} {dp : Dependency}
    (h : resolve env s entry name dp recursively = .ok (some r)) :
    ∃ d c, desired (s.package dp.name) = .ok d ∧ (d = none → c = dp.constraint) ∧
      ((∃ force, resolveSelected env dp.name c (d.map Prod.snd) = .ok (some r, force)) ∨
        ∃ force fragment, resolveAvailable env dp.name name c (d.map Prod.snd) force recursively
          fragment = .ok (some r)) := by
  unfold resolve at h
  obtain ⟨d, hd, h⟩ := bind_eq_ok.mp h
  obtain ⟨_, -, h⟩ := bind_eq_ok.mp h
  obtain ⟨⟨o, force⟩, hx, h⟩ := bind_eq_ok.mp h
  cases o with
  | some r' =>
    cases h
    cases d with
    | none => exact ⟨none, dp.constraint, hd, fun _ => rfl, Or.inl ⟨force, hx⟩⟩
    | some d => exact ⟨some d, some d.1.value, hd, fun hd => (by cases hd), Or.inl ⟨force, hx⟩⟩
  | none =>
    cases d with
    | none => exact ⟨none, dp.constraint, hd, fun _ => rfl, Or.inr ⟨force, _, h⟩⟩
    | some d => exact ⟨some d, some d.1.value, hd, fun hd => (by cases hd), Or.inr ⟨force, _, h⟩⟩

theorem candidateFor_next {recursively : Bool} {da : DependencyAlternatives} {dp : Dependency}
    (h : next env s entry name recursively da = .ok (.collect dp r)) :
    env.CandidateFor dp.name r.available ∧ r.selected = env.selected dp.name := by
  obtain ⟨d, c, -, -, ⟨force, h⟩ | ⟨force, fragment, h⟩⟩ := resolve_cases (next_collect h).2.2.2
  · exact candidateFor_resolveSelected h
  · exact candidateFor_resolveAvailable h

end

/-! ### Databases -/

section

variable {db : Database}
  {makeAvailable : SelectedPackage → Option (AvailablePackage × Option RepositoryFragment)}
  {satisfyBuild2 satisfyBpkg : Dependency → Bool} {address : PackageName → ℕ}

theorem Database.findAvailableOne_cases {n : PackageName} {c : Option VersionConstraint}
    {rf : RepositoryFragment} {ap : AvailablePackage} {f : Option RepositoryFragment}
    (h : db.findAvailableOne n c rf = .ok (some (ap, f))) :
    ap ∈ db.available.map Prod.fst ++ db.imaginaryStubs ∧ ap.name = n := by
  unfold Database.findAvailableOne at h
  obtain ⟨l, hl, h⟩ := bind_eq_ok.mp h
  obtain ⟨r, hr, h⟩ := bind_eq_ok.mp h
  rw [List.mem_append]
  cases r with
  | some r =>
    cases h
    obtain ⟨x, hx, hf⟩ := exists_of_findSomeM hr
    obtain ⟨o, -, hf⟩ := bind_eq_ok.mp hf
    obtain ⟨g, -, hg⟩ := Option.map_eq_some_iff.mp (Except.ok.inj hf)
    obtain ⟨l', hl', hl⟩ := bind_eq_ok.mp hl
    cases hl
    cases hg
    obtain ⟨hmem, hname⟩ := mem_of_filterM hl' ((List.mem_insertionSort _).mp hx)
    refine ⟨Or.inl (List.mem_map_of_mem hmem), ?_⟩
    by_contra hne
    rw [if_pos hne] at hname
    cases hname
  | none =>
    obtain ⟨x, hx, he⟩ := Option.map_eq_some_iff.mp (Except.ok.inj h)
    cases he
    have hname := List.find?_some hx
    exact ⟨Or.inr (List.mem_of_find?_eq_some hx), of_decide_eq_true hname⟩

theorem Database.finite_candidates :
    {ap |
      (db.environment makeAvailable satisfyBuild2 satisfyBpkg address).Candidate ap}.Finite := by
  refine (List.finite_toSet ((db.available.map Prod.fst ++ db.imaginaryStubs) ++
    db.selected.filterMap fun sp => (makeAvailable sp).map Prod.fst)).subset ?_
  rintro ap ⟨n, ⟨c, rf, f, h⟩ | ⟨sp, f, h, h'⟩⟩
  · exact List.mem_append_left _ (Database.findAvailableOne_cases h).1
  · exact List.mem_append_right _ (List.mem_filterMap.mpr
      ⟨sp, List.mem_of_find?_eq_some h, Option.map_eq_some_iff.mpr ⟨_, h', rfl⟩⟩)

theorem Database.named (hname : ∀ sp ap f, makeAvailable sp = some (ap, f) → ap.name = sp.name) :
    (db.environment makeAvailable satisfyBuild2 satisfyBpkg address).Named := by
  rintro n ap (⟨c, rf, f, h⟩ | ⟨sp, f, h, h'⟩)
  · exact (Database.findAvailableOne_cases h).2
  · have hsp := List.find?_some h
    exact (hname sp ap f h').trans (of_decide_eq_true hsp)

end

end Build2.Bpkg.PkgBuild
