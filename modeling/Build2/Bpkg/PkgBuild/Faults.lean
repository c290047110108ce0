import Build2.Bpkg.PkgBuild.Kept

/-! # How the steps of collection fail

What collection does besides recursion fails in an ordinary way (`Ordinary`), except that the
dependency of a package can be unknown: in a round that is not the last one, only if the user does
not constrain it (`fails_next`). -/

namespace Build2.Bpkg.PkgBuild

open Build2.Lib.Stateful Build2.Libbpkg BuildPackages

/-- Neither a bound nor an unknown dependency. -/
def Ordinary : Fault → Prop
  | .tooDeep => False
  | .unknownDependency _ _ => False
  | _ => True

/-- The user did not ask for a source package of the name in some version, or the entry is not
pre-entered any more. -/
def Collection.Unconstrained (s : Collection) (n : PackageName) : Prop :=
  ∀ c, desired (s.package n) ≠ .ok (some (c, false))

/-- Not a bound and, unless recursion is off, an unknown dependency only without a constraint. -/
def Blameless (s : Collection) (recursively : Bool) (e : Fault) : Prop :=
  e ≠ .tooDeep ∧ ∀ d n, e = .unknownDependency d n → recursively = true → s.Unconstrained d

section

variable {α : Type} {env : Environment} {s : Collection} {p x : BuildPackage}
  {n entry name : PackageName} {e : Fault}

theorem Ordinary.cases (h : Ordinary e) : e ≠ .tooDeep ∧ ∀ d n, e ≠ .unknownDependency d n := by
  constructor
  · rintro rfl
    exact h
  · rintro d n rfl
    exact h

theorem Ordinary.blameless (h : Ordinary e) (s : Collection) (b : Bool) : Blameless s b e :=
  ⟨h.cases.1, fun d n he => absurd he (h.cases.2 d n)⟩

theorem ordinary_orAbort (x : Except Libbutl.ParseUint.Fault α) : Fails Ordinary (orAbort x) := by
  cases x with
  | error e => exact fails_error trivial
  | ok a => exact fails_ok a

theorem ordinary_availableVersion : Fails Ordinary p.availableVersion := by
  unfold BuildPackage.availableVersion
  split
  · exact fails_error trivial
  · refine fails_ite (fun _ => ?_) fun _ => fails_ite (fun _ => fails_error trivial)
      fun _ => fails_ok _
    split
    · exact fails_error trivial
    · exact fails_ok _

theorem ordinary_test : Fails Ordinary (x.test p) := by
  unfold BuildPackage.test
  induction p.constraints with
  | nil => exact fails_ok _
  | cons c l ih =>
    rw [List.findSomeM?_cons]
    refine fails_bind (fails_bind ordinary_availableVersion fun v _ =>
      fails_bind (ordinary_orAbort _) fun b _ => fails_ite (fun _ => fails_ok _)
        fun _ => fails_ok _) fun o _ => ?_
    cases o with
    | none => exact ih
    | some c => exact fails_ok _

theorem ordinary_replaces : Fails Ordinary (x.replaces n p) := by
  unfold BuildPackage.replaces
  refine fails_bind ordinary_availableVersion fun v _ =>
    fails_bind ordinary_availableVersion fun w _ => fails_ite (fun _ => fails_ok _) fun _ =>
      fails_bind ordinary_test fun r _ => ?_
  cases r with
  | none => exact fails_ok _
  | some c2 =>
    refine fails_bind ordinary_test fun r _ => ?_
    cases r with
    | none => exact fails_ok _
    | some c1 => exact fails_error trivial

theorem ordinary_merge : Fails Ordinary (x.merge p) := by
  unfold BuildPackage.merge
  exact fails_ite (fun _ => fails_error trivial) fun _ => fails_ok _

theorem ordinary_put : Fails Ordinary (s.put p) := by
  unfold Collection.put
  split
  · exact fails_error trivial
  refine fails_ite (fun _ => fails_error trivial) fun _ => ?_
  split
  · exact fails_ok _
  split
  · exact fails_error trivial
  · refine fails_bind ordinary_replaces fun r _ => fails_ite (fun _ => ?_) fun _ => ?_
    · exact fails_bind ordinary_merge fun _ _ => fails_ok _
    · exact fails_bind ordinary_merge fun _ _ => fails_ok _
  · exact fails_bind ordinary_merge fun _ _ => fails_ok _

theorem ordinary_versionSatisfies (v : Version) (c : Option VersionConstraint) :
    Fails Ordinary (versionSatisfies v c) := by
  unfold versionSatisfies
  split
  · exact fails_ok _
  · exact ordinary_orAbort _

theorem ordinary_checkDesired (dp : Dependency) (c : Option Constraint) :
    Fails Ordinary (checkDesired dp name c) := by
  unfold checkDesired
  split
  · exact fails_ok _
  rename_i c
  have hw : Fails Ordinary (wildcard c.value) := by
    unfold wildcard
    split
    · exact fails_ok _
    · exact fails_ite (fun _ => fails_ok _) fun _ => fails_ite (fun _ => fails_ok _)
        fun _ => fails_error trivial
  have hc : Fails Ordinary (constraintSatisfies c.value dp.constraint) := by
    unfold constraintSatisfies
    split
    · exact fails_ok _
    · exact ordinary_orAbort _
  exact fails_bind hw fun _ _ => fails_ite (fun _ => fails_ok _) fun _ =>
    fails_bind hc fun _ _ => fails_ite (fun _ => fails_ok _)
      fun _ => fails_error trivial

theorem ordinary_system {sp : SelectedPackage} : Fails Ordinary sp.system := by
  unfold SelectedPackage.system
  exact fails_ite (fun _ => fails_ok _) fun _ => fails_error trivial

theorem ordinary_resolveSelected (c : Option VersionConstraint) (strong : Option Bool) :
    Fails Ordinary (resolveSelected env n c strong) := by
  unfold resolveSelected
  split
  · exact fails_ok _
  rename_i sp _
  refine fails_ite (fun _ => fails_error trivial) fun _ =>
    fails_bind (ordinary_versionSatisfies _ _) fun good _ => ?_
  have hsame : Fails Ordinary (sameSystem sp strong good) := by
    unfold sameSystem
    split
    · exact fails_ok _
    · refine fails_ite (fun _ => ?_) fun _ => fails_ok _
      cases h : sp.system with
      | error e => exact fails_error (ordinary_system e h)
      | ok b => exact fails_ok _
  refine fails_bind hsame fun same _ => fails_ite (fun _ => ?_) fun _ => fails_ok _
  refine fails_bind ordinary_system fun system _ => fails_bind (ordinary_orAbort _) fun r _ => ?_
  split
  · exact fails_ok _
  · split
    · exact fails_error trivial
    · exact fails_ok _

theorem ordinary_desired (bp : Option BuildPackage) : Fails Ordinary (desired bp) := by
  unfold desired
  split
  · exact fails_ok _
  · refine fails_ite (fun _ => ?_) fun _ => fails_ok _
    split
    · exact fails_ok _
    · exact fails_error trivial

theorem ordinary_checkTool (dp : Dependency) : Fails Ordinary (checkTool env name dp) := by
  unfold checkTool
  exact fails_ite (fun _ => fails_ok _) fun _ => fails_ite (fun _ => fails_ok _)
    fun _ => fails_error trivial

theorem ordinary_sameConfigured : Fails Ordinary (sameConfigured p) := by
  unfold sameConfigured
  split
  · exact fails_ok _
  · refine fails_ite (fun _ => ?_) fun _ => fails_ok _
    cases h : p.availableVersion with
    | error e => exact fails_error (ordinary_availableVersion e h)
    | ok v => exact fails_ok _

/-- A dependency that is not found is waited for if the user constrains it. -/
theorem fails_resolveAvailable (c : Option VersionConstraint) (strong : Option Bool)
    (force recursively : Bool) (fragment : Option RepositoryFragment) :
    Fails (fun e => e ≠ .tooDeep ∧ ∀ d m, e = .unknownDependency d m →
        d = n ∧ (recursively = true → strong ≠ some false))
      (resolveAvailable env n name c strong force recursively fragment) := by
  have hord : ∀ e, Ordinary e → e ≠ .tooDeep ∧ ∀ d m, e = .unknownDependency d m →
      d = n ∧ (recursively = true → strong ≠ some false) :=
    fun e h => ⟨h.cases.1, fun d m he => absurd he (h.cases.2 d m)⟩
  unfold resolveAvailable
  split
  · exact Fails.mono (fails_error trivial) hord
  refine fails_bind ((ordinary_orAbort _).mono hord) fun r _ => ?_
  split
  · refine fails_ite (fun _ => fails_ok _) fun hw =>
      fails_error ⟨Fault.noConfusion, fun d m he => ?_⟩
    cases he
    refine ⟨rfl, fun hr hs => hw ?_⟩
    rw [hr, hs]
    rfl
  · refine Fails.mono ?_ hord
    refine fails_ite (fun _ => ?_) fun _ => ?_
    · split
      · exact fails_error trivial
      · exact fails_bind (ordinary_versionSatisfies _ _) fun _ _ => fails_ite
          (fun _ => fails_ok _) fun _ => fails_error trivial
    · split
      · exact fails_ok _
      · refine fails_ite (fun _ => ?_) fun _ => fails_ok _
        exact fails_bind (ordinary_versionSatisfies _ _) fun _ _ => fails_ok _

theorem fails_resolve (dp : Dependency) (recursively : Bool) :
    Fails (Blameless s recursively) (resolve env s entry name dp recursively) := by
  have hord : ∀ e, Ordinary e → Blameless s recursively e := fun e h => h.blameless s recursively
  unfold resolve
  refine fails_bind ((ordinary_desired _).mono hord) fun d hd => fails_bind
    ((ordinary_checkDesired dp _).mono hord) fun _ _ => fails_bind
      ((ordinary_resolveSelected _ _).mono hord) fun x _ => ?_
  split
  · exact fails_ok _
  · refine (fails_resolveAvailable _ _ _ _ _).mono fun e ⟨h, h'⟩ => ⟨h, fun d' m he hr c hc => ?_⟩
    obtain ⟨rfl, hs⟩ := h' d' m he
    rw [hd] at hc
    cases hc
    exact hs hr rfl

/-- **What is to be done for a dependency** fails for an unknown one only if it is not waited for.
-/
theorem fails_next (recursively : Bool) (da : DependencyAlternatives) :
    Fails (Blameless s recursively) (next env s entry name recursively da) := by
  have hord : ∀ e, Ordinary e → Blameless s recursively e := fun e h => h.blameless s recursively
  unfold next
  refine fails_ite (fun _ => Fails.mono (fails_error trivial) hord) fun _ => ?_
  split
  · refine fails_ite (fun _ => fails_bind ((ordinary_checkTool _).mono hord) fun _ _ => fails_ok _)
      fun _ => fails_bind (fails_resolve _ _) fun r _ => ?_
    cases r with
    | none => exact fails_ok _
    | some r => exact fails_ok _
  · exact Fails.mono (fails_error trivial) hord

end

end Build2.Bpkg.PkgBuild
