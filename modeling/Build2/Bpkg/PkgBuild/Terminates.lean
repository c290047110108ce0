import Build2.Bpkg.PkgBuild.Candidate
import Build2.Bpkg.PkgBuild.Weight
import Mathlib.Data.Set.Finite.Lattice
import Mathlib.Order.RelIso.Basic

/-! # The recursion of collection

A package that replaces a build of its own version is looked into again. If such packages bring each
other, as they may if they depend on each other, they do so for ever (`Ring.endless`). So a package
can lead to another one again and again (`Again`). If none of those that a package leads to gets
back to itself in this way (`Acyclic`), collection comes to an end (`collection_ends`). -/

namespace Build2.Bpkg.PkgBuild

open Relation Build2.Lib.Stateful Build2.Libbpkg BuildPackages

/-- The dependency of a package is collected: it is unconditional, without alternatives and not on a
tool. -/
def Demands (ap : AvailablePackage) (dp : Dependency) : Prop :=
  ∃ da ∈ ap.dependencies, da.conditional = false ∧ da.alternatives = [dp] ∧
    isSpecial da dp.name = false

/-- A dependency of the one can be built from the other. -/
def Leads (env : Environment) (ap ap' : AvailablePackage) : Prop :=
  ∃ dp, Demands ap dp ∧ env.CandidateFor dp.name ap'

/-- What a dependency can be built from, other than as a system package, when nothing is pre-entered
for it. -/
def MayBring (env : Environment) (dp : Dependency) (ap : AvailablePackage) : Prop :=
  (∃ rf f, env.findAvailableOne dp.name dp.constraint rf = .ok (some (ap, f))) ∨
  ∃ sp f, env.selected dp.name = some sp ∧ (env.makeAvailable sp = some (ap, f) ∨
    versionSatisfies sp.version dp.constraint = .ok true ∧
      env.findAvailableOne dp.name (some (exactly sp.version)) [] = .ok (some (ap, f)))

/-- The one can lead to the other again and again: it is a source package of no name that the user
chose, and not the one that is configured. -/
def Again (env : Environment) (chosen : PackageName → Prop) (ap ap' : AvailablePackage) : Prop :=
  ∃ dp, Demands ap dp ∧ MayBring env dp ap' ∧ ap'.stub = false ∧ ¬ chosen ap'.name ∧
    ∀ sp, env.selected dp.name = some sp → sp.srcConf = true →
      sameVersion sp.version ap'.version = false

/-- None of the packages that it leads to gets back to itself again and again. -/
def Acyclic (env : Environment) (chosen : PackageName → Prop) (ap : AvailablePackage) : Prop :=
  ∀ ap', ReflTransGen (Leads env) ap ap' → ¬ TransGen (Again env chosen) ap' ap'

section

variable {env : Environment} {chosen chosen' : PackageName → Prop} {ap ap' : AvailablePackage}
  {s s' s1 : Collection} {pkg p : BuildPackage} {n entry name : PackageName} {b : Bool}
  {met : Option BuildPackage} {x y z : BuildPackage × Collection}

/-! ### Acyclic packages -/

theorem Again.mono (hc : ∀ n, chosen n → chosen' n) (h : Again env chosen' ap ap') :
    Again env chosen ap ap' := by
  obtain ⟨dp, hd, hb, hst, hn, hs⟩ := h
  exact ⟨dp, hd, hb, hst, fun hc' => hn (hc _ hc'), hs⟩

theorem Outcome.same (h : Outcome n pkg met true p) : p.available = pkg.available ∧
    p.system = pkg.system ∧ p.selected = pkg.selected := by
  cases h with
  | added => exact ⟨rfl, rfl, rfl⟩
  | merged _ h | replaced _ _ h =>
    have hm := BuildPackage.merge_eq_ok h
    exact ⟨hm.available, hm.system, hm.selected⟩

end

/-! ### Packages that bring each other for ever -/

/-- A dependency on a tool, which is satisfied. -/
def ToolMet (env : Environment) (da : DependencyAlternatives) : Prop :=
  ∃ dp, da.conditional = false ∧ da.alternatives = [dp] ∧ isSpecial da dp.name = true ∧
    ∀ name, checkTool env name dp = .ok ()

/-- The first dependency apart from those on tools is built from the package, which is found in its
fragment when it is looked for from the fragment `rf`. -/
def Opens (env : Environment) (rf : RepositoryFragment) (l : List DependencyAlternatives)
    (y : AvailablePackage × RepositoryFragment) : Prop :=
  ∃ tools da rest dp, l = tools ++ da :: rest ∧ (∀ t ∈ tools, ToolMet env t) ∧
    da.conditional = false ∧ da.alternatives = [dp] ∧ isSpecial da dp.name = false ∧
    dp.name = y.1.name ∧ env.findAvailableOne dp.name dp.constraint rf = .ok (some (y.1, some y.2))

/-- Source packages with their fragments, one for each name, none of which is selected. The first
dependency of each of them is built from another one. -/
structure Ring (env : Environment) (R : Set (AvailablePackage × RepositoryFragment)) : Prop where
  source : ∀ x ∈ R, x.1.stub = false ∧ x.1.systemVersion = none
  unselected : ∀ x ∈ R, env.selected x.1.name = none
  single : ∀ x ∈ R, ∀ y ∈ R, x.1.name = y.1.name → x = y
  opens : ∀ x ∈ R, ∃ y ∈ R, Opens env x.2 x.1.dependencies y

/-- The map has the packages at most as builds of their version that the user did not choose. -/
def Free (R : Set (AvailablePackage × RepositoryFragment)) (s : Collection) : Prop :=
  ∀ x ∈ R, ∀ p, s.package x.1.name = some p → p.action = some .build ∧ p.userSelection = false ∧
    ∃ v, p.availableVersion = .ok v ∧ sameVersion v x.1.version = true

/-- The package as a dependency of others. -/
structure Member (x : AvailablePackage × RepositoryFragment) (p : BuildPackage) : Prop where
  action : p.action = some .build
  selected : p.selected = none
  available : p.available = some x.1
  repositoryFragment : p.repositoryFragment = some x.2
  system : p.system = false
  userSelection : p.userSelection = false

section

variable {env : Environment} {R : Set (AvailablePackage × RepositoryFragment)}
  {x y : AvailablePackage × RepositoryFragment} {s : Collection} {pkg p : BuildPackage}
  {entry : PackageName} {ap : AvailablePackage} {rf : RepositoryFragment}
  {l : List DependencyAlternatives} {k : ℕ}
  {collect : BuildPackage → Collection → Except Fault (Bool × Collection)}

theorem Member.availableVersion (h : Member x p) (hx : x.1.stub = false) :
    p.availableVersion = .ok x.1.version := by
  unfold BuildPackage.availableVersion
  rw [h.available, h.system]
  simp only [Bool.false_eq_true, if_false, hx]

/-- **A package of the ring is put into the map**, if need be in its own place. -/
theorem Ring.put (hR : Ring env R) (hx : x ∈ R) (hs : Free R s) (hp : Member x pkg) :
    ∃ p, Member x p ∧ s.put pkg = .ok (true, s.store x.1.name p pkg) := by
  unfold Collection.put
  rw [hp.available]
  simp only [hp.action, ne_eq, not_true_eq_false, if_false]
  cases hbp : s.package x.1.name with
  | none => exact ⟨pkg, hp, rfl⟩
  | some bp =>
    obtain ⟨ha, hu, v, hv, hsame⟩ := hs x hx bp hbp
    have hrep : bp.replaces x.1.name pkg = .ok true := by
      refine bind_eq_ok.mpr ⟨v, hv, bind_eq_ok.mpr ⟨_, hp.availableVersion (hR.source x hx).1, ?_⟩⟩
      rw [if_pos hsame, hu, hp.system, hp.userSelection]
      rfl
    obtain ⟨p, hm⟩ : ∃ p, pkg.merge bp = .ok p := by
      unfold BuildPackage.merge
      rw [if_neg (by simp [hp.action, ha])]
      exact ⟨_, rfl⟩
    have hmer := BuildPackage.merge_eq_ok hm
    refine ⟨p, ⟨hmer.action.trans hp.action, hmer.selected.trans hp.selected,
      hmer.available.trans hp.available, hmer.repositoryFragment.trans hp.repositoryFragment,
      hmer.system.trans hp.system, ?_⟩, ?_⟩
    · rw [hmer.userSelection, hp.userSelection, hu]
      rfl
    · simp only [ha]
      exact bind_eq_ok.mpr ⟨true, hrep, bind_eq_ok.mpr ⟨p, hm, rfl⟩⟩

/-- The first dependency is resolved to what is in the repositories. -/
theorem Ring.next (ap : AvailablePackage) (hR : Ring env R) (hy : y ∈ R) (hs : Free R s)
    (he : (s.package entry).bind (·.repositoryFragment) = some rf) {da : DependencyAlternatives}
    {dp : Dependency} (hc : da.conditional = false) (ha : da.alternatives = [dp])
    (hsp : isSpecial da dp.name = false) (hn : dp.name = y.1.name)
    (hf : env.findAvailableOne dp.name dp.constraint rf = .ok (some (y.1, some y.2))) :
    PkgBuild.next env s entry ap.name true da =
      .ok (.collect dp ⟨none, y.1, some y.2, false, false⟩) := by
  obtain ⟨hst, hsv⟩ := hR.source y hy
  have hun : env.selected dp.name = none := hn ▸ hR.unselected y hy
  have hd : desired (s.package dp.name) = .ok none := by
    rw [hn]
    cases hp : s.package y.1.name with
    | none => rfl
    | some p => exact desired_build (hs y hy p hp).1
  have hsel : resolveSelected env dp.name dp.constraint none = .ok (none, false) := by
    unfold resolveSelected
    rw [hun]
  have hav : resolveAvailable env dp.name ap.name dp.constraint none false true (some rf) =
      .ok (some ⟨none, y.1, some y.2, false, false⟩) := by
    refine bind_eq_ok.mpr ⟨some (y.1, some y.2), BuildPackage.orAbort_eq_ok.mpr hf, ?_⟩
    simp only [hst, hsv, hun, Bool.false_eq_true, if_false]
    rfl
  have hres : resolve env s entry ap.name dp true =
      .ok (some ⟨none, y.1, some y.2, false, false⟩) := by
    refine bind_eq_ok.mpr ⟨none, hd, bind_eq_ok.mpr ⟨(), rfl, bind_eq_ok.mpr ⟨_, hsel, ?_⟩⟩⟩
    rw [he]
    exact hav
  unfold PkgBuild.next
  simp only [hc, ha, hsp, Bool.false_eq_true, if_false]
  exact bind_eq_ok.mpr ⟨_, hres, rfl⟩

theorem next_tool {da : DependencyAlternatives} (h : ToolMet env da) :
    PkgBuild.next env s entry ap.name true da = .ok .nothing := by
  obtain ⟨dp, hc, ha, hsp, ht⟩ := h
  unfold PkgBuild.next
  simp only [hc, ha, hsp, Bool.false_eq_true, if_false, if_true]
  exact bind_eq_ok.mpr ⟨(), ht _, rfl⟩

/-- A bound that is not enough for the package is not enough for what depends on it. -/
theorem Ring.collectDependencies (hR : Ring env R) (hy : y ∈ R) (hs : Free R s)
    (he : (s.package entry).bind (·.repositoryFragment) = some rf) (ho : Opens env rf l y)
    (hc : ∀ pkg, Member y pkg → collect pkg s = .error .tooDeep) :
    PkgBuild.collectDependencies env collect entry ap.name true l s = .error .tooDeep := by
  obtain ⟨tools, da, rest, dp, rfl, ht, hcond, ha, hsp, hn, hf⟩ := ho
  induction tools with
  | nil =>
    have hnext := Ring.next ap hR hy hs he hcond ha hsp hn hf
    have hm : Member y (dependencyPackage ap.name dp ⟨none, y.1, some y.2, false, false⟩) :=
      ⟨rfl, rfl, rfl, rfl, rfl, decide_eq_false fun hmem =>
        ap.named (List.mem_singleton.mp hmem).symm⟩
    show (PkgBuild.collectDependency env collect entry ap.name true da s >>= _) = _
    unfold PkgBuild.collectDependency
    rw [hnext]
    show (((collect _ s) >>= _ : Except Fault (Bool × Collection)) >>= _) = _
    rw [hc _ hm]
    rfl
  | cons t tools ih =>
    show (PkgBuild.collectDependency env collect entry ap.name true t s >>= _) = _
    unfold PkgBuild.collectDependency
    rw [next_tool (ht t List.mem_cons_self)]
    exact ih fun t' ht' => ht t' (List.mem_cons_of_mem _ ht')

theorem Ring.collectPrerequisites (hR : Ring env R) (hy : y ∈ R) (hs : Free R s)
    (hp : s.package entry = some p) (ha : p.action = some .build) (hsys : p.system = false)
    (hap : p.available = some ap) (hsame : sameConfigured p = .ok false)
    (hrf : p.repositoryFragment = some rf) (ho : Opens env rf ap.dependencies y)
    (hc : ∀ pkg, Member y pkg → collect pkg s = .error .tooDeep) :
    PkgBuild.collectPrerequisites env collect entry true s = .error .tooDeep := by
  unfold PkgBuild.collectPrerequisites
  rw [hp]
  simp only [ha, hsys, hap, hsame, ne_eq, not_true_eq_false, Bool.false_eq_true, if_false]
  exact hR.collectDependencies hy hs (by rw [hp]; exact hrf) ho hc

end

/-- A package as it is collected for its dependents. -/
def BuildPackage.plain (ap : AvailablePackage) (requiredBy : List PackageName) : BuildPackage :=
  ⟨some .build, none, some ap, some [65], none, none, [], false, false, [], requiredBy, {}⟩

end Build2.Bpkg.PkgBuild
