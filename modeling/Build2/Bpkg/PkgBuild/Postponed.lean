import Build2.Bpkg.PkgBuild.Complete
import Build2.Bpkg.PkgBuild.Weight

/-! # Postponed packages

`collect_build_postponed` makes rounds over the postponed packages (`Round`). When it returns the
packages of all rounds are complete. -/

namespace Build2.Bpkg.PkgBuild

open Relation Build2.Lib.Stateful Build2.Libbpkg BuildPackages

/-- A complete round over the postponed packages, with a bound on the depth. -/
def RoundAt (env : Environment) (k : ℕ) (x y : List PackageName × Collection) : Prop :=
  x.1 ≠ [] ∧ collectRound env k true x.1 { x.2 with postponed := [] } = .ok y.2 ∧
    y.1 = y.2.postponed

/-- A complete round. -/
def Round (env : Environment) (x y : List PackageName × Collection) : Prop :=
  ∃ k, RoundAt env k x y

section

variable {env : Environment} {s s' : Collection} {pkgs : List PackageName} {k rounds : ℕ}
  {prog : Bool} {e : Fault} {x : List PackageName × Collection}

/-- **A run that returns** made complete rounds until no package was left. -/
theorem rounds_of_ok (h : collectPostponed env k rounds prog pkgs s = .ok s') :
    ReflTransGen (Round env) (pkgs, s) ([], s') := by
  induction rounds generalizing prog pkgs s with
  | zero => cases h
  | succ rounds ih =>
    unfold collectPostponed at h
    split_ifs at h with hp hprog
    · cases h
      rw [hp]
    · obtain ⟨s1, h1, h⟩ := bind_eq_ok.mp h
      exact .head ⟨k, hp, hprog ▸ h1, rfl⟩ (ih h)
    · obtain ⟨s1, -, h⟩ := bind_eq_ok.mp h
      cases h

/-- **A run that fails** made complete rounds before the one that fails, which is either an ordinary
round or follows one that left the postponed packages what they were. -/
theorem rounds_of_error (he : e ≠ .tooDeep) (hx : ReflTransGen (Round env) x (pkgs, s))
    (hlast : prog = false → ∃ z, ReflTransGen (Round env) x z ∧ Round env z (pkgs, s) ∧
      z.1.toFinset = pkgs.toFinset)
    (h : collectPostponed env k rounds prog pkgs s = .error e) :
    ∃ y, ReflTransGen (Round env) x y ∧
      (collectRound env k true y.1 { y.2 with postponed := [] } = .error e ∨
        ∃ z, ReflTransGen (Round env) x z ∧ Round env z y ∧ z.1.toFinset = y.1.toFinset) := by
  induction rounds generalizing prog pkgs s with
  | zero =>
    cases h
    exact absurd rfl he
  | succ rounds ih =>
    unfold collectPostponed at h
    split_ifs at h with hp hprog
    · subst hprog
      cases h1 : collectRound env k true pkgs { s with postponed := [] } with
      | error e' =>
        rw [h1] at h
        cases h
        exact ⟨(pkgs, s), hx, Or.inl h1⟩
      | ok s1 =>
        rw [h1] at h
        have hr : Round env (pkgs, s) (s1.postponed, s1) := ⟨k, hp, h1, rfl⟩
        refine ih (hx.tail hr) (fun hsame => ⟨(pkgs, s), hx, hr, ?_⟩) h
        exact (not_not.mp (of_decide_eq_false hsame)).symm
    · exact ⟨(pkgs, s), hx, Or.inr (hlast (Bool.eq_false_iff.mpr hprog))⟩

end

/-! ### One round after the other -/

section

variable {env : Environment} {s : Collection} {pkgs : List PackageName} {k k' : ℕ} {prog : Bool}
  {x y z : List PackageName × Collection}

theorem collectRound_agrees (hk : k ≤ k') (h : Settled (collectRound env k prog pkgs s)) :
    collectRound env k' prog pkgs s = collectRound env k prog pkgs s := by
  unfold collectRound at h ⊢
  induction pkgs generalizing s with
  | nil => rfl
  | cons n pkgs ih =>
    rw [List.foldlM_cons] at h ⊢
    rw [List.foldlM_cons]
    exact bind_eq_of_settled (collectPrerequisites_agrees (collectBuild_agrees hk))
      (fun s1 h1 => ih h1) h

theorem round_unique (h : Round env x y) (h' : Round env x z) : y = z := by
  obtain ⟨k, -, hy, hy1⟩ := h
  obtain ⟨k', -, hz, hz1⟩ := h'
  have hle := collectRound_agrees (le_max_left k k') (hy ▸ settled_ok y.2)
  have hle' := collectRound_agrees (le_max_right k k') (hz ▸ settled_ok z.2)
  rw [hle', hz] at hle
  have h2 : z.2 = y.2 := Except.ok.inj (hle.trans hy)
  exact Prod.ext (hy1.trans ((congrArg _ h2).symm.trans hz1.symm)) h2.symm

/-- A run that ends without packages passes through every state that rounds lead to. -/
theorem rounds_through {s' : Collection} (h : ReflTransGen (Round env) x ([], s'))
    (hy : ReflTransGen (Round env) x y) : ReflTransGen (Round env) y ([], s') := by
  have hu : Relator.RightUnique (Round env) := fun _ _ _ => round_unique
  rcases ReflTransGen.total_of_right_unique hu hy h with h' | h'
  · exact h'
  · rcases h'.cases_head with rfl | ⟨z, ⟨k, hne, -⟩, -⟩
    · exact .refl
    · exact absurd rfl hne

end

/-! ### What is complete afterwards -/

section

variable {env : Environment} (hn : env.Named) {x y : List PackageName × Collection}
  {n : PackageName}

/-- A package that is to be processed in the next round, or is complete. -/
def Cared (x : List PackageName × Collection) (n : PackageName) : Prop :=
  n ∈ x.1 ∨ x.2.Complete n

include hn

theorem Round.cared (h : Round env x y) : (∀ n, Cared x n → Cared y n) ∧
    ∀ n, x.2.Same y.2 n ∨ Cared y n := by
  obtain ⟨k, -, h, hy⟩ := h
  obtain ⟨hadv, hall⟩ := collectRound_advances hn supplies_all h
  have hh : ∀ n, y.2.Handled n → Cared y n := fun n hn => hn.imp_left fun hp => hy ▸ hp
  refine ⟨fun n hc => hh n (hc.elim (hall n) fun hc => hadv.handled (Or.inr hc)), fun n => ?_⟩
  exact (hadv.changed n).imp_right (hh n)

/-- **Any number of rounds.** -/
theorem rounds_cared (h : ReflTransGen (Round env) x y) : (∀ n, Cared x n → Cared y n) ∧
    ∀ n, x.2.Same y.2 n ∨ Cared y n := by
  induction h with
  | refl => exact ⟨fun _ h => h, fun _ => Or.inl rfl⟩
  | tail _ hr ih =>
    obtain ⟨h1, h2⟩ := hr.cared hn
    refine ⟨fun n hc => h1 n (ih.1 n hc), fun n => ?_⟩
    rcases h2 n with hs | hc
    · exact (ih.2 n).imp (fun hs' => hs'.trans hs) (h1 n)
    · exact Or.inr hc

end

section

variable {env : Environment} {s s' : Collection} {pkgs : List PackageName} {k rounds : ℕ}
  {prog : Bool}

/-- **What is complete when the function returns**: the packages of all rounds and all that was
changed. -/
theorem complete_of_ok (hn : env.Named)
    (h : collectPostponed env k rounds prog pkgs s = .ok s') :
    (∀ y, ReflTransGen (Round env) (pkgs, s) y → ∀ n ∈ y.1, s'.Complete n) ∧
      ∀ n, s'.Complete n ∨ s.Same s' n ∧ ¬ s.Complete n ∧ n ∉ pkgs := by
  have hrun := rounds_of_ok h
  have hend : ∀ n, Cared ([], s') n → s'.Complete n := fun n hc =>
    hc.resolve_left List.not_mem_nil
  constructor
  · intro y hy n hmem
    exact hend n ((rounds_cared hn (rounds_through hrun hy)).1 n (Or.inl hmem))
  · intro n
    obtain ⟨h1, h2⟩ := rounds_cared hn hrun
    by_cases hc : Cared (pkgs, s) n
    · exact Or.inl (hend n (h1 n hc))
    · exact (h2 n).symm.imp (hend n) fun hs => ⟨hs, fun h => hc (Or.inr h), fun h => hc (Or.inl h)⟩

end

/-! ### Unknown dependencies -/

/-- From the prerequisites of an entry in one state to those of a package that is collected for one
of its dependencies and put into the map. -/
def Enters (env : Environment) (x y : PackageName × Collection) : Prop :=
  ∃ pkg s1 ap, Requests env x.1 x.2 (pkg, s1) ∧ pkg.available = some ap ∧
    s1.put pkg = .ok (true, y.2) ∧ y.1 = ap.name

/-- Collecting the prerequisites of the entry gets to a dependency on `d` that is unknown and that
the user does not constrain at that moment. -/
def UnknownAt (env : Environment) (x : PackageName × Collection) (d n : PackageName) : Prop :=
  ∃ p ap da s, x.2.package x.1 = some p ∧ p.action = some .build ∧ p.system = false ∧
    p.available = some ap ∧ sameConfigured p = .ok false ∧
    Gets env x.1 ap.name ap.dependencies x.2 da s ∧
    next env s x.1 ap.name true da = .error (.unknownDependency d n) ∧ s.Unconstrained d

/-- A round over the packages gets to such a dependency, below the prerequisites of one of them. -/
def UnknownIn (env : Environment) (k : ℕ) (pkgs : List PackageName) (s : Collection)
    (d n : PackageName) : Prop :=
  ∃ l m l' s0 x, pkgs = l ++ m :: l' ∧ collectRound env k true l s = .ok s0 ∧
    ReflTransGen (Enters env) (m, s0) x ∧ UnknownAt env x d n

section

variable {env : Environment} {s : Collection} {entry name d n : PackageName}
  {pkgs : List PackageName} {deps : List DependencyAlternatives} {k : ℕ}

/-- The loop fails at one of the dependencies that it gets to. -/
theorem gets_of_error
    (h : collectDependencies env (collectBuild env true k) entry name true deps s =
      .error (.unknownDependency d n)) :
    ∃ da s2, Gets env entry name deps s da s2 ∧
      collectDependency env (collectBuild env true k) entry name true da s2 =
        .error (.unknownDependency d n) := by
  induction deps generalizing s with
  | nil => cases h
  | cons da deps ih =>
    rcases bind_eq_error.mp h with h | ⟨⟨more, s1⟩, hx, h⟩
    · exact ⟨da, s, .here, h⟩
    · cases more with
      | false => cases h
      | true =>
        obtain ⟨da', s2, hg, hf⟩ := ih h
        exact ⟨da', s2, .later hx hg, hf⟩

/-- A dependency is unknown itself, or one is below the package that is collected for it. -/
theorem unknown_cases {da : DependencyAlternatives}
    (h : collectDependency env (collectBuild env true k) entry name true da s =
      .error (.unknownDependency d n)) :
    next env s entry name true da = .error (.unknownDependency d n) ∨
      ∃ pkg, Request env entry name da s pkg ∧
        collectBuild env true k pkg s = .error (.unknownDependency d n) := by
  rcases bind_eq_error.mp h with h | ⟨a, hn, h⟩
  · exact Or.inl h
  cases a with
  | nothing => cases h
  | postpone => cases h
  | collect dp r =>
    refine Or.inr ⟨_, ⟨dp, r, hn, rfl⟩, ?_⟩
    rcases bind_eq_error.mp h with h | ⟨x, -, h⟩
    · exact h
    · split_ifs at h <;> cases h

theorem dependencies_of_error
    (h : collectPrerequisites env (collectBuild env true k) entry true s =
      .error (.unknownDependency d n)) :
    ∃ p ap, s.package entry = some p ∧ p.action = some .build ∧ p.system = false ∧
      p.available = some ap ∧ sameConfigured p = .ok false ∧
      collectDependencies env (collectBuild env true k) entry ap.name true ap.dependencies s =
        .error (.unknownDependency d n) := by
  unfold collectPrerequisites at h
  cases hp : s.package entry with
  | none =>
    rw [hp] at h
    cases h
  | some p =>
    rw [hp] at h
    simp only at h
    split_ifs at h with ha hsys
    · cases h
    cases hap : p.available with
    | none =>
      rw [hap] at h
      cases h
    | some ap =>
      rw [hap] at h
      rcases bind_eq_error.mp h with h | ⟨same, hsame, h⟩
      · exact absurd rfl ((ordinary_sameConfigured _ h).cases.2 d n)
      · cases same with
        | true => cases h
        | false =>
          exact ⟨p, ap, rfl, not_not.mp ha, Bool.eq_false_iff.mpr hsys, hap, hsame, h⟩

/-- A package that fails so was put into the map before. -/
theorem put_of_error {pkg : BuildPackage}
    (h : collectBuild env true k pkg s = .error (.unknownDependency d n)) :
    ∃ k' ap s1, k = k' + 1 ∧ pkg.available = some ap ∧ s.put pkg = .ok (true, s1) ∧
      collectPrerequisites env (collectBuild env true k') ap.name true s1 =
        .error (.unknownDependency d n) := by
  cases k with
  | zero => cases h
  | succ k =>
    unfold collectBuild at h
    rcases bind_eq_error.mp h with h | ⟨⟨added, s1⟩, hput, h⟩
    · exact absurd rfl ((ordinary_put _ h).cases.2 d n)
    cases added with
    | false => cases h
    | true =>
      cases hap : pkg.available with
      | none =>
        rw [hap] at h
        cases h
      | some ap =>
        rw [hap] at h
        rcases bind_eq_error.mp h with h | ⟨s2, -, h⟩
        · exact ⟨k, ap, s1, rfl, rfl, hput, h⟩
        · cases h

/-- **Prerequisites that fail because of an unknown dependency**, by induction on the depth: it is
that of a package which is entered below them. -/
theorem prerequisites_unknown
    (h : collectPrerequisites env (collectBuild env true k) entry true s =
      .error (.unknownDependency d n)) :
    ∃ x, ReflTransGen (Enters env) (entry, s) x ∧ UnknownAt env x d n := by
  induction k using Nat.strong_induction_on generalizing entry s with
  | _ k ih =>
    obtain ⟨p, ap, hp, ha, hsys, hap, hsame, h⟩ := dependencies_of_error h
    obtain ⟨da, s2, hg, h⟩ := gets_of_error h
    rcases unknown_cases h with h | ⟨pkg, hreq, h⟩
    · exact ⟨(entry, s), .refl, p, ap, da, s2, hp, ha, hsys, hap, hsame, hg, h,
        (fails_next true da _ h).2 d n rfl rfl⟩
    · obtain ⟨k', ap', s3, rfl, hap', hput, h⟩ := put_of_error h
      obtain ⟨x, hx, hu⟩ := ih k' (Nat.lt_succ_self k') h
      refine ⟨x, .head ⟨pkg, s2, ap', ?_, hap', hput, rfl⟩ hx, hu⟩
      exact ⟨p, ap, hp, ha, hsys, hap, hsame, da, hg, hreq⟩

/-- **A round that fails because of an unknown dependency** gets to it. -/
theorem round_unknown (h : collectRound env k true pkgs s = .error (.unknownDependency d n)) :
    UnknownIn env k pkgs s d n := by
  induction pkgs generalizing s with
  | nil => cases h
  | cons m pkgs ih =>
    unfold collectRound at h
    rw [List.foldlM_cons] at h
    rcases bind_eq_error.mp h with h | ⟨s1, h1, h⟩
    · obtain ⟨x, hx, hu⟩ := prerequisites_unknown h
      exact ⟨[], m, pkgs, s, x, rfl, rfl, hx, hu⟩
    · obtain ⟨l, m', l', s0, x, rfl, hs0, hx, hu⟩ := ih h
      refine ⟨m :: l, m', l', s0, x, rfl, ?_, hx, hu⟩
      unfold collectRound
      rw [List.foldlM_cons]
      exact bind_eq_ok.mpr ⟨s1, h1, hs0⟩

end

end Build2.Bpkg.PkgBuild
