import Build2.Bpkg.PkgBuild.Collect
import Build2.Lib.Stateful
import Build2.Libbpkg.Version.Print

/-! # Collection keeps its constraints

What merging and putting a package do (`merge_eq_ok`, `replaces_cases`, `put_cases`) and that every
function on the map is a sequence of such steps (`Steps`). Hold flags, user selections and
constraints are never lost. The versions satisfy the constraints as long as every package put into
the map fits: a pre-entered or adjusted package is merged without a test (`constraints_kept`). -/

namespace Build2.Bpkg.PkgBuild

open Relation Build2.Lib.Linked Build2.Lib.Stateful Build2.Libbpkg

/-- The version satisfies the constraint, or this is the wildcard of the user. -/
def meets (v : Version) (c : VersionConstraint) : Bool :=
  (match wildcard c with
    | .ok b => b
    | .error _ => false) ||
  match satisfiesVersion v c with
  | .ok b => b
  | .error _ => false

/-- The package has a version that satisfies the constraints. -/
def BuildPackage.meetsAll (p : BuildPackage) (l : List Constraint) : Bool :=
  match p.availableVersion with
  | .ok v => l.all fun c => meets v c.value
  | .error _ => false

/-- A build that is put into the map satisfies its own constraints and, if it takes the place of an
entry that is not a build, those of the entry. -/
def Put.fits (x : Put) : Bool :=
  x.package.action ≠ some .build ||
    (x.package.meetsAll x.package.constraints &&
      x.met.all fun bp => bp.action = some .build || x.package.meetsAll bp.constraints)

/-- A hold flag that is as strong. -/
def HoldLe (x y : Option Bool) : Prop := ∀ b ∈ x, ∃ b' ∈ y, b ≤ b'

/-- What a package brought to the map is with an entry. -/
structure BuildPackage.Brought (x p : BuildPackage) : Prop where
  constraints : x.constraints ⊆ p.constraints
  holdPackage : HoldLe x.holdPackage p.holdPackage
  holdVersion : HoldLe x.holdVersion p.holdVersion
  userSelection : x.userSelection = true → p.userSelection = true

/-- The entries satisfy their constraints and have all that was brought to the map. -/
structure Collection.Kept (s : Collection) : Prop where
  satisfied : ∀ n p, s.package n = some p → p.action = some .build →
    p.meetsAll p.constraints = true
  brought : ∀ x ∈ s.history, ∃ p, s.package x.name = some p ∧ x.package.Brought p

/-! ### Versions -/

section

variable {v w : Version} {c : VersionConstraint}

theorem sameVersion_iff : sameVersion v w = true ↔ v.key = w.key := by
  unfold sameVersion
  rw [decide_eq_true_eq, Version.cmp_eq_eq]

/-- Endpoints do not tell equal versions apart. -/
theorem compare_revise_congr (h : v.key = w.key) (m : Version) (ir : Bool) :
    (revise v v.effectiveRevision v.iteration).compare m ir false =
      (revise w w.effectiveRevision w.iteration).compare m ir false := by
  simp only [Version.key, Prod.mk.injEq] at h
  obtain ⟨h1, h2, h3, h4, h5⟩ := h
  unfold revise Version.compare Version.effectiveRevision
  simp only [h1, h2, h3, h4, h5]

/-- **Constraints do not tell equal versions apart.** -/
theorem satisfiesVersion_congr (hv : IsAvailable v) (hw : IsAvailable w)
    (h : v.key = w.key) : satisfiesVersion v c = satisfiesVersion w c := by
  unfold satisfiesVersion
  rw [Version.cmp_congr h rfl, ofParts_revise hv.constructed hv.notEarliest,
    ofParts_revise hw.constructed hw.notEarliest]
  split_ifs
  · rfl
  · rfl
  · show Except.ok _ = Except.ok _
    unfold atMin atMax
    simp only [compare_revise_congr h]

theorem meets_of_satisfies (h : satisfiesVersion v c = .ok true) : meets v c = true := by
  unfold meets
  rw [h, Bool.or_true]

theorem meets_congr (hv : IsAvailable v) (hw : IsAvailable w) (h : v.key = w.key) :
    meets v c = meets w c := by
  unfold meets
  rw [satisfiesVersion_congr hv hw h]

end

/-! ### Merging -/

theorem holdLe_refl (o : Option Bool) : HoldLe o o := fun b hb => ⟨b, hb, le_rfl⟩

theorem HoldLe.trans {o o' o'' : Option Bool} (h : HoldLe o o') (h' : HoldLe o' o'') :
    HoldLe o o'' := by
  intro b hb
  obtain ⟨b', hb', hle⟩ := h b hb
  obtain ⟨c, hc, hle'⟩ := h' b' hb'
  exact ⟨c, hc, hle.trans hle'⟩

theorem holdLe_stronger (o o' : Option Bool) :
    HoldLe o (BuildPackage.stronger o o') ∧ HoldLe o' (BuildPackage.stronger o o') := by
  unfold HoldLe
  revert o o'
  decide

namespace BuildPackage

variable {x y p q : BuildPackage} {v w : Version} {n : PackageName} {b : Bool}
  {l : List Constraint}

theorem isAvailable_of_availableVersion (h : p.availableVersion = .ok v) : IsAvailable v := by
  unfold availableVersion at h
  cases hp : p.available with
  | none =>
    rw [hp] at h
    cases h
  | some ap =>
    rw [hp] at h
    simp only at h
    split_ifs at h
    · cases hv : ap.systemVersion with
      | none =>
        rw [hv] at h
        cases h
      | some u =>
        rw [hv] at h
        cases h
        exact ap.systemIsAvailable v hv
    · cases h
      exact ap.isAvailable

theorem meetsAll_iff : p.meetsAll l = true ↔
    ∃ v, p.availableVersion = .ok v ∧ ∀ c ∈ l, meets v c.value = true := by
  unfold meetsAll
  cases p.availableVersion with
  | error e => simp
  | ok v => simp

theorem meetsAll_append {l' : List Constraint} :
    p.meetsAll (l ++ l') = true ↔ p.meetsAll l = true ∧ p.meetsAll l' = true := by
  unfold meetsAll
  cases p.availableVersion with
  | error e => simp
  | ok v => simp [List.all_append]

/-- What merging does to the members that matter here. -/
structure Merged (x p y : BuildPackage) : Prop where
  mergeable : x.action ≠ none ∧ x.action ≠ some .drop ∧ p.action ≠ some .drop
  action : y.action = x.action
  selected : y.selected = x.selected
  available : y.available = x.available
  repositoryFragment : y.repositoryFragment = x.repositoryFragment
  system : y.system = x.system
  constraints : y.constraints = x.constraints ++ p.constraints
  holdPackage : y.holdPackage = stronger x.holdPackage p.holdPackage
  holdVersion : y.holdVersion = stronger x.holdVersion p.holdVersion
  userSelection : y.userSelection = (x.userSelection || p.userSelection)

theorem merge_eq_ok (h : x.merge p = .ok y) : Merged x p y := by
  unfold merge at h
  by_cases ha : x.action = none ∨ x.action = some .drop ∨ p.action = some .drop
  · rw [if_pos ha] at h
    cases h
  rw [if_neg ha] at h
  simp only [not_or] at ha
  cases h
  by_cases hu : p.userSelection = true
  · refine ⟨ha, ?_, ?_, ?_, ?_, ?_, ?_, ?_, ?_, ?_⟩ <;> simp only [hu, if_true, Bool.or_true]
    unfold userSelection
    simp only [decide_eq_true_eq]
    split_ifs <;> simp
  · refine ⟨ha, ?_, ?_, ?_, ?_, ?_, ?_, ?_, ?_, ?_⟩ <;>
      simp only [hu, if_false, Bool.false_eq_true, Bool.or_false]
    unfold userSelection at hu ⊢
    simp only [decide_eq_true_eq] at hu
    split_ifs
    · simp [hu]
    · rfl

theorem orAbort_eq_ok {α : Type} {z : Except Libbutl.ParseUint.Fault α} {a : α} :
    orAbort z = .ok a ↔ z = .ok a := by
  cases z with
  | error e => exact ⟨fun h => (by cases h), fun h => (by cases h)⟩
  | ok r => exact Iff.rfl.trans ⟨fun h => (by cases h; rfl), fun h => (by cases h; rfl)⟩

theorem test_cases {r : Option Constraint} (hv : x.availableVersion = .ok v)
    (h : x.test p = .ok r) :
    (r = none → ∀ c ∈ p.constraints, satisfiesVersion v c.value = .ok true) ∧
      ∀ c ∈ r, c ∈ p.constraints ∧ satisfiesVersion v c.value = .ok false := by
  unfold test at h
  generalize p.constraints = l at h ⊢
  induction l with
  | nil =>
    cases h
    exact ⟨fun _ c hc => (by cases hc), fun c hc => (by cases hc)⟩
  | cons d l ih =>
    rw [List.findSomeM?_cons] at h
    obtain ⟨o, ho, h⟩ := bind_eq_ok.mp h
    obtain ⟨v', hv', ho⟩ := bind_eq_ok.mp ho
    obtain rfl := Except.ok.inj (hv.symm.trans hv')
    obtain ⟨b, hb, ho⟩ := bind_eq_ok.mp ho
    rw [orAbort_eq_ok] at hb
    cases b with
    | true =>
      cases ho
      obtain ⟨h1, h2⟩ := ih h
      exact ⟨fun hr => List.forall_mem_cons.mpr ⟨hb, h1 hr⟩,
        fun c hc => ⟨List.mem_cons_of_mem _ (h2 c hc).1, (h2 c hc).2⟩⟩
    | false =>
      cases ho
      cases h
      refine ⟨fun hr => (by cases hr), fun c hc => ?_⟩
      obtain rfl := Option.some.inj hc
      exact ⟨List.mem_cons_self, hb⟩

/-- **When a package replaces a build.** -/
theorem replaces_cases (h : x.replaces n p = .ok b) :
    ∃ v w, x.availableVersion = .ok v ∧ p.availableVersion = .ok w ∧
      (v.key = w.key ∧ b = (p.userSelection || (!x.userSelection && !p.system)) ∨
        v.key ≠ w.key ∧
          (b = true ∧ p.test x = .ok none ∧ (w.cmp v = .gt ∨ ∃ c, x.test p = .ok (some c)) ∨
            b = false ∧ x.test p = .ok none)) := by
  unfold replaces at h
  obtain ⟨v, hv, h⟩ := bind_eq_ok.mp h
  obtain ⟨w, hw, h⟩ := bind_eq_ok.mp h
  refine ⟨v, w, hv, hw, ?_⟩
  by_cases hs : sameVersion v w = true
  · rw [if_pos hs] at h
    cases h
    exact Or.inl ⟨sameVersion_iff.mp hs, rfl⟩
  · rw [if_neg hs] at h
    refine Or.inr ⟨fun hk => hs (sameVersion_iff.mpr hk), ?_⟩
    by_cases hn : w.cmp v = .gt
    · simp only [hn, decide_true, if_true] at h
      obtain ⟨r, hr, h⟩ := bind_eq_ok.mp h
      cases r with
      | none =>
        cases h
        exact Or.inl ⟨rfl, hr, Or.inl hn⟩
      | some c2 =>
        obtain ⟨r', hr', h⟩ := bind_eq_ok.mp h
        cases r' with
        | none =>
          cases h
          exact Or.inr ⟨rfl, hr'⟩
        | some c1 => cases h
    · simp only [hn, decide_false, if_false] at h
      obtain ⟨r, hr, h⟩ := bind_eq_ok.mp h
      cases r with
      | none =>
        cases h
        exact Or.inr ⟨rfl, hr⟩
      | some c2 =>
        obtain ⟨r', hr', h⟩ := bind_eq_ok.mp h
        cases r' with
        | none =>
          cases h
          exact Or.inl ⟨rfl, hr', Or.inr ⟨c2, hr⟩⟩
        | some c1 => cases h

end BuildPackage

/-! ### Putting a package -/

/-- What becomes of the entry. -/
inductive Outcome (n : PackageName) (pkg : BuildPackage) :
    Option BuildPackage → Bool → BuildPackage → Prop
  | added : Outcome n pkg none true pkg
  | merged {bp p : BuildPackage} (ha : bp.action ≠ some .build) (h : pkg.merge bp = .ok p) :
    Outcome n pkg (some bp) true p
  | replaced {bp p : BuildPackage} (ha : bp.action = some .build)
    (hr : bp.replaces n pkg = .ok true) (h : pkg.merge bp = .ok p) : Outcome n pkg (some bp) true p
  | kept {bp p : BuildPackage} (ha : bp.action = some .build)
    (hr : bp.replaces n pkg = .ok false) (h : bp.merge pkg = .ok p) :
    Outcome n pkg (some bp) false p

section

variable {s s' : Collection} {pkg p bp : BuildPackage} {n m : PackageName} {b : Bool}

theorem Collection.put_cases (h : s.put pkg = .ok (b, s')) : ∃ ap p, pkg.available = some ap ∧
    pkg.action = some .build ∧ Outcome ap.name pkg (s.package ap.name) b p ∧
      s' = s.store ap.name p pkg := by
  unfold put at h
  cases hap : pkg.available with
  | none =>
    rw [hap] at h
    cases h
  | some ap =>
    rw [hap] at h
    simp only at h
    by_cases ha : pkg.action = some .build
    swap
    · rw [if_pos ha] at h
      cases h
    rw [if_neg (not_not.mpr ha)] at h
    cases hbp : s.package ap.name with
    | none =>
      rw [hbp] at h
      cases h
      exact ⟨ap, pkg, rfl, ha, by rw [hbp]; exact .added, rfl⟩
    | some bp =>
      rw [hbp] at h
      simp only at h
      have hmerge : bp.action ≠ some .build →
          (pkg.merge bp >>= fun p => .ok (true, s.store ap.name p pkg)) = .ok (b, s') →
          ∃ ap' p, some ap = some ap' ∧ pkg.action = some .build ∧
            Outcome ap'.name pkg (s.package ap'.name) b p ∧ s' = s.store ap'.name p pkg := by
        intro hne h
        obtain ⟨p, hp, h⟩ := bind_eq_ok.mp h
        cases h
        exact ⟨ap, p, rfl, ha, by rw [hbp]; exact .merged hne hp, rfl⟩
      cases hact : bp.action with
      | none =>
        rw [hact] at h
        exact hmerge (by rw [hact]; simp) h
      | some a =>
        rw [hact] at h
        cases a with
        | drop => cases h
        | adjust => exact hmerge (by rw [hact]; simp) h
        | build =>
          obtain ⟨r, hr, h⟩ := bind_eq_ok.mp h
          cases r with
          | true =>
            obtain ⟨p, hp, h⟩ := bind_eq_ok.mp h
            cases h
            exact ⟨ap, p, rfl, ha, by rw [hbp]; exact .replaced hact hr hp, rfl⟩
          | false =>
            obtain ⟨p, hp, h⟩ := bind_eq_ok.mp h
            cases h
            exact ⟨ap, p, rfl, ha, by rw [hbp]; exact .kept hact hr hp, rfl⟩

end

/-! ### What an entry has -/

section

variable {x y p pkg : BuildPackage} {n : PackageName} {b : Bool} {met : Option BuildPackage}
  {l : List Constraint}

namespace BuildPackage

theorem Brought.refl (p : BuildPackage) : p.Brought p :=
  ⟨List.Subset.refl _, holdLe_refl _, holdLe_refl _, id⟩

theorem Brought.trans (h : x.Brought y) (h' : y.Brought p) : x.Brought p :=
  ⟨List.Subset.trans h.constraints h'.constraints, h.holdPackage.trans h'.holdPackage,
    h.holdVersion.trans h'.holdVersion, h'.userSelection ∘ h.userSelection⟩

theorem Merged.brought (h : Merged x p y) : x.Brought y ∧ p.Brought y := by
  have hp := holdLe_stronger x.holdPackage p.holdPackage
  have hv := holdLe_stronger x.holdVersion p.holdVersion
  constructor
  · refine ⟨?_, h.holdPackage ▸ hp.1, h.holdVersion ▸ hv.1, fun hu => ?_⟩
    · rw [h.constraints]
      exact List.subset_append_left _ _
    · rw [h.userSelection, hu, Bool.true_or]
  · refine ⟨?_, h.holdPackage ▸ hp.2, h.holdVersion ▸ hv.2, fun hu => ?_⟩
    · rw [h.constraints]
      exact List.subset_append_right _ _
    · rw [h.userSelection, hu, Bool.or_true]

theorem Merged.availableVersion (h : Merged x p y) : y.availableVersion = x.availableVersion := by
  unfold BuildPackage.availableVersion
  rw [h.available, h.system]

theorem Merged.meetsAll (h : Merged x p y) : y.meetsAll y.constraints = true ↔
    x.meetsAll x.constraints = true ∧ x.meetsAll p.constraints = true := by
  rw [h.constraints, meetsAll_append]
  unfold BuildPackage.meetsAll
  rw [h.availableVersion]

theorem meetsAll_congr {v w : Version} (hv : x.availableVersion = .ok v)
    (hw : p.availableVersion = .ok w) (h : v.key = w.key) : x.meetsAll l = p.meetsAll l := by
  unfold meetsAll
  rw [hv, hw]
  simp only [meets_congr (isAvailable_of_availableVersion hv)
    (isAvailable_of_availableVersion hw) h]

theorem meetsAll_of_test (h : x.test p = .ok none) {v : Version}
    (hv : x.availableVersion = .ok v) : x.meetsAll p.constraints = true :=
  meetsAll_iff.mpr ⟨v, hv, fun c hc => meets_of_satisfies ((test_cases hv h).1 rfl c hc)⟩

end BuildPackage

/-- **Nothing that either of them brought is lost.** -/
theorem Outcome.brought (h : Outcome n pkg met b p) :
    pkg.Brought p ∧ ∀ bp ∈ met, bp.Brought p := by
  cases h with
  | added => exact ⟨.refl p, fun bp h => (by cases h)⟩
  | merged ha h | replaced ha hr h =>
    have hm := (BuildPackage.merge_eq_ok h).brought
    refine ⟨hm.1, fun bp' h' => ?_⟩
    cases h'
    exact hm.2
  | kept ha hr h =>
    have hm := (BuildPackage.merge_eq_ok h).brought
    refine ⟨hm.2, fun bp' h' => ?_⟩
    cases h'
    exact hm.1

/-- **What fits is satisfied afterwards**, by a test or because the versions are the same. -/
theorem Outcome.satisfied (h : Outcome n pkg met b p) (ha : pkg.action = some .build)
    (hf : (Put.mk n met pkg).fits = true)
    (hs : ∀ bp ∈ met, bp.action = some .build → bp.meetsAll bp.constraints = true) :
    p.meetsAll p.constraints = true := by
  unfold Put.fits at hf
  simp only [ha, ne_eq, not_true_eq_false, decide_false, Bool.false_or, Bool.and_eq_true] at hf
  cases h with
  | added => exact hf.1
  | merged hb h =>
    refine (BuildPackage.merge_eq_ok h).meetsAll.mpr ⟨hf.1, ?_⟩
    simpa [hb] using hf.2
  | replaced hb hr h =>
    refine (BuildPackage.merge_eq_ok h).meetsAll.mpr ⟨hf.1, ?_⟩
    obtain ⟨v, w, hv, hw, ⟨hk, -⟩ | ⟨-, ⟨-, ht, -⟩ | ⟨h, -⟩⟩⟩ := BuildPackage.replaces_cases hr
    · rw [← BuildPackage.meetsAll_congr hv hw hk]
      exact hs _ rfl hb
    · exact BuildPackage.meetsAll_of_test ht hw
    · cases h
  | kept hb hr h =>
    refine (BuildPackage.merge_eq_ok h).meetsAll.mpr ⟨hs _ rfl hb, ?_⟩
    obtain ⟨v, w, hv, hw, ⟨hk, -⟩ | ⟨-, ⟨h, -⟩ | ⟨-, ht⟩⟩⟩ := BuildPackage.replaces_cases hr
    · rw [BuildPackage.meetsAll_congr hv hw hk]
      exact hf.1
    · cases h
    · exact BuildPackage.meetsAll_of_test ht hv

end

/-! ### Every function is a sequence of steps -/

/-- A package of a kind is put into the map, or the postponed packages change. -/
inductive Step (P : BuildPackage → Prop) : Collection → Collection → Prop
  | put {s s' : Collection} {pkg : BuildPackage} {b : Bool} (hp : P pkg)
    (h : s.put pkg = .ok (b, s')) : Step P s s'
  | postponed (s : Collection) (l : List PackageName) : Step P s { s with postponed := l }

/-- Any number of steps. -/
abbrev Steps (P : BuildPackage → Prop) : Collection → Collection → Prop := ReflTransGen (Step P)

/-- Every dependency is built from a package of the kind. -/
def Supplies (env : Environment) (P : BuildPackage → Prop) : Prop :=
  ∀ s entry (ap : AvailablePackage) recursively da dp r,
    next env s entry ap.name recursively da = .ok (.collect dp r) →
      P (dependencyPackage ap.name dp r)

theorem supplies_all {env : Environment} : Supplies env fun _ => True :=
  fun _ _ _ _ _ _ _ _ => trivial

section

variable {env : Environment} {s s' : Collection} {entry : PackageName} {recursively b : Bool}
  {ap : AvailablePackage} {collect : BuildPackage → Collection → Except Fault (Bool × Collection)}
  {l : List DependencyAlternatives} {da : DependencyAlternatives} {P : BuildPackage → Prop}

theorem steps_postpone (env : Environment) (s : Collection) (n : PackageName) :
    Steps P s (postpone env s n) := by
  unfold postpone
  split_ifs
  · exact .refl
  · exact .single (.postponed s _)

variable (hP : Supplies env P)

include hP

theorem collectDependency_steps
    (hc : ∀ pkg s b s', P pkg → collect pkg s = .ok (b, s') → Steps P s s')
    (h : collectDependency env collect entry ap.name recursively da s = .ok (b, s')) :
    Steps P s s' := by
  unfold collectDependency at h
  obtain ⟨a, ha, h⟩ := bind_eq_ok.mp h
  cases a with
  | nothing =>
    cases h
    exact .refl
  | postpone =>
    cases h
    exact steps_postpone env s entry
  | collect dp r =>
    obtain ⟨x, hx, h⟩ := bind_eq_ok.mp h
    split_ifs at h
    cases h
    exact hc _ _ _ _ (hP _ _ _ _ _ _ _ ha) hx

theorem collectDependencies_steps
    (hc : ∀ pkg s b s', P pkg → collect pkg s = .ok (b, s') → Steps P s s')
    (h : collectDependencies env collect entry ap.name recursively l s = .ok s') :
    Steps P s s' := by
  induction l generalizing s with
  | nil =>
    cases h
    exact .refl
  | cons da l ih =>
    obtain ⟨⟨more, s1⟩, h1, h⟩ := bind_eq_ok.mp h
    have hs := collectDependency_steps hP hc h1
    cases more with
    | true => exact hs.trans (ih h)
    | false =>
      cases h
      exact hs

theorem collectPrerequisites_steps
    (hc : ∀ pkg s b s', P pkg → collect pkg s = .ok (b, s') → Steps P s s')
    (h : collectPrerequisites env collect entry recursively s = .ok s') : Steps P s s' := by
  unfold collectPrerequisites at h
  split at h
  · cases h
  split_ifs at h
  · cases h
    exact .refl
  split at h
  · cases h
  obtain ⟨same, -, h⟩ := bind_eq_ok.mp h
  cases same with
  | true =>
    cases h
    exact .refl
  | false => exact collectDependencies_steps hP hc h

/-- **`collect_build` is a sequence of steps**, by induction on the depth. -/
theorem collectBuild_steps {k : ℕ} {pkg : BuildPackage} (hpkg : P pkg)
    (h : collectBuild env recursively k pkg s = .ok (b, s')) : Steps P s s' := by
  induction k generalizing pkg s b s' with
  | zero => cases h
  | succ k ih =>
    unfold collectBuild at h
    obtain ⟨⟨added, s1⟩, h1, h⟩ := bind_eq_ok.mp h
    have hput : Steps P s s1 := .single (.put hpkg h1)
    simp only at h
    split_ifs at h
    · split at h
      · cases h
      · obtain ⟨s2, h2, h⟩ := bind_eq_ok.mp h
        cases h
        exact hput.trans (collectPrerequisites_steps hP (fun pkg s b s' => ih) h2)
    · cases h
      exact hput

theorem collectRound_steps {k : ℕ} {prog : Bool} {pkgs : List PackageName}
    (h : collectRound env k prog pkgs s = .ok s') : Steps P s s' := by
  unfold collectRound at h
  induction pkgs generalizing s with
  | nil =>
    cases h
    exact .refl
  | cons p pkgs ih =>
    rw [List.foldlM_cons] at h
    obtain ⟨s1, h1, h⟩ := bind_eq_ok.mp h
    exact (collectPrerequisites_steps hP (fun _ _ _ _ => collectBuild_steps hP) h1).trans (ih h)

theorem collectPostponed_steps {k rounds : ℕ} {prog : Bool} {pkgs : List PackageName}
    (h : collectPostponed env k rounds prog pkgs s = .ok s') : Steps P s s' := by
  induction rounds generalizing prog pkgs s with
  | zero => cases h
  | succ rounds ih =>
    unfold collectPostponed at h
    split_ifs at h
    · cases h
      exact .refl
    · obtain ⟨s1, h1, h⟩ := bind_eq_ok.mp h
      exact ((ReflTransGen.single (.postponed s [])).trans (collectRound_steps hP h1)).trans (ih h)
    · obtain ⟨s1, -, h⟩ := bind_eq_ok.mp h
      cases h

end

/-! ### Every run -/

/-- The calls on the map. -/
inductive Call
  | enter (n : PackageName) (p : BuildPackage)
  | collectBuild (pkg : BuildPackage) (recursively : Bool)
  | collectPrerequisites (n : PackageName)
  | collectUnhold (sp : SelectedPackage)
  | collectPostponed

/-- A call, with a bound on the depth and the number of rounds. -/
def Call.run (env : Environment) (k : ℕ) (s : Collection) : Call → Except Fault Collection
  | enter n p => s.enter n p
  | collectBuild pkg recursively => do return (← PkgBuild.collectBuild env recursively k pkg s).2
  | collectPrerequisites n =>
    PkgBuild.collectPrerequisites env (PkgBuild.collectBuild env true k) n true s
  | collectUnhold sp => PkgBuild.collectUnhold sp s
  | collectPostponed => PkgBuild.collectPostponed env k k true s.postponed s

/-- Calls one after the other, from the empty map on. -/
def runCalls (env : Environment) (k : ℕ) (calls : List Call) : Except Fault Collection :=
  calls.foldlM (Call.run env k) ⟨⟨∅, .nil⟩, [], []⟩

section

variable {env : Environment} {s s' : Collection} {p x : BuildPackage} {n m : PackageName} {k : ℕ}
  {P : BuildPackage → Prop}

@[simp] theorem Collection.package_store : (s.store n p x).package m =
    if m = n then some p else s.package m := by
  unfold package store BuildPackages.package
  by_cases h : m = n
  · rw [h, if_pos rfl, AList.lookup_insert]
    rfl
  · rw [if_neg h, AList.lookup_insert_ne h]

/-- An entry that keeps what was brought to the one it takes the place of. -/
theorem Collection.Kept.store (h : s.Kept)
    (hp : p.action = some .build → p.meetsAll p.constraints = true)
    (hx : x.Brought p) (hm : ∀ bp ∈ s.package n, bp.Brought p) : (s.store n p x).Kept := by
  refine ⟨fun m q hq hb => ?_, fun y hy => ?_⟩
  · rw [package_store] at hq
    split_ifs at hq
    · cases hq
      exact hp hb
    · exact h.satisfied m q hq hb
  · rcases List.mem_append.mp hy with hy | hy
    · obtain ⟨q, hq, hb⟩ := h.brought y hy
      by_cases hn : y.name = n
      · exact ⟨p, by rw [package_store, if_pos hn], hb.trans (hm q (hn ▸ hq))⟩
      · exact ⟨q, by rw [package_store, if_neg hn, hq], hb⟩
    · obtain rfl := List.mem_singleton.mp hy
      exact ⟨p, by rw [package_store, if_pos rfl], hx⟩

theorem Step.history (h : Step P s s') : s.history ⊆ s'.history := by
  cases h with
  | put _ h =>
    obtain ⟨ap, p, -, -, -, rfl⟩ := Collection.put_cases h
    exact List.subset_append_left _ _
  | postponed l => exact List.Subset.refl _

/-- **One step.** -/
theorem Step.kept (h : Step P s s') (hf : ∀ x ∈ s'.history, x.fits = true) (hs : s.Kept) :
    s'.Kept := by
  cases h with
  | postponed l => exact ⟨hs.satisfied, hs.brought⟩
  | @put _ pkg _ _ h =>
    obtain ⟨ap, p, -, ha, ho, rfl⟩ := Collection.put_cases h
    have hfit := hf ⟨ap.name, s.package ap.name, pkg⟩ (List.mem_append_right _ List.mem_cons_self)
    refine hs.store (fun _ => ho.satisfied ha hfit fun bp hbp hb => ?_) ho.brought.1 ho.brought.2
    exact hs.satisfied ap.name bp hbp hb

/-- **A sequence of steps.** -/
theorem Steps.kept (h : Steps P s s') (hs : (∀ x ∈ s.history, x.fits = true) → s.Kept)
    (hf : ∀ x ∈ s'.history, x.fits = true) : s'.Kept := by
  induction h with
  | refl => exact hs hf
  | tail _ hst ih => exact hst.kept hf (ih fun x hx => hf x (hst.history hx))

theorem kept_enter (h : s.enter n p = .ok s') (hs : s.Kept) : s'.Kept := by
  unfold Collection.enter at h
  split_ifs at h with hc
  cases h
  rw [not_or, not_not] at hc
  refine hs.store (fun hb => ?_) (.refl p) fun bp hbp => ?_
  · rw [hc.1] at hb
    cases hb
  · have hbp' : s.package n = some bp := hbp
    rw [hbp'] at hc
    exact absurd rfl hc.2

theorem history_enter (h : s.enter n p = .ok s') : s.history ⊆ s'.history := by
  unfold Collection.enter at h
  split_ifs at h
  cases h
  exact List.subset_append_left _ _

theorem kept_update {q : BuildPackage} {i : Iter} (hs : s.Kept) (hq : s.package n = some q)
    (hp : p.action = some .build → p.meetsAll p.constraints = true) (hb : q.Brought p) :
    (⟨{ s.packages with map := s.packages.map.insert n ⟨i, p⟩ }, s.postponed, s.history⟩ :
      Collection).Kept := by
  have hpkg : ∀ m, (⟨{ s.packages with map := s.packages.map.insert n ⟨i, p⟩ }, s.postponed,
      s.history⟩ : Collection).package m = if m = n then some p else s.package m := by
    intro m
    unfold Collection.package BuildPackages.package
    by_cases h : m = n
    · rw [h, if_pos rfl, AList.lookup_insert]
      rfl
    · rw [if_neg h, AList.lookup_insert_ne h]
  refine ⟨fun m r hr hbr => ?_, fun y hy => ?_⟩
  · rw [hpkg] at hr
    split_ifs at hr
    · cases hr
      exact hp hbr
    · exact hs.satisfied m r hr hbr
  · obtain ⟨r, hr, hyr⟩ := hs.brought y hy
    by_cases hn : y.name = n
    · refine ⟨p, by rw [hpkg, if_pos hn], hyr.trans ?_⟩
      rw [hn, hq] at hr
      obtain rfl := Option.some.inj hr
      exact hb
    · exact ⟨r, by rw [hpkg, if_neg hn, hr], hyr⟩

/-- Unholding a package keeps its entry what it is, or makes a pre-entered one an adjustment. -/
theorem collectUnhold_cases {sp : SelectedPackage} (h : collectUnhold sp s = .ok s') :
    ∃ bp p i, s.package sp.name = some bp ∧ bp.Brought p ∧
      (p.action = some .build → bp.action = some .build ∧
        p.meetsAll p.constraints = bp.meetsAll bp.constraints) ∧
      s' = ⟨{ s.packages with map := s.packages.map.insert sp.name ⟨i, p⟩ }, s.postponed,
        s.history⟩ := by
  unfold collectUnhold at h
  cases hbp : s.package sp.name with
  | none =>
    rw [hbp] at h
    cases h
  | some bp =>
    rw [hbp] at h
    simp only at h
    split_ifs at h with ha
    · obtain ⟨p, hp, h⟩ := bind_eq_ok.mp h
      cases h
      have hm := BuildPackage.merge_eq_ok hp
      refine ⟨bp, p, _, rfl, hm.brought.2, fun hb => ?_, rfl⟩
      rw [hm.action] at hb
      cases hb
    · cases h
      exact ⟨bp, { bp with adjustments := bp.adjustments.or ⟨true, false⟩ }, _, rfl,
        ⟨List.Subset.refl _, holdLe_refl _, holdLe_refl _, id⟩, fun hb => ⟨hb, rfl⟩, rfl⟩

/-- **One call.** -/
theorem Call.kept {c : Call} (h : c.run env k s = .ok s')
    (hs : (∀ x ∈ s.history, x.fits = true) → s.Kept) (hf : ∀ x ∈ s'.history, x.fits = true) :
    s'.Kept := by
  cases c with
  | enter n p => exact kept_enter h (hs fun x hx => hf x (history_enter h hx))
  | collectBuild pkg recursively =>
    obtain ⟨r, hr, h⟩ := bind_eq_ok.mp h
    cases h
    exact (collectBuild_steps supplies_all trivial hr).kept hs hf
  | collectPrerequisites n =>
    exact (collectPrerequisites_steps supplies_all (fun _ _ _ _ => collectBuild_steps supplies_all)
      h).kept hs hf
  | collectUnhold sp =>
    obtain ⟨bp, p, i, hbp, hb, ha, rfl⟩ := collectUnhold_cases h
    have hs' := hs hf
    refine kept_update hs' hbp (fun hp => ?_) hb
    rw [(ha hp).2]
    exact hs'.satisfied sp.name bp hbp (ha hp).1
  | collectPostponed => exact (collectPostponed_steps supplies_all h).kept hs hf

/-- **Collection keeps its constraints as long as what it puts into the map fits**: then after any
calls each build has a version that satisfies the constraints of its entry, and nothing that was
brought to the map is lost. -/
theorem constraints_kept (env : Environment) (k : ℕ) (calls : List Call) {s : Collection}
    (h : runCalls env k calls = .ok s) (hf : ∀ x ∈ s.history, x.fits = true) : s.Kept := by
  unfold runCalls at h
  have hrun : ∀ (calls : List Call) (s0 : Collection), calls.foldlM (Call.run env k) s0 = .ok s →
      ((∀ x ∈ s0.history, x.fits = true) → s0.Kept) → s.Kept := by
    intro calls
    induction calls with
    | nil =>
      intro s0 h h0
      cases h
      exact h0 hf
    | cons c calls ih =>
      intro s0 h h0
      rw [List.foldlM_cons] at h
      obtain ⟨s1, h1, h⟩ := bind_eq_ok.mp h
      exact ih s1 h fun hf1 => Call.kept h1 h0 hf1
  exact hrun calls _ h fun _ => ⟨fun n p h => (by cases h), fun x hx => (by cases hx)⟩

end

/-! The user asks for a version of the library and to build the program. -/

/-- The environment of the sample database. -/
def sampleEnvironment : Environment :=
  sampleDatabase.environment (fun _ => none) (fun _ => true) (fun _ => true) fun _ => 0

/-- The calls for the program `exe` with `?lib/<v>`. -/
def sampleCalls (v : Version) : List Call :=
  [.enter sampleLib ⟨none, none, none, none, some false, some true, [⟨[], exactly v⟩], false, false,
      [], [.empty], {}⟩,
    .collectBuild ⟨some .build, none, some (.one sampleExe sampleExe_ne (dependsOn sampleLib)),
      some [65], none, none, [], false, false, [], [.empty], {}⟩ false,
    .collectPrerequisites sampleExe,
    .collectUnhold ⟨sampleLib, versionTwo, .configured, .none, true, false, []⟩,
    .collectPostponed]

theorem constraints_kept_two : ∃ s, runCalls sampleEnvironment 4 (sampleCalls versionTwo) = .ok s ∧
    s.history.length = 3 ∧ s.Kept := by
  obtain ⟨s, hs, h⟩ := okAnd_iff.mp (show okAnd (fun s => s.history.length = 3 &&
    s.history.all Put.fits) (runCalls sampleEnvironment 4 (sampleCalls versionTwo)) = true by
      decide +kernel)
  rw [Bool.and_eq_true, decide_eq_true_eq, List.all_eq_true] at h
  exact ⟨s, hs, h.1, constraints_kept sampleEnvironment 4 (sampleCalls versionTwo) hs h.2⟩

/-- With `?lib/1`, which the repository of the program does not have, the program is postponed. The
library is unheld then, and its constraint is not looked at any more. -/
theorem constraint_not_kept : ∃ s, runCalls sampleEnvironment 4 (sampleCalls versionOne) = .ok s ∧
    ∃ p, s.package sampleLib = some p ∧ p.action = some .build ∧
      p.availableVersion = .ok versionTwo ∧ ⟨[], exactly versionOne⟩ ∈ p.constraints ∧
      satisfiesVersion versionTwo (exactly versionOne) = .ok false := by
  obtain ⟨s, hs, h⟩ := okAnd_iff.mp (show okAnd (fun s => (s.package sampleLib).any fun p =>
    p.action = some .build && (okAnd (· = versionTwo) p.availableVersion &&
      ⟨[], exactly versionOne⟩ ∈ p.constraints))
        (runCalls sampleEnvironment 4 (sampleCalls versionOne)) = true by decide +kernel)
  obtain ⟨p, hp, h⟩ := (Option.any_eq_true _ _).mp h
  simp only [Bool.and_eq_true, decide_eq_true_eq] at h
  obtain ⟨v, hv, h1⟩ := okAnd_iff.mp h.2.1
  refine ⟨s, hs, p, hp, h.1, ?_, h.2.2, by decide⟩
  rw [hv, of_decide_eq_true h1]

end Build2.Bpkg.PkgBuild
