import Build2.Bpkg.PkgBuild.Available

/-! # What evaluating a dependency decides

The decision satisfies the dependents and what the user expects, and there is nothing better within
reach of the dependents (`Decides`), unless the first satisfactory candidate is a stub or another
iteration of what is asked for. -/

namespace Build2.Bpkg.PkgBuild

open Build2.Lib.ByteString Build2.Lib.Stateful Build2.Libbpkg Build2.Libbutl
open Database (Reaches Queried Descending)

/-! ### What is expected of a decision -/

/-- A version satisfies all the dependents. -/
def SatisfiesAll (v : Version) (dependents : PackageDependents) : Prop :=
  ∀ dp ∈ dependents, satisfiesOptional v dp.2 = .ok true

section

variable (cfg : Configuration) (sp : SelectedPackage) (e : Expectation)
  (rfs : List RepositoryFragment) (dependents : PackageDependents)

/-- A package that is not a stub is available from the repositories of the dependents. -/
def AvailableFrom (b : AvailablePackage) : Prop :=
  ∃ locations, (b, locations) ∈ cfg.available ∧ b.name = sp.name ∧ b.stub = false ∧
    cfg.Reaches rfs locations

/-- The version satisfies the requested constraint or, when patching, the patch constraint. -/
def InRange (v : Version) : Prop :=
  (∀ c ∈ e.constraint, satisfiesVersion v c = .ok true) ∧
    (e.constraint = none → e.patch = true →
      ∀ c, (patchConstraint sp).eval cfg.errno = .ok (some c) → satisfiesVersion v c = .ok true)

/-- No available package that is in the range and higher satisfies all the dependents. -/
def NoneAbove (v : Version) : Prop :=
  ∀ b, AvailableFrom cfg sp rfs b → InRange cfg sp e b.version → b.version.cmp v = .gt →
    ¬ SatisfiesAll b.version dependents

/-- A decision as it should be. -/
structure Decides (ap : AvailablePackage) (system : Bool) : Prop where
  /-- What is to be configured satisfies the dependents and is a change. -/
  effective : ∃ v, effectiveVersion ap system = .ok v ∧ SatisfiesAll v dependents ∧
    ¬ (v.cmp sp.version = .eq ∧ sp.isSystem = .ok system)
  requested : system = false → ∀ c ∈ e.constraint, satisfiesVersion ap.version c = .ok true
  source : system = false → ap.stub = false
  best : NoneAbove cfg sp e rfs dependents ap.version
  notBelow : e.constraint = none → sp.isSystem = .ok false → ap.version.cmp sp.version ≠ .lt

/-- The selected package stays for a reason: it cannot be patched, it is to be upgraded and there is
nothing better, or it is what is to be configured. -/
def Stays : Prop :=
  constraintFor cfg sp e = .ok none ∨
  (e.constraint = none ∧ sp.isSystem = .ok false ∧
    NoneAbove cfg sp e rfs dependents sp.version) ∨
  (sp.isSystem = .ok e.system ∧ (∃ v, v.cmp sp.version = .eq ∧ SatisfiesAll v dependents) ∧
    (e.constraint = none → NoneAbove cfg sp e rfs dependents sp.version))

/-- An evaluation as it should be. -/
def Meets (ignoreUnsatisfiable : Bool) (r : EvaluateResult) : Prop :=
  (∀ ap ∈ r.available, Decides cfg sp e rfs dependents ap r.system) ∧
    (ignoreUnsatisfiable = false → r.available = none → Stays cfg sp e rfs dependents)

end

theorem lift_eq_ok {α : Type} {x : Except Libbutl.ParseUint.Fault α} {a : α} :
    Failure.lift x = .ok a ↔ x = .ok a := by
  unfold Failure.lift
  cases x with
  | error f => exact ⟨fun h => (by cases h), fun h => (by cases h)⟩
  | ok b => exact ⟨fun h => (by cases h; rfl), fun h => (by cases h; rfl)⟩

/-! ### One candidate -/

section

variable {v : Version} {ignoreUnsatisfiable : Bool} {dependents : PackageDependents}

/-- The version does not satisfy some dependent. -/
def Unsatisfactory (v : Version) (ignoreUnsatisfiable : Bool) (dependents : PackageDependents) :
    Prop :=
  ∃ names, checkDependents v ignoreUnsatisfiable dependents true [] = .ok (false, names)

theorem checkDependents_true {s : Bool} {names names' : List PackageName} :
    checkDependents v ignoreUnsatisfiable dependents s names = .ok (true, names') ↔
      s = true ∧ names = names' ∧ SatisfiesAll v dependents := by
  induction dependents generalizing s names with
  | nil =>
    unfold checkDependents SatisfiesAll
    simp
  | cons dp dps ih =>
    unfold checkDependents SatisfiesAll
    rw [List.forall_mem_cons]
    constructor
    · intro h
      obtain ⟨b, hb, h⟩ := bind_eq_ok.mp h
      cases b with
      | true =>
        obtain ⟨h1, h2, h3⟩ := ih.mp h
        exact ⟨h1, h2, hb, h3⟩
      | false =>
        simp only [Bool.false_eq_true, if_false] at h
        split_ifs at h
        · cases h
        · cases (ih.mp h).1
    · rintro ⟨rfl, rfl, h1, h2⟩
      exact bind_eq_ok.mpr ⟨true, h1, ih.mpr ⟨rfl, rfl, h2⟩⟩

theorem not_satisfiesAll (h : Unsatisfactory v ignoreUnsatisfiable dependents) :
    ¬ SatisfiesAll v dependents := by
  intro hs
  obtain ⟨names, hn⟩ := h
  have ht : checkDependents v ignoreUnsatisfiable dependents true [] = .ok (true, []) :=
    checkDependents_true.mpr ⟨rfl, rfl, hs⟩
  rw [ht] at hn
  cases hn

end

section

variable {sp : SelectedPackage} {ssys : Bool} {e : Expectation} {dependents : PackageDependents}
  {ignoreUnsatisfiable : Bool} {af : AvailablePackage × Option RepositoryFragment} {av : Version}
  {u u' : List (Version × List PackageName)} {s s' : Bool} {st : Turn}

/-- Below the selected version, when that is to be upgraded. -/
def Below (sp : SelectedPackage) (e : Expectation) (v : Version) : Prop :=
  e.constraint = none ∧ v.cmp sp.version = .lt

/-- The candidate is looked at: it is not below, or the system package has to be changed to it. -/
def LookedAt (sp : SelectedPackage) (ssys : Bool) (e : Expectation) (ap : AvailablePackage)
    (v : Version) : Prop :=
  Below sp e v → e.system = false ∧ ssys = true ∧ ap.stub = false

/-- How a step goes on. -/
def goesOn (e : Expectation) (u : List (Version × List PackageName)) (s : Bool) : Turn :=
  if e.system then .stop u s else .next u s

theorem choose_spec (h : choose sp ssys e dependents ignoreUnsatisfiable af av u s = .ok st) :
    (Unsatisfactory av ignoreUnsatisfiable dependents ∧ ∃ u', st = goesOn e u' s) ∨
    (SatisfiesAll av dependents ∧ (av.cmp sp.version = .eq ∧ ssys = e.system) ∧
      st = .result noChange) ∨
    (SatisfiesAll av dependents ∧ ¬ (av.cmp sp.version = .eq ∧ ssys = e.system) ∧
      st = .result ⟨some af.1, af.2, false, e.system⟩) := by
  obtain ⟨⟨b, names⟩, hb, h⟩ := bind_eq_ok.mp h
  have hcheck : checkDependents av ignoreUnsatisfiable dependents true [] = .ok (b, names) :=
    lift_eq_ok.mp hb
  cases b with
  | false =>
    refine Or.inl ⟨⟨names, hcheck⟩, ?_⟩
    cases h
    exact ⟨_, rfl⟩
  | true =>
    obtain ⟨-, -, hs⟩ := checkDependents_true.mp hcheck
    simp only [Bool.not_true, Bool.false_eq_true, if_false] at h
    split_ifs at h with heq
    · cases h
      exact Or.inr (Or.inl ⟨hs, heq, rfl⟩)
    · cases h
      exact Or.inr (Or.inr ⟨hs, heq, rfl⟩)

/-- **One candidate.** -/
theorem consider_spec (h : consider sp ssys e dependents ignoreUnsatisfiable af u s = .ok st) :
    ∃ v, effectiveVersion af.1 e.system = .ok v ∧
      ((Below sp e v ∧ e.system = false ∧ ssys = false ∧ st = .result noChange) ∨
       (Below sp e v ∧ e.system = false ∧ ssys = true ∧ af.1.stub = true ∧ st = .next u true) ∨
       (LookedAt sp ssys e af.1 v ∧
         choose sp ssys e dependents ignoreUnsatisfiable af v u s = .ok st)) := by
  obtain ⟨v, hv, h⟩ := bind_eq_ok.mp h
  refine ⟨v, hv, ?_⟩
  by_cases hbelow : e.constraint.isNone ∧ v.cmp sp.version = .lt
  · rw [if_pos hbelow] at h
    have hb : Below sp e v := ⟨Option.isNone_iff_eq_none.mp hbelow.1, hbelow.2⟩
    split_ifs at h with h1 h2 h3
    · cases h
      exact Or.inl ⟨hb, by simpa using h1, by simpa using h2, rfl⟩
    · cases h
      exact Or.inr (Or.inl ⟨hb, by simpa using h1, by simpa using h2, h3, rfl⟩)
    · exact Or.inr (Or.inr ⟨fun _ => ⟨by simpa using h1, by simpa using h2, by simpa using h3⟩, h⟩)
  · rw [if_neg hbelow] at h
    refine Or.inr (Or.inr ⟨fun hb => absurd ?_ hbelow, h⟩)
    exact ⟨Option.isNone_iff_eq_none.mpr hb.1, hb.2⟩

/-! ### The walk -/

/-- The loop goes on after the candidate. -/
def PassedOver (sp : SelectedPackage) (ssys : Bool) (e : Expectation)
    (dependents : PackageDependents) (ignoreUnsatisfiable : Bool) (ap : AvailablePackage) : Prop :=
  e.system = false ∧
    ((Below sp e ap.version ∧ ssys = true ∧ ap.stub = true) ∨
      (LookedAt sp ssys e ap ap.version ∧
        Unsatisfactory ap.version ignoreUnsatisfiable dependents))

/-- The package is changed to the candidate. -/
def Taken (sp : SelectedPackage) (ssys : Bool) (e : Expectation) (dependents : PackageDependents)
    (ap : AvailablePackage) (v : Version) : Prop :=
  LookedAt sp ssys e ap v ∧ SatisfiesAll v dependents ∧
    ¬ (v.cmp sp.version = .eq ∧ ssys = e.system)

variable {afs pre post : List (AvailablePackage × Option RepositoryFragment)} {r : EvaluateResult}

theorem exhausted_spec (h : exhausted sp ssys e ignoreUnsatisfiable u s = .ok r) : r = noChange ∧
    (e.constraint = none ∧ ssys = false ∧ e.system = false ∨ ignoreUnsatisfiable = true) := by
  unfold exhausted at h
  split_ifs at h with h1 h2 h3
  · cases h
    exact ⟨rfl, Or.inl ⟨Option.isNone_iff_eq_none.mp h1.1, h1.2, by simpa using h2⟩⟩
  · cases h
    exact ⟨rfl, Or.inr h3⟩

/-- How the loop ends: with nothing chosen, or at a candidate after those it has passed over. -/
def Ended (sp : SelectedPackage) (ssys : Bool) (e : Expectation) (dependents : PackageDependents)
    (ignoreUnsatisfiable : Bool) (afs : List (AvailablePackage × Option RepositoryFragment))
    (r : EvaluateResult) : Prop :=
  (r = noChange ∧
    (e.constraint = none ∧ ssys = false ∧ e.system = false ∨ ignoreUnsatisfiable = true) ∧
    (e.system = false → ∀ x ∈ afs, PassedOver sp ssys e dependents ignoreUnsatisfiable x.1)) ∨
  ∃ pre af post v, afs = pre ++ af :: post ∧
    (∀ x ∈ pre, PassedOver sp ssys e dependents ignoreUnsatisfiable x.1) ∧
    effectiveVersion af.1 e.system = .ok v ∧
    ((Below sp e v ∧ e.system = false ∧ ssys = false ∧ r = noChange) ∨
     (SatisfiesAll v dependents ∧ (v.cmp sp.version = .eq ∧ ssys = e.system) ∧ r = noChange) ∨
     (Taken sp ssys e dependents af.1 v ∧ r = ⟨some af.1, af.2, false, e.system⟩))

theorem Ended.cons (hpass : PassedOver sp ssys e dependents ignoreUnsatisfiable af.1)
    (h : Ended sp ssys e dependents ignoreUnsatisfiable afs r) :
    Ended sp ssys e dependents ignoreUnsatisfiable (af :: afs) r := by
  rcases h with ⟨hr, hcase, hall⟩ | ⟨pre, af', post, v', rfl, hpre, hrest⟩
  · refine Or.inl ⟨hr, hcase, fun he => ?_⟩
    exact List.forall_mem_cons.mpr ⟨hpass, hall he⟩
  · refine Or.inr ⟨af :: pre, af', post, v', rfl, ?_, hrest⟩
    exact List.forall_mem_cons.mpr ⟨hpass, hpre⟩

/-- **The loop.** -/
theorem walk_spec (h : walk sp ssys e dependents ignoreUnsatisfiable afs u s = .ok r) :
    Ended sp ssys e dependents ignoreUnsatisfiable afs r := by
  induction afs generalizing u s with
  | nil =>
    obtain ⟨hr, hcase⟩ := exhausted_spec h
    exact Or.inl ⟨hr, hcase, fun _ => List.forall_mem_nil _⟩
  | cons af afs ih =>
    obtain ⟨st, hst, h⟩ := bind_eq_ok.mp h
    obtain ⟨v, hv, hcase⟩ := consider_spec hst
    rcases hcase with ⟨hb, he, hs, rfl⟩ | ⟨hb, he, hs, hstub, rfl⟩ | ⟨hl, hchoose⟩
    · cases h
      exact Or.inr ⟨[], af, afs, v, rfl, List.forall_mem_nil _, hv, Or.inl ⟨hb, he, hs, rfl⟩⟩
    · rw [he] at hv
      cases hv
      exact (ih h).cons ⟨he, Or.inl ⟨hb, hs, hstub⟩⟩
    · rcases choose_spec hchoose with ⟨hu, u', rfl⟩ | ⟨hs, heq, rfl⟩ | ⟨hs, hne, rfl⟩
      · unfold goesOn at h
        by_cases he : e.system = true
        · rw [if_pos he] at h
          obtain ⟨hr, hcase⟩ := exhausted_spec h
          refine Or.inl ⟨hr, hcase, fun h' => ?_⟩
          rw [he] at h'
          cases h'
        · have he' : e.system = false := by simpa using he
          rw [if_neg he] at h
          rw [he'] at hv
          cases hv
          exact (ih h).cons ⟨he', Or.inr ⟨hl, hu⟩⟩
      · cases h
        exact Or.inr ⟨[], af, afs, v, rfl, List.forall_mem_nil _, hv,
          Or.inr (Or.inl ⟨hs, heq, rfl⟩)⟩
      · cases h
        exact Or.inr ⟨[], af, afs, v, rfl, List.forall_mem_nil _, hv,
          Or.inr (Or.inr ⟨⟨hl, hs, hne⟩, rfl⟩)⟩

theorem consider_passedOver (h : PassedOver sp ssys e dependents ignoreUnsatisfiable af.1) :
    ∃ u' s', consider sp ssys e dependents ignoreUnsatisfiable af u s = .ok (.next u' s') := by
  obtain ⟨he, h⟩ := h
  unfold consider
  rw [he]
  show ∃ u' s', (if e.constraint.isNone ∧ af.1.version.cmp sp.version = .lt then _ else _) = _
  rcases h with ⟨hb, hs, hstub⟩ | ⟨hl, names, hn⟩
  · rw [if_pos ⟨Option.isNone_iff_eq_none.mpr hb.1, hb.2⟩, if_neg (by decide), hs,
      if_neg (by decide), if_pos hstub]
    exact ⟨u, true, rfl⟩
  · have hchoose : ∃ u' s', choose sp ssys e dependents ignoreUnsatisfiable af af.1.version u s =
        .ok (.next u' s') := by
      unfold choose Failure.lift
      rw [hn, he]
      exact ⟨_, s, rfl⟩
    by_cases hb : e.constraint.isNone ∧ af.1.version.cmp sp.version = .lt
    · obtain ⟨-, hs, hstub⟩ := hl ⟨Option.isNone_iff_eq_none.mp hb.1, hb.2⟩
      rw [if_pos hb, if_neg (by decide), hs, if_neg (by decide), hstub, if_neg (by decide), ← hs]
      exact hchoose
    · rw [if_neg hb]
      exact hchoose

theorem consider_taken (he : e.system = false)
    (h : Taken sp ssys e dependents af.1 af.1.version) :
    consider sp ssys e dependents ignoreUnsatisfiable af u s =
      .ok (.result ⟨some af.1, af.2, false, false⟩) := by
  obtain ⟨hl, hs, hne⟩ := h
  have hchoose : choose sp ssys e dependents ignoreUnsatisfiable af af.1.version u s =
      .ok (.result ⟨some af.1, af.2, false, false⟩) := by
    unfold choose Failure.lift
    rw [checkDependents_true.mpr ⟨rfl, rfl, hs⟩]
    show (if af.1.version.cmp sp.version = .eq ∧ ssys = e.system then _ else _) = _
    rw [if_neg hne, he]
    rfl
  unfold consider
  rw [he]
  show (if e.constraint.isNone ∧ af.1.version.cmp sp.version = .lt then _ else _) = _
  by_cases hb : e.constraint.isNone ∧ af.1.version.cmp sp.version = .lt
  · obtain ⟨-, hs, hstub⟩ := hl ⟨Option.isNone_iff_eq_none.mp hb.1, hb.2⟩
    rw [if_pos hb, if_neg (by decide), hs, if_neg (by decide), hstub, if_neg (by decide), ← hs]
    exact hchoose
  · rw [if_neg hb]
    exact hchoose

/-- The first candidate that is taken after those passed over is the decision. -/
theorem walk_taken (he : e.system = false)
    (hpre : ∀ x ∈ pre, PassedOver sp ssys e dependents ignoreUnsatisfiable x.1)
    (h : Taken sp ssys e dependents af.1 af.1.version) :
    walk sp ssys e dependents ignoreUnsatisfiable (pre ++ af :: post) u s =
      .ok ⟨some af.1, af.2, false, false⟩ := by
  induction pre generalizing u s with
  | nil =>
    unfold walk
    exact bind_eq_ok.mpr ⟨_, consider_taken he h, rfl⟩
  | cons x pre ih =>
    obtain ⟨u', s', hx⟩ : ∃ u' s', consider sp ssys e dependents ignoreUnsatisfiable x u s =
        .ok (.next u' s') := consider_passedOver (hpre x (by simp))
    unfold walk
    exact bind_eq_ok.mpr ⟨_, hx, ih fun y hy => hpre y (List.mem_cons_of_mem _ hy)⟩

end

/-! ### What is within reach -/

section

variable {cfg : Configuration} {sp : SelectedPackage} {e : Expectation} {ssys : Bool}
  {rfs : List RepositoryFragment} {dependents : PackageDependents} {ignoreUnsatisfiable : Bool}
  {c : Option VersionConstraint}
  {afs pre post : List (AvailablePackage × Option RepositoryFragment)}
  {af : AvailablePackage × Option RepositoryFragment} {b : AvailablePackage} {r : EvaluateResult}
  {w : Version}

theorem level_ne_of_stub {ap : AvailablePackage} (h : ap.stub = false) :
    level ap.version wildcardVersion ≠ .eq :=
  of_decide_eq_false h

theorem constraintFor_none (hn : e.constraint = none)
    (h : constraintFor cfg sp e = .ok (some c)) : e.system = false ∧
      (c = none ∧ e.patch = false ∨
        ∃ c', c = some c' ∧ e.patch = true ∧
          (patchConstraint sp).eval cfg.errno = .ok (some c')) := by
  unfold constraintFor at h
  rw [hn] at h
  simp only at h
  split_ifs at h with h1 h2
  · obtain ⟨o, ho, h⟩ := bind_eq_ok.mp h
    cases o with
    | none => cases h
    | some c' =>
      cases h
      exact ⟨by simpa using h1, Or.inr ⟨c', rfl, h2, lift_eq_ok.mp ho⟩⟩
  · cases h
    exact ⟨by simpa using h1, Or.inl ⟨rfl, by simpa using h2⟩⟩

theorem constraintFor_some {c' : VersionConstraint} (hn : e.constraint = some c')
    (h : constraintFor cfg sp e = .ok (some c)) : c = if e.system then none else some c' := by
  unfold constraintFor at h
  rw [hn] at h
  cases h
  rfl

/-- Without a requested constraint on available packages, the query selects all in the range. -/
theorem queried_of_inRange (hn : e.constraint = none ∨ e.system = true)
    (h : constraintFor cfg sp e = .ok (some c)) (hb : b.stub = false)
    (hr : InRange cfg sp e b.version) : Queried c b.version := by
  cases hc : e.constraint with
  | none =>
    rcases (constraintFor_none hc h).2 with ⟨rfl, -⟩ | ⟨c', rfl, hp, hp'⟩
    · nofun
    · obtain ⟨hreq, hopen⟩ := isRequest_patchConstraint hp'
      rintro _ ⟨⟩
      exact query_of_closed b.isAvailable hreq hopen (level_ne_of_stub hb) (hr.2 hc hp _ hp')
  | some c' =>
    have hsys := hn.resolve_left fun h => by
      rw [hc] at h
      cases h
    rw [constraintFor_some hc h, if_pos hsys]
    nofun

theorem candidate_cases (h : cfg.findAvailable sp.name c rfs = .ok afs) (haf : af ∈ afs) :
    ((∃ x ∈ cfg.available, x.1 = af.1) ∧ Queried c af.1.version) ∨ af.1.stub = true := by
  obtain ⟨-, h | ⟨-, ap, hap, rfl⟩⟩ := Database.findAvailable_spec h
  · exact Or.inl (h.1 af haf)
  · rw [List.mem_singleton.mp haf]
    exact Or.inr (cfg.stubs ap hap)

theorem unsatisfactory_of_passedOver (hb : b.stub = false)
    (h : PassedOver sp ssys e dependents ignoreUnsatisfiable b) :
    ¬ SatisfiesAll b.version dependents := by
  rcases h.2 with ⟨-, -, hstub⟩ | ⟨-, h⟩
  · rw [hb] at hstub
    cases hstub
  · exact not_satisfiesAll h

/-- **Nothing better before the candidate**, as those before it have been passed over and those
after it are not higher. -/
theorem noneAbove_of_split (h : cfg.findAvailable sp.name c rfs = .ok (pre ++ af :: post))
    (hpre : ∀ x ∈ pre, PassedOver sp ssys e dependents ignoreUnsatisfiable x.1)
    (hq : ∀ b, AvailableFrom cfg sp rfs b → InRange cfg sp e b.version → b.version.cmp w = .gt →
      Queried c b.version) (hw : af.1.version.cmp w ≠ .gt) :
    NoneAbove cfg sp e rfs dependents w := by
  intro b hb hrange hgt
  have hqb := hq b hb hrange hgt
  obtain ⟨locations, hmem, hname, hstub, hreach⟩ := hb
  obtain ⟨hall, hcase⟩ := Database.findAvailable_spec h
  obtain ⟨rf, hb⟩ := hall (b, locations) hmem hname hqb hreach
  rcases hcase with ⟨hfrom, hsorted⟩ | ⟨hno, -⟩
  swap
  · exact absurd hreach (hno (b, locations) hmem hname hqb)
  rcases List.mem_append.mp hb with hb | hb
  · exact unsatisfactory_of_passedOver hstub (hpre (b, rf) hb)
  · -- the candidate or one after it
    have hle : b.version.cmp af.1.version ≠ .gt := by
      rcases List.mem_cons.mp hb with rfl | hb
      · rw [Version.cmp_self]
        decide
      · have hdesc : Descending af.1 b :=
          (List.pairwise_cons.mp (List.pairwise_append.mp hsorted).2.1).1 (b, rf) hb
        obtain ⟨⟨x, hx, he⟩, -⟩ := hfrom af (by simp)
        have hfold := cfg.folded x hx
        rw [he] at hfold
        unfold Descending at hdesc
        rwa [compareStored_eq (cfg.folded (b, locations) hmem) hfold] at hdesc
    exact absurd hgt (Version.compare_trans hle hw)

theorem evaluateDependency_eq_ok :
    evaluateDependency cfg sp e rfs dependents ignoreUnsatisfiable = .ok r ↔
      (constraintFor cfg sp e = .ok none ∧ r = noChange) ∨
      ∃ c afs ssys, constraintFor cfg sp e = .ok (some c) ∧
        cfg.findAvailable sp.name c rfs = .ok afs ∧ sp.isSystem = .ok ssys ∧
        ¬ (e.system = true ∧ cfg.systemRepository sp.name = none) ∧
        walk sp ssys e dependents ignoreUnsatisfiable afs [] false = .ok r := by
  unfold evaluateDependency
  constructor
  · intro h
    obtain ⟨o, ho, h⟩ := bind_eq_ok.mp h
    cases o with
    | none =>
      cases h
      exact Or.inl ⟨ho, rfl⟩
    | some c =>
      obtain ⟨afs, hafs, h⟩ := bind_eq_ok.mp h
      obtain ⟨ssys, hs, h⟩ := bind_eq_ok.mp h
      split_ifs at h with hsys
      exact Or.inr ⟨c, afs, ssys, ho, lift_eq_ok.mp hafs, hs, hsys, h⟩
  · rintro (⟨ho, rfl⟩ | ⟨c, afs, ssys, ho, hafs, hs, hsys, h⟩)
    · exact bind_eq_ok.mpr ⟨none, ho, rfl⟩
    · refine bind_eq_ok.mpr ⟨some c, ho, bind_eq_ok.mpr ⟨afs, lift_eq_ok.mpr hafs,
        bind_eq_ok.mpr ⟨ssys, hs, ?_⟩⟩⟩
      rw [if_neg hsys]
      exact h

theorem unused_of_evaluateDependency
    (h : evaluateDependency cfg sp e rfs dependents ignoreUnsatisfiable = .ok r) :
    r.unused = false := by
  rcases evaluateDependency_eq_ok.mp h with ⟨-, rfl⟩ | ⟨c, afs, ssys, -, -, -, -, h⟩
  · rfl
  · rcases walk_spec h with
      ⟨rfl, -⟩ | ⟨_, _, _, _, _, _, _, ⟨-, -, -, rfl⟩ | ⟨-, -, rfl⟩ | ⟨-, rfl⟩⟩
    · rfl
    · rfl
    · rfl
    · rfl

end

/-! ### Where evaluations go astray -/

/-- The first satisfactory candidate, in the descending order of versions, is a stub, though the
package is to be built from source, or it is another iteration of what is asked for. -/
def Strays (cfg : Configuration) (sp : SelectedPackage) (e : Expectation)
    (rfs : List RepositoryFragment) (dependents : PackageDependents)
    (ignoreUnsatisfiable : Bool) : Prop :=
  e.system = false ∧ ∃ c ssys pre af post, constraintFor cfg sp e = .ok (some c) ∧
    sp.isSystem = .ok ssys ∧ cfg.findAvailable sp.name c rfs = .ok (pre ++ af :: post) ∧
    (∀ x ∈ pre, PassedOver sp ssys e dependents ignoreUnsatisfiable x.1) ∧
    Taken sp ssys e dependents af.1 af.1.version ∧
    (af.1.stub = true ∨ ∃ c ∈ e.constraint, OtherIteration af.1.version c)

section

variable {cfg : Configuration} {sp : SelectedPackage} {e : Expectation}
  {rfs : List RepositoryFragment} {dependents : PackageDependents} {ignoreUnsatisfiable : Bool}
  {c : Option VersionConstraint} {r : EvaluateResult}

/-- A candidate that is not a stub satisfies what is asked for, unless it is another iteration. -/
theorem requested_iff {c' : VersionConstraint}
    {afs : List (AvailablePackage × Option RepositoryFragment)}
    {af : AvailablePackage × Option RepositoryFragment} (hc : e.constraint = some c')
    (he : e.system = false) (h : constraintFor cfg sp e = .ok (some c))
    (hf : cfg.findAvailable sp.name c rfs = .ok afs) (haf : af ∈ afs) (hs : af.1.stub = false) :
    queryAvailable c' (canonicalVersion af.1.version) = .ok true ∧
      (satisfiesVersion af.1.version c' = .ok true ↔ ¬ OtherIteration af.1.version c') := by
  have hcc := constraintFor_some hc h
  rw [if_neg (by rw [he]; decide)] at hcc
  have hq := ((candidate_cases hf haf).resolve_right fun h => by
    rw [hs] at h
    cases h).2 c' hcc
  exact ⟨hq, satisfies_iff af.1.isAvailable (e.isRequest hc) (level_ne_of_stub hs) hq⟩

theorem decides_of_taken {ssys : Bool}
    {pre post : List (AvailablePackage × Option RepositoryFragment)}
    {af : AvailablePackage × Option RepositoryFragment} {v : Version}
    (hn : ¬ Strays cfg sp e rfs dependents ignoreUnsatisfiable)
    (hc : constraintFor cfg sp e = .ok (some c)) (hs : sp.isSystem = .ok ssys)
    (hf : cfg.findAvailable sp.name c rfs = .ok (pre ++ af :: post))
    (hpre : ∀ x ∈ pre, PassedOver sp ssys e dependents ignoreUnsatisfiable x.1)
    (hv : effectiveVersion af.1 e.system = .ok v) (ht : Taken sp ssys e dependents af.1 v) :
    Decides cfg sp e rfs dependents af.1 e.system := by
  have hmem : af ∈ pre ++ af :: post := by simp
  have hversion : e.system = false → v = af.1.version := by
    intro he
    rw [he] at hv
    cases hv
    rfl
  have hgood : e.system = false → af.1.stub = false ∧
      ∀ c' ∈ e.constraint, ¬ OtherIteration af.1.version c' := by
    intro he
    have ht' := ht
    rw [hversion he] at ht'
    refine ⟨eq_false_of_ne_true fun h => ?_, fun c' hc' h => ?_⟩
    · exact hn ⟨he, c, ssys, pre, af, post, hc, hs, hf, hpre, ht', Or.inl h⟩
    · exact hn ⟨he, c, ssys, pre, af, post, hc, hs, hf, hpre, ht', Or.inr ⟨c', hc', h⟩⟩
  refine ⟨⟨v, hv, ht.2.1, fun h => ht.2.2 ⟨h.1, ?_⟩⟩, ?_, fun he => (hgood he).1, ?_, ?_⟩
  · rw [hs] at h
    exact Except.ok.inj h.2
  · intro he c' hc'
    obtain ⟨hstub, hiter⟩ := hgood he
    exact (requested_iff hc' he hc hf hmem hstub).2.mpr (hiter c' hc')
  · refine noneAbove_of_split hf hpre (fun b hb hrange hgt => ?_) ?_
    · cases hcon : e.constraint with
      | none =>
        obtain ⟨_, -, -, hstub, -⟩ := hb
        exact queried_of_inRange (Or.inl hcon) hc hstub hrange
      | some c' =>
        obtain ⟨locations, hb, -, hstub, -⟩ := hb
        cases he : e.system with
        | true => exact queried_of_inRange (Or.inr he) hc hstub hrange
        | false =>
          have hcc := constraintFor_some hcon hc
          rw [if_neg (by rw [he]; decide)] at hcc
          rw [hcc]
          rintro _ ⟨⟩
          obtain ⟨hst, -⟩ := hgood he
          obtain ⟨hqa, -⟩ := requested_iff hcon he hc hf hmem hst
          obtain ⟨⟨x, hx, hxa⟩, -⟩ := (candidate_cases hf hmem).resolve_right fun h => by
            rw [hst] at h
            cases h
          have hfold := cfg.folded x hx
          rw [hxa] at hfold
          exact query_of_higher b.isAvailable (e.isRequest hcon) (level_ne_of_stub hstub)
            (cfg.folded (b, locations) hb) (hrange.1 c' hcon) hfold (level_ne_of_stub hst) hqa hgt
    · rw [Version.cmp_self]
      decide
  · intro hcon hsys hlt
    have he := (constraintFor_none hcon hc).1
    rw [hs] at hsys
    obtain ⟨-, hs', -⟩ := ht.1 ⟨hcon, by rw [hversion he]; exact hlt⟩
    rw [hs'] at hsys
    cases hsys

theorem stays_of_ended {ssys : Bool} {afs : List (AvailablePackage × Option RepositoryFragment)}
    (hc : constraintFor cfg sp e = .ok (some c)) (hs : sp.isSystem = .ok ssys)
    (hf : cfg.findAvailable sp.name c rfs = .ok afs)
    (h : Ended sp ssys e dependents false afs r) (hr : r.available = none) :
    Stays cfg sp e rfs dependents := by
  have hq : ∀ {w}, e.constraint = none → ∀ b, AvailableFrom cfg sp rfs b →
      InRange cfg sp e b.version → b.version.cmp w = .gt → Queried c b.version := by
    rintro w hcon b ⟨_, -, -, hstub, -⟩ hrange -
    exact queried_of_inRange (Or.inl hcon) hc hstub hrange
  rcases h with ⟨-, hcase, hall⟩ | ⟨pre, af, post, v, rfl, hpre, hv, h⟩
  · obtain ⟨hcon, hss, he⟩ := hcase.resolve_right nofun
    refine Or.inr (Or.inl ⟨hcon, hs.trans (by rw [hss]), fun b hb hrange hgt => ?_⟩)
    have hqb := hq hcon b hb hrange hgt
    obtain ⟨locations, hmem, hname, hstub, hreach⟩ := hb
    obtain ⟨rf, hb⟩ := (Database.findAvailable_spec hf).1 (b, locations) hmem hname hqb hreach
    exact unsatisfactory_of_passedOver hstub (hall he (b, rf) hb)
  · rcases h with ⟨hb, he, hss, -⟩ | ⟨hsat, ⟨heq, hss⟩, -⟩ | ⟨-, rfl⟩
    · rw [he] at hv
      cases hv
      refine Or.inr (Or.inl ⟨hb.1, hs.trans (by rw [hss]), ?_⟩)
      refine noneAbove_of_split hf hpre (hq hb.1) ?_
      rw [hb.2]
      decide
    · refine Or.inr (Or.inr ⟨hs.trans (by rw [hss]), ⟨v, heq, hsat⟩, fun hcon => ?_⟩)
      have he := (constraintFor_none hcon hc).1
      rw [he] at hv
      cases hv
      refine noneAbove_of_split hf hpre (hq hcon) ?_
      rw [heq]
      decide
    · cases hr

/-- **Evaluating a dependency** for given fragments and dependents. -/
theorem evaluateDependency_iff (cfg : Configuration) (sp : SelectedPackage) (e : Expectation)
    (rfs : List RepositoryFragment) (dependents : PackageDependents) (ignoreUnsatisfiable : Bool) :
    (∀ r, evaluateDependency cfg sp e rfs dependents ignoreUnsatisfiable = .ok r →
      Meets cfg sp e rfs dependents ignoreUnsatisfiable r) ↔
      ¬ Strays cfg sp e rfs dependents ignoreUnsatisfiable := by
  constructor
  · rintro h ⟨he, c, ssys, pre, af, post, hc, hs, hf, hpre, ht, hbad⟩
    have hr := evaluateDependency_eq_ok.mpr (Or.inr ⟨c, _, ssys, hc, hf, hs,
      fun h => (by rw [he] at h; cases h.1), walk_taken he hpre ht⟩)
    have hd := (h _ hr).1 af.1 rfl
    have hst := hd.source rfl
    rcases hbad with hstub | ⟨c', hc', hiter⟩
    · rw [hst] at hstub
      cases hstub
    · exact (requested_iff hc' he hc hf (by simp) hst).2.mp (hd.requested rfl c' hc') hiter
  · intro hn r h
    rcases evaluateDependency_eq_ok.mp h with ⟨hc, rfl⟩ | ⟨c, afs, ssys, hc, hf, hs, -, h⟩
    · exact ⟨fun _ h => absurd h (Option.not_mem_none _), fun _ _ => Or.inl hc⟩
    · have hended := walk_spec h
      refine ⟨fun ap hap => ?_, fun hi hr => ?_⟩
      · rcases hended with ⟨rfl, -⟩ | ⟨pre, af, post, v, rfl, hpre, hv, h⟩
        · cases hap
        · rcases h with ⟨-, -, -, rfl⟩ | ⟨-, -, rfl⟩ | ⟨ht, rfl⟩
          · cases hap
          · cases hap
          · cases hap
            exact decides_of_taken hn hc hs hf hpre hv ht
      · rw [hi] at hended
        exact stays_of_ended hc hs hf hended hr

end

/-! ### The dependencies that the user mentions -/

section

variable {cfg : Configuration} {deps : List DependencyPackage} {sp : SelectedPackage}
  {ignoreUnsatisfiable : Bool} {r : EvaluateResult}

/-- What is left to evaluate: the package has dependents, the user mentions it and expects something
else of it. -/
def Pending (cfg : Configuration) (deps : List DependencyPackage) (sp : SelectedPackage)
    (i : DependencyPackage) (rfs : List RepositoryFragment) : Prop :=
  sp.holdPackage = false ∧ cfg.dependents sp.name ≠ [] ∧
    (deps.find? fun i => i.name = sp.name) = some i ∧
    meetsExpectation sp i.toExpectation = .ok false ∧
    cfg.fragmentsOf (cfg.dependents sp.name) [] = .ok rfs

/-- **The first function calls the second one** for what is left to evaluate, and there is no change
otherwise. -/
theorem evaluateMentioned_eq_ok :
    evaluateMentioned cfg deps sp ignoreUnsatisfiable = .ok (some r) ↔
      (sp.holdPackage = false ∧ cfg.dependents sp.name = [] ∧ r = ⟨none, none, true, false⟩) ∨
      (sp.holdPackage = false ∧ cfg.dependents sp.name ≠ [] ∧ r = noChange ∧
        ∃ i, (deps.find? fun i => i.name = sp.name) = some i ∧
          meetsExpectation sp i.toExpectation = .ok true) ∨
      ∃ i rfs, Pending cfg deps sp i rfs ∧
        evaluateDependency cfg sp i.toExpectation rfs (cfg.dependents sp.name)
          ignoreUnsatisfiable = .ok r := by
  unfold evaluateMentioned Pending
  constructor
  · intro h
    split_ifs at h with hh hd
    · cases h
      exact Or.inl ⟨by simpa using hh, hd, rfl⟩
    · have hh' : sp.holdPackage = false := by simpa using hh
      cases hf : deps.find? fun i => i.name = sp.name with
      | none =>
        rw [hf] at h
        cases h
      | some i =>
        rw [hf] at h
        obtain ⟨b, hb, h⟩ := bind_eq_ok.mp h
        cases b with
        | true =>
          cases h
          exact Or.inr (Or.inl ⟨hh', hd, rfl, i, rfl, hb⟩)
        | false =>
          obtain ⟨rfs, hrfs, h⟩ := bind_eq_ok.mp h
          obtain ⟨r', hr, h⟩ := bind_eq_ok.mp h
          cases h
          exact Or.inr (Or.inr ⟨i, rfs, ⟨hh', hd, rfl, hb, hrfs⟩, hr⟩)
  · rintro (⟨hh, hd, rfl⟩ | ⟨hh, hd, rfl, i, hf, hb⟩ | ⟨i, rfs, ⟨hh, hd, hf, hb, hrfs⟩, hr⟩)
    · rw [if_neg (by simp [hh]), if_pos hd]
      rfl
    · rw [if_neg (by simp [hh]), if_neg hd, hf]
      exact bind_eq_ok.mpr ⟨true, hb, rfl⟩
    · rw [if_neg (by simp [hh]), if_neg hd, hf]
      exact bind_eq_ok.mpr ⟨false, hb, bind_eq_ok.mpr ⟨rfs, hrfs, bind_eq_ok.mpr ⟨r, hr, rfl⟩⟩⟩

end

theorem Pending.unique {cfg : Configuration} {deps : List DependencyPackage} {sp : SelectedPackage}
    {i i' : DependencyPackage} {rfs rfs' : List RepositoryFragment}
    (h : Pending cfg deps sp i rfs) (h' : Pending cfg deps sp i' rfs') : i = i' ∧ rfs = rfs' := by
  obtain ⟨-, -, hf, -, hr⟩ := h
  obtain ⟨-, -, hf', -, hr'⟩ := h'
  rw [hf] at hf'
  rw [hr] at hr'
  exact ⟨Option.some.inj hf', Except.ok.inj hr'⟩

/-- **Evaluating dependencies.** What is decided is as it should be, for given fragments and
dependents and for those in the database, unless the first satisfactory candidate is a stub or
another iteration. -/
theorem evaluate_iff (cfg : Configuration) (sp : SelectedPackage) (ignoreUnsatisfiable : Bool) :
    (∀ e rfs dependents,
      (∀ r, evaluateDependency cfg sp e rfs dependents ignoreUnsatisfiable = .ok r →
        Meets cfg sp e rfs dependents ignoreUnsatisfiable r) ↔
        ¬ Strays cfg sp e rfs dependents ignoreUnsatisfiable) ∧
    ∀ deps,
      (∀ r, evaluateMentioned cfg deps sp ignoreUnsatisfiable = .ok (some r) →
        (∀ ap ∈ r.available, ∃ i rfs, Pending cfg deps sp i rfs ∧
          Decides cfg sp i.toExpectation rfs (cfg.dependents sp.name) ap r.system) ∧
        (ignoreUnsatisfiable = false → r.available = none → r.unused = false →
          ∃ i, (deps.find? fun i => i.name = sp.name) = some i ∧
          (meetsExpectation sp i.toExpectation = .ok true ∨ ∃ rfs, Pending cfg deps sp i rfs ∧
            Stays cfg sp i.toExpectation rfs (cfg.dependents sp.name)))) ↔
      ¬ ∃ i rfs, Pending cfg deps sp i rfs ∧
        Strays cfg sp i.toExpectation rfs (cfg.dependents sp.name) ignoreUnsatisfiable := by
  refine ⟨fun e rfs dependents => evaluateDependency_iff cfg sp e rfs dependents _, fun deps => ?_⟩
  constructor
  · rintro h ⟨i, rfs, hp, hstrays⟩
    refine (evaluateDependency_iff cfg sp i.toExpectation rfs (cfg.dependents sp.name)
      ignoreUnsatisfiable).mp (fun r hr => ?_) hstrays
    obtain ⟨h1, h2⟩ := h r (evaluateMentioned_eq_ok.mpr (Or.inr (Or.inr ⟨i, rfs, hp, hr⟩)))
    refine ⟨fun ap hap => ?_, fun hi hnone => ?_⟩
    · obtain ⟨i', rfs', hp', hd⟩ := h1 ap hap
      obtain ⟨rfl, rfl⟩ := hp.unique hp'
      exact hd
    · obtain ⟨i', hf, h' | ⟨rfs', hp', hstays⟩⟩ :=
        h2 hi hnone (unused_of_evaluateDependency hr)
      · obtain ⟨-, -, hf', hm, -⟩ := hp
        rw [hf'] at hf
        cases hf
        rw [hm] at h'
        cases h'
      · obtain ⟨rfl, rfl⟩ := hp.unique hp'
        exact hstays
  · intro hn r hr
    rcases evaluateMentioned_eq_ok.mp hr with
      ⟨-, -, rfl⟩ | ⟨-, -, rfl, i, hi, hm⟩ | ⟨i, rfs, hp, hr⟩
    · exact ⟨fun _ h => absurd h (Option.not_mem_none _), fun _ _ h => by cases h⟩
    · exact ⟨fun _ h => absurd h (Option.not_mem_none _), fun _ _ _ => ⟨i, hi, Or.inl hm⟩⟩
    · have hmeets := (evaluateDependency_iff cfg sp i.toExpectation rfs (cfg.dependents sp.name)
        ignoreUnsatisfiable).mpr (fun h => hn ⟨i, rfs, hp, h⟩) r hr
      refine ⟨fun ap hap => ⟨i, rfs, hp, hmeets.1 ap hap⟩, fun hi hnone _ => ?_⟩
      exact ⟨i, hp.2.2.1, Or.inr ⟨rfs, hp, hmeets.2 hi hnone⟩⟩

/-! ### A stub -/

theorem isAvailable_wildcardVersion : IsAvailable wildcardVersion where
  constructed := .ofParts (e := 0) (u := str ['0']) (l := none) (r := none) (i := 0) (by rfl)
  notEarliest := nofun
  revision := by decide

/-- The stub of a package. -/
def AvailablePackage.stubOf (name : PackageName) (named : name ≠ .empty) : AvailablePackage :=
  ⟨name, wildcardVersion, [], none, false, named, isAvailable_wildcardVersion, isAvailable_none⟩

/-- Version 1 of the library, which the program depends on. -/
def configuredLib : SelectedPackage := ⟨sampleLib, versionOne, .configured, .none, false, false, []⟩

theorem folded_stubConfiguration : ∀ x ∈ [
    (AvailablePackage.one sampleExe sampleExe_ne (dependsOn sampleLib),
      ([[65]] : List RepositoryFragment)),
    (AvailablePackage.stubOf sampleLib sampleLib_ne, [[65]])],
    x.1.version.revision ≠ some 0 := by
  intro x hx
  rcases List.mem_cons.mp hx with rfl | hx
  · nofun
  · rw [List.mem_singleton.mp hx]
    nofun

/-- The program and a stub of the library are in one repository. -/
def stubConfiguration : Configuration where
  selected := [⟨sampleExe, versionOne, .configured, .none, true, false, [(sampleLib, none)]⟩,
    configuredLib]
  available := [(.one sampleExe sampleExe_ne (dependsOn sampleLib), [[65]]),
    (.stubOf sampleLib sampleLib_ne, [[65]])]
  repositories := ⟨fun _ => [], fun _ => [], fun r => [r].filter fun r => r = [65] ∨ r = [66]⟩
  fragments := [[65], [66]]
  closed := mem_sampleFragments
  imaginaryStubs := []
  folded := folded_stubConfiguration
  stubs := List.forall_mem_nil _
  systemRepository _ := none
  errno := .zero

/-- `== 2`. -/
def isTwo : VersionConstraint := ⟨some versionTwo, some versionTwo, false, false⟩

theorem isEndpoint_versionTwo : IsEndpoint versionTwo :=
  ⟨isAvailable_versionTwo.constructed, nofun⟩

theorem isComplete_isTwo : ∀ c ∈ some isTwo, IsComplete c := by
  rintro _ ⟨⟩
  refine ⟨rfl, rfl, ?_, ?_⟩
  · rintro _ ⟨⟩
    exact isEndpoint_versionTwo
  · rintro _ ⟨⟩
    exact isEndpoint_versionTwo

theorem held_isTwo : ∀ c ∈ some isTwo, Held c := by
  rintro _ ⟨⟩
  rfl

theorem iteration_isTwo :
    ∀ c ∈ some isTwo, c.maxOpen = true → ∀ m ∈ c.maxVersion, m.iteration = 0 := by
  rintro _ ⟨⟩ h
  cases h

/-- `?lib/2`. -/
def libTwo : DependencyPackage where
  constraint := some isTwo
  system := false
  patch := false
  explicitly := true
  isComplete := isComplete_isTwo
  held := held_isTwo
  iteration := iteration_isTwo
  name := sampleLib
  given := rfl

/-- Where version 2 is not available, the library is to be changed to the stub. -/
theorem stub_is_decided :
    evaluateMentioned stubConfiguration [libTwo] configuredLib false =
        .ok (some ⟨some (.stubOf sampleLib sampleLib_ne), some [65], false, false⟩) ∧
      (AvailablePackage.stubOf sampleLib sampleLib_ne).stub = true :=
  ⟨by rfl, by rfl⟩

end Build2.Bpkg.PkgBuild
