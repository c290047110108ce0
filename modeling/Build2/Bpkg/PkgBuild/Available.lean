import Build2.Bpkg.PkgBuild.Evaluate
import Build2.Bpkg.Satisfaction.Query
import Build2.Libbutl.StandardVersion.Endpoints

/-! # What a dependency can be changed to

The candidates that `find_available` returns are the available packages that the query selects and
that are within reach of the dependents, in the descending order of versions. What the query selects
and `satisfies` accepts differs by iterations (`satisfies_iff`, `query_of_higher`). -/

namespace Build2.Bpkg.PkgBuild

open Build2.Lib.ByteString Build2.Lib.Stateful Build2.Libbpkg Build2.Libbutl
open Build2.Libbutl.ParseUint (Call Errno)
open Version (compare_swap)

/-! ### The order -/

/-- The order of stored versions. -/
def compareStored : CanonicalVersion → CanonicalVersion → Ordering :=
  compareLex (compareOn (·.epoch)) <| compareLex (compareOn (·.canonicalUpstream)) <|
    compareLex (compareOn (·.canonicalRelease)) <| compareLex (compareOn (·.revision)) <|
    compareOn (·.iteration)

instance : Std.TransCmp compareStored := by
  unfold compareStored
  infer_instance

theorem versionDesc_iff {x y : CanonicalVersion} :
    Database.versionDesc x y = true ↔ compareStored y x ≠ .gt := by
  unfold Database.versionDesc compareStored
  simp only [compareLex, compareOn, decide_eq_true_eq]

section

variable {x y : Version}

theorem compare_folded {m n : Option ℕ} (hm : m ≠ some 0) (hn : n ≠ some 0) :
    compare m n = compare (m.getD 0) (n.getD 0) := by
  cases m with
  | none =>
    cases n with
    | none => rfl
    | some n =>
      have hpos : 0 < n := Nat.pos_of_ne_zero fun h => hn (by rw [h])
      exact (compare_lt_iff_lt.mpr hpos).symm
  | some m =>
    cases n with
    | none =>
      have hpos : 0 < m := Nat.pos_of_ne_zero fun h => hm (by rw [h])
      exact (compare_gt_iff_gt.mpr hpos).symm
    | some n => rfl

/-- Without zero revisions, versions are ordered as they are stored. -/
theorem compareStored_eq (hx : x.revision ≠ some 0) (hy : y.revision ≠ some 0) :
    compareStored (canonicalVersion x) (canonicalVersion y) = x.cmp y := by
  rw [Version.cmp, Version.compare_eq_compareParts]
  unfold compareStored Version.compareParts
  simp only [compareLex, compareOn, Bool.false_eq_true, if_false, Bool.or_self]
  rw [compare_folded hx hy]
  rfl

theorem cmp_swap (x y : Version) : y.cmp x = (x.cmp y).swap := compare_swap x y false false

theorem cmp_ne_gt_of_gt (h : x.cmp y = .gt) : y.cmp x ≠ .gt := by
  rw [cmp_swap x y, h]
  decide

theorem cmp_gt_of_revision (hx : x.revision ≠ some 0) (hy : y.revision ≠ some 0)
    (hl : level x y = .eq) (hr : y.effectiveRevision < x.effectiveRevision) : x.cmp y = .gt := by
  rw [Version.cmp, compare_eq_level, hl, compare_folded hx hy]
  have hgt : compare x.effectiveRevision y.effectiveRevision = .gt := compare_gt_iff_gt.mpr hr
  show ((compare x.effectiveRevision y.effectiveRevision).then _) = .gt
  rw [hgt]
  rfl

theorem cmp_gt_of_level (hl : level x y = .gt) : x.cmp y = .gt := by
  rw [Version.cmp, compare_eq_level, hl]
  rfl

end

/-! ### Searching -/

namespace Database

variable {db : Database} {rfs : List RepositoryFragment} {n : PackageName}
  {c : Option VersionConstraint}

/-- A location is within reach of one of the fragments. -/
def Reaches (db : Database) (rfs locations : List RepositoryFragment) : Prop :=
  ∃ r ∈ rfs, ∃ rf, db.filter r locations = .ok (some rf)

/-- The query selects the version. -/
def Queried (c : Option VersionConstraint) (v : Version) : Prop :=
  ∀ c' ∈ c, queryAvailable c' (canonicalVersion v) = .ok true

/-- The stored versions are in the descending order. -/
def Descending (x y : AvailablePackage) : Prop :=
  compareStored (canonicalVersion y.version) (canonicalVersion x.version) ≠ .gt

theorem mem_filterAll {l : List (AvailablePackage × List RepositoryFragment)}
    {aps : List (AvailablePackage × Option RepositoryFragment)} (h : db.filterAll rfs l = .ok aps) :
    (∀ x ∈ l, db.Reaches rfs x.2 → ∃ rf, (x.1, rf) ∈ aps) ∧ (∀ af ∈ aps, ∃ x ∈ l, x.1 = af.1) ∧
      (aps.map Prod.fst).Sublist (l.map Prod.fst) := by
  induction l generalizing aps with
  | nil =>
    cases h
    exact ⟨List.forall_mem_nil _, List.forall_mem_nil _, .slnil⟩
  | cons x l ih =>
    obtain ⟨rf, hrf, h⟩ := bind_eq_ok.mp h
    obtain ⟨tail, htail, h⟩ := bind_eq_ok.mp h
    obtain ⟨h1, h2, h3⟩ := ih htail
    cases rf with
    | some rf =>
      cases h
      refine ⟨?_, ?_, h3.cons_cons _⟩
      · intro y hy hreach
        rcases List.mem_cons.mp hy with rfl | hy
        · exact ⟨some rf, List.mem_cons_self⟩
        · obtain ⟨rf', h'⟩ := h1 y hy hreach
          exact ⟨rf', List.mem_cons_of_mem _ h'⟩
      · intro af haf
        rcases List.mem_cons.mp haf with rfl | haf
        · exact ⟨x, List.mem_cons_self, rfl⟩
        · obtain ⟨y, hy, he⟩ := h2 af haf
          exact ⟨y, List.mem_cons_of_mem _ hy, he⟩
    | none =>
      cases h
      refine ⟨?_, ?_, h3.cons _⟩
      · intro y hy hreach
        rcases List.mem_cons.mp hy with rfl | hy
        · obtain ⟨r, hr, rf, hf⟩ := hreach
          have hnone := findSomeM_eq_none hrf r hr
          rw [hf] at hnone
          cases hnone
        · exact h1 y hy hreach
      · intro af haf
        obtain ⟨y, hy, he⟩ := h2 af haf
        exact ⟨y, List.mem_cons_of_mem _ hy, he⟩

theorem query_spec {l : List (AvailablePackage × List RepositoryFragment)}
    (h : db.query n c = .ok l) :
    (∀ x, x ∈ l ↔ x ∈ db.available ∧ x.1.name = n ∧ Queried c x.1.version) ∧
      l.Pairwise fun x y => Descending x.1 y.1 := by
  obtain ⟨l', hl', h⟩ := bind_eq_ok.mp h
  cases h
  constructor
  · intro x
    rw [List.mem_insertionSort, mem_filterM_iff hl']
    refine and_congr_right fun _ => ?_
    by_cases hn : x.1.name = n
    · rw [if_neg (not_not.mpr hn)]
      cases c with
      | none => exact iff_of_true rfl ⟨hn, nofun⟩
      | some c =>
        refine ⟨fun h => ⟨hn, fun c' hc => ?_⟩, fun h => h.2 c rfl⟩
        cases hc
        exact h
    · rw [if_pos hn]
      exact iff_of_false nofun fun h => hn h.1
  · have : Std.Total fun x y : AvailablePackage × List RepositoryFragment =>
        versionDesc (canonicalVersion x.1.version) (canonicalVersion y.1.version) = true :=
      ⟨fun x y => by
        have hswap : compareStored (canonicalVersion x.1.version) (canonicalVersion y.1.version) =
            (compareStored (canonicalVersion y.1.version) (canonicalVersion x.1.version)).swap :=
          Std.OrientedCmp.eq_swap
        rw [versionDesc_iff, versionDesc_iff, hswap]
        cases compareStored (canonicalVersion y.1.version) (canonicalVersion x.1.version) <;> simp⟩
    have : IsTrans (AvailablePackage × List RepositoryFragment) fun x y =>
        versionDesc (canonicalVersion x.1.version) (canonicalVersion y.1.version) = true :=
      ⟨fun x y z hxy hyz => by
        rw [versionDesc_iff] at hxy hyz ⊢
        exact Ordering.ne_gt_iff_isLE.mpr (Std.TransCmp.isLE_trans
          (Ordering.ne_gt_iff_isLE.mp hyz) (Ordering.ne_gt_iff_isLE.mp hxy))⟩
    refine (List.pairwise_insertionSort _ l').imp fun h => ?_
    exact versionDesc_iff.mp h

/-- **What `find_available` finds**: all that is selected and within reach, in the descending order,
and otherwise an imaginary stub, if there is one. -/
theorem findAvailable_spec {afs : List (AvailablePackage × Option RepositoryFragment)}
    (h : db.findAvailable n c rfs = .ok afs) :
    (∀ x ∈ db.available, x.1.name = n → Queried c x.1.version → db.Reaches rfs x.2 →
      ∃ rf, (x.1, rf) ∈ afs) ∧
    ((∀ af ∈ afs, (∃ x ∈ db.available, x.1 = af.1) ∧ Queried c af.1.version) ∧
        afs.Pairwise (fun x y => Descending x.1 y.1) ∨
      (∀ x ∈ db.available, x.1.name = n → Queried c x.1.version → ¬ db.Reaches rfs x.2) ∧
        ∃ ap ∈ db.imaginaryStubs, afs = [(ap, none)]) := by
  obtain ⟨l, hl, h⟩ := bind_eq_ok.mp h
  obtain ⟨r, hr, h⟩ := bind_eq_ok.mp h
  obtain ⟨hmem, hsorted⟩ := query_spec hl
  obtain ⟨h1, h2, h3⟩ := mem_filterAll hr
  have hfound : ∀ x ∈ db.available, x.1.name = n → Queried c x.1.version → db.Reaches rfs x.2 →
      ∃ rf, (x.1, rf) ∈ r :=
    fun x hx hn hq hreach => h1 x ((hmem x).mpr ⟨hx, hn, hq⟩) hreach
  by_cases hnil : r = []
  · rw [if_pos hnil] at h
    have hno : ∀ x ∈ db.available, x.1.name = n → Queried c x.1.version →
        ¬ db.Reaches rfs x.2 := by
      intro x hx hn hq hreach
      obtain ⟨rf, hrf⟩ := hfound x hx hn hq hreach
      rw [hnil] at hrf
      cases hrf
    refine ⟨fun x hx hn hq hreach => absurd hreach (hno x hx hn hq), ?_⟩
    cases hs : db.imaginaryStubs.find? fun ap => ap.name = n with
    | none =>
      rw [hs] at h
      cases h
      exact Or.inl ⟨List.forall_mem_nil _, .nil⟩
    | some ap =>
      rw [hs] at h
      cases h
      exact Or.inr ⟨hno, ap, List.mem_of_find?_eq_some hs, rfl⟩
  · rw [if_neg hnil] at h
    cases h
    refine ⟨hfound, Or.inl ⟨?_, ?_⟩⟩
    · intro af haf
      obtain ⟨x, hx, he⟩ := h2 af haf
      obtain ⟨ha, -, hq⟩ := (hmem x).mp hx
      exact ⟨⟨x, ha, he⟩, he ▸ hq⟩
    · have hpair : (l.map Prod.fst).Pairwise Descending := List.pairwise_map.mpr hsorted
      exact List.pairwise_map.mp (hpair.sublist h3)

end Database

/-! ### The query and the check -/

/-- A constraint that packages are asked for: an open max endpoint has no iteration. -/
structure IsRequest (c : VersionConstraint) : Prop where
  isComplete : IsComplete c
  held : Held c
  iteration : c.maxOpen = true → ∀ m ∈ c.maxVersion, m.iteration = 0

theorem Expectation.isRequest (e : Expectation) {c : VersionConstraint}
    (h : e.constraint = some c) : IsRequest c :=
  ⟨e.isComplete c h, e.held c h, e.iteration c h⟩

/-- The version is that of a closed endpoint but for an iteration that is not in the range. -/
def OtherIteration (v : Version) (c : VersionConstraint) : Prop :=
  (∃ m ∈ c.minVersion, c.minOpen = false ∧ m.revision = some v.effectiveRevision ∧
      level v m = .eq ∧ v.iteration < m.iteration) ∨
    ∃ m ∈ c.maxVersion, c.maxOpen = false ∧ m.revision = some v.effectiveRevision ∧
      level v m = .eq ∧ m.iteration < v.iteration

section

variable {v w m : Version} {c : VersionConstraint} {n i : ℕ} {o : Bool}

theorem askedMin_of_queried (h : QueriedMin m o n) :
    AskedMin m o n i ↔ ¬ (o = false ∧ m.revision = some n ∧ i < m.iteration) := by
  unfold QueriedMin at h
  unfold AskedMin
  cases hr : m.revision with
  | none =>
    rw [hr] at h
    simpa using h
  | some r =>
    rw [hr] at h
    cases o with
    | true =>
      have hlt : r < n := h
      exact iff_of_true (pair_eq_gt.mpr (Or.inl hlt)) fun h' => by cases h'.1
    | false =>
      have hle : r ≤ n := h
      simp only [Bool.false_eq_true, if_false, pair_ne_lt, Option.some.injEq, true_and]
      omega

theorem askedMax_of_queried (h : QueriedMax m o n) :
    AskedMax m o n i ↔ ¬ (o = false ∧ m.revision = some n ∧ m.iteration < i) := by
  unfold QueriedMax at h
  unfold AskedMax
  cases hr : m.revision with
  | none =>
    rw [hr] at h
    simpa using h
  | some r =>
    rw [hr] at h
    cases o with
    | true =>
      have hlt : n < r := h
      exact iff_of_true (pair_eq_lt.mpr (Or.inl hlt)) fun h' => by cases h'.1
    | false =>
      have hle : n ≤ r := h
      simp only [Bool.false_eq_true, if_false, pair_ne_gt, Option.some.injEq, true_and]
      omega

/-- **A selected version satisfies the constraint**, unless it is another iteration. -/
theorem satisfies_iff (hv : IsAvailable v) (hc : IsRequest c)
    (hs : level v wildcardVersion ≠ .eq) (hq : queryAvailable c (canonicalVersion v) = .ok true) :
    satisfiesVersion v c = .ok true ↔ ¬ OtherIteration v c := by
  obtain ⟨hmin, hmax⟩ := (queryAvailable_iff hc.isComplete hc.held hs).mp hq
  rw [satisfiesVersion_iff hv hc.isComplete (ne_wildcard hs)]
  unfold OtherIteration
  rw [not_or]
  refine and_congr ?_ ?_
  · constructor
    · rintro h ⟨m, hm, ho, hr, hl, hi⟩
      have hasked := h m hm
      rw [hl] at hasked
      have hqm := hmin m hm
      rw [hl] at hqm
      exact (askedMin_of_queried (hqm.resolve_left nofun).2).mp (hasked.resolve_left nofun).2
        ⟨ho, hr, hi⟩
    · intro h m hm
      refine (hmin m hm).imp_right fun ⟨hl, hqm⟩ => ⟨hl, (askedMin_of_queried hqm).mpr ?_⟩
      exact fun ⟨ho, hr, hi⟩ => h ⟨m, hm, ho, hr, hl, hi⟩
  · constructor
    · rintro h ⟨m, hm, ho, hr, hl, hi⟩
      have hasked := h m hm
      rw [hl] at hasked
      have hqm := hmax m hm
      rw [hl] at hqm
      exact (askedMax_of_queried (hqm.resolve_left nofun).2).mp (hasked.resolve_left nofun).2
        ⟨ho, hr, hi⟩
    · intro h m hm
      refine (hmax m hm).imp_right fun ⟨hl, hqm⟩ => ⟨hl, (askedMax_of_queried hqm).mpr ?_⟩
      exact fun ⟨ho, hr, hi⟩ => h ⟨m, hm, ho, hr, hl, hi⟩

/-- What the min endpoint accepts and the query leaves out is a later iteration of an open one. -/
theorem queriedMin_of_asked (h : AskedMin m o n i) :
    QueriedMin m o n ∨ o = true ∧ m.revision = some n := by
  unfold AskedMin at h
  unfold QueriedMin
  cases hr : m.revision with
  | none =>
    rw [hr] at h
    exact Or.inl h
  | some r =>
    rw [hr] at h
    cases o with
    | true =>
      rcases pair_eq_gt.mp h with h | ⟨h, -⟩
      · exact Or.inl h
      · exact Or.inr ⟨rfl, by rw [h]⟩
    | false =>
      refine Or.inl ?_
      rcases pair_ne_lt.mp h with h | ⟨h, -⟩
      · exact h.le
      · exact h.le

theorem queriedMax_of_asked (h : AskedMax m o n i) (hm : o = true → m.iteration = 0) :
    QueriedMax m o n := by
  unfold AskedMax at h
  unfold QueriedMax
  cases hr : m.revision with
  | none =>
    rw [hr] at h
    exact h
  | some r =>
    rw [hr] at h
    cases o with
    | true =>
      rcases pair_eq_lt.mp h with h | ⟨-, h⟩
      · exact h
      · rw [hm rfl] at h
        exact absurd h (Nat.not_lt_zero i)
    | false =>
      rcases pair_ne_gt.mp h with h | ⟨h, -⟩
      · exact h.le
      · exact h.le

theorem query_of_closed (hv : IsAvailable v) (hc : IsRequest c) (ho : c.minOpen = false)
    (hs : level v wildcardVersion ≠ .eq) (h : satisfiesVersion v c = .ok true) :
    queryAvailable c (canonicalVersion v) = .ok true := by
  rw [queryAvailable_iff hc.isComplete hc.held hs]
  obtain ⟨hmin, hmax⟩ := (satisfiesVersion_iff hv hc.isComplete (ne_wildcard hs)).mp h
  refine ⟨fun m hm => ?_, fun m hm => ?_⟩
  · refine (hmin m hm).imp_right fun ⟨hl, ha⟩ => ⟨hl, ?_⟩
    refine (queriedMin_of_asked ha).resolve_right fun ⟨h, _⟩ => ?_
    rw [ho] at h
    cases h
  · refine (hmax m hm).imp_right fun ⟨hl, ha⟩ => ⟨hl, ?_⟩
    exact queriedMax_of_asked ha fun ho => hc.iteration ho m hm

/-- **A version that satisfies the constraint is selected**, if it is higher than a selected one. -/
theorem query_of_higher (hv : IsAvailable v) (hc : IsRequest c)
    (hs : level v wildcardVersion ≠ .eq) (hv0 : v.revision ≠ some 0)
    (h : satisfiesVersion v c = .ok true) (hw0 : w.revision ≠ some 0)
    (hws : level w wildcardVersion ≠ .eq) (hw : queryAvailable c (canonicalVersion w) = .ok true)
    (hgt : v.cmp w = .gt) : queryAvailable c (canonicalVersion v) = .ok true := by
  rw [queryAvailable_iff hc.isComplete hc.held hs]
  obtain ⟨hmin, hmax⟩ := (satisfiesVersion_iff hv hc.isComplete (ne_wildcard hs)).mp h
  refine ⟨fun m hm => ?_, fun m hm => ?_⟩
  · refine (hmin m hm).imp_right fun ⟨hl, ha⟩ => ⟨hl, ?_⟩
    refine (queriedMin_of_asked ha).resolve_right fun ⟨ho, hr⟩ => ?_
    -- the selected version is after the open endpoint
    refine absurd hgt (cmp_ne_gt_of_gt ?_)
    rcases ((queryAvailable_iff hc.isComplete hc.held hws).mp hw).1 m hm with hlw | ⟨hlw, hqw⟩
    · refine cmp_gt_of_level ?_
      rw [level_swap v w, level_congr_left hl, level_swap w m, hlw]
      rfl
    · unfold QueriedMin at hqw
      rw [hr, ho] at hqw
      refine cmp_gt_of_revision hw0 hv0 ?_ hqw
      rw [level_swap v w, level_congr_left hl, level_swap w m, hlw]
      rfl
  · refine (hmax m hm).imp_right fun ⟨hl, ha⟩ => ⟨hl, ?_⟩
    exact queriedMax_of_asked ha fun ho => hc.iteration ho m hm

end

/-! ### Patching -/

theorem isEndpoint_parsed {s : Bytes} {fold : Bool} {v : Version}
    (h : Version.ofString s fold = .ok v) :
    IsEndpoint v ∧ v.empty = false ∧ v.iteration = 0 := by
  obtain ⟨x, -, hx, rfl⟩ := Version.exists_text h
  refine ⟨⟨.ofString h, fun r hr => ?_⟩, hx.toWellFormed.not_empty, rfl⟩
  exact hx.toWellFormed.revisionValue_le hr

/-- A shortcut that is not completed gives a constraint that can be asked for. -/
theorem isRequest_convert {vc : StandardVersion.Constraint} {c : VersionConstraint} {errno : Errno}
    (h : (VersionConstraint.convert vc).eval errno = .ok c) :
    IsRequest c ∧ c.minOpen = vc.minOpen := by
  unfold VersionConstraint.convert at h
  cases hmn : vc.minVersion with
  | none =>
    rw [hmn] at h
    cases h
  | some mn =>
    cases hmx : vc.maxVersion with
    | none =>
      rw [hmn, hmx] at h
      cases h
    | some mx =>
      rw [hmn, hmx] at h
      have h' := Comp.eval_mapError_eq_ok.mp h
      obtain ⟨mnv, hmnv, h'⟩ := bind_eq_ok.mp h'
      obtain ⟨mxv, hmxv, h'⟩ := bind_eq_ok.mp h'
      obtain ⟨hn, hne, -⟩ := isEndpoint_parsed hmnv
      obtain ⟨hx, hxe, hxi⟩ := isEndpoint_parsed hmxv
      have hc : c = ⟨some mnv, some mxv, vc.minOpen, vc.maxOpen⟩ := by
        unfold VersionConstraint.ofVersions at h'
        simp only at h'
        split_ifs at h'
        cases h'
        rfl
      subst hc
      refine ⟨⟨⟨rfl, ?_, ?_, ?_⟩, h', ?_⟩, rfl⟩
      · simp [VersionConstraint.complete, hne, hxe]
      · rintro m ⟨⟩
        exact hn
      · rintro m ⟨⟩
        exact hx
      · rintro - m ⟨⟩
        exact hxi

theorem dot_mem_of_parsed {s : Bytes} {errno : Errno} {v : StandardVersion}
    (h : (StandardVersion.parseVersion s .none).eval errno = .ok v) : ch '.' ∈ s := by
  have hfresh := (StandardVersion.steady_parseVersion s .none).eval_eq_ok h
  cases StandardVersion.parseVersion_eq_ok.mp hfresh with
  | stub hf => cases hf
  | normal => simp

/-- **A patch constraint can be asked for**, and it is closed on the left. -/
theorem isRequest_patchConstraint {sp : SelectedPackage} {errno : Errno} {c : VersionConstraint}
    (h : (patchConstraint sp).eval errno = .ok (some c)) : IsRequest c ∧ c.minOpen = false := by
  unfold patchConstraint at h
  obtain ⟨vs, s1, -, h⟩ := Comp.bind_run h
  obtain ⟨o, s2, hv, h⟩ := Comp.bind_run h
  cases o with
  | none => cases h
  | some v =>
    have hvs := Comp.handle_run hv fun e s₁ s₂ h => by
      cases e <;> cases h
    obtain ⟨v', s3, hv', -⟩ := Comp.bind_run (congrArg Prod.fst hvs)
    have hdot : ch '.' ∈ vs := dot_mem_of_parsed (congrArg Prod.fst hv')
    have hc := Comp.handle_run (Prod.ext (by exact h) rfl) fun e s₁ s₂ h => by
      cases e <;> cases h
    obtain ⟨c', s4, hc', h⟩ := Comp.bind_run (congrArg Prod.fst hc)
    cases h
    -- the text after the operator is not the version of the dependent
    have hdollar : vs.dropWhile isBlank ≠ [ch '$'] := by
      intro he
      have hsplit := List.takeWhile_append_dropWhile (p := isBlank) (l := vs)
      rw [← hsplit, he, List.mem_append, List.mem_singleton] at hdot
      rcases hdot with hdot | hdot
      · have hblank := List.mem_takeWhile_imp hdot
        revert hblank
        decide
      · revert hdot
        decide
    have hof := congrArg Prod.fst hc'
    have hof' : (VersionConstraint.parseShortcut (ch '~') vs).eval s2 = .ok c := hof
    unfold VersionConstraint.parseShortcut at hof'
    rw [if_neg hdollar] at hof'
    obtain ⟨vc, s5, hvc, hof'⟩ := Comp.bind_run hof'
    obtain ⟨hreq, hopen⟩ := isRequest_convert hof'
    obtain ⟨base, -, -, rfl⟩ := (StandardVersion.ofString_shortcut_eq_ok (Or.inl rfl)).mp
      ((StandardVersion.steady_ofString_shortcut (Or.inl rfl) vs).eval_eq_ok
        (congrArg Prod.fst hvc))
    exact ⟨hreq, hopen⟩

end Build2.Bpkg.PkgBuild
