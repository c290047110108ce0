import Build2.Bpkg.Satisfaction.Endpoints

/-! # Satisfaction of constraints

`satisfies` on constraints compares normalized endpoints. This is a preorder, and it is sound for
the versions without an iteration but for two kinds of endpoints that the normalization misreads:
earliest releases on the level of other versions, and an iteration without a revision. -/

namespace Build2.Bpkg

open Build2.Lib.ByteString Build2.Libbpkg Build2.Libbutl.ParseUint
open Build2.Lib.Stateful (bind_eq_ok)
open Version (Constructed compare_refl compare_swap compare_trans)

/-! ### Normalized endpoints -/

/-- The revision of a normalized endpoint. -/
def normRevision (m : Version) (isMin o : Bool) : Option ℕ :=
  if m.revision.isSome ∨ m.release = some [] then m.revision
  else some (if (isMin && !o) || (!isMin && o) then 0 else 65535)

/-- The place of a revision: an absent one comes first. -/
def rank (r : Option ℕ) : ℕ := r.elim 0 (· + 1)

theorem compare_rank (m n : Option ℕ) : compare m n = compare (rank m) (rank n) := by
  cases m with
  | none => cases n with
    | none => rfl
    | some n => exact (compare_lt_iff_lt.mpr (Nat.succ_pos n)).symm
  | some m => cases n with
    | none => exact (compare_gt_iff_gt.mpr (Nat.succ_pos m)).symm
    | some n =>
      show compare m n = compare (m + 1) (n + 1)
      rcases lt_trichotomy m n with h | h | h
      · rw [compare_lt_iff_lt.mpr h, compare_lt_iff_lt.mpr (Nat.succ_lt_succ h)]
      · rw [h, compare_eq_iff_eq.mpr rfl, compare_eq_iff_eq.mpr rfl]
      · rw [compare_gt_iff_gt.mpr h, compare_gt_iff_gt.mpr (Nat.succ_lt_succ h)]

section

variable {m m' : Version} {isMin o o' : Bool}

theorem norm_eq (isMin o : Bool) (h : Constructed m) :
    norm m isMin o = .ok { m with revision := normRevision m isMin o } := by
  unfold norm normRevision
  split_ifs with h1 h2
  · rfl
  · rw [not_or] at h1
    exact ofParts_revise h h1.2
  · rw [not_or] at h1
    exact ofParts_revise h h1.2

/-- The comparison of normalized endpoints of one level. -/
def pairNorm (isMin : Bool) (m : Version) (o : Bool) (m' : Version) (o' : Bool) : Ordering :=
  pair (rank (normRevision m isMin o)) m.iteration (rank (normRevision m' isMin o')) m'.iteration

theorem compare_norm :
    Version.compare { m with revision := normRevision m isMin o }
      { m' with revision := normRevision m' isMin o' } false false =
      (level m m').then (pairNorm isMin m o m' o') := by
  rw [compare_eq_level, compare_rank]
  rfl

/-- The min endpoint `m` is not before `m'`. -/
def MinLe (m : Version) (o : Bool) (m' : Version) (o' : Bool) : Prop :=
  level m m' = .gt ∨ level m m' = .eq ∧
    if o = true ∨ o' = false then pairNorm true m o m' o' ≠ .lt else pairNorm true m o m' o' = .gt

/-- The max endpoint `m` is not after `m'`. -/
def MaxLe (m : Version) (o : Bool) (m' : Version) (o' : Bool) : Prop :=
  level m m' = .lt ∨ level m m' = .eq ∧
    if o = true ∨ o' = false then pairNorm false m o m' o' ≠ .gt else pairNorm false m o m' o' = .lt

variable {l r : VersionConstraint}

theorem minWithin_iff (hl : IsComplete l) (hr : IsComplete r) : minWithin l r = .ok true ↔
    ∀ m' ∈ r.minVersion, ∃ m ∈ l.minVersion, MinLe m l.minOpen m' r.minOpen := by
  unfold minWithin
  cases hlm : l.minVersion with
  | none => cases hrm : r.minVersion <;> simp [pure, Except.pure]
  | some m =>
    cases hrm : r.minVersion with
    | none => simp [pure, Except.pure]
    | some m' =>
      have h1 := norm_eq true l.minOpen (hl.minVersion m hlm).constructed
      have h2 := norm_eq true r.minOpen (hr.minVersion m' hrm).constructed
      simp only [h1, h2, bind_eq_ok, Except.ok.injEq, exists_eq_left', compare_norm]
      unfold MinLe
      cases l.minOpen <;> cases r.minOpen <;>
        simp [pure, Except.pure, then_ne_lt, Ordering.then_eq_gt]

theorem maxWithin_iff (hl : IsComplete l) (hr : IsComplete r) : maxWithin l r = .ok true ↔
    ∀ m' ∈ r.maxVersion, ∃ m ∈ l.maxVersion, MaxLe m l.maxOpen m' r.maxOpen := by
  unfold maxWithin
  cases hlm : l.maxVersion with
  | none => cases hrm : r.maxVersion <;> simp [pure, Except.pure]
  | some m =>
    cases hrm : r.maxVersion with
    | none => simp [pure, Except.pure]
    | some m' =>
      have h1 := norm_eq false l.maxOpen (hl.maxVersion m hlm).constructed
      have h2 := norm_eq false r.maxOpen (hr.maxVersion m' hrm).constructed
      simp only [h1, h2, bind_eq_ok, Except.ok.injEq, exists_eq_left', compare_norm]
      unfold MaxLe
      cases l.maxOpen <;> cases r.maxOpen <;>
        simp [pure, Except.pure, then_ne_gt, Ordering.then_eq_lt]

/-- **When a constraint satisfies another one.** -/
theorem satisfies_iff (hl : IsComplete l) (hr : IsComplete r) : satisfies l r = .ok true ↔
    (∀ m' ∈ r.minVersion, ∃ m ∈ l.minVersion, MinLe m l.minOpen m' r.minOpen) ∧
      ∀ m' ∈ r.maxVersion, ∃ m ∈ l.maxVersion, MaxLe m l.maxOpen m' r.maxOpen := by
  rw [← minWithin_iff hl hr, ← maxWithin_iff hl hr]
  unfold satisfies
  rw [hl.notEmpty, hl.complete, hr.notEmpty, hr.complete, if_neg (by decide), bind_eq_ok]
  constructor
  · rintro ⟨s, hs, h⟩
    cases s with
    | true => exact ⟨hs, h⟩
    | false => cases h
  · rintro ⟨h1, h2⟩
    exact ⟨true, h1, h2⟩

/-! ### A preorder -/

theorem MinLe.refl (m : Version) (o : Bool) : MinLe m o m o := by
  have h : level m m = .eq := compare_refl m true false
  have hp : pairNorm true m o m o ≠ .lt := pair_ne_lt.mpr (Or.inr ⟨rfl, le_rfl⟩)
  exact Or.inr ⟨h, by cases o <;> simpa using hp⟩

theorem MaxLe.refl (m : Version) (o : Bool) : MaxLe m o m o := by
  have h : level m m = .eq := compare_refl m true false
  have hp : pairNorm false m o m o ≠ .gt := pair_ne_gt.mpr (Or.inr ⟨rfl, le_rfl⟩)
  exact Or.inr ⟨h, by cases o <;> simpa using hp⟩

theorem MinLe.trans {x y z : Version} {a b c : Bool} (h1 : MinLe x a y b) (h2 : MinLe y b z c) :
    MinLe x a z c := by
  rcases h1 with h1 | ⟨h1, p1⟩ <;> rcases h2 with h2 | ⟨h2, p2⟩
  · exact Or.inl (level_gt_of_gt_ge h1 (by rw [h2]; nofun))
  · exact Or.inl (level_gt_of_gt_ge h1 (by rw [h2]; nofun))
  · exact Or.inl (by rw [level_congr_left h1, h2])
  · refine Or.inr ⟨by rw [level_congr_left h1, h2], ?_⟩
    unfold pairNorm at p1 p2 ⊢
    cases a <;> cases b <;> cases c <;>
      simp only [reduceCtorEq, or_true, or_false, if_true, if_false, pair_ne_lt,
        pair_eq_gt] at p1 p2 ⊢ <;> omega

theorem MaxLe.trans {x y z : Version} {a b c : Bool} (h1 : MaxLe x a y b) (h2 : MaxLe y b z c) :
    MaxLe x a z c := by
  rcases h1 with h1 | ⟨h1, p1⟩ <;> rcases h2 with h2 | ⟨h2, p2⟩
  · exact Or.inl (level_lt_of_lt_le h1 (by rw [h2]; nofun))
  · exact Or.inl (level_lt_of_lt_le h1 (by rw [h2]; nofun))
  · exact Or.inl (by rw [level_congr_left h1, h2])
  · refine Or.inr ⟨by rw [level_congr_left h1, h2], ?_⟩
    unfold pairNorm at p1 p2 ⊢
    cases a <;> cases b <;> cases c <;>
      simp only [reduceCtorEq, or_true, or_false, if_true, if_false, pair_ne_gt,
        pair_eq_lt] at p1 p2 ⊢ <;> omega

theorem satisfies_refl (hl : IsComplete l) : satisfies l l = .ok true :=
  (satisfies_iff hl hl).mpr
    ⟨fun m hm => ⟨m, hm, MinLe.refl m _⟩, fun m hm => ⟨m, hm, MaxLe.refl m _⟩⟩

theorem satisfies_trans {q : VersionConstraint} (hl : IsComplete l) (hr : IsComplete r)
    (hq : IsComplete q) (h1 : satisfies l r = .ok true) (h2 : satisfies r q = .ok true) :
    satisfies l q = .ok true := by
  obtain ⟨hmin1, hmax1⟩ := (satisfies_iff hl hr).mp h1
  obtain ⟨hmin2, hmax2⟩ := (satisfies_iff hr hq).mp h2
  refine (satisfies_iff hl hq).mpr ⟨fun z hz => ?_, fun z hz => ?_⟩
  · obtain ⟨y, hy, hyz⟩ := hmin2 z hz
    obtain ⟨x, hx, hxy⟩ := hmin1 y hy
    exact ⟨x, hx, hxy.trans hyz⟩
  · obtain ⟨y, hy, hyz⟩ := hmax2 z hz
    obtain ⟨x, hx, hxy⟩ := hmax1 y hy
    exact ⟨x, hx, hxy.trans hyz⟩

/-! ### The revisions that an endpoint admits -/

/-- The least revision that a min endpoint admits on its level. -/
def minIndex (m : Version) (o : Bool) : ℕ :=
  match m.revision with
  | none => if o then 65536 else 0
  | some r => if o = true ∨ m.iteration ≠ 0 then r + 1 else r

/-- The least revision that a max endpoint does not admit on its level. -/
def maxIndex (m : Version) (o : Bool) : ℕ :=
  match m.revision with
  | none => if o then 0 else 65536
  | some r => if o = true ∧ m.iteration = 0 then r else r + 1

theorem askedMin_iff_minIndex {n : ℕ} (hn : n ≤ 65535) : AskedMin m o n 0 ↔ minIndex m o ≤ n := by
  unfold AskedMin minIndex
  cases m.revision with
  | none =>
    simp only
    cases o <;> simp
    omega
  | some r =>
    simp only [pair_eq_gt, pair_ne_lt]
    cases o <;> by_cases hi : m.iteration = 0 <;> simp [hi]
    omega

theorem askedMax_iff_maxIndex {n : ℕ} (hn : n ≤ 65535) : AskedMax m o n 0 ↔ n < maxIndex m o := by
  unfold AskedMax maxIndex
  cases m.revision with
  | none =>
    simp only
    cases o <;> simp
    omega
  | some r =>
    simp only [pair_eq_lt, pair_ne_gt]
    cases o <;> by_cases hi : m.iteration = 0 <;> simp [hi] <;> omega

/-! ### Misread endpoints -/

/-- The order of min endpoints of one level is misread: `m'` is an open earliest release and `m` is
not, or `m` has an iteration without a revision and `m'` a zero revision. -/
def MinMisread (m : Version) (o : Bool) (m' : Version) (o' : Bool) : Prop :=
  (m'.release = some [] ∧ o' = true ∧ m.release ≠ some [] ∧ minIndex m o ≤ 65535) ∨
    (m.revision = none ∧ m.release ≠ some [] ∧ o = false ∧ m'.revision = some 0 ∧
      if o' then m'.iteration < m.iteration else 0 < m'.iteration ∧ m'.iteration ≤ m.iteration)

/-- The order of max endpoints of one level is misread: `m` is a closed earliest release and `m'` is
not, or `m'` has an iteration without a revision and `m` a zero revision. -/
def MaxMisread (m : Version) (o : Bool) (m' : Version) (o' : Bool) : Prop :=
  (m.release = some [] ∧ o = false ∧ m'.release ≠ some [] ∧ maxIndex m' o' ≤ 65535) ∨
    (m'.revision = none ∧ m'.release ≠ some [] ∧ o' = true ∧ m.revision = some 0 ∧
      if o then 0 < m.iteration ∧ m.iteration ≤ m'.iteration else m.iteration < m'.iteration)

/-- An endpoint: an earliest release, one without a revision, or one with a revision. -/
theorem IsEndpoint.cases (h : IsEndpoint m) :
    m.release = some [] ∧ m.revision = none ∧ m.iteration = 0 ∨
      m.release ≠ some [] ∧ m.revision = none ∨
      m.release ≠ some [] ∧ ∃ r, m.revision = some r ∧ r ≤ 65535 := by
  by_cases he : m.release = some []
  · exact Or.inl ⟨he, earliest_members h.constructed he⟩
  · cases hr : m.revision with
    | none => exact Or.inr (Or.inl ⟨he, rfl⟩)
    | some r => exact Or.inr (Or.inr ⟨he, r, rfl, h.revision r hr⟩)

/-- **When the order of min endpoints of one level is right**: the revisions that `m` admits are
admitted by `m'`. -/
theorem minIndex_le_iff (hm : IsEndpoint m) (hm' : IsEndpoint m')
    (hp : if o = true ∨ o' = false then pairNorm true m o m' o' ≠ .lt
      else pairNorm true m o m' o' = .gt) :
    minIndex m' o' ≤ minIndex m o ↔ ¬ MinMisread m o m' o' := by
  unfold MinMisread
  unfold pairNorm at hp
  rw [pair_ne_lt, pair_eq_gt] at hp
  rcases hm.cases with ⟨he, hr, hi⟩ | ⟨he, hr⟩ | ⟨he, r, hr, hle⟩ <;>
    rcases hm'.cases with ⟨he', hr', hi'⟩ | ⟨he', hr'⟩ | ⟨he', r', hr', hle'⟩ <;>
    cases o <;> cases o' <;>
    simp [minIndex, normRevision, rank, he, hr, he', hr'] at hp ⊢ <;> grind

theorem maxIndex_le_iff (hm : IsEndpoint m) (hm' : IsEndpoint m')
    (hp : if o = true ∨ o' = false then pairNorm false m o m' o' ≠ .gt
      else pairNorm false m o m' o' = .lt) :
    maxIndex m o ≤ maxIndex m' o' ↔ ¬ MaxMisread m o m' o' := by
  unfold MaxMisread
  unfold pairNorm at hp
  rw [pair_ne_gt, pair_eq_lt] at hp
  rcases hm.cases with ⟨he, hr, hi⟩ | ⟨he, hr⟩ | ⟨he, r, hr, hle⟩ <;>
    rcases hm'.cases with ⟨he', hr', hi'⟩ | ⟨he', hr'⟩ | ⟨he', r', hr', hle'⟩ <;>
    cases o <;> cases o' <;>
    simp [maxIndex, normRevision, rank, he, hr, he', hr'] at hp ⊢ <;> grind

theorem MinMisread.index_le (h : MinMisread m o m' o') :
    m.release ≠ some [] ∧ minIndex m o ≤ 65535 := by
  rcases h with ⟨-, -, h, hle⟩ | ⟨hr, h, rfl, -⟩
  · exact ⟨h, hle⟩
  · exact ⟨h, by simp [minIndex, hr]⟩

theorem MaxMisread.index_le (hm : IsEndpoint m) (h : MaxMisread m o m' o') :
    m'.release ≠ some [] ∧ 0 < maxIndex m o ∧ maxIndex m o ≤ 65536 := by
  rcases h with ⟨he, rfl, h, -⟩ | ⟨-, h, -, hr, hi⟩
  · have hr := (earliest_members hm.constructed he).1
    exact ⟨h, by simp [maxIndex, hr], by simp [maxIndex, hr]⟩
  · refine ⟨h, ?_⟩
    cases o with
    | false => simp [maxIndex, hr]
    | true =>
      simp only [if_true] at hi
      simp only [maxIndex, hr, true_and]
      rw [if_neg (Nat.pos_iff_ne_zero.mp hi.1)]
      omega

/-- The constraint `l` has a version at an endpoint that is misread in the comparison with `r`. -/
def Misled (l r : VersionConstraint) : Prop :=
  (∃ m ∈ l.minVersion, ∃ m' ∈ r.minVersion, level m m' = .eq ∧
    MinMisread m l.minOpen m' r.minOpen ∧ ∀ x ∈ l.maxVersion, level m x = .lt ∨
      level m x = .eq ∧ minIndex m l.minOpen < maxIndex x l.maxOpen) ∨
  ∃ m ∈ l.maxVersion, ∃ m' ∈ r.maxVersion, level m m' = .eq ∧
    MaxMisread m l.maxOpen m' r.maxOpen ∧ ∀ x ∈ l.minVersion, level m x = .gt ∨
      level m x = .eq ∧ minIndex x l.minOpen < maxIndex m l.maxOpen

/-! ### Soundness -/

/-- **Satisfying a constraint** without an iteration. -/
theorem satisfiesVersion_iff_index {v : Version} (hv : IsAvailable v) (hi : v.iteration = 0)
    (hl : IsComplete l) (hw : v.cmp wildcardVersion ≠ .eq) : satisfiesVersion v l = .ok true ↔
      (∀ m ∈ l.minVersion, level v m = .gt ∨
        level v m = .eq ∧ minIndex m l.minOpen ≤ v.effectiveRevision) ∧
      ∀ m ∈ l.maxVersion, level v m = .lt ∨
        level v m = .eq ∧ v.effectiveRevision < maxIndex m l.maxOpen := by
  rw [satisfiesVersion_iff hv hl hw, hi]
  simp only [askedMin_iff_minIndex hv.revision, askedMax_iff_maxIndex hv.revision]

theorem isAvailable_revise (hm : IsEndpoint m) (he : m.release ≠ some []) {n : ℕ}
    (hn : n ≤ 65535) : IsAvailable (revise m n 0) where
  constructed := .ofParts (ofParts_revise hm.constructed he)
  notEarliest := he
  revision := hn

theorem revise_ne_wildcard {n i : ℕ} : (revise m n i).cmp wildcardVersion ≠ .eq := by
  intro h
  have hk := Version.cmp_eq_eq.mp h
  simp only [Version.key, Prod.mk.injEq] at hk
  cases hk.2.2.2.1

/-- **When satisfaction of constraints is sound.** -/
theorem satisfies_sound_iff (hl : IsComplete l) (hr : IsComplete r)
    (h : satisfies l r = .ok true) :
    (∀ v, IsAvailable v → v.iteration = 0 → satisfiesVersion v l = .ok true →
      satisfiesVersion v r = .ok true) ↔ ¬ Misled l r := by
  obtain ⟨hmin, hmax⟩ := (satisfies_iff hl hr).mp h
  constructor
  · rintro hs (⟨m, hm, m', hm', hlv, hmis, hx⟩ | ⟨m, hm, m', hm', hlv, hmis, hx⟩)
    · -- the least version of `l` on the level of the min endpoint
      obtain ⟨he, hn⟩ := hmis.index_le
      have hv := isAvailable_revise (hl.minVersion m hm) he hn
      have hself : level m m = .eq := compare_refl m true false
      have hvl := (satisfiesVersion_iff_index hv rfl hl revise_ne_wildcard).mpr
        ⟨fun m₁ hm₁ => by
          obtain rfl : m = m₁ := Option.some.inj (hm.symm.trans hm₁)
          exact Or.inr ⟨hself, le_rfl⟩, hx⟩
      have hvr := ((satisfiesVersion_iff_index hv rfl hr revise_ne_wildcard).mp
        (hs _ hv rfl hvl)).1 m' hm'
      rw [level_revise_left, hlv] at hvr
      obtain ⟨m₁, hm₁, hle⟩ := hmin m' hm'
      obtain rfl : m = m₁ := Option.some.inj (hm.symm.trans hm₁)
      rw [MinLe, hlv] at hle
      simp only [reduceCtorEq, false_or, true_and] at hvr hle
      exact (minIndex_le_iff (hl.minVersion m hm) (hr.minVersion m' hm') hle).mp hvr hmis
    · -- the greatest version of `l` on the level of the max endpoint
      obtain ⟨he, hpos, hn⟩ := hmis.index_le (hl.maxVersion m hm)
      have hv := isAvailable_revise (hr.maxVersion m' hm') he
        (show maxIndex m l.maxOpen - 1 ≤ 65535 by omega)
      have hback : level m' m = .eq := by
        rw [level_swap m m', hlv]
        rfl
      have hvl := (satisfiesVersion_iff_index hv rfl hl revise_ne_wildcard).mpr
        ⟨fun x hx' => by
          rw [level_revise_left, level_congr_left hback]
          rcases hx x hx' with h | ⟨h, hlt⟩
          · exact Or.inl h
          · exact Or.inr ⟨h, show minIndex x l.minOpen ≤ maxIndex m l.maxOpen - 1 by omega⟩,
        fun m₁ hm₁ => by
          obtain rfl : m = m₁ := Option.some.inj (hm.symm.trans hm₁)
          exact Or.inr ⟨hback, show maxIndex m l.maxOpen - 1 < maxIndex m l.maxOpen by omega⟩⟩
      have hself : level m' m' = .eq := compare_refl m' true false
      have hvr := ((satisfiesVersion_iff_index hv rfl hr revise_ne_wildcard).mp
        (hs _ hv rfl hvl)).2 m' hm'
      rw [level_revise_left, hself] at hvr
      obtain ⟨m₁, hm₁, hle⟩ := hmax m' hm'
      obtain rfl : m = m₁ := Option.some.inj (hm.symm.trans hm₁)
      rw [MaxLe, hlv] at hle
      simp only [reduceCtorEq, false_or, true_and] at hvr hle
      refine (maxIndex_le_iff (hl.maxVersion m hm) (hr.maxVersion m' hm') hle).mp ?_ hmis
      have hlt : maxIndex m l.maxOpen - 1 < maxIndex m' r.maxOpen := hvr
      omega
  · intro hmis v hv hi hvl
    by_cases hw : v.cmp wildcardVersion = .eq
    · exact satisfiesVersion_wildcard hr hw
    rw [satisfiesVersion_iff_index hv hi hl hw] at hvl
    rw [satisfiesVersion_iff_index hv hi hr hw]
    refine ⟨fun m' hm' => ?_, fun m' hm' => ?_⟩
    · obtain ⟨m, hm, hle⟩ := hmin m' hm'
      rcases hle with hgt | ⟨hlv, hle⟩
      · refine Or.inl (level_gt_of_ge_gt ?_ hgt)
        rcases hvl.1 m hm with h | h
        · rw [h]
          nofun
        · rw [h.1]
          nofun
      · rcases hvl.1 m hm with hgt | ⟨heq, hn⟩
        · exact Or.inl (level_gt_of_gt_ge hgt (by rw [hlv]; nofun))
        · refine Or.inr ⟨by rw [level_congr_left heq, hlv], le_trans ?_ hn⟩
          refine (minIndex_le_iff (hl.minVersion m hm) (hr.minVersion m' hm') hle).mpr fun hm₁ => ?_
          refine hmis (Or.inl ⟨m, hm, m', hm', hlv, hm₁, fun x hx => ?_⟩)
          rw [← level_congr_left heq]
          exact (hvl.2 x hx).imp_right fun h => ⟨h.1, lt_of_le_of_lt hn h.2⟩
    · obtain ⟨m, hm, hle⟩ := hmax m' hm'
      rcases hle with hlt | ⟨hlv, hle⟩
      · refine Or.inl (level_lt_of_le_lt ?_ hlt)
        rcases hvl.2 m hm with h | h
        · rw [h]
          nofun
        · rw [h.1]
          nofun
      · rcases hvl.2 m hm with hlt | ⟨heq, hn⟩
        · exact Or.inl (level_lt_of_lt_le hlt (by rw [hlv]; nofun))
        · refine Or.inr ⟨by rw [level_congr_left heq, hlv], lt_of_lt_of_le hn ?_⟩
          refine (maxIndex_le_iff (hl.maxVersion m hm) (hr.maxVersion m' hm') hle).mpr fun hm₁ => ?_
          refine hmis (Or.inr ⟨m, hm, m', hm', hlv, hm₁, fun x hx => ?_⟩)
          rw [← level_congr_left heq]
          exact (hvl.1 x hx).imp_right fun h => ⟨h.1, lt_of_le_of_lt h.2 hn⟩

/-- **Satisfaction of constraints** is sound for a pair if and only if it is not misled, and it is
reflexive and transitive. -/
theorem satisfies_sound_refl_trans (l r q : VersionConstraint) (hl : IsComplete l)
    (hr : IsComplete r) (hq : IsComplete q) :
    (satisfies l r = .ok true →
      ((∀ v, IsAvailable v → v.iteration = 0 → satisfiesVersion v l = .ok true →
        satisfiesVersion v r = .ok true) ↔ ¬ Misled l r)) ∧
    satisfies l l = .ok true ∧
    (satisfies l r = .ok true → satisfies r q = .ok true → satisfies l q = .ok true) :=
  ⟨satisfies_sound_iff hl hr, satisfies_refl hl, satisfies_trans hl hr hq⟩

end

/-! ### Earliest releases -/

/-- The version `1-0`. -/
def oneZero : Version :=
  ⟨1, str ['1'], some (str ['0']), none, 0, Version.canonical [str ['1']], []⟩

/-- The earliest release `1-`, which is on the same level. -/
def oneEarliest : Version := ⟨1, str ['1'], some [], none, 0, Version.canonical [str ['1']], []⟩

/-- The version `2`. -/
def two : Version := ⟨1, str ['2'], none, none, 0, Version.canonical [str ['2']], str ['~']⟩

/-- `[1-0 2]`. -/
def fromOneZero : VersionConstraint := ⟨some oneZero, some two, false, false⟩

/-- `(1- 2]`. -/
def afterOneEarliest : VersionConstraint := ⟨some oneEarliest, some two, true, false⟩

theorem isEndpoint_of_ofString {s : Bytes} {v : Version}
    (h : Version.ofString s false = .ok v) (hr : v.revision = none) : IsEndpoint v :=
  ⟨.ofString h, fun _ h' => by rw [hr] at h'; cases h'⟩

theorem isComplete_fromOneZero : IsComplete fromOneZero where
  notEmpty := rfl
  complete := rfl
  minVersion _ h := by
    cases h
    exact isEndpoint_of_ofString (s := str ['1', '-', '0']) (by rfl) rfl
  maxVersion _ h := by
    cases h
    exact isEndpoint_of_ofString (s := str ['2']) (by rfl) rfl

theorem not_misled_fromOneZero : ¬ Misled fromOneZero fromOneZero := by
  rintro (⟨m, hm, m', hm', -, h, -⟩ | ⟨m, hm, m', hm', -, h, -⟩)
  · cases hm
    cases hm'
    rcases h with ⟨h, -⟩ | ⟨-, -, -, h, -⟩ <;> cases h
  · cases hm
    cases hm'
    rcases h with ⟨h, -⟩ | ⟨-, -, h, -⟩ <;> cases h

theorem satisfies_sound_refl_trans_at :
    (∀ v, IsAvailable v → v.iteration = 0 → satisfiesVersion v fromOneZero = .ok true →
      satisfiesVersion v fromOneZero = .ok true) ∧ satisfies fromOneZero fromOneZero = .ok true :=
  have h := satisfies_sound_refl_trans fromOneZero fromOneZero fromOneZero isComplete_fromOneZero
    isComplete_fromOneZero isComplete_fromOneZero
  ⟨(h.1 h.2.1).mpr not_misled_fromOneZero, h.2.1⟩

/-- `[1-0 2]` satisfies `(1- 2]`, and `1-0` satisfies the first and not the second. -/
theorem satisfies_unsound :
    Version.ofString (str ['1', '-', '0']) false = .ok oneZero ∧
      Version.ofString (str ['1', '-']) false = .ok oneEarliest ∧
      Held fromOneZero ∧ Held afterOneEarliest ∧
      satisfies fromOneZero afterOneEarliest = .ok true ∧
      satisfiesVersion oneZero fromOneZero = .ok true ∧
      satisfiesVersion oneZero afterOneEarliest = .ok false :=
  ⟨rfl, rfl, rfl, rfl, rfl, rfl, rfl⟩

end Build2.Bpkg
