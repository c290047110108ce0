import Build2.Bpkg.Satisfaction.Endpoints

/-! # The query and the check

`query_available` and `satisfies` on a version select the same versions, but for the iteration: the
query leaves it out, and the check compares it where an endpoint has a revision. -/

namespace Build2.Bpkg

open Build2.Lib.ByteString Build2.Libbpkg Build2.Libbutl.ParseUint
open Build2.Lib.Stateful (bind_eq_ok)
open Version (Constructed compare_refl compare_swap compare_trans)

/-! ### Stored versions -/

section

variable {x y : Version} {r : Bool}

theorem level_eq (x y : Version) : level x y = (compare x.epoch y.epoch).then
    ((compare x.canonicalUpstream y.canonicalUpstream).then
      (compare x.canonicalRelease y.canonicalRelease)) := by
  simp only [level, Version.compare_eq_compareParts, Version.compareParts, compareLex, compareOn]
  simp

theorem sameParts_iff : sameParts (canonicalVersion x) (canonicalVersion y) = true ↔
    level x y = .eq := by
  rw [level_eq]
  simp only [sameParts, Bool.and_eq_true, decide_eq_true_eq, Ordering.then_eq_eq,
    Std.LawfulEqCmp.compare_eq_iff_eq, and_assoc]
  rfl

theorem parts_lt_iff : (upstreamLt (canonicalVersion x) (canonicalVersion y) = true ∨
    releaseLt (canonicalVersion x) (canonicalVersion y) = true) ↔ level x y = .lt := by
  rw [level_eq]
  simp only [upstreamLt, releaseLt, textLt, Bool.or_eq_true, Bool.and_eq_true,
    decide_eq_true_eq, Ordering.then_eq_lt, compare_lt_iff_lt, Std.LawfulEqCmp.compare_eq_iff_eq]
  simp only [canonicalVersion]
  tauto

theorem compareVersionEq_ok :
    ∃ b, compareVersionEq (canonicalVersion x) (canonicalVersion y) r false = .ok b ∧
      (b = true ↔
        level x y = .eq ∧ (r = true → x.effectiveRevision = y.effectiveRevision)) := by
  rw [← sameParts_iff]
  cases r with
  | false => exact ⟨_, rfl, by simp⟩
  | true => exact ⟨_, rfl, by simp; simp [canonicalVersion]⟩

theorem compareVersionLt_ok :
    ∃ b, compareVersionLt (canonicalVersion x) (canonicalVersion y) r false = .ok b ∧
      (b = true ↔ level x y = .lt ∨
        level x y = .eq ∧ r = true ∧ x.effectiveRevision < y.effectiveRevision) := by
  rw [← sameParts_iff, ← parts_lt_iff]
  cases r with
  | false => exact ⟨_, rfl, by simp⟩
  | true => exact ⟨_, rfl, by simp; simp [canonicalVersion]⟩

theorem compareVersionLe_ok :
    ∃ b, compareVersionLe (canonicalVersion x) (canonicalVersion y) r false = .ok b ∧
      (b = true ↔ level x y = .lt ∨
        level x y = .eq ∧ (r = true → x.effectiveRevision ≤ y.effectiveRevision)) := by
  rw [← sameParts_iff, ← parts_lt_iff]
  cases r with
  | false => exact ⟨_, rfl, by simp [or_assoc]⟩
  | true => exact ⟨_, rfl, by simp [or_assoc]; simp [canonicalVersion]⟩

end

/-! ### What the query asks -/

/-- The min endpoint asks for a greater level or for the revision. -/
def QueriedMin (m : Version) (o : Bool) (n : ℕ) : Prop :=
  match m.revision with
  | none => o = false
  | some r => if o then r < n else r ≤ n

/-- The max endpoint asks for a lesser level or for the revision. -/
def QueriedMax (m : Version) (o : Bool) (n : ℕ) : Prop :=
  match m.revision with
  | none => o = false
  | some r => if o then n < r else n ≤ r

section

variable {v m : Version} {c : VersionConstraint}

theorem effectiveRevision_of_some {r : ℕ} (h : m.revision = some r) : m.effectiveRevision = r := by
  rw [Version.effectiveRevision, h]
  rfl

theorem queryMin_ok : ∃ b, queryAvailable.queryMin c (canonicalVersion v) m = .ok b ∧
    (b = true ↔ level v m = .gt ∨
      level v m = .eq ∧ QueriedMin m c.minOpen v.effectiveRevision) := by
  have hgt : level m v = .lt ↔ level v m = .gt := by
    rw [level_swap v m]
    exact Ordering.swap_eq_lt
  have heq : level m v = .eq ↔ level v m = .eq := by
    rw [level_swap v m]
    exact Ordering.swap_eq_eq
  unfold queryAvailable.queryMin QueriedMin
  by_cases ho : c.minOpen = true
  · rw [if_pos ho]
    obtain ⟨b, hb, h⟩ := compareVersionLt_ok (x := m) (y := v) (r := m.revision.isSome)
    refine ⟨b, hb, ?_⟩
    rw [h, hgt, heq]
    cases hr : m.revision with
    | none => simp [ho]
    | some r => simp [ho, effectiveRevision_of_some hr]
  · rw [if_neg ho]
    obtain ⟨b, hb, h⟩ := compareVersionLe_ok (x := m) (y := v) (r := m.revision.isSome)
    refine ⟨b, hb, ?_⟩
    rw [h, hgt, heq]
    cases hr : m.revision with
    | none => simp [ho]
    | some r => simp [ho, effectiveRevision_of_some hr]

theorem queryMax_ok : ∃ b, queryAvailable.queryMax c (canonicalVersion v) m = .ok b ∧
    (b = true ↔ level v m = .lt ∨
      level v m = .eq ∧ QueriedMax m c.maxOpen v.effectiveRevision) := by
  unfold queryAvailable.queryMax QueriedMax
  by_cases ho : c.maxOpen = true
  · rw [if_pos ho]
    obtain ⟨b, hb, h⟩ := compareVersionLt_ok (x := v) (y := m) (r := m.revision.isSome)
    refine ⟨b, hb, ?_⟩
    rw [h]
    cases hr : m.revision with
    | none => simp [ho]
    | some r => simp [ho, effectiveRevision_of_some hr]
  · rw [if_neg ho]
    obtain ⟨b, hb, h⟩ := compareVersionLe_ok (x := v) (y := m) (r := m.revision.isSome)
    refine ⟨b, hb, ?_⟩
    rw [h]
    cases hr : m.revision with
    | none => simp [ho]
    | some r => simp [ho, effectiveRevision_of_some hr]

/-- What the constructor asks of two endpoints. -/
theorem Held.endpoints (h : Held c) {mn mx : Version} (hmn : c.minVersion = some mn)
    (hmx : c.maxVersion = some mx) (he : mx.empty = false) :
    (mn.cmp mx = .gt → c.maxOpen = false ∧ mx.revision = none ∧ level mx mn = .eq) ∧
      (mn.cmp mx = .eq → c.minOpen = false ∧ c.maxOpen = false) := by
  unfold Held VersionConstraint.ofVersions at h
  rw [hmn, hmx] at h
  simp only [he, true_and, false_and, or_false, Bool.false_eq_true] at h
  split_ifs at h with h1 h2 h3 h4
  simp only [not_and, not_or, Bool.not_eq_true] at h3
  exact ⟨fun hgt => not_not.mp fun hn => h2 ⟨hgt, hn⟩, h3⟩

theorem queried_equal {mn mx : Version} (h : mn.cmp mx = .eq) {n : ℕ} :
    ((level v mn = .gt ∨ level v mn = .eq ∧ QueriedMin mn false n) ∧
      (level v mx = .lt ∨ level v mx = .eq ∧ QueriedMax mx false n)) ↔
      level v mn = .eq ∧ (mn.revision.isSome = true → n = mn.effectiveRevision) := by
  have hcmp := h
  rw [Version.cmp, compare_eq_level, Ordering.then_eq_eq, Ordering.then_eq_eq] at hcmp
  obtain ⟨hlevel, hcmp, -⟩ := hcmp
  have hrev : mn.revision = mx.revision := Std.LawfulEqCmp.eq_of_compare hcmp
  have hv : level v mx = level v mn := by
    rw [level_swap mn v, level_swap mx v, level_congr_left hlevel]
  unfold QueriedMin QueriedMax
  rw [hv, ← hrev]
  cases hr : mn.revision with
  | none => cases level v mn <;> simp
  | some r =>
    rw [effectiveRevision_of_some hr]
    cases level v mn <;> simp
    omega

/-- **What the query asks** of a version that is not a stub. -/
theorem queryAvailable_iff (hc : IsComplete c) (hh : Held c)
    (hs : level v wildcardVersion ≠ .eq) :
    queryAvailable c (canonicalVersion v) = .ok true ↔
      (∀ m ∈ c.minVersion, level v m = .gt ∨
        level v m = .eq ∧ QueriedMin m c.minOpen v.effectiveRevision) ∧
      ∀ m ∈ c.maxVersion, level v m = .lt ∨
        level v m = .eq ∧ QueriedMax m c.maxOpen v.effectiveRevision := by
  obtain ⟨qs, hqs, hqs'⟩ :=
    compareVersionEq_ok (x := v) (y := wildcardVersion) (r := false)
  obtain rfl : qs = false := by
    rw [← Bool.not_eq_true, hqs']
    exact fun h => hs h.1
  unfold queryAvailable
  rw [hc.complete, if_neg (by decide), hqs]
  cases hmn : c.minVersion with
  | none =>
    cases hmx : c.maxVersion with
    | none =>
      have hne := hc.notEmpty
      rw [VersionConstraint.empty, hmn, hmx] at hne
      cases hne
    | some mx =>
      obtain ⟨b, hb, hb'⟩ := queryMax_ok (v := v) (m := mx) (c := c)
      simp only [bind_eq_ok, Except.ok.injEq, exists_eq_left', hb]
      simpa [pure, Except.pure] using hb'
  | some mn =>
    obtain ⟨a, ha, ha'⟩ := queryMin_ok (v := v) (m := mn) (c := c)
    cases hmx : c.maxVersion with
    | none =>
      simp only [bind_eq_ok, Except.ok.injEq, exists_eq_left', ha]
      simpa [pure, Except.pure] using ha'
    | some mx =>
      obtain ⟨b, hb, hb'⟩ := queryMax_ok (v := v) (m := mx) (c := c)
      by_cases heq : mn.cmp mx = .eq
      · have he : mx.empty = false := by
          have := hc.complete
          rw [VersionConstraint.complete, hmn, hmx] at this
          simpa using (Bool.and_eq_true_iff.mp this).2
        obtain ⟨ho1, ho2⟩ := (hh.endpoints hmn hmx he).2 heq
        obtain ⟨q, hq, hq'⟩ := compareVersionEq_ok (x := v) (y := mn) (r := mn.revision.isSome)
        simp only [bind_eq_ok, Except.ok.injEq, exists_eq_left', if_pos heq, hq, ho1, ho2]
        have h := queried_equal (v := v) heq (n := v.effectiveRevision)
        rw [← hq'] at h
        simpa [pure, Except.pure] using h.symm
      · simp only [bind_eq_ok, Except.ok.injEq, exists_eq_left', if_neg heq, ha, hb]
        simp [pure, Except.pure, ha', hb']

/-! ### Where they part -/

/-- The version has an iteration, and but for that it is an open min or a closed max endpoint with
a revision; in the second case, an open min endpoint without a revision does not exclude it. -/
def Parted (v : Version) (c : VersionConstraint) : Prop :=
  v.iteration ≠ 0 ∧
    ((∃ m ∈ c.minVersion, c.minOpen = true ∧ m.revision = some v.effectiveRevision ∧
        level v m = .eq) ∨
      ∃ m ∈ c.maxVersion, c.maxOpen = false ∧ m.revision = some v.effectiveRevision ∧
        level v m = .eq ∧
        ¬ ∃ m' ∈ c.minVersion, c.minOpen = true ∧ m'.revision = none ∧ level v m' = .eq)

variable {n i : ℕ} {o : Bool}

/-- Only an open min endpoint with the revision of the version tells the two apart. -/
theorem askedMin_iff (hm : m.iteration = 0)
    (h : ¬ (i ≠ 0 ∧ o = true ∧ m.revision = some n)) : AskedMin m o n i ↔ QueriedMin m o n := by
  unfold AskedMin QueriedMin
  cases hr : m.revision with
  | none => rfl
  | some r =>
    rw [hm]
    simp only [hr, Option.some.injEq] at h
    cases o with
    | false =>
      simp only [Bool.false_eq_true, if_false]
      rw [pair_ne_lt]
      omega
    | true =>
      simp only [if_true, true_and] at h ⊢
      rw [pair_eq_gt]
      omega

theorem askedMax_iff (hm : m.iteration = 0)
    (h : ¬ (i ≠ 0 ∧ o = false ∧ m.revision = some n)) : AskedMax m o n i ↔ QueriedMax m o n := by
  unfold AskedMax QueriedMax
  cases hr : m.revision with
  | none => rfl
  | some r =>
    rw [hm]
    simp only [hr, Option.some.injEq] at h
    cases o with
    | true =>
      simp only [if_true]
      rw [pair_eq_lt]
      omega
    | false =>
      simp only [Bool.false_eq_true, if_false, true_and] at h ⊢
      rw [pair_ne_gt]
      omega

theorem askedMax_of_min (hc : IsComplete c) (hh : Held c) {mn : Version}
    (hmn : c.minVersion = some mn) (ho : c.minOpen = true)
    (hr : mn.revision = some n) (hl : level v mn = .eq) (hin : mn.iteration = 0)
    (hix : ∀ m ∈ c.maxVersion, m.iteration = 0) :
    ∀ m ∈ c.maxVersion, level v m = .lt ∨ level v m = .eq ∧ AskedMax m c.maxOpen n i := by
  intro mx hmx
  have he : mx.empty = false := by
    have := hc.complete
    rw [VersionConstraint.complete, hmn, hmx] at this
    simpa using (Bool.and_eq_true_iff.mp this).2
  obtain ⟨h1, h2⟩ := hh.endpoints hmn hmx he
  rw [level_congr_left hl]
  have hcmp := compare_eq_level mn mx
  rw [hin, hix mx hmx, hr] at hcmp
  cases hrel : level mn mx with
  | lt => exact Or.inl rfl
  | gt =>
    rw [hrel] at hcmp
    have h := (h1 hcmp).2.2
    rw [level_swap mn mx, hrel] at h
    cases h
  | eq =>
    refine Or.inr ⟨rfl, ?_⟩
    rw [hrel] at hcmp
    cases hrx : mx.revision with
    | none =>
      rw [hrx] at hcmp
      rw [AskedMax, hrx]
      exact (h1 hcmp).1
    | some r =>
      rw [hrx] at hcmp
      have hpair : mn.cmp mx = pair n 0 r 0 := hcmp
      have hlt : n < r := by
        by_contra hge
        rcases Nat.lt_or_ge r n with h | h
        · rw [pair_eq_gt.mpr (Or.inl h)] at hpair
          have := (h1 hpair).2.1
          rw [hrx] at this
          cases this
        · obtain rfl : n = r := by omega
          have := (h2 (by rw [hpair]; simp [pair])).1
          rw [ho] at this
          cases this
      simp only [AskedMax, hrx]
      split_ifs
      · exact pair_eq_lt.mpr (Or.inl hlt)
      · exact pair_ne_gt.mpr (Or.inl hlt)

/-- A version with the revision of a closed max endpoint is not before the min endpoint, unless this
is an open one of the same level. -/
theorem queriedMin_of_max (hc : IsComplete c) (hh : Held c) {mx : Version}
    (hmx : c.maxVersion = some mx) (hr : mx.revision = some n) (hl : level v mx = .eq)
    (hix : mx.iteration = 0) (hin : ∀ m ∈ c.minVersion, m.iteration = 0)
    (hno : ¬ ∃ m' ∈ c.minVersion, c.minOpen = true ∧ m'.revision = none ∧ level v m' = .eq) :
    ∀ m ∈ c.minVersion, level v m = .gt ∨ level v m = .eq ∧ QueriedMin m c.minOpen n := by
  intro mn hmn
  have he : mx.empty = false := by
    have := hc.complete
    rw [VersionConstraint.complete, hmn, hmx] at this
    simpa using (Bool.and_eq_true_iff.mp this).2
  obtain ⟨h1, h2⟩ := hh.endpoints hmn hmx he
  have hv : level v mn = (level mn mx).swap := by
    rw [level_congr_left hl, level_swap mn mx]
  have hcmp := compare_eq_level mn mx
  rw [hin mn hmn, hix, hr] at hcmp
  cases hrel : level mn mx with
  | lt =>
    rw [hv, hrel]
    exact Or.inl rfl
  | gt =>
    rw [hrel] at hcmp
    have h := (h1 hcmp).2.1
    rw [hr] at h
    cases h
  | eq =>
    rw [hrel] at hcmp hv
    refine Or.inr ⟨hv, ?_⟩
    cases hrn : mn.revision with
    | none =>
      rw [QueriedMin, hrn]
      exact eq_false_of_ne_true fun ho => hno ⟨mn, hmn, ho, hrn, hv⟩
    | some r =>
      rw [hrn] at hcmp
      have hpair : mn.cmp mx = pair r 0 n 0 := hcmp
      simp only [QueriedMin, hrn]
      rcases Nat.lt_trichotomy r n with h | h | h
      · split_ifs
        · exact h
        · exact h.le
      · have ho := (h2 (by rw [hpair, h]; simp [pair])).1
        rw [ho, if_neg (by decide)]
        exact h.le
      · rw [pair_eq_gt.mpr (Or.inl h)] at hpair
        have := (h1 hpair).2.1
        rw [hr] at this
        cases this

theorem ne_wildcard (hs : level v wildcardVersion ≠ .eq) : v.cmp wildcardVersion ≠ .eq := by
  rw [Version.cmp, compare_eq_level]
  exact fun h => hs (Ordering.then_eq_eq.mp h).1

/-- **The query and the check agree** on all versions but those that they part on. -/
theorem query_agrees (c : VersionConstraint) (v : Version) (hc : IsComplete c) (hh : Held c)
    (hin : ∀ m ∈ c.minVersion, m.iteration = 0) (hix : ∀ m ∈ c.maxVersion, m.iteration = 0)
    (hv : IsAvailable v) (hs : level v wildcardVersion ≠ .eq) :
    (queryAvailable c (canonicalVersion v) = .ok true ↔ satisfiesVersion v c = .ok true) ↔
      ¬ Parted v c := by
  rw [queryAvailable_iff hc hh hs, satisfiesVersion_iff hv hc (ne_wildcard hs)]
  constructor
  · rintro h ⟨hi, ⟨m, hm, ho, hr, hl⟩ | ⟨m, hm, ho, hr, hl, hno⟩⟩
    · -- the check lets it pass as a greater iteration
      have hmax := askedMax_of_min hc hh hm ho hr hl (hin m hm) hix (i := v.iteration)
      have hmin : ∀ m ∈ c.minVersion, level v m = .gt ∨
          level v m = .eq ∧ AskedMin m c.minOpen v.effectiveRevision v.iteration := by
        intro m' hm'
        obtain rfl : m = m' := Option.some.inj (hm.symm.trans hm')
        refine Or.inr ⟨hl, ?_⟩
        simp only [AskedMin, hr, ho, if_true, hin m hm]
        exact pair_eq_gt.mpr (Or.inr ⟨rfl, Nat.pos_of_ne_zero hi⟩)
      have hq := (h.mpr ⟨hmin, hmax⟩).1 m hm
      rw [hl] at hq
      simp [QueriedMin, hr, ho] at hq
    · -- the check stops it as a greater iteration
      have hmin := queriedMin_of_max hc hh hm hr hl (hix m hm) hin hno
      have hmax : ∀ m ∈ c.maxVersion, level v m = .lt ∨
          level v m = .eq ∧ QueriedMax m c.maxOpen v.effectiveRevision := by
        intro m' hm'
        obtain rfl : m = m' := Option.some.inj (hm.symm.trans hm')
        exact Or.inr ⟨hl, by simp [QueriedMax, hr, ho]⟩
      have ha := (h.mp ⟨hmin, hmax⟩).2 m hm
      rw [hl] at ha
      simp only [AskedMax, hr, ho, reduceCtorEq, false_or, true_and, Bool.false_eq_true,
        if_false, pair_ne_gt, hix m hm] at ha
      omega
  · intro hp
    unfold Parted at hp
    have hmin : (∀ m ∈ c.minVersion, level v m = .gt ∨
        level v m = .eq ∧ QueriedMin m c.minOpen v.effectiveRevision) ↔
        ∀ m ∈ c.minVersion, level v m = .gt ∨
          level v m = .eq ∧ AskedMin m c.minOpen v.effectiveRevision v.iteration := by
      refine forall₂_congr fun m hm => or_congr_right (and_congr_right fun hl => ?_)
      refine (askedMin_iff (hin m hm) ?_).symm
      rintro ⟨hi, ho, hr⟩
      exact hp ⟨hi, Or.inl ⟨m, hm, ho, hr, hl⟩⟩
    rw [hmin]
    refine and_congr_right fun hmin' => ?_
    refine forall₂_congr fun m hm => or_congr_right (and_congr_right fun hl => ?_)
    refine (askedMax_iff (hix m hm) ?_).symm
    rintro ⟨hi, ho, hr⟩
    refine hp ⟨hi, Or.inr ⟨m, hm, ho, hr, hl, ?_⟩⟩
    rintro ⟨m', hm', ho', hr', hl'⟩
    have h := hmin' m' hm'
    rw [hl'] at h
    simp [AskedMin, hr', ho'] at h

end

/-! ### An iteration -/

/-- The version `1+1` with an iteration. -/
def oneOne (i : ℕ) : Version :=
  ⟨1, str ['1'], none, some 1, i, Version.canonical [str ['1']], str ['~']⟩

theorem ofParts_oneOne : ∀ i, Version.ofParts 1 (str ['1']) none (some 1) i = .ok (oneOne i) := by
  intro i
  refine Version.ofParts_eq_ok.mpr ⟨nofun, _, _, ?_, rfl, rfl⟩
  have hword : ∀ x ∈ [str ['1']], Version.IsWord x ∧ Version.Fits x := by
    intro x hx
    rw [List.mem_singleton.mp hx]
    have hone : isAlnum (ch '1') = true := by decide
    exact ⟨⟨by decide, List.forall_mem_singleton.mpr hone⟩, by decide⟩
  exact Version.isPart_joined hword

theorem isAvailable_oneOne (i : ℕ) : IsAvailable (oneOne i) where
  constructed := .ofParts (ofParts_oneOne i)
  notEarliest := nofun
  revision := show 1 ≤ 65535 by decide

/-- `== 1+1`. -/
def isOneOne : VersionConstraint := ⟨some (oneOne 0), some (oneOne 0), false, false⟩

theorem isComplete_isOneOne : IsComplete isOneOne where
  notEmpty := rfl
  complete := rfl
  minVersion _ h := by
    cases h
    exact ⟨.ofParts (ofParts_oneOne 0), fun _ h => by cases h; decide⟩
  maxVersion _ h := by
    cases h
    exact ⟨.ofParts (ofParts_oneOne 0), fun _ h => by cases h; decide⟩

theorem query_agrees_oneOne :
    queryAvailable isOneOne (canonicalVersion (oneOne 0)) = .ok true ↔
      satisfiesVersion (oneOne 0) isOneOne = .ok true :=
  (query_agrees isOneOne (oneOne 0) isComplete_isOneOne (by rfl) (fun _ h => by cases h; rfl)
    (fun _ h => by cases h; rfl) (isAvailable_oneOne 0) (by decide)).mpr fun h => h.1 rfl

/-- The query selects `1+1#3` for `== 1+1`, which it does not satisfy. -/
theorem query_takes_iteration :
    Held isOneOne ∧ Version.ofParts 1 (str ['1']) none (some 1) 3 = .ok (oneOne 3) ∧
      queryAvailable isOneOne (canonicalVersion (oneOne 3)) = .ok true ∧
      satisfiesVersion (oneOne 3) isOneOne = .ok false :=
  ⟨rfl, ofParts_oneOne 3, rfl, rfl⟩

end Build2.Bpkg
