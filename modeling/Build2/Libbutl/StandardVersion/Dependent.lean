import Build2.Libbutl.StandardVersion.Series

/-! # Shortcuts completed from a dependent version

`~$` and `^$` are completed from the version of a package, its revision stripped. Which endpoints
that gives, and when the range has the version it was derived from. -/

namespace Build2.Libbutl.StandardVersion

open Build2.Lib.ByteString Build2.Lib.Decimal Build2.Lib.Stateful Build2.Lib.Stateful.Comp
  Build2.Libbutl.ParseUint

/-! ### Constructing from components -/

theorem steady_ofComponents (ep mj mi pa pr rv : ℕ) :
    Steady .zero (ofComponents ep mj mi pa pr rv) :=
  steady_ofEpochSnapshotString _ _ _ _ _

theorem steady_ofSnapshotComponents (ep mj mi pa pr sn : ℕ) (si : Bytes) (rv : ℕ) :
    Steady .zero (ofSnapshotComponents ep mj mi pa pr sn si rv) :=
  steady_ofSnapshot _ _ _ _ _ _

theorem ofEpochSnapshotString_none {e n r : ℕ} {x : StandardVersion} :
    (ofEpochSnapshotString e n [] r .none).eval .zero = .ok x ↔
      Checked n false .none ∧ x = ⟨e, n, 0, [], r⟩ := by
  have hv : validVersion n (decide (([] : Bytes) ≠ [])) .none = true ↔ Checked n false .none := by
    rw [validVersion_eq_true]
    simp [Flags.none]
  simp only [ofEpochSnapshotString_eq_ok, ofSnapshotString_eq_ok, hv]
  constructor
  · rintro ⟨y, ⟨hc, ⟨-, rfl⟩ | ⟨h, -⟩⟩, -, rfl⟩
    · exact ⟨hc, rfl⟩
    · exact absurd rfl h
  · rintro ⟨hc, rfl⟩
    exact ⟨{ version := n }, ⟨hc, Or.inl ⟨trivial, rfl⟩⟩,
      fun h => hc.ne_stub (of_decide_eq_true h.1), rfl⟩

theorem joined_le {ma mi : ℕ} (h1 : ma ≤ 99999) (h2 : mi ≤ 99999) :
    joined ma mi 0 ≤ 999999999900000 ∧ joined ma mi 0 % 100000 = 0 := by
  unfold joined
  omega

/-- The version number of components without a snapshot. -/
def componentNumber (t pr : ℕ) : ℕ := if pr = 0 then 10000 * t else 10000 * t + pr * 10 - 10000

/-- Subtracting the borrowed one in 64 bits. -/
theorem sub_borrow {a : ℕ} (h1 : 10000 ≤ a) (h2 : a < 2 ^ 64) :
    (a + (2 ^ 64 - 10000)) % 2 ^ 64 = a - 10000 := by
  have h : a + (2 ^ 64 - 10000) = a - 10000 + 2 ^ 64 := by omega
  rw [h, Nat.add_mod_right, Nat.mod_eq_of_lt (by omega)]

/-- With nothing to borrow from, the number wraps around to one that is too large. -/
theorem not_checked_wrap {a : ℕ} (h : a ≤ 10001) {b : Bool} {f : Flags} :
    ¬ Checked ((a + (2 ^ 64 - 10000)) % 2 ^ 64) b f := by
  intro hc
  by_cases ha : a < 10000
  · have := hc.lt
    rw [Nat.mod_eq_of_lt (by omega)] at this
    omega
  · have := hc.joined
    rw [sub_borrow (by omega) (by omega)] at this
    omega

theorem componentNumber_mod {t pr : ℕ} (h1 : t ≤ 999999999900000) (h3 : pr ≤ 1000) (ht : t ≠ 0) :
    (10000 * t + pr * 10 + (2 ^ 64 - if pr ≠ 0 then 10000 else 0)) % 2 ^ 64 =
      componentNumber t pr := by
  unfold componentNumber
  by_cases h0 : pr = 0
  · rw [if_neg (not_not.mpr h0), if_pos h0, Nat.sub_zero, Nat.add_mod_right,
      Nat.mod_eq_of_lt (by omega), h0]
    rfl
  · rw [if_pos h0, if_neg h0, sub_borrow (by omega) (by omega)]

/-- The number passes when there is something to borrow from. -/
theorem checked_components {t pr : ℕ} (h1 : t ≤ 999999999900000) (h2 : t % 100000 = 0)
    (h3 : pr ≤ 1000) :
    Checked ((10000 * t + pr * 10 + (2 ^ 64 - if pr ≠ 0 then 10000 else 0)) % 2 ^ 64) false .none ↔
      t ≠ 0 ∧ pr ≠ 500 := by
  constructor
  · intro hc
    have ht : t ≠ 0 := by
      rintro rfl
      split_ifs at hc with h0
      · exact not_checked_wrap (by omega) hc
      · have := hc.joined
        rw [not_not] at h0
        rw [h0] at this
        exact this rfl
    have h500 := hc.beta
    rw [componentNumber_mod h1 h3 ht] at h500
    refine ⟨ht, fun h => absurd (h500 ?_) nofun⟩
    unfold componentNumber
    rw [if_neg (by omega), h]
    omega
  · rintro ⟨ht, h500⟩
    rw [componentNumber_mod h1 h3 ht]
    unfold componentNumber
    split_ifs with h0
    · exact ⟨by omega, Or.inr ⟨by omega, rfl⟩, by omega, by omega⟩
    · exact ⟨by omega, Or.inr ⟨by omega, rfl⟩, by omega, by omega⟩

theorem ofComponents_eq_ok {ep ma mi pr : ℕ} {x : StandardVersion} (h1 : ma ≤ 99999)
    (h2 : mi ≤ 99999) (h3 : pr ≤ 1000) :
    (ofComponents ep ma mi 0 pr 0).eval .zero = .ok x ↔
      (joined ma mi 0 ≠ 0 ∧ pr ≠ 500) ∧
        x = ⟨ep, componentNumber (joined ma mi 0) pr, 0, [], 0⟩ := by
  obtain ⟨hj, hj'⟩ := joined_le h1 h2
  unfold ofComponents
  rw [ofEpochSnapshotString_none, releaseNumber_eq, checked_components hj hj' h3]
  refine and_congr_right fun h => ?_
  rw [componentNumber_mod hj h3 h.1]

theorem ofSnapshotComponents_eq_ok {ep ma mi pr sn : ℕ} {x : StandardVersion} (h1 : ma ≤ 99999)
    (h2 : mi ≤ 99999) (h3 : pr ≤ 999) :
    (ofSnapshotComponents ep ma mi 0 pr sn [] 0).eval .zero = .ok x ↔
      joined ma mi 0 ≠ 0 ∧ x = ⟨ep, 10000 * joined ma mi 0 + pr * 10 + 1 - 10000, sn, [], 0⟩ := by
  obtain ⟨hj, hj'⟩ := joined_le h1 h2
  unfold ofSnapshotComponents
  rw [ofSnapshot_eq_ok, releaseNumber_eq]
  generalize joined ma mi 0 = t at *
  have hn : t ≠ 0 → (10000 * t + pr * 10 + 1 + (2 ^ 64 - 10000)) % 2 ^ 64 =
      10000 * t + pr * 10 + 1 - 10000 := fun ht => sub_borrow (by omega) (by omega)
  have hc : Checked ((10000 * t + pr * 10 + 1 + (2 ^ 64 - 10000)) % 2 ^ 64) true .none ↔ t ≠ 0 := by
    constructor
    · rintro hc rfl
      exact not_checked_wrap (by omega) hc
    · intro ht
      rw [hn ht]
      exact ⟨by omega, Or.inl ⟨by omega, Or.inl rfl⟩, fun _ => rfl, by omega⟩
  rw [hc]
  refine and_congr_right fun h => ?_
  rw [hn h]
  simp

/-! ### The endpoints -/

/-- A snapshot of a major or minor version, whose constraint has the snapshots of its series. -/
def Lockstep (dv : StandardVersion) : Prop :=
  dv.release = false ∧ dv.snapshot = true ∧ dv.patch = 0

/-- The minor version of the left endpoint. -/
def startMinor (c : UInt8) (dv : StandardVersion) : ℕ :=
  if c = ch '^' ∧ dv.major ≠ 0 then 0 else dv.minor

/-- Zero to start at the release, one to start at the first alpha. -/
def startPre (c : UInt8) (dv : StandardVersion) : ℕ :=
  if dv.release = true ∨ dv.patch ≠ 0 ∨ (c = ch '^' ∧ dv.minor ≠ 0) then 0 else 1

/-- The left endpoint of a version that is not in lockstep. -/
def start (c : UInt8) (dv : StandardVersion) : StandardVersion :=
  ⟨dv.epoch, componentNumber (joined dv.major (startMinor c dv) 0) (startPre c dv), 0, [], 0⟩

/-- The endpoints of a version in lockstep: from its first snapshot to the next pre-release. -/
def lockstepMin (dv : StandardVersion) : StandardVersion :=
  ⟨dv.epoch, 10000 * joined dv.major dv.minor 0 + dv.preRelease.getD 0 * 10 + 1 - 10000, 1, [], 0⟩

def lockstepMax (dv : StandardVersion) : StandardVersion :=
  ⟨dv.epoch, componentNumber (joined dv.major dv.minor 0) (dv.preRelease.getD 0 + 1), 0, [], 0⟩

section

variable {c : UInt8} {dv : StandardVersion}

theorem startMinor_le : startMinor c dv ≤ 99999 := by
  have := minor_le dv
  unfold startMinor
  split_ifs <;> omega

theorem startPre_le : startPre c dv ≤ 1 := by
  unfold startPre
  split_ifs <;> omega

theorem preRelease_le (v : StandardVersion) : v.preRelease.getD 0 ≤ 999 := by
  unfold preRelease
  split_ifs
  · exact Nat.zero_le _
  · show v.version / 10 % 1000 ≤ 999
    omega

theorem completeShortcut_series (hs : dv.stub = false) (hl : ¬ Lockstep dv)
    {x : StandardVersion × StandardVersion} :
    (completeShortcut c dv).eval .zero = .ok x ↔
      joined dv.major (startMinor c dv) 0 ≠ 0 ∧ x = (start c dv, emptyVersion) := by
  have hm : (if c = ch '^' ∧ dv.major ≠ 0 then 0 else dv.minor) = startMinor c dv := rfl
  have key : ∀ {p : ℕ}, p = startPre c dv → ((do
      let minVersion ← ofComponents dv.epoch dv.major (startMinor c dv) 0 p 0
      pure (minVersion, emptyVersion) : Call (StandardVersion × StandardVersion)).eval .zero =
        .ok x ↔ joined dv.major (startMinor c dv) 0 ≠ 0 ∧ x = (start c dv, emptyVersion)) := by
    rintro p rfl
    have h1 : startPre c dv ≤ 1 := startPre_le
    rw [eval_bind_eq_ok (steady_ofComponents _ _ _ _ _ _)]
    simp only [ofComponents_eq_ok (major_le dv) startMinor_le (show startPre c dv ≤ 1000 by omega)]
    constructor
    · rintro ⟨y, ⟨⟨h2, -⟩, rfl⟩, h3⟩
      cases h3
      exact ⟨h2, rfl⟩
    · rintro ⟨h2, rfl⟩
      exact ⟨_, ⟨⟨h2, by omega⟩, rfl⟩, rfl⟩
  unfold completeShortcut
  simp only [hm]
  by_cases hr : dv.release = true
  · rw [if_pos hr]
    exact key (by rw [startPre, if_pos (Or.inl hr)])
  · have hf : dv.final = true ∨ dv.snapshot = true ∧ dv.patch ≠ 0 := by
      unfold Lockstep at hl
      unfold final
      rw [hs, Bool.or_false]
      cases hsn : dv.snapshot
      · exact Or.inl (by simp)
      · exact Or.inr ⟨rfl, fun hp => hl ⟨eq_false_of_ne_true hr, hsn, hp⟩⟩
    rw [if_neg hr, if_pos hf]
    refine key ?_
    unfold startPre
    simp only [eq_false_of_ne_true hr, Bool.false_eq_true, false_or]

theorem completeShortcut_lockstep (hl : Lockstep dv)
    {x : StandardVersion × StandardVersion} :
    (completeShortcut c dv).eval .zero = .ok x ↔
      joined dv.major dv.minor 0 ≠ 0 ∧ dv.preRelease.getD 0 + 1 ≠ 500 ∧
        x = (lockstepMin dv, lockstepMax dv) := by
  obtain ⟨hr, hsn, hp⟩ := hl
  have hf : ¬ (dv.final = true ∨ dv.snapshot = true ∧ dv.patch ≠ 0) := by
    simp [final, hr, hsn, hp]
  have h1 := preRelease_le dv
  unfold completeShortcut
  rw [if_neg (by rw [hr]; nofun), if_neg hf, if_neg (by simp [hsn, hp]),
    eval_bind_eq_ok (steady_ofSnapshotComponents _ _ _ _ _ _ _ _)]
  simp only [ofSnapshotComponents_eq_ok (major_le dv) (minor_le dv) h1,
    eval_bind_eq_ok (steady_ofComponents _ _ _ _ _ _),
    ofComponents_eq_ok (major_le dv) (minor_le dv)
      (show dv.preRelease.getD 0 + 1 ≤ 1000 by omega)]
  constructor
  · rintro ⟨y, ⟨h2, rfl⟩, z, ⟨⟨-, h3⟩, rfl⟩, h4⟩
    cases h4
    exact ⟨h2, h3, rfl⟩
  · rintro ⟨h2, h3, rfl⟩
    exact ⟨_, ⟨h2, rfl⟩, _, ⟨⟨h2, h3⟩, rfl⟩, rfl⟩

/-! ### The constraint -/

theorem steady_completeShortcut : Steady .zero (completeShortcut c dv) := by
  unfold completeShortcut
  refine steady_ite ?_ (steady_ite ?_ (steady_ite (steady_throw _) ?_))
  · exact steady_bind (steady_ofComponents _ _ _ _ _ _) fun _ => steady_pure _
  · exact steady_bind (steady_ofComponents _ _ _ _ _ _) fun _ => steady_pure _
  · exact steady_bind (steady_ofSnapshotComponents _ _ _ _ _ _ _ _) fun _ =>
      steady_bind (steady_ofComponents _ _ _ _ _ _) fun _ => steady_pure _

theorem dependentVersion_eq (hl : dv.latestSnapshot = false) (hs : dv.stub = false) :
    dependentVersion dv = pure { dv with revision := 0 } := by
  simp [dependentVersion, hl, hs]

theorem steady_dependentVersion (v : StandardVersion) : Steady .zero (dependentVersion v) := by
  unfold dependentVersion
  exact steady_ite (steady_bail _) (steady_ite (steady_bail _) (steady_pure _))

/-- The revision of the dependent version does not matter to the endpoints. -/
theorem completeShortcut_revision (r : ℕ) :
    completeShortcut c { dv with revision := r } = completeShortcut c dv := rfl

theorem start_regular (hj : joined dv.major (startMinor c dv) 0 ≠ 0) :
    (start c dv).Regular ∧ triple (start c dv).version = joined dv.major (startMinor c dv) 0 ∧
      (start c dv).major = dv.major ∧ (start c dv).minor = startMinor c dv := by
  have h1 := major_le dv
  have h2 : startMinor c dv ≤ 99999 := startMinor_le
  obtain ⟨h3, -⟩ := joined_le h1 h2
  have h4 : startPre c dv ≤ 1 := startPre_le
  have hn : (start c dv).version + 10000 =
      10000 * joined dv.major (startMinor c dv) 0 +
        if startPre c dv = 0 then 10000 else 10 := by
    show componentNumber _ _ + 10000 = _
    unfold componentNumber
    split_ifs <;> omega
  have ht : triple (start c dv).version = joined dv.major (startMinor c dv) 0 :=
    triple_eq hn (by split_ifs <;> omega) (by split_ifs <;> omega)
  have hr : (start c dv).Regular := by
    refine ⟨?_, ?_, ?_, fun h => absurd rfl h⟩ <;> split_ifs at hn <;> omega
  obtain ⟨h5, h6, -⟩ := decode hr.flag ht h1 h2 (Nat.zero_le 99999)
  exact ⟨hr, ht, h5, h6⟩

theorem lockstep_regular (hj : joined dv.major dv.minor 0 ≠ 0) :
    (lockstepMin dv).Regular ∧ (lockstepMax dv).Regular ∧
      (lockstepMin dv).cmp (lockstepMax dv) = .lt := by
  obtain ⟨h1, -⟩ := joined_le (major_le dv) (minor_le dv)
  have h2 := preRelease_le dv
  have h3 : (lockstepMax dv).version =
      10000 * joined dv.major dv.minor 0 + (dv.preRelease.getD 0 + 1) * 10 - 10000 := by
    unfold lockstepMax componentNumber
    rw [if_neg (Nat.succ_ne_zero _)]
  have h4 : (lockstepMin dv).version =
      10000 * joined dv.major dv.minor 0 + dv.preRelease.getD 0 * 10 + 1 - 10000 := rfl
  refine ⟨⟨?_, ?_, ?_, fun _ => ?_⟩, ⟨?_, ?_, ?_, fun h => absurd rfl h⟩, ?_⟩
  any_goals omega
  exact cmp_eq_lt.mpr (Or.inr ⟨rfl, Or.inl (by omega)⟩)

/-- A shortcut on `$` is one of its operator and the dependent version. -/
theorem ofDependent_shortcut (hc : IsShortcut c) (hr : dv.Regular) (he : dv.earliest = false) :
    Constraint.ofDependent [c, ch '$'] dv = parseShortcut c [ch '$'] (some dv) := by
  have h1 : ¬ (c = ch '(' ∨ c = ch '[') := by
    rcases hc with rfl | rfl <;> decide
  have h2 : c = ch '~' ∨ c = ch '^' := hc
  simp only [Constraint.ofDependent, parseConstraint, Option.any_some, hr.empty, he,
    Bool.false_eq_true, if_false, hd_cons, h1, h2, if_true, List.tail_cons]

theorem steady_shortcutEndpoints_dependent :
    Steady .zero (shortcutEndpoints c [ch '$'] (some dv)) := by
  unfold shortcutEndpoints
  simp only [if_true]
  refine steady_bind (steady_dependentVersion _) fun _ => steady_bind steady_completeShortcut
    fun _ => steady_ite (steady_bind (steady_shortcutMaxVersion _ _ _) fun _ => steady_pure _)
      (steady_pure _)

/-- **The endpoints for `$`.** Two cases: the start and the bound of the series, or the snapshots up
to the next pre-release. -/
theorem shortcutEndpoints_dependent (hc : IsShortcut c) (hep : dv.epoch ≤ 65535)
    (hs : dv.stub = false) (hl : dv.latestSnapshot = false)
    {y : StandardVersion × StandardVersion} :
    (shortcutEndpoints c [ch '$'] (some dv)).eval .zero = .ok y ↔
      (¬ Lockstep dv ∧ joined dv.major (startMinor c dv) 0 ≠ 0 ∧ ¬ Overflows c (start c dv) ∧
        y = (start c dv, (bound c (start c dv)).toVersion)) ∨
      Lockstep dv ∧ joined dv.major dv.minor 0 ≠ 0 ∧ dv.preRelease.getD 0 + 1 ≠ 500 ∧
        y = (lockstepMin dv, lockstepMax dv) := by
  unfold shortcutEndpoints
  simp only [if_true, dependentVersion_eq hl hs]
  rw [eval_bind_eq_ok (steady_pure _)]
  simp only [eval_pure, Except.ok.injEq, exists_eq_left', completeShortcut_revision]
  rw [eval_bind_eq_ok steady_completeShortcut]
  by_cases hk : Lockstep dv
  · rw [or_iff_right fun h => h.1 hk, and_iff_right hk]
    simp only [completeShortcut_lockstep hk]
    constructor
    · rintro ⟨z, ⟨h1, h2, rfl⟩, h3⟩
      rw [if_neg (by rw [(lockstep_regular h1).2.1.empty]; nofun)] at h3
      cases h3
      exact ⟨h1, h2, rfl⟩
    · rintro ⟨h1, h2, rfl⟩
      refine ⟨_, ⟨h1, h2, rfl⟩, ?_⟩
      rw [if_neg (by rw [(lockstep_regular h1).2.1.empty]; nofun)]
      rfl
  · rw [or_iff_left fun h => hk h.1, and_iff_right hk]
    simp only [completeShortcut_series hs hk]
    have he : emptyVersion.empty = true := rfl
    have hmx : ∀ {x}, (shortcutMaxVersion c (start c dv) false).eval .zero = .ok x ↔
        ¬ Overflows c (start c dv) ∧ x = (bound c (start c dv)).toVersion := by
      intro x
      by_cases ho : Overflows c (start c dv)
      · obtain ⟨m, hm⟩ := shortcutMaxVersion_overflow hc ho
        rw [hm]
        exact ⟨fun h => absurd h nofun, fun h => absurd ho h.1⟩
      · rw [shortcutMaxVersion_eq hc (show (start c dv).epoch ≤ 65535 from hep) ho]
        exact ⟨fun h => by cases h; exact ⟨ho, rfl⟩, fun h => by rw [h.2]⟩
    constructor
    · rintro ⟨z, ⟨h1, rfl⟩, h2⟩
      simp only [he, if_true] at h2
      rw [eval_bind_eq_ok (steady_shortcutMaxVersion _ _ _)] at h2
      obtain ⟨mx, h3, h4⟩ := h2
      obtain ⟨ho, rfl⟩ := hmx.mp h3
      cases h4
      exact ⟨h1, ho, rfl⟩
    · rintro ⟨h1, ho, rfl⟩
      refine ⟨_, ⟨h1, rfl⟩, ?_⟩
      simp only [he, if_true]
      rw [eval_bind_eq_ok (steady_shortcutMaxVersion _ _ _)]
      exact ⟨_, hmx.mpr ⟨ho, rfl⟩, rfl⟩

/-- **The constraint of a shortcut on `$`.** -/
theorem ofDependent_eq_ok (hc : IsShortcut c) (hv : Constructed dv) (hs : dv.stub = false)
    (he : dv.earliest = false) (hl : dv.latestSnapshot = false) {x : Constraint} :
    fresh (Constraint.ofDependent [c, ch '$'] dv) = .ok x ↔
      (¬ Lockstep dv ∧ joined dv.major (startMinor c dv) 0 ≠ 0 ∧ ¬ Overflows c (start c dv) ∧
        x = ⟨some (start c dv), some (bound c (start c dv)).toVersion, false, true⟩) ∨
      Lockstep dv ∧ joined dv.major dv.minor 0 ≠ 0 ∧ dv.preRelease.getD 0 + 1 ≠ 500 ∧
        x = ⟨some (lockstepMin dv), some (lockstepMax dv), false, true⟩ := by
  have hep := hv.cases.2
  have hb : ([ch '$'] : Bytes).dropWhile isBlank = [ch '$'] := by decide
  rw [ofDependent_shortcut hc (hv.regular hs) he]
  unfold parseShortcut
  simp only [hb, List.cons_ne_nil, if_false]
  refine (eval_bind_eq_ok (steady_mapError steady_shortcutEndpoints_dependent _)).trans ?_
  simp only [eval_mapError_eq_ok, shortcutEndpoints_dependent hc hep hs hl]
  have h1 : ∀ {x : Constraint}, joined dv.major (startMinor c dv) 0 ≠ 0 →
      ¬ Overflows c (start c dv) → ((Constraint.ofVersions (some (start c dv)) false
        (some (bound c (start c dv)).toVersion) true).eval .zero = .ok x ↔
        x = ⟨some (start c dv), some (bound c (start c dv)).toVersion, false, true⟩) := by
    intro x hj ho
    obtain ⟨hr, ht, -⟩ := start_regular (c := c) hj
    have hmi : startMinor c dv ≤ 99999 := startMinor_le
    have := (joined_le (major_le dv) hmi).1
    have hb := bound_valid (show (start c dv).epoch ≤ 65535 from hep) ho
    rw [ofVersions_lt hr hb.regular (cmp_bound c hr (by omega))]
    exact ⟨fun h => by cases h; rfl, fun h => by rw [h]; rfl⟩
  have h2 : ∀ {x : Constraint}, joined dv.major dv.minor 0 ≠ 0 →
      ((Constraint.ofVersions (some (lockstepMin dv)) false (some (lockstepMax dv)) true).eval
        .zero = .ok x ↔ x = ⟨some (lockstepMin dv), some (lockstepMax dv), false, true⟩) := by
    intro x hj
    obtain ⟨hr, hr', hlt⟩ := lockstep_regular hj
    rw [ofVersions_lt hr hr' hlt]
    exact ⟨fun h => by cases h; rfl, fun h => by rw [h]; rfl⟩
  constructor
  · rintro ⟨y, ⟨hk, hj, ho, rfl⟩ | ⟨hk, hj, hp, rfl⟩, h⟩
    · exact Or.inl ⟨hk, hj, ho, (h1 hj ho).mp h⟩
    · exact Or.inr ⟨hk, hj, hp, (h2 hj).mp h⟩
  · rintro (⟨hk, hj, ho, rfl⟩ | ⟨hk, hj, hp, rfl⟩)
    · exact ⟨_, Or.inl ⟨hk, hj, ho, rfl⟩, (h1 hj ho).mpr rfl⟩
    · exact ⟨_, Or.inr ⟨hk, hj, hp, rfl⟩, (h2 hj).mpr rfl⟩

end

/-! ### The dependent version itself -/

/-- A final pre-release of `0.Y.0`, for which `^` starts the range at the release `0.Y.0`. -/
def StartsAfter (c : UInt8) (dv : StandardVersion) : Prop :=
  c = ch '^' ∧ dv.major = 0 ∧ dv.minor ≠ 0 ∧ dv.minor ≠ 99999 ∧ dv.patch = 0 ∧
    dv.release = false ∧ dv.snapshot = false

instance (c : UInt8) (dv : StandardVersion) : Decidable (StartsAfter c dv) :=
  inferInstanceAs (Decidable (_ ∧ _))

theorem release_eq_false {v : StandardVersion} : v.release = false ↔ ddde v.version < 10000 := by
  unfold release ddde
  rw [decide_eq_false_iff_not]
  split_ifs <;> omega

/-- The only pre-release below the first alpha that is not the earliest version is a snapshot. -/
theorem snapshot_of_ddde {v : StandardVersion} (hv : v.Regular) (he : v.earliest = false)
    (h : ddde v.version < 10) : v.snapshot = true := by
  have h1 := hv.flag
  have h2 : v.version % 10000 = 1 := by
    unfold ddde at h
    split_ifs at h <;> omega
  simpa [earliest, h2, hv.stub] using he

theorem lt_start {c : UInt8} {dv : StandardVersion} (hv : dv.Regular) (he : dv.earliest = false)
    (hk : ¬ Lockstep dv) (hj : joined dv.major (startMinor c dv) 0 ≠ 0) :
    dv.version < (start c dv).version ↔
      dv.minor = startMinor c dv ∧ dv.patch = 0 ∧ dv.release = false ∧ startPre c dv = 0 := by
  have h1 := major_eq hv.flag
  have h2 := minor_eq hv.flag
  have h3 := patch_eq hv.flag
  have h4 := triple_ddde dv.version
  have h5 := ddde_pos dv.version
  have h6 := ddde_le dv.version
  have h7 := hv.lt
  have hmi : startMinor c dv = dv.minor ∨ startMinor c dv = 0 := by
    unfold startMinor
    split_ifs
    · exact Or.inr rfl
    · exact Or.inl rfl
  have hj' : joined dv.major (startMinor c dv) 0 =
      dv.major * 10000000000 + startMinor c dv * 100000 := Nat.add_zero _
  have hn : (start c dv).version = componentNumber (joined dv.major (startMinor c dv) 0)
      (startPre c dv) := rfl
  rw [hn, release_eq_false]
  unfold componentNumber
  by_cases hp : startPre c dv = 0
  · rw [if_pos hp, hj']
    omega
  · -- the range starts at the first alpha: only an earliest version or a lockstep snapshot is below
    have hlow : dv.patch = 0 → dv.release = false → 10 ≤ ddde dv.version := by
      intro hpa hrel
      by_contra hlt
      exact hk ⟨hrel, snapshot_of_ddde hv he (by omega), hpa⟩
    rw [release_eq_false] at hlow
    have hpre : startPre c dv = 1 := by
      have hpr : startPre c dv ≤ 1 := startPre_le
      omega
    rw [if_neg hp, hpre, hj']
    omega

/-- The dependent version is below the start of its range if that is a release and it is not. -/
theorem cmp_start {c : UInt8} {dv : StandardVersion} (hv : dv.Regular) (he : dv.earliest = false)
    (hk : ¬ Lockstep dv) (hj : joined dv.major (startMinor c dv) 0 ≠ 0)
    (ho : ¬ Overflows c (start c dv)) :
    ({ dv with revision := 0 } : StandardVersion).cmp (start c dv) = .lt ↔ StartsAfter c dv := by
  have hlt : ({ dv with revision := 0 } : StandardVersion).cmp (start c dv) = .lt ↔
      dv.version < (start c dv).version := by
    rw [cmp_eq_lt]
    simp [start]
  rw [hlt, lt_start hv he hk hj]
  unfold StartsAfter
  constructor
  · rintro ⟨h1, h2, h3, h4⟩
    have hc : c = ch '^' ∧ dv.minor ≠ 0 := by
      by_contra hn
      rw [startPre, if_neg (by simp [h2, h3, hn])] at h4
      cases h4
    have h0 : dv.major = 0 := by
      by_contra hn
      rw [startMinor, if_pos ⟨hc.1, hn⟩] at h1
      exact hc.2 h1
    obtain ⟨-, -, h5, h6⟩ := start_regular hj
    refine ⟨hc.1, h0, hc.2, fun h => ho ?_, h2, h3, ?_⟩
    · have hm : ComparesMinor c (start c dv) := Or.inr (h5.trans h0)
      rw [Overflows, if_pos hm, h6, ← h1, h]
    · exact eq_false_of_ne_true fun hsn => hk ⟨h3, hsn, h2⟩
  · rintro ⟨rfl, h0, h1, -, h2, h3, -⟩
    exact ⟨(if_neg fun h => h.2 h0).symm, h2, h3, if_pos (Or.inr (Or.inr ⟨rfl, h1⟩))⟩

theorem cmp_start_bound {c : UInt8} {dv : StandardVersion} (hv : dv.Regular)
    (hj : joined dv.major (startMinor c dv) 0 ≠ 0)
    (hge : ({ dv with revision := 0 } : StandardVersion).cmp (start c dv) ≠ .lt) :
    ({ dv with revision := 0 } : StandardVersion).cmp (bound c (start c dv)).toVersion = .lt := by
  obtain ⟨hr, ht, h5, h6⟩ := start_regular (c := c) hj
  have hmi : startMinor c dv ≤ 99999 := startMinor_le
  have hle := (joined_le (major_le dv) hmi).1
  have hv' : ({ dv with revision := 0 } : StandardVersion).Regular :=
    ⟨hv.pos, hv.lt, hv.flag, hv.sn⟩
  have h1 := major_eq hv.flag
  have h2 := minor_eq hv.flag
  have hno : ¬ (dv.epoch = (start c dv).epoch ∧ triple dv.version = 1000000000000000 ∧
      (start c dv).major = 0 ∧ (start c dv).minor = 0) := by
    rintro ⟨-, -, h3, h4⟩
    rw [h5] at h3
    rw [h6] at h4
    rw [h3, h4] at hj
    exact hj rfl
  refine ((inSeries_iff (c := c) hr (by omega) hv').mpr hno).mpr ⟨rfl, hge, h5.symm,
    fun hm => ?_⟩ |>.2
  show dv.minor = _
  rw [h6, startMinor, if_neg]
  rintro ⟨rfl, hne⟩
  exact hm.elim (by decide) fun h0 => hne (h5.symm.trans h0)

/-- A snapshot in lockstep is in the range of its series. -/
theorem cmp_lockstep {dv : StandardVersion} (hv : dv.Regular) (hk : Lockstep dv)
    (hj : joined dv.major dv.minor 0 ≠ 0) :
    ({ dv with revision := 0 } : StandardVersion).cmp (lockstepMin dv) ≠ .lt ∧
      ({ dv with revision := 0 } : StandardVersion).cmp (lockstepMax dv) = .lt := by
  obtain ⟨hrel, hsn, hpa⟩ := hk
  have h1 := major_eq hv.flag
  have h2 := minor_eq hv.flag
  have h3 := patch_eq hv.flag
  have h4 := triple_ddde dv.version
  have h5 := ddde_pos dv.version
  have h7 := hv.lt
  have h8 : dv.snapshotSn ≠ 0 := of_decide_eq_true hsn
  have h9 := hv.sn h8
  have h10 := release_eq_false.mp hrel
  have hpr : dv.preRelease.getD 0 = dv.version / 10 % 1000 := by
    simp [preRelease, hrel, hv.stub]
  have hdd : ddde dv.version = dv.preRelease.getD 0 * 10 + 1 := by
    rw [hpr]
    unfold ddde at h10 ⊢
    split_ifs at h10 ⊢ <;> omega
  have hj' : joined dv.major dv.minor 0 = dv.major * 10000000000 + dv.minor * 100000 :=
    Nat.add_zero _
  have hmin : (lockstepMin dv).version = dv.version := by
    show 10000 * _ + _ + 1 - 10000 = _
    omega
  have hmax : dv.version < (lockstepMax dv).version := by
    have hn : (lockstepMax dv).version =
      componentNumber (joined dv.major dv.minor 0) (dv.preRelease.getD 0 + 1) := rfl
    rw [hn, componentNumber, if_neg (Nat.succ_ne_zero _)]
    omega
  have hep : (lockstepMin dv).epoch = dv.epoch := by rw [lockstepMin]
  have hsn' : (lockstepMin dv).snapshotSn = 1 := by rw [lockstepMin]
  have hrv : (lockstepMin dv).revision = 0 := by rw [lockstepMin]
  constructor
  · intro h
    rw [cmp_eq_lt, hep, hmin, hsn', hrv] at h
    simp only [lt_irrefl, false_or, true_and, and_false, or_false] at h
    exact h8 (Nat.lt_one_iff.mp h)
  · exact cmp_eq_lt.mpr (Or.inr ⟨rfl, Or.inl hmax⟩)

/-- **The dependent version is in the range derived from it**, its revision stripped, unless it is a
final pre-release of `0.Y.0` and the operator is `^`. -/
theorem satisfies_dependent_iff (c : UInt8) (hc : IsShortcut c) (dv : StandardVersion)
    (hv : Constructed dv) (hs : dv.stub = false) (he : dv.earliest = false)
    (hl : dv.latestSnapshot = false) :
    (∀ x, fresh (Constraint.ofDependent [c, ch '$'] dv) = .ok x →
        x.satisfies { dv with revision := 0 } = true) ↔ ¬ StartsAfter c dv := by
  have hr := hv.regular hs
  simp only [ofDependent_eq_ok hc hv hs he hl]
  constructor
  · rintro h ⟨rfl, h0, h1, h2, h3, h4, h5⟩
    have hk : ¬ Lockstep dv := fun hk => by
      rw [hk.2.1] at h5
      cases h5
    have hmi : startMinor (ch '^') dv = dv.minor := if_neg fun hn => hn.2 h0
    have hj : joined dv.major (startMinor (ch '^') dv) 0 ≠ 0 := by
      rw [hmi]
      unfold joined
      omega
    obtain ⟨-, -, h6, h7⟩ := start_regular hj
    have ho : ¬ Overflows (ch '^') (start (ch '^') dv) := by
      have hm : ComparesMinor (ch '^') (start (ch '^') dv) := Or.inr (h6.trans h0)
      rw [Overflows, if_pos hm, h7, hmi]
      exact h2
    have hx := h _ (Or.inl ⟨hk, hj, ho, rfl⟩)
    have hlt := (cmp_start hr he hk hj ho).mpr ⟨rfl, h0, h1, h2, h3, h4, h5⟩
    simp [Constraint.satisfies, hlt] at hx
  · rintro hn x (⟨hk, hj, ho, rfl⟩ | ⟨hk, hj, -, rfl⟩)
    · have hge := mt (cmp_start hr he hk hj ho).mp hn
      simp [Constraint.satisfies, hge, cmp_start_bound hr hj hge]
    · obtain ⟨hge, hlt⟩ := cmp_lockstep hr hk hj
      simp [Constraint.satisfies, hge, hlt]

/-- The constraint `^$` of `1.1.0-b.2`. -/
theorem satisfies_dependent_iff_at :
    (∀ x, fresh (Constraint.ofDependent [ch '^', ch '$'] ⟨1, 100000999995020, 0, [], 0⟩) = .ok x →
        x.satisfies ⟨1, 100000999995020, 0, [], 0⟩ = true) ↔
      ¬ StartsAfter (ch '^') ⟨1, 100000999995020, 0, [], 0⟩ :=
  satisfies_dependent_iff (ch '^') (Or.inr rfl) ⟨1, 100000999995020, 0, [], 0⟩
    ⟨.string (str "1.1.0-b.2".toList) .none, .zero, by decide⟩ (by decide) (by decide) (by decide)

/-- **The range of `^$` for `0.2.0-a.1` starts at `0.2.0`**, which is above it. -/
theorem dependent_not_satisfied :
    fresh (ofString (str "0.2.0-a.1".toList) .none) = .ok ⟨1, 1999990010, 0, [], 0⟩ ∧
      fresh (Constraint.ofDependent (str "^$".toList) ⟨1, 1999990010, 0, [], 0⟩) =
        .ok ⟨some ⟨1, 2000000000, 0, [], 0⟩, some ⟨1, 2999990001, 0, [], 0⟩, false, true⟩ ∧
      Constraint.satisfies ⟨some ⟨1, 2000000000, 0, [], 0⟩, some ⟨1, 2999990001, 0, [], 0⟩, false,
        true⟩ ⟨1, 1999990010, 0, [], 0⟩ = false := by
  decide

end Build2.Libbutl.StandardVersion
