import Build2.Libbutl.StandardVersion.Dependent

/-! # The endpoints of shortcut constraints

Whether a shortcut is on a version or on the version of a dependent package, its endpoints are put
together from components of the grammar, and the right one has no revision. -/

namespace Build2.Libbutl.StandardVersion

open Build2.Lib.ByteString Build2.Lib.Decimal Build2.Lib.Stateful Build2.Lib.Stateful.Comp
  Build2.Libbutl.ParseUint

/-- Components that print as a version the parser accepts, up to the epoch. -/
structure Components.Printable (c : Components) : Prop extends c.Valid where
  earliest : c.pre = .earliest → c.revision = 0

/-- A range `[a b)` of two versions put together. -/
structure IsRange (a b : Components) (x : Constraint) : Prop where
  eq : x = ⟨some a.toVersion, some b.toVersion, false, true⟩
  min : a.Printable
  max : b.Printable
  lt : a.toVersion.cmp b.toVersion = .lt
  revision : b.revision = 0

/-! ### Shortcuts on a version -/

theorem steady_ofVersions (mnv : Option StandardVersion) (mno : Bool) (mxv : Option StandardVersion)
    (mxo : Bool) : Steady .zero (Constraint.ofVersions mnv mno mxv mxo) := by
  unfold Constraint.ofVersions
  refine steady_ite (steady_throw _) ?_
  split
  · exact steady_ite (steady_bail _) (steady_ite (steady_bail _) (steady_ite (steady_bail _)
      (steady_pure _)))
  · exact steady_pure _

section

variable {c : UInt8}

theorem steady_ofString_shortcut (hc : IsShortcut c) (s : Bytes) :
    Steady .zero (Constraint.ofString (c :: s)) := by
  rw [ofString_shortcut hc]
  exact steady_ite (steady_bail _) (steady_bind (steady_mapError (steady_shortcutEndpoints _ _) _)
    fun _ => steady_mapError (steady_ofVersions _ _ _ _) _)

theorem parsed_components {t : Bytes} {base : StandardVersion}
    (h : fresh (parseVersion t .earliest) = .ok base) :
    ∃ a : Components, a.Printable ∧ base = a.toVersion := by
  rcases (parseVersion_eq_ok.mp h).cases with ⟨hf, -⟩ | ⟨a, ha, -, rfl, he⟩
  · cases hf
  · exact ⟨a, ⟨ha, fun h => (he h).2⟩, rfl⟩

theorem bound_printable {v : StandardVersion} (he : v.epoch ≤ 65535) (h : ¬ Overflows c v) :
    (bound c v).Printable :=
  ⟨bound_valid he h, fun _ => bound_revision⟩

/-- A shortcut whose right endpoint cannot be formed is rejected. -/
theorem ofString_shortcut_overflow (hc : IsShortcut c) {s : Bytes} {base : StandardVersion}
    (h : fresh (parseVersion (s.dropWhile isBlank) .earliest) = .ok base) (ho : Overflows c base)
    (x : Constraint) : fresh (Constraint.ofString (c :: s)) ≠ .ok x := by
  obtain ⟨m, hm⟩ := shortcutMaxVersion_overflow hc ho
  rw [ofString_shortcut hc]
  unfold parseShortcut
  simp only [if_neg (parse_ne_nil h)]
  refine fun hx => ?_
  obtain ⟨y, hy, -⟩ := (eval_bind_eq_ok (steady_mapError (steady_shortcutEndpoints _ _) _)).mp hx
  rw [eval_mapError_eq_ok, eval_shortcutEndpoints, h] at hy
  change (shortcutMaxVersion c base false).eval .zero >>= _ = _ at hy
  rw [hm] at hy
  cases hy

/-- **The constraint of a shortcut on a version.** -/
theorem ofString_shortcut_eq_ok (hc : IsShortcut c) {s : Bytes} {x : Constraint} :
    fresh (Constraint.ofString (c :: s)) = .ok x ↔
      ∃ base, fresh (parseVersion (s.dropWhile isBlank) .earliest) = .ok base ∧
        ¬ Overflows c base ∧ x = ⟨some base, some (bound c base).toVersion, false, true⟩ := by
  constructor
  · intro h
    obtain ⟨base, hb⟩ := parse_of_ofString hc h
    have ho : ¬ Overflows c base := fun ho => ofString_shortcut_overflow hc hb ho x h
    rw [parseShortcut_ok hc hb ho] at h
    exact ⟨base, hb, ho, (Except.ok.inj h).symm⟩
  · rintro ⟨base, hb, ho, rfl⟩
    exact parseShortcut_ok hc hb ho

theorem isRange_shortcut {a : Components} (ha : a.Printable) (ho : ¬ Overflows c a.toVersion) :
    IsRange a (bound c a.toVersion)
      ⟨some a.toVersion, some (bound c a.toVersion).toVersion, false, true⟩ where
  eq := rfl
  min := ha
  max := bound_printable ha.epoch ho
  lt := by
    refine cmp_bound c ha.regular ?_
    have := ha.joined_le
    show triple a.number < _
    rw [ha.triple_eq]
    omega
  revision := bound_revision

end

/-! ### Shortcuts on the dependent version -/

section

variable {c : UInt8} {dv : StandardVersion}

theorem bails_ofSnapshot (ep vr sn : ℕ) (si : Bytes) (rv : ℕ) (f : Flags) :
    Bails (ofSnapshot ep vr sn si rv f) := by
  refine bails_bind (steady_checkVersion _ _ _) (bails_ite (fun _ => bails_pure _)
    fun _ => bails_bail _) fun _ _ => bails_ite (fun _ => bails_bail _) fun _ => ?_
  exact bails_ite (fun _ => bails_bail _) fun _ => bails_ite (fun _ => bails_bail _)
    fun _ => bails_pure _

/-- The pre-release part of a version put together without a snapshot. -/
def prePart (pr : ℕ) : Pre := if pr = 0 ∨ pr = 1000 then .release else .final pr

theorem prePart_valid {pr : ℕ} (h : pr ≤ 1000) (h5 : pr ≠ 500) : (prePart pr).Valid := by
  unfold prePart
  split_ifs with h0
  · trivial
  · exact ⟨by omega, h5, by omega⟩

theorem prePart_ne_earliest (pr : ℕ) : prePart pr ≠ .earliest := by
  unfold prePart
  split_ifs <;> nofun

theorem toVersion_prePart {e ma mi pr : ℕ} :
    (⟨e, ma, mi, 0, prePart pr, 0⟩ : Components).toVersion =
      ⟨e, componentNumber (joined ma mi 0) pr, 0, [], 0⟩ := by
  have hn : (⟨e, ma, mi, 0, prePart pr, 0⟩ : Components).number =
      componentNumber (joined ma mi 0) pr := by
    show 10000 * joined ma mi 0 + (prePart pr).ddde - 10000 = _
    unfold prePart componentNumber
    split_ifs <;> simp only [Pre.ddde] <;> omega
  have h1 : (prePart pr).sn = 0 := by
    unfold prePart
    split_ifs <;> rfl
  have h2 : (prePart pr).id = [] := by
    unfold prePart
    split_ifs <;> rfl
  unfold Components.toVersion
  rw [hn]
  simp only [h1, h2]

theorem prePart_sn (pr : ℕ) : (prePart pr).sn = 0 := by
  unfold prePart
  split_ifs <;> rfl

theorem start_components (he : dv.epoch ≤ 65535) (hj : joined dv.major (startMinor c dv) 0 ≠ 0) :
    ∃ a : Components, a.Printable ∧ a.pre.sn = 0 ∧ start c dv = a.toVersion := by
  have h1 : startPre c dv ≤ 1 := startPre_le
  refine ⟨⟨dv.epoch, dv.major, startMinor c dv, 0, prePart (startPre c dv), 0⟩, ⟨⟨he, major_le dv,
    startMinor_le, Nat.zero_le _, hj, prePart_valid (by omega) (by omega), Nat.zero_le _⟩,
    fun h => absurd h (prePart_ne_earliest _)⟩, prePart_sn _, toVersion_prePart.symm⟩

theorem lockstep_components (he : dv.epoch ≤ 65535) (hj : joined dv.major dv.minor 0 ≠ 0)
    (hp : dv.preRelease.getD 0 + 1 ≠ 500) :
    ∃ a b : Components, a.Printable ∧ b.Printable ∧ a.pre.sn = 1 ∧ b.pre.sn = 0 ∧
      b.revision = 0 ∧ lockstepMin dv = a.toVersion ∧ lockstepMax dv = b.toVersion := by
  have h1 := preRelease_le dv
  have hsn : Pre.ValidSnapshot 1 [] := ⟨le_rfl, by decide, fun _ => rfl, by simp, by simp⟩
  refine ⟨⟨dv.epoch, dv.major, dv.minor, 0, .snapshot (dv.preRelease.getD 0) 1 [], 0⟩,
    ⟨dv.epoch, dv.major, dv.minor, 0, prePart (dv.preRelease.getD 0 + 1), 0⟩,
    ⟨⟨he, major_le dv, minor_le dv, Nat.zero_le _, hj, ⟨h1, hsn⟩, Nat.zero_le _⟩, nofun⟩,
    ⟨⟨he, major_le dv, minor_le dv, Nat.zero_le _, hj, prePart_valid (by omega) hp,
      Nat.zero_le _⟩, fun h => absurd h (prePart_ne_earliest _)⟩, rfl, prePart_sn _, rfl, ?_,
    toVersion_prePart.symm⟩
  unfold lockstepMin Components.toVersion
  refine congrArg (fun n => (⟨dv.epoch, n, 1, [], 0⟩ : StandardVersion)) ?_
  show 10000 * joined dv.major dv.minor 0 + dv.preRelease.getD 0 * 10 + 1 - 10000 =
    10000 * joined dv.major dv.minor 0 + (dv.preRelease.getD 0 * 10 + 1) - 10000
  omega

/-- The tests of the dependent version come before the operator. -/
theorem ofDependent_eq (hc : IsShortcut c) :
    Constraint.ofDependent [c, ch '$'] dv =
      if dv.empty then bail "dependent version is empty"
      else if dv.earliest then bail "dependent version is earliest"
      else parseShortcut c [ch '$'] (some dv) := by
  have h1 : ¬ (c = ch '(' ∨ c = ch '[') := by
    rcases hc with rfl | rfl <;> decide
  have h2 : c = ch '~' ∨ c = ch '^' := hc
  simp only [Constraint.ofDependent, parseConstraint, Option.any_some, hd_cons, h1, h2, if_false,
    if_true, List.tail_cons]

theorem steady_parseShortcut_dependent : Steady .zero (parseShortcut c [ch '$'] (some dv)) := by
  have hb : ([ch '$'] : Bytes).dropWhile isBlank = [ch '$'] := by decide
  unfold parseShortcut
  simp only [hb, List.cons_ne_nil, if_false]
  exact steady_bind (steady_mapError steady_shortcutEndpoints_dependent _)
    fun _ => steady_mapError (steady_ofVersions _ _ _ _) _

theorem steady_ofDependent (hc : IsShortcut c) :
    Steady .zero (Constraint.ofDependent [c, ch '$'] dv) := by
  rw [ofDependent_eq hc]
  exact steady_ite (steady_bail _) (steady_ite (steady_bail _) steady_parseShortcut_dependent)

theorem dependentVersion_eq_ok {x : StandardVersion} :
    (dependentVersion dv).eval .zero = .ok x ↔
      dv.latestSnapshot = false ∧ dv.stub = false ∧ x = { dv with revision := 0 } := by
  unfold dependentVersion
  split_ifs with h1 h2
  · simp [h1, bail_ne_ok]
  · simp [h2, bail_ne_ok]
  · simp [h1, h2, eq_comm]

/-- The endpoints are those of a version that is neither a stub nor the latest snapshot. -/
theorem dependent_of_endpoints {y : StandardVersion × StandardVersion}
    (h : (shortcutEndpoints c [ch '$'] (some dv)).eval .zero = .ok y) :
    dv.latestSnapshot = false ∧ dv.stub = false := by
  unfold shortcutEndpoints at h
  simp only [if_true] at h
  obtain ⟨w, hw, -⟩ := (eval_bind_eq_ok (steady_dependentVersion _)).mp h
  obtain ⟨hl, hs, -⟩ := dependentVersion_eq_ok.mp hw
  exact ⟨hl, hs⟩

theorem dependent_of_ok (hc : IsShortcut c) {x : Constraint}
    (h : fresh (Constraint.ofDependent [c, ch '$'] dv) = .ok x) :
    dv.earliest = false ∧ dv.latestSnapshot = false ∧ dv.stub = false := by
  have hb : ([ch '$'] : Bytes).dropWhile isBlank = [ch '$'] := by decide
  rw [ofDependent_eq hc] at h
  split_ifs at h with h1 h2
  · exact absurd h bail_ne_ok
  · exact absurd h bail_ne_ok
  · unfold parseShortcut at h
    simp only [hb, List.cons_ne_nil, if_false] at h
    obtain ⟨y, hy, -⟩ :=
      (eval_bind_eq_ok (steady_mapError steady_shortcutEndpoints_dependent _)).mp h
    exact ⟨eq_false_of_ne_true h2, dependent_of_endpoints (eval_mapError_eq_ok.mp hy)⟩

/-- **The range of a shortcut on the dependent version.** -/
theorem isRange_dependent (hc : IsShortcut c) (hv : Constructed dv) {x : Constraint}
    (h : fresh (Constraint.ofDependent [c, ch '$'] dv) = .ok x) :
    ∃ a b, IsRange a b x ∧ a.pre.sn ≤ 1 ∧ b.pre.sn = 0 := by
  obtain ⟨he, hl, hs⟩ := dependent_of_ok hc h
  have hep := hv.cases.2
  rcases (ofDependent_eq_ok hc hv hs he hl).mp h with ⟨-, hj, ho, rfl⟩ | ⟨-, hj, hp, rfl⟩
  · obtain ⟨a, ha, hsn, hst⟩ := start_components hep hj
    rw [hst] at ho ⊢
    refine ⟨a, _, isRange_shortcut ha ho, by omega, ?_⟩
    rw [bound_pre]
    rfl
  · obtain ⟨a, b, ha, hb, hsa, hsb, hr, h1, h2⟩ := lockstep_components hep hj hp
    have hlt := (lockstep_regular hj).2.2
    rw [h1, h2] at hlt ⊢
    exact ⟨a, b, ⟨rfl, ha, hb, hlt, hr⟩, by omega, hsb⟩

theorem bails_completeShortcut (hs : dv.stub = false) : Bails (completeShortcut c dv) := by
  refine bails_ite (fun _ => ?_) fun h1 => bails_ite (fun _ => ?_) fun h2 =>
    bails_ite (fun h3 => ?_) fun _ => ?_
  · exact bails_bind (steady_ofComponents _ _ _ _ _ _) (bails_ofEpochSnapshotString _ _ _ _ _)
      fun _ _ => bails_pure _
  · exact bails_bind (steady_ofComponents _ _ _ _ _ _) (bails_ofEpochSnapshotString _ _ _ _ _)
      fun _ _ => bails_pure _
  · -- what is neither final nor a snapshot of a patch version is a snapshot of another one
    exfalso
    have hr : dv.release = false := eq_false_of_ne_true h1
    unfold final at h2
    rw [hr, hs, Bool.false_or, Bool.or_false] at h2
    cases hsn : dv.snapshot
    · simp [hsn] at h2
    · simp [hsn] at h2 h3
      exact h3 h2
  · refine bails_bind (steady_ofSnapshotComponents _ _ _ _ _ _ _ _)
      (bails_ofSnapshot _ _ _ _ _ _) fun _ _ => ?_
    exact bails_bind (steady_ofComponents _ _ _ _ _ _) (bails_ofEpochSnapshotString _ _ _ _ _)
      fun _ _ => bails_pure _

/-- Completing a shortcut fails only with a reason. -/
theorem bails_ofDependent (hc : IsShortcut c) (hv : Constructed dv) :
    Bails (Constraint.ofDependent [c, ch '$'] dv) := by
  have hb : ([ch '$'] : Bytes).dropWhile isBlank = [ch '$'] := by decide
  rw [ofDependent_eq hc]
  refine bails_ite (fun _ => bails_bail _) fun _ => bails_ite (fun _ => bails_bail _) fun _ => ?_
  unfold parseShortcut
  simp only [hb, List.cons_ne_nil, if_false]
  refine bails_bind (steady_mapError steady_shortcutEndpoints_dependent _) (bails_within ?_ _) ?_
  · unfold shortcutEndpoints
    simp only [if_true]
    refine bails_bind (steady_dependentVersion _) ?_ fun x hx =>
      bails_bind steady_completeShortcut ?_ fun x _ => ?_
    · exact bails_ite (fun _ => bails_bail _) fun _ => bails_ite (fun _ => bails_bail _)
        fun _ => bails_pure _
    · obtain ⟨-, hs, rfl⟩ := dependentVersion_eq_ok.mp hx
      exact bails_completeShortcut hs
    · exact bails_ite (fun _ => bails_bind (steady_shortcutMaxVersion _ _ _)
        (bails_shortcutMaxVersion hc _ _) fun _ _ => bails_pure _) fun _ => bails_pure _
  · rintro ⟨mn, mx⟩ hx
    rw [eval_mapError_eq_ok] at hx
    obtain ⟨hl, hs⟩ := dependent_of_endpoints hx
    have hep := hv.cases.2
    have hok : Constraint.ofVersions (some mn) false (some mx) true =
        pure ⟨some mn, some mx, false, true⟩ := by
      rcases (shortcutEndpoints_dependent hc hep hs hl).mp hx with
        ⟨-, hj, ho, h⟩ | ⟨-, hj, -, h⟩ <;> cases h
      · obtain ⟨hr, ht, -⟩ := start_regular (c := c) hj
        have hmi : startMinor c dv ≤ 99999 := startMinor_le
        have := (joined_le (major_le dv) hmi).1
        exact ofVersions_lt hr (bound_valid (show (start c dv).epoch ≤ 65535 from hep) ho).regular
          (cmp_bound c hr (by omega)) _ _
      · obtain ⟨hr, hr', hlt⟩ := lockstep_regular hj
        exact ofVersions_lt hr hr' hlt _ _
    simp only [hok]
    exact fun _ _ => avoids_mapError fun _ => nofun

end

end Build2.Libbutl.StandardVersion
