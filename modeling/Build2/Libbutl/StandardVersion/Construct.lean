import Build2.Libbutl.StandardVersion.Order

/-! # The constructors

The constructors check a packed number where the parser checks characters. Their common test
`check_version` is compared with the grammar, and what the constructors return with the invariants
of the class. -/

namespace Build2.Libbutl.StandardVersion

open Build2.Lib.ByteString Build2.Lib.Decimal Build2.Lib.Stateful Build2.Lib.Stateful.Comp
  Build2.Libbutl.ParseUint

/-! ### `check_version` -/

theorem steady_checkVersion (vr : ℕ) (sn : Bool) (f : Flags) :
    Steady .zero (checkVersion vr sn f) :=
  steady_ite (steady_pure _) (steady_bail _)

theorem checkVersion_eq_ok {vr : ℕ} {sn : Bool} {f : Flags} {u : Unit} :
    (checkVersion vr sn f).eval .zero = .ok u ↔ validVersion vr sn f = true := by
  unfold checkVersion
  split_ifs with h
  · simp [h]
  · exact ⟨fun h' => absurd h' bail_ne_ok, fun h' => absurd h' h⟩

/-- What `check_version` lets through of a version that is not a stub. -/
structure Checked (vr : ℕ) (sn : Bool) (f : Flags) : Prop where
  lt : vr < 10000000000000000000
  flag : vr % 10 = 1 ∧ (sn = true ∨ f.allowEarliest = true) ∨ vr % 10 = 0 ∧ sn = false
  beta : vr / 10 % 1000 = 500 → sn = true
  joined : vr / 10000 ≠ 0

theorem validVersion_eq_true {vr : ℕ} {sn : Bool} {f : Flags} :
    validVersion vr sn f = true ↔
      vr = stubVersion ∧ f.allowStub = true ∧ sn = false ∨ Checked vr sn f := by
  unfold validVersion
  by_cases hs : vr = stubVersion ∧ f.allowStub = true
  · rw [if_pos hs]
    obtain ⟨rfl, hf⟩ := hs
    have : ¬ Checked stubVersion sn f := fun h => by
      have := h.lt
      rw [stubVersion] at this
      omega
    simp [hf, this]
  · rw [if_neg hs]
    have hs' : ¬ (vr = stubVersion ∧ f.allowStub = true ∧ sn = false) := fun h => hs ⟨h.1, h.2.1⟩
    simp only [hs', false_or]
    constructor
    · intro h
      simp only [Bool.and_eq_true, decide_eq_true_eq] at h
      obtain ⟨⟨⟨h1, h2⟩, h3⟩, h4⟩ := h
      refine ⟨h1, ?_, fun h500 => ?_, h4⟩
      · cases f with
        | mk e st => cases e <;> cases sn <;> simpa using h2
      · rw [if_pos (by omega), h500] at h3
        simpa using h3
    · intro h
      have h2 := h.flag
      have h3 := h.beta
      simp only [Bool.and_eq_true, decide_eq_true_eq]
      refine ⟨⟨⟨h.lt, ?_⟩, ?_⟩, h.joined⟩
      · cases f with
        | mk e st => cases e <;> cases sn <;> simpa using h2
      · split_ifs with h0
        · cases sn
          · simpa using h3
          · simp
        · rfl

/-- **`check_version` on a version of the grammar**: only the version number can fail. -/
theorem Components.Valid.validVersion {c : Components} {f : Flags} (h : c.Valid)
    (hf : c.pre = .earliest → f.allowEarliest = true) :
    validVersion c.number c.toVersion.snapshot f = true ↔ ¬ (c.joined = 1 ∧ c.pre ≠ .release) := by
  have h1 := h.number_eq
  have h2 := h.joined
  have h3 := h.regular.lt
  have h4 := h.release
  have hp := h.pre
  have hs := h.snapshot
  have hd := h.pre.ddde
  rw [validVersion_eq_true]
  have hstub : ¬ c.number = stubVersion := of_decide_eq_false h.stub
  simp only [hstub, false_and, false_or]
  have hnum : c.number / 10000 ≠ 0 ↔ ¬ (c.joined = 1 ∧ c.pre ≠ .release) := by
    have := h.pre.ddde_eq_iff
    rw [← this.ne]
    omega
  rw [← hnum]
  refine ⟨fun h => h.joined, fun h0 => ⟨h3, ?_, ?_, h0⟩⟩
  · cases hc : c.pre <;> rw [hc] at h1 hs hp <;> simp only [Pre.ddde] at h1
    · exact Or.inr ⟨by omega, by simpa using hs⟩
    · exact Or.inl ⟨by omega, Or.inr (hf hc)⟩
    · exact Or.inr ⟨by omega, by simpa using hs⟩
    · exact Or.inl ⟨by omega, Or.inl (hs.mpr ⟨_, _, _, rfl⟩)⟩
  · intro h500
    cases hc : c.pre <;> rw [hc] at h1 hs hp <;> simp only [Pre.ddde, Pre.Valid] at h1 hp
    · omega
    · omega
    · omega
    · exact hs.mpr ⟨_, _, _, rfl⟩

/-! ### The constructors and the parser -/

theorem steady_ofSnapshotString (v : ℕ) (s : Bytes) (f : Flags) :
    Steady .zero (ofSnapshotString v s f) := by
  unfold ofSnapshotString
  refine steady_bind (steady_checkVersion _ _ _) fun _ => steady_ite (steady_bind
    (steady_parseSnapshot _) fun p => ?_) (steady_pure _)
  exact steady_ite (steady_bail _) (steady_pure _)

theorem steady_ofEpochSnapshotString (e v : ℕ) (s : Bytes) (r : ℕ) (f : Flags) :
    Steady .zero (ofEpochSnapshotString e v s r f) := by
  unfold ofEpochSnapshotString
  refine steady_bind (steady_ofSnapshotString _ _ _) fun x => ?_
  exact steady_ite (steady_bail _) (steady_pure _)

theorem steady_ofSnapshot (ep vr sn : ℕ) (si : Bytes) (rv : ℕ) (f : Flags) :
    Steady .zero (ofSnapshot ep vr sn si rv f) := by
  unfold ofSnapshot
  refine steady_bind (steady_checkVersion _ _ _) fun _ => steady_ite (steady_bail _) ?_
  exact steady_ite (steady_bail _) (steady_ite (steady_bail _) (steady_pure _))

theorem ofSnapshotString_eq_ok {v : ℕ} {s : Bytes} {f : Flags} {x : StandardVersion} :
    (ofSnapshotString v s f).eval .zero = .ok x ↔ validVersion v (s ≠ []) f = true ∧
      (s = [] ∧ x = { version := v } ∨ s ≠ [] ∧ ∃ sn id, SnapshotText scanned sn id s ∧
        x = { version := v, snapshotSn := sn, snapshotId := id }) := by
  unfold ofSnapshotString
  constructor
  · intro h
    obtain ⟨u, h1, h2⟩ := (eval_bind_eq_ok (steady_checkVersion _ _ _)).mp h
    refine ⟨checkVersion_eq_ok.mp h1, ?_⟩
    split_ifs at h2 with hs
    · obtain ⟨⟨sn, id, r⟩, h3, h4⟩ := (eval_bind_eq_ok (steady_parseSnapshot _)).mp h2
      obtain ⟨t, rfl, ht⟩ := parseSnapshot_ok h3
      simp only at h4
      split_ifs at h4 with hr
      · exact absurd h4 bail_ne_ok
      · obtain rfl := not_not.mp hr
        cases h4
        rw [List.append_nil] at hs ⊢
        exact Or.inr ⟨hs, sn, id, ht, rfl⟩
    · cases h2
      exact Or.inl ⟨not_not.mp hs, rfl⟩
  · rintro ⟨hv, h⟩
    refine (eval_bind_eq_ok (steady_checkVersion _ _ _)).mpr ⟨(), checkVersion_eq_ok.mpr hv, ?_⟩
    rcases h with ⟨rfl, rfl⟩ | ⟨hs, sn, id, ht, rfl⟩
    · rw [if_neg (by simp)]
      rfl
    · rw [if_pos hs]
      have hp := ht.parse (Or.inl rfl : Closed [])
      rw [List.append_nil] at hp
      exact (eval_bind_eq_ok (steady_parseSnapshot _)).mpr ⟨(sn, id, []), hp, rfl⟩

theorem ofEpochSnapshotString_eq_ok {e v r : ℕ} {s : Bytes} {f : Flags} {x : StandardVersion} :
    (ofEpochSnapshotString e v s r f).eval .zero = .ok x ↔
      ∃ y, (ofSnapshotString v s f).eval .zero = .ok y ∧ ¬ (y.stub = true ∧ e ≠ 0) ∧
        x = { y with epoch := e, revision := r } := by
  unfold ofEpochSnapshotString
  rw [eval_bind_eq_ok (steady_ofSnapshotString _ _ _)]
  refine exists_congr fun y => and_congr_right fun _ => ?_
  split_ifs with hs
  · simp [hs, bail_ne_ok]
  · simp only [hs, not_false_eq_true, true_and, eval_pure, Except.ok.injEq]
    exact eq_comm

theorem ofSnapshot_eq_ok {ep vr sn rv : ℕ} {si : Bytes} {f : Flags} {x : StandardVersion} :
    (ofSnapshot ep vr sn si rv f).eval .zero = .ok x ↔
      Checked vr true f ∧ (si = [] ∨ si.length ≤ 16 ∧ sn ≠ 0 ∧ sn ≠ latestSn) ∧
        x = ⟨ep, vr, sn, si, rv⟩ := by
  have hv : validVersion vr true f = true ↔ Checked vr true f := by
    rw [validVersion_eq_true]
    simp
  have hstub : Checked vr true f → (⟨ep, vr, sn, si, rv⟩ : StandardVersion).stub = false := by
    intro h
    have := h.lt
    exact decide_eq_false (by show ¬ vr = stubVersion; unfold stubVersion; omega)
  unfold ofSnapshot
  rw [eval_bind_eq_ok (steady_checkVersion _ _ _)]
  simp only [checkVersion_eq_ok, hv, exists_const]
  refine and_congr_right fun h => ?_
  rw [hstub h, if_neg (by simp), if_neg (by simp)]
  split_ifs with hs
  · refine ⟨fun h' => absurd h' bail_ne_ok, fun h' => ?_⟩
    rcases h'.1 with h1 | ⟨h1, h2, h3⟩
    · exact absurd h1 hs.1
    · rcases hs.2 with h4 | h4 | h4
      · omega
      · exact absurd h4 h2
      · exact absurd h4 h3
  · simp only [eval_pure, Except.ok.injEq]
    rw [not_and_or, not_not, not_or, not_or, not_lt] at hs
    exact ⟨fun h' => ⟨hs, h'.symm⟩, fun h' => h'.2.symm⟩

theorem snapshotText_ne_nil {sn : ℕ} {id : Bytes} : snapshotText sn id ≠ [] := by
  unfold snapshotText
  split_ifs <;> simp [str, decimal_ne_nil]

theorem stringSnapshot_ne_nil (v : StandardVersion) :
    (decide (v.stringSnapshot ≠ [])) = v.snapshot := by
  cases h : v.snapshot with
  | true =>
    rw [stringSnapshot_eq h]
    simpa using snapshotText_ne_nil
  | false => simp [stringSnapshot, h]

section Rebuild

variable {c : Components} {f : Flags}

/-- The constructor that takes the snapshot as a string rebuilds a version of the grammar. -/
theorem Components.Valid.ofEpochSnapshotString (h : c.Valid)
    (hf : c.pre = .earliest → f.allowEarliest = true) (h1 : ¬ (c.joined = 1 ∧ c.pre ≠ .release)) :
    fresh (ofEpochSnapshotString c.epoch c.number c.toVersion.stringSnapshot c.revision f) =
      .ok c.toVersion := by
  have hsnap := h.snapshot
  refine ofEpochSnapshotString_eq_ok.mpr ⟨{ c.toVersion with epoch := 1, revision := 0 },
    ofSnapshotString_eq_ok.mpr ⟨?_, ?_⟩, ?_, rfl⟩
  · rw [stringSnapshot_ne_nil]
    exact (h.validVersion hf).mpr h1
  · cases hc : c.pre with
    | snapshot n sn id =>
      have hp := h.pre
      rw [hc] at hp
      have hs : c.toVersion.snapshot = true := hsnap.mpr ⟨n, sn, id, hc⟩
      rw [stringSnapshot_eq hs]
      refine Or.inr ⟨snapshotText_ne_nil, sn, id, ?_, ?_⟩
      · have := hp.2.spells.mono canonical_le_scanned fun _ _ => trivial
        simpa [toVersion, hc, Pre.sn, Pre.id] using this
      · simp [toVersion, hc, Pre.sn, Pre.id]
    | _ =>
      have hs : c.toVersion.snapshot = false := by
        rw [hc] at hsnap
        simpa using hsnap
      exact Or.inl ⟨by simp [stringSnapshot, hs], by simp [toVersion, hc, Pre.sn, Pre.id]⟩
  · exact fun hs => Bool.false_ne_true (h.stub.symm.trans hs.1)

/-- The constructor that takes the snapshot number and id rebuilds a snapshot of the grammar. -/
theorem Components.Valid.ofSnapshot (h : c.Valid) (hs : c.toVersion.snapshot = true)
    (h1 : c.joined ≠ 1) :
    fresh (ofSnapshot c.epoch c.number c.pre.sn c.pre.id c.revision f) = .ok c.toVersion := by
  obtain ⟨n, sn, id, hc⟩ := h.snapshot.mp hs
  have hp := h.pre
  have hv := (h.validVersion (f := f) (by rw [hc]; nofun)).mpr fun h => h1 h.1
  rw [hs, validVersion_eq_true] at hv
  refine ofSnapshot_eq_ok.mpr ⟨by simpa using hv, ?_, rfl⟩
  rw [hc] at hp ⊢
  by_cases hid : id = []
  · exact Or.inl hid
  · exact Or.inr ⟨hp.2.length, Nat.one_le_iff_ne_zero.mp hp.2.pos, mt hp.2.latest hid⟩

end Rebuild

/-- A string that spells components. -/
def SpelledBy (f : Flags) (s : Bytes) (c : Components) : Prop :=
  ∃ ep ma mi bf pre rev, NormalText scanned f c ep ma mi bf pre rev ∧
    s = ep ++ (ma ++ ch '.' :: (mi ++ ch '.' :: (bf ++ (pre ++ rev))))

/-- The constructors rebuild a parsed version, whole or from the parts of its snapshot. -/
def Rebuilds (f : Flags) (r : StandardVersion) : Prop :=
  (∃ x, fresh (ofEpochSnapshotString r.epoch r.version r.stringSnapshot r.revision f) = .ok x ∧
      x.cmp r = .eq ∧ x.snapshotId = r.snapshotId) ∧
    (r.snapshot = true →
      ∃ x, fresh (ofSnapshot r.epoch r.version r.snapshotSn r.snapshotId r.revision f) = .ok x ∧
        x.cmp r = .eq ∧ x.snapshotId = r.snapshotId)

theorem SpelledBy.eq {f : Flags} {s : Bytes} {c : Components} {r : StandardVersion}
    (h : SpelledBy f s c) (hr : fresh (parseVersion s f) = .ok r) :
    c.Valid ∧ (c.pre = .earliest → f.allowEarliest = true) ∧ r = c.toVersion := by
  obtain ⟨ep, ma, mi, bf, pre, rev, hc, rfl⟩ := h
  have h1 := parseVersion_eq_ok.mpr (.normal hc)
  rw [hr] at h1
  cases h1
  exact ⟨hc.valid, hc.allowEarliest, rfl⟩

theorem joined_eq_one {c : Components} :
    c.joined = 1 ↔ c.major = 0 ∧ c.minor = 0 ∧ c.patch = 1 := by
  unfold Components.joined joined
  omega

/-- **The constructors agree with the parser** except on the pre-releases of `0.0.1`, whose number
is below ten thousand. -/
theorem rebuilds_iff (s : Bytes) (f : Flags) (r : StandardVersion)
    (h : fresh (parseVersion s f) = .ok r) :
    Rebuilds f r ↔ ¬ ∃ c, SpelledBy f s c ∧ c.major = 0 ∧ c.minor = 0 ∧ c.patch = 1 ∧
      c.pre ≠ .release := by
  constructor
  · rintro ⟨⟨x, hx, -⟩, -⟩ ⟨c, hs, h1, h2, h3, hne⟩
    obtain ⟨hc, hf, rfl⟩ := hs.eq h
    obtain ⟨y, hy, -, -⟩ := ofEpochSnapshotString_eq_ok.mp hx
    have hv := (ofSnapshotString_eq_ok.mp hy).1
    rw [stringSnapshot_ne_nil] at hv
    exact (hc.validVersion hf).mp hv ⟨joined_eq_one.mpr ⟨h1, h2, h3⟩, hne⟩
  · intro hno
    have hp := parseVersion_eq_ok.mp h
    cases hp with
    | @stub z rev n hf hz hr =>
      refine ⟨⟨_, ofEpochSnapshotString_eq_ok.mpr ⟨{ version := stubVersion },
        ofSnapshotString_eq_ok.mpr ⟨?_, Or.inl ⟨rfl, rfl⟩⟩, fun hs => hs.2 rfl, rfl⟩,
        cmp_self _, rfl⟩, nofun⟩
      exact validVersion_eq_true.mpr (Or.inl ⟨rfl, hf, rfl⟩)
    | @normal c ep ma mi bf pre rev hc =>
      have h1 : ¬ (c.joined = 1 ∧ c.pre ≠ .release) := by
        rintro ⟨h1, hne⟩
        obtain ⟨h2, h3, h4⟩ := joined_eq_one.mp h1
        exact hno ⟨c, ⟨ep, ma, mi, bf, pre, rev, hc, rfl⟩, h2, h3, h4, hne⟩
      refine ⟨⟨_, hc.valid.ofEpochSnapshotString hc.allowEarliest h1, cmp_self _, rfl⟩,
        fun hs => ⟨_, hc.valid.ofSnapshot hs ?_, cmp_self _, rfl⟩⟩
      obtain ⟨n, sn, id, hpre⟩ := hc.valid.snapshot.mp hs
      exact fun hj => h1 ⟨hj, by rw [hpre]; nofun⟩

/-- The version `1.2.3-a.1.5`. -/
theorem rebuilds_iff_at :
    Rebuilds .none ⟨1, 100002000020011, 5, [], 0⟩ ↔
      ¬ ∃ c, SpelledBy .none (str "1.2.3-a.1.5".toList) c ∧ c.major = 0 ∧ c.minor = 0 ∧
        c.patch = 1 ∧ c.pre ≠ .release :=
  rebuilds_iff (str "1.2.3-a.1.5".toList) .none _ (by decide)

/-- **The alpha of `0.0.1` is parsed but cannot be constructed.** -/
theorem parsed_not_rebuilds :
    fresh (parseVersion (str "0.0.1-a.1".toList) .none) = .ok ⟨1, 10, 0, [], 0⟩ ∧
      ¬ Rebuilds .none ⟨1, 10, 0, [], 0⟩ := by
  refine ⟨by decide, ?_⟩
  rintro ⟨⟨x, hx, -⟩, -⟩
  have he : fresh (ofEpochSnapshotString 1 10 [] 0 .none) =
      .error (.invalidArgument "invalid standard version") := by decide
  exact absurd (he.symm.trans hx) nofun

end Build2.Libbutl.StandardVersion
