import Build2.Libbutl.StandardVersion.Constraint
import Build2.Libbutl.StandardVersion.Invariant

/-! # Shortcut constraints

`~X.Y.Z` and `^X.Y.Z` are ranges up to the earliest version of the next minor or major version. What
the right endpoint is, and which versions the range has. -/

namespace Build2.Libbutl.StandardVersion

open Build2.Lib.ByteString Build2.Lib.Decimal Build2.Lib.Stateful Build2.Lib.Stateful.Comp
  Build2.Libbutl.ParseUint

/-- A shortcut operator. -/
def IsShortcut (c : UInt8) : Prop := c = ch '~' ∨ c = ch '^'

/-- Whether the operator compares the minor versions, too. -/
def ComparesMinor (c : UInt8) (v : StandardVersion) : Prop := c = ch '~' ∨ v.major = 0

instance (c : UInt8) (v : StandardVersion) : Decidable (ComparesMinor c v) :=
  inferInstanceAs (Decidable (_ ∨ _))

/-- The components of the right endpoint. -/
def bound (c : UInt8) (v : StandardVersion) : Components :=
  if ComparesMinor c v then ⟨v.epoch, v.major, v.minor + 1, 0, .earliest, 0⟩
  else ⟨v.epoch, v.major + 1, 0, 0, .earliest, 0⟩

/-- The right endpoint cannot be formed. -/
def Overflows (c : UInt8) (v : StandardVersion) : Prop :=
  if ComparesMinor c v then v.minor = 99999 else v.major = 99999

section

variable {c : UInt8} {v : StandardVersion}

theorem major_le (v : StandardVersion) : v.major ≤ 99999 := by
  have : v.major < 100000 := Nat.mod_lt _ (by decide)
  omega

theorem minor_le (v : StandardVersion) : v.minor ≤ 99999 := by
  have : v.minor < 100000 := Nat.mod_lt _ (by decide)
  omega

theorem bound_valid (he : v.epoch ≤ 65535) (h : ¬ Overflows c v) : (bound c v).Valid := by
  have h1 := major_le v
  have h2 := minor_le v
  unfold Overflows at h
  unfold bound
  split_ifs at h ⊢
  · refine ⟨he, h1, ?_, Nat.zero_le _, ?_, trivial, Nat.zero_le _⟩
    · show v.minor + 1 ≤ 99999
      omega
    · show joined v.major (v.minor + 1) 0 ≠ 0
      unfold joined
      omega
  · refine ⟨he, ?_, Nat.zero_le _, Nat.zero_le _, ?_, trivial, Nat.zero_le _⟩
    · show v.major + 1 ≤ 99999
      omega
    · show joined (v.major + 1) 0 0 ≠ 0
      unfold joined
      omega

@[simp] theorem bound_epoch : (bound c v).epoch = v.epoch := by
  unfold bound
  split_ifs <;> rfl

@[simp] theorem bound_patch : (bound c v).patch = 0 := by
  unfold bound
  split_ifs <;> rfl

@[simp] theorem bound_pre : (bound c v).pre = .earliest := by
  unfold bound
  split_ifs <;> rfl

@[simp] theorem bound_revision : (bound c v).revision = 0 := by
  unfold bound
  split_ifs <;> rfl

theorem bound_joined : (bound c v).joined =
    if ComparesMinor c v then joined v.major (v.minor + 1) 0 else joined (v.major + 1) 0 0 := by
  unfold bound
  split_ifs <;> rfl

theorem bound_number :
    (bound c v).number = 10000 * (bound c v).joined + 1 - 10000 := by
  unfold Components.number
  rw [bound_pre]
  rfl

/-- **What `shortcut_max_version` returns.** -/
theorem shortcutMaxVersion_eq (hc : IsShortcut c) (he : v.epoch ≤ 65535) (h : ¬ Overflows c v)
    (b : Bool) : (shortcutMaxVersion c v b).eval .zero = .ok (bound c v).toVersion := by
  have hb := bound_valid he h
  have hj : ¬ ((bound c v).joined = 1 ∧ (bound c v).pre ≠ .release) := by
    rintro ⟨h1, -⟩
    have h4 := (joined_eq_one.mp h1).2.2
    rw [bound_patch] at h4
    cases h4
  have hs : (bound c v).toVersion.stringSnapshot = [] := by
    have := hb.snapshot
    rw [bound_pre] at this
    have hs : (bound c v).toVersion.snapshot = false := by simpa using this
    simp [stringSnapshot, hs]
  have key := hb.ofEpochSnapshotString (f := .earliest) (fun _ => rfl) hj
  rw [hs, bound_epoch, bound_revision, bound_number, bound_joined] at key
  have hc' : ¬ (c ≠ ch '~' ∧ c ≠ ch '^') := fun hn => hc.elim hn.1 hn.2
  unfold shortcutMaxVersion
  rw [if_neg hc']
  unfold Overflows at h
  by_cases hm : ComparesMinor c v
  · have hm' : c = ch '~' ∨ (c = ch '^' ∧ v.major = 0) :=
      hm.elim Or.inl fun h0 => hc.imp_right fun h1 => ⟨h1, h0⟩
    have hn : v.major * 100000000000000 + (v.minor + 1) * 1000000000 - 10000 + 1 =
        10000 * joined v.major (v.minor + 1) 0 + 1 - 10000 := by
      unfold joined
      omega
    rw [if_pos hm] at h key
    rw [if_pos hm', if_neg h, hn]
    exact key
  · have hm' : ¬ (c = ch '~' ∨ (c = ch '^' ∧ v.major = 0)) :=
      fun h => hm (h.imp_right And.right)
    have hn : (v.major + 1) * 100000000000000 - 10000 + 1 =
        10000 * joined (v.major + 1) 0 0 + 1 - 10000 := by
      unfold joined
      omega
    rw [if_neg hm] at h key
    rw [if_neg hm', if_neg h, hn]
    exact key

/-- An endpoint that cannot be formed is reported, unless that is to be ignored. -/
theorem shortcutMaxVersion_overflow (hc : IsShortcut c) (h : Overflows c v) :
    ∃ m, shortcutMaxVersion c v false = bail m := by
  have hc' : ¬ (c ≠ ch '~' ∧ c ≠ ch '^') := fun hn => hc.elim hn.1 hn.2
  unfold Overflows at h
  unfold shortcutMaxVersion
  rw [if_neg hc']
  by_cases hm : ComparesMinor c v
  · have hm' : c = ch '~' ∨ (c = ch '^' ∧ v.major = 0) :=
      hm.elim Or.inl fun h0 => hc.imp_right fun h1 => ⟨h1, h0⟩
    rw [if_pos hm] at h
    exact ⟨_, by rw [if_pos hm', if_pos h]; rfl⟩
  · have hm' : ¬ (c = ch '~' ∨ (c = ch '^' ∧ v.major = 0)) :=
      fun h => hm (h.imp_right And.right)
    rw [if_neg hm] at h
    exact ⟨_, by rw [if_neg hm', if_pos h]; rfl⟩

end

/-! ### The range -/

/-- **Which versions a shortcut is meant to have.** -/
def InSeries (c : UInt8) (base v : StandardVersion) : Prop :=
  v.epoch = base.epoch ∧ v.cmp base ≠ .lt ∧ v.major = base.major ∧
    (ComparesMinor c base → v.minor = base.minor)

/-- Below the next minor version are the numbers with the same major and minor parts. -/
theorem lt_nextMinor {t b : ℕ} (hbt : b ≤ t) (hb : b < 1000000000000000)
    (ht : t ≤ 1000000000000000) :
    (t < joined (b / 10000000000 % 100000) (b / 100000 % 100000 + 1) 0 ↔
        t / 10000000000 % 100000 = b / 10000000000 % 100000 ∧
          t / 100000 % 100000 = b / 100000 % 100000) ↔
      ¬ (t = 1000000000000000 ∧ b / 10000000000 % 100000 = 0 ∧ b / 100000 % 100000 = 0) := by
  unfold joined
  omega

/-- Below the next major version are the numbers with the same major part. -/
theorem lt_nextMajor {t b : ℕ} (hbt : b ≤ t) (hb : b < 1000000000000000)
    (ht : t ≤ 1000000000000000) (h0 : b / 10000000000 % 100000 ≠ 0) :
    t < joined (b / 10000000000 % 100000 + 1) 0 0 ↔
      t / 10000000000 % 100000 = b / 10000000000 % 100000 := by
  unfold joined
  omega

theorem inSeries_iff {c : UInt8} {base v : StandardVersion} (hb : base.Regular)
    (hbt : triple base.version < 1000000000000000) (hv : v.Regular) :
    (v.cmp base ≠ .lt ∧ v.cmp (bound c base).toVersion = .lt ↔ InSeries c base v) ↔
      ¬ (v.epoch = base.epoch ∧ triple v.version = 1000000000000000 ∧ base.major = 0 ∧
        base.minor = 0) := by
  have h1 := major_eq hb.flag
  have h2 := minor_eq hb.flag
  have h3 := major_eq hv.flag
  have h4 := minor_eq hv.flag
  have h5 := triple_ddde v.version
  have h6 := ddde_pos v.version
  have h7 := ddde_le v.version
  have h8 := hv.lt
  have h9 := triple_ddde base.version
  have h10 := ddde_pos base.version
  have h11 := ddde_le base.version
  have hn := bound_number (c := c) (v := base)
  have hj := bound_joined (c := c) (v := base)
  have hlt : v.cmp (bound c base).toVersion = .lt ↔ v.epoch < base.epoch ∨
      v.epoch = base.epoch ∧ triple v.version < (bound c base).joined := by
    rw [cmp_eq_lt]
    have hpos : 1 ≤ (bound c base).joined := by
      rw [hj]
      unfold joined
      split_ifs <;> omega
    simp only [Components.toVersion, bound_epoch, bound_pre, bound_revision, Pre.sn]
    omega
  have hge : v.cmp base ≠ .lt → base.epoch ≤ v.epoch ∧
      (v.epoch = base.epoch → triple base.version ≤ triple v.version) := by
    rw [Ne, cmp_eq_lt]
    intro h
    constructor
    · omega
    · intro he
      have : base.version ≤ v.version := by omega
      omega
  have hgt : v.epoch = base.epoch → triple v.version = 1000000000000000 → v.cmp base ≠ .lt := by
    rw [Ne, cmp_eq_lt]
    omega
  have hle : triple v.version ≤ 1000000000000000 := by omega
  unfold InSeries
  rw [hlt]
  by_cases hg : v.cmp base ≠ .lt
  swap
  · have : ¬ (v.epoch = base.epoch ∧ triple v.version = 1000000000000000 ∧ base.major = 0 ∧
        base.minor = 0) := fun h => hg (hgt h.1 h.2.1)
    simp [hg, this]
  obtain ⟨hep, hge⟩ := hge hg
  by_cases he : v.epoch = base.epoch
  swap
  · have : ¬ v.epoch < base.epoch := by omega
    simp [he, this]
  rw [eq_true hg, hj]
  simp only [he, true_and, lt_irrefl, false_or]
  by_cases hm : ComparesMinor c base
  · have key := lt_nextMinor (hge he) hbt hle
    rw [← h1, ← h2, ← h3, ← h4] at key
    simpa only [hm, if_true, forall_const] using key
  · have h0 : base.major ≠ 0 := fun h0 => hm (Or.inr h0)
    have key := lt_nextMajor (hge he) hbt hle (by rw [← h1]; exact h0)
    rw [← h1, ← h3] at key
    simp [hm, h0, key]

theorem cmp_bound (c : UInt8) {base : StandardVersion} (hb : base.Regular)
    (hbt : triple base.version < 1000000000000000) :
    base.cmp (bound c base).toVersion = .lt := by
  have h := (inSeries_iff (c := c) hb hbt hb).mpr fun h => by omega
  exact (h.mpr ⟨rfl, by rw [cmp_self]; nofun, rfl, fun _ => rfl⟩).2

/-! ### Building the constraint -/

theorem ofVersions_lt {mn mx : StandardVersion} (h1 : mn.Regular) (h2 : mx.Regular)
    (h : mn.cmp mx = .lt) (mno mxo : Bool) :
    Constraint.ofVersions (some mn) mno (some mx) mxo = pure ⟨some mn, some mx, mno, mxo⟩ := by
  simp [Constraint.ofVersions, validEndpoint, h1.empty, h1.stub, h2.empty, h2.stub, h]

theorem steady_shortcutMaxVersion (c : UInt8) (v : StandardVersion) (b : Bool) :
    Steady .zero (shortcutMaxVersion c v b) := by
  unfold shortcutMaxVersion
  refine steady_ite (steady_throw _) (steady_ite (steady_ite (steady_ite (steady_pure _)
    (steady_bail _)) ?_) (steady_ite (steady_ite (steady_pure _) (steady_bail _)) ?_))
  · exact steady_ofEpochSnapshotString _ _ _ _ _
  · exact steady_ofEpochSnapshotString _ _ _ _ _

theorem bails_ofEpochSnapshotString (e v : ℕ) (s : Bytes) (r : ℕ) (f : Flags) :
    Bails (ofEpochSnapshotString e v s r f) := by
  refine bails_bind (steady_ofSnapshotString _ _ _) (bails_bind (steady_checkVersion _ _ _)
    (bails_ite (fun _ => bails_pure _) fun _ => bails_bail _) fun _ _ => bails_ite
    (fun _ => bails_bind (steady_parseSnapshot _) (bails_parseSnapshot _) fun _ _ => ?_)
    fun _ => bails_pure _) fun _ _ => bails_ite (fun _ => bails_bail _) fun _ => bails_pure _
  exact bails_ite (fun _ => bails_bail _) fun _ => bails_pure _

theorem bails_shortcutMaxVersion {c : UInt8} (hc : IsShortcut c) (v : StandardVersion) (b : Bool) :
    Bails (shortcutMaxVersion c v b) := by
  refine bails_ite (fun hn => (hc.elim hn.1 hn.2).elim) fun _ => ?_
  refine bails_ite (fun _ => ?_) fun _ => ?_ <;> refine bails_ite (fun _ => ?_) fun _ => ?_
  · exact bails_ite (fun _ => bails_pure _) fun _ => bails_bail _
  · exact bails_ofEpochSnapshotString _ _ _ _ _
  · exact bails_ite (fun _ => bails_pure _) fun _ => bails_bail _
  · exact bails_ofEpochSnapshotString _ _ _ _ _

theorem ofString_shortcut {c : UInt8} (hc : IsShortcut c) (s : Bytes) :
    Constraint.ofString (c :: s) = parseShortcut c s none := by
  have h1 : ¬ (c = ch '(' ∨ c = ch '[') := by
    rcases hc with rfl | rfl <;> decide
  have h2 : c = ch '~' ∨ c = ch '^' := hc
  simp only [Constraint.ofString, parseConstraint, Option.any_none, Bool.false_eq_true, if_false,
    hd_cons, h1, h2, if_true, List.tail_cons]

theorem eval_shortcutEndpoints (c : UInt8) (t : Bytes) :
    (shortcutEndpoints c t none).eval .zero =
      (do
        let base ← fresh (parseVersion t .earliest)
        let mx ← (shortcutMaxVersion c base false).eval .zero
        pure (base, mx)) := by
  refine (eval_bind (steady_parseVersion _ _)).trans (bind_congr fun base => ?_)
  refine (eval_bind (steady_pure _)).trans ?_
  exact eval_bind (steady_shortcutMaxVersion _ _ _)

theorem steady_shortcutEndpoints (c : UInt8) (t : Bytes) :
    Steady .zero (shortcutEndpoints c t none) :=
  steady_bind (steady_parseVersion _ _) fun _ => steady_bind (steady_pure _) fun _ =>
    steady_ite (steady_bind (steady_shortcutMaxVersion _ _ _) fun _ => steady_pure _)
      (steady_pure _)

/-- A version that was parsed stays below a pre-release of `100000.0.0`. -/
theorem parsed_regular {t : Bytes} {base : StandardVersion}
    (h : fresh (parseVersion t .earliest) = .ok base) :
    base.Regular ∧ triple base.version < 1000000000000000 ∧ base.epoch ≤ 65535 := by
  rcases (parseVersion_eq_ok.mp h).cases with ⟨hf, -⟩ | ⟨c, hc, -, rfl, -⟩
  · cases hf
  · refine ⟨hc.regular, ?_, hc.epoch⟩
    have := hc.joined_le
    show triple c.number < _
    rw [hc.triple_eq]
    omega

theorem parse_ne_nil {t : Bytes} {f : Flags} {v : StandardVersion}
    (h : fresh (parseVersion t f) = .ok v) : t ≠ [] := by
  rintro rfl
  have hs := parseVersion_eq_ok.mp h
  generalize ht : ([] : Bytes) = t at hs
  cases hs with
  | stub hf hz hr => exact LaxNumber.ne_nil hz (List.append_eq_nil_iff.mp ht.symm).1
  | normal hn => simp at ht

/-- **A shortcut constraint that can be formed.** -/
theorem parseShortcut_ok {c : UInt8} (hc : IsShortcut c) {s : Bytes} {base : StandardVersion}
    (h : fresh (parseVersion (s.dropWhile isBlank) .earliest) = .ok base)
    (ho : ¬ Overflows c base) :
    fresh (Constraint.ofString (c :: s)) =
      .ok ⟨some base, some (bound c base).toVersion, false, true⟩ := by
  obtain ⟨h1, h2, h3⟩ := parsed_regular h
  rw [ofString_shortcut hc]
  unfold parseShortcut
  simp only [if_neg (parse_ne_nil h)]
  refine (eval_bind_eq_ok (steady_mapError (steady_shortcutEndpoints _ _) _)).mpr
    ⟨(base, (bound c base).toVersion), eval_mapError_eq_ok.mpr ?_, eval_mapError_eq_ok.mpr ?_⟩
  · rw [eval_shortcutEndpoints, h]
    show (shortcutMaxVersion c base false).eval .zero >>= _ = _
    rw [shortcutMaxVersion_eq hc h3 ho]
    rfl
  · rw [ofVersions_lt h1 (bound_valid h3 ho).regular (cmp_bound c h1 h2)]
    rfl

theorem bails_within {α : Type} {x : Call α} (h : Bails x) (what : String) :
    Bails (x.mapError (within what)) := by
  refine fun e he => avoids_mapError fun e' hx hw => ?_
  cases e' with
  | invalidArgument m => exact he _ hw.symm
  | logicError m => exact h (.logicError m) (fun _ => nofun) hx
  | assertion => exact h .assertion (fun _ => nofun) hx

/-- **The constraint constructor is not expected to throw, and does not.** -/
theorem bails_ofString_shortcut {c : UInt8} (hc : IsShortcut c) (s : Bytes) :
    Bails (Constraint.ofString (c :: s)) := by
  rw [ofString_shortcut hc]
  unfold parseShortcut
  refine bails_ite (fun _ => bails_bail _) fun hs => ?_
  refine bails_bind (steady_mapError (steady_shortcutEndpoints _ _) _) ?_ ?_
  · refine bails_within (bails_bind (steady_parseVersion _ _) (bails_parseVersion _ _)
      fun base _ => bails_bind (steady_pure _) (bails_pure _) fun x _ => ?_) _
    exact bails_ite (fun _ => bails_bind (steady_shortcutMaxVersion _ _ _)
      (bails_shortcutMaxVersion hc _ _) fun _ _ => bails_pure _) fun _ => bails_pure _
  · rintro ⟨mn, mx⟩ hx
    rw [eval_mapError_eq_ok, eval_shortcutEndpoints] at hx
    cases hp : fresh (parseVersion (s.dropWhile isBlank) .earliest) with
    | error e =>
      rw [hp] at hx
      cases hx
    | ok base =>
      obtain ⟨h1, h2, h3⟩ := parsed_regular hp
      rw [hp] at hx
      by_cases ho : Overflows c base
      · obtain ⟨m, hm⟩ := shortcutMaxVersion_overflow hc ho
        change (shortcutMaxVersion c base false).eval .zero >>= _ = _ at hx
        rw [hm] at hx
        cases hx
      · change (shortcutMaxVersion c base false).eval .zero >>= _ = _ at hx
        rw [shortcutMaxVersion_eq hc h3 ho] at hx
        cases hx
        have hb := bound_valid h3 ho
        simp only [ofVersions_lt h1 hb.regular (cmp_bound c h1 h2)]
        exact fun _ _ => avoids_mapError fun _ => nofun

end Build2.Libbutl.StandardVersion
