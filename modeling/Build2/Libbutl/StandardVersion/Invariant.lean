import Build2.Libbutl.StandardVersion.Construct

/-! # The class invariants

What the public constructors return, whatever the state of the thread: which of the documented
invariants hold of it, and the weaker facts about the version number that hold of every object. -/

namespace Build2.Libbutl.StandardVersion

open Build2.Lib.ByteString Build2.Lib.Decimal Build2.Lib.Stateful Build2.Lib.Stateful.Comp
  Build2.Libbutl.ParseUint

/-- A call of a public constructor. -/
inductive Ctor
  | string (s : Bytes) (f : Flags)
  | number (v : UInt64) (f : Flags)
  | snapshotString (v : UInt64) (s : Bytes) (f : Flags)
  | epochSnapshotString (e : UInt16) (v : UInt64) (s : Bytes) (r : UInt16) (f : Flags)
  | snapshot (ep : UInt16) (vr sn : UInt64) (si : Bytes) (rv : UInt16) (fl : Flags)
  | components (ep : UInt16) (mj mi pa : UInt32) (pr rv : UInt16)
  | snapshotComponents (ep : UInt16) (mj mi pa : UInt32) (pr : UInt16) (sn : UInt64) (si : Bytes)
      (rv : UInt16)

namespace Ctor

/-- The call. -/
def run : Ctor → Call StandardVersion
  | string s f => ofString s f
  | number v f => ofNumber v.toNat f
  | snapshotString v s f => ofSnapshotString v.toNat s f
  | epochSnapshotString e v s r f => ofEpochSnapshotString e.toNat v.toNat s r.toNat f
  | snapshot ep vr sn si rv fl => ofSnapshot ep.toNat vr.toNat sn.toNat si rv.toNat fl
  | components ep mj mi pa pr rv =>
    ofComponents ep.toNat mj.toNat mi.toNat pa.toNat pr.toNat rv.toNat
  | snapshotComponents ep mj mi pa pr sn si rv =>
    ofSnapshotComponents ep.toNat mj.toNat mi.toNat pa.toNat pr.toNat sn.toNat si rv.toNat

/-- The flags of the call. -/
def flags : Ctor → Flags
  | string _ f => f
  | number _ f => f
  | snapshotString _ _ f => f
  | epochSnapshotString _ _ _ _ f => f
  | snapshot _ _ _ _ _ fl => fl
  | components .. => .none
  | snapshotComponents .. => .none

end Ctor

/-- **The documented invariants** of an object created with flags `f`. -/
structure Invariants (f : Flags) (v : StandardVersion) : Prop where
  /-- allow_earliest ? (E == 1) || (snapshot_sn == 0) : (E == 0) == (snapshot_sn == 0) -/
  flag : if f.allowEarliest then v.version % 10 = 1 ∨ v.snapshotSn = 0
    else (v.version % 10 = 0 ↔ v.snapshotSn = 0)
  version : v.version ≠ 0 ∧
    (v.version = stubVersion → f.allowStub = true ∧ v.epoch = 0 ∧ v.snapshotSn = 0)
  snapshot : v.snapshotSn ≠ latestSn ∧ v.snapshotSn ≠ 0 ∨ v.snapshotId = []

/-- The strings of stubs. -/
def StubString (s : Bytes) : Prop :=
  ∃ z rev, s = z ++ rev ∧ LaxNumber z 0 ∧ (rev = [] ∨ hd rev = ch '+')

/-- **The calls whose object satisfies the invariants**: not a snapshot constructor with no snapshot
number but without the flag for an earliest version, not a numeric constructor with the number of a
stub, and not a stub without the flag that admits its last digit. -/
def Ctor.Sound : Ctor → Prop
  | string s f => StubString s → f.allowStub = true → f.allowEarliest = true
  | number v _ => v.toNat ≠ stubVersion
  | snapshotString v _ _ => v.toNat ≠ stubVersion
  | epochSnapshotString _ v _ _ f => v.toNat = stubVersion → f.allowEarliest = true
  | snapshot _ _ sn _ _ fl => sn.toNat ≠ 0 ∨ fl.allowEarliest = true
  | components .. => True
  | snapshotComponents _ _ _ _ _ sn _ _ => sn.toNat ≠ 0

theorem Ctor.steady (k : Ctor) : Steady .zero k.run := by
  cases k with
  | string s f => exact steady_parseVersion s f
  | number v f => exact steady_bind (steady_checkVersion _ _ _) fun _ => steady_pure _
  | snapshotString v s f => exact steady_ofSnapshotString _ _ _
  | epochSnapshotString e v s r f => exact steady_ofEpochSnapshotString _ _ _ _ _
  | snapshot ep vr sn si rv fl => exact steady_ofSnapshot _ _ _ _ _ _
  | components ep mj mi pa pr rv => exact steady_ofEpochSnapshotString _ _ _ _ _
  | snapshotComponents ep mj mi pa pr sn si rv => exact steady_ofSnapshot _ _ _ _ _ _

/-! ### What each constructor returns -/

theorem ofNumber_eq_ok {n : ℕ} {f : Flags} {x : StandardVersion} :
    (ofNumber n f).eval .zero = .ok x ↔ validVersion n false f = true ∧ x = { version := n } := by
  unfold ofNumber
  rw [eval_bind_eq_ok (steady_checkVersion _ _ _)]
  simp only [checkVersion_eq_ok, exists_const, eval_pure, Except.ok.injEq]
  exact and_congr_right fun _ => eq_comm

theorem invariants_of_number {f : Flags} {e n r : ℕ} (h : validVersion n false f = true) :
    Invariants f ⟨e, n, 0, [], r⟩ ↔ (n = stubVersion → e = 0 ∧ f.allowEarliest = true) := by
  rcases validVersion_eq_true.mp h with ⟨rfl, hf, -⟩ | hc
  · constructor
    · intro hi _
      refine ⟨(hi.version.2 rfl).2.1, ?_⟩
      by_contra hne
      have := hi.flag
      rw [if_neg hne] at this
      exact absurd (show stubVersion % 10 = 0 from this.mpr rfl) (by decide)
    · intro hi
      obtain ⟨he, hf'⟩ := hi rfl
      exact ⟨by simp [hf'], ⟨show stubVersion ≠ 0 by decide, fun _ => ⟨hf, he, rfl⟩⟩, Or.inr rfl⟩
  · have hlt := hc.lt
    have hj := hc.joined
    have hne : n ≠ stubVersion := by
      unfold stubVersion
      omega
    refine ⟨fun _ h => absurd h hne, fun _ => ⟨?_, ⟨?_, fun h => absurd h hne⟩, Or.inr rfl⟩⟩
    · split_ifs with hf
      · exact Or.inr rfl
      · have h0 : n % 10 = 0 := by simpa [hf] using hc.flag
        simp [h0]
    · show n ≠ 0
      omega

theorem invariants_of_snapshot {f : Flags} {e n sn r : ℕ} {id : Bytes} (h : Checked n true f)
    (hid : id = [] ∨ sn ≠ 0 ∧ sn ≠ latestSn) :
    Invariants f ⟨e, n, sn, id, r⟩ ↔ (sn ≠ 0 ∨ f.allowEarliest = true) := by
  have hlt := h.lt
  have hj := h.joined
  have h1 : n % 10 = 1 := by simpa using h.flag
  have hne : n ≠ stubVersion := by
    unfold stubVersion
    omega
  constructor
  · intro hi
    by_contra hno
    rw [not_or, not_not] at hno
    have := hi.flag
    rw [if_neg hno.2] at this
    have h0 : n % 10 = 0 := this.mpr hno.1
    omega
  · intro hs
    refine ⟨?_, ⟨?_, fun h => absurd h hne⟩, ?_⟩
    · split_ifs with hf
      · exact Or.inl h1
      · have h0 : sn ≠ 0 := hs.resolve_right hf
        simp [h1, h0]
    · show n ≠ 0
      omega
    · rcases hid with hid | hid
      · exact Or.inr hid
      · exact Or.inl ⟨hid.2, hid.1⟩

theorem StubString.stub {s : Bytes} {f : Flags} {v : StandardVersion} (hs : StubString s)
    (hf : f.allowStub = true) (h : fresh (parseVersion s f) = .ok v) :
    v.version = stubVersion := by
  obtain ⟨z, rev, rfl, hz, hrev⟩ := hs
  obtain ⟨⟨o, u⟩, h1, h2⟩ := (eval_bind_eq_ok (steady_parseEpoch _)).mp h
  have hz' : hd (z ++ rev) ≠ ch '+' := hz.hd_append_ne rev (by decide)
  have he : (parseEpoch (z ++ rev)).eval .zero = .ok (none, z ++ rev) := by
    simp [parseEpoch, hz']
  rw [he] at h1
  cases h1
  obtain ⟨⟨n, w⟩, h3, h4⟩ := (eval_bind_eq_ok (steady_uint _ _ _ _)).mp h2
  have hu := uint_of_lax hz (Nat.zero_le 0) (Nat.zero_le 99999)
    (Closed.stops hrev (by decide)) "invalid major version"
  change (orBail (parseUint64 (z ++ rev) 0 99999) _).eval .zero = _ at h3
  rw [hu] at h3
  cases h3
  simp only at h4
  rw [if_pos ⟨hf, trivial, trivial, hrev⟩] at h4
  obtain ⟨r, -, h6⟩ := (eval_bind_eq_ok (steady_parseEnd _ _)).mp h4
  cases h6
  rfl

theorem invariants_of_parse {s : Bytes} {f : Flags} {v : StandardVersion}
    (h : fresh (parseVersion s f) = .ok v) :
    Invariants f v ↔ (StubString s → f.allowStub = true → f.allowEarliest = true) := by
  have hs := parseVersion_eq_ok.mp h
  cases hs with
  | @stub z rev n hf hz hr =>
    have hstub : StubString (z ++ rev) := ⟨z, rev, rfl, hz, hr.closed⟩
    rw [invariants_of_number (validVersion_eq_true.mpr (Or.inl ⟨rfl, hf, rfl⟩))]
    exact ⟨fun hi _ _ => (hi rfl).2, fun hi _ => ⟨rfl, hi hstub hf⟩⟩
  | @normal c ep ma mi bf pre rev hc =>
    have hv := hc.valid
    have hreg := hv.regular
    have hne : c.toVersion.version ≠ stubVersion := of_decide_eq_false hreg.stub
    have hn := hv.number_eq
    refine ⟨fun _ hstub hf => absurd (hstub.stub hf h) hne, fun _ =>
      ⟨?_, ⟨hreg.pos, fun h => absurd h hne⟩, ?_⟩⟩
    · have he := hc.allowEarliest
      show if f.allowEarliest then c.number % 10 = 1 ∨ c.pre.sn = 0
        else (c.number % 10 = 0 ↔ c.pre.sn = 0)
      have hp := hv.pre
      cases hpre : c.pre with
      | snapshot m sn id =>
        rw [hpre] at hp hn
        have h1 : c.number % 10 = 1 := by
          simp only [Pre.ddde] at hn
          omega
        simp [h1, Pre.sn, Nat.one_le_iff_ne_zero.mp hp.2.pos]
      | earliest => simp [he hpre, Pre.sn]
      | _ =>
        rw [hpre] at hn
        have h0 : c.number % 10 = 0 := by
          simp only [Pre.ddde] at hn
          omega
        simp [h0, Pre.sn]
    · show c.pre.sn ≠ latestSn ∧ c.pre.sn ≠ 0 ∨ c.pre.id = []
      have hp := hv.pre
      cases hpre : c.pre with
      | snapshot n sn id =>
        rw [hpre] at hp
        by_cases hid : id = []
        · exact Or.inr hid
        · exact Or.inl ⟨mt hp.2.latest hid, Nat.one_le_iff_ne_zero.mp hp.2.pos⟩
      | _ => exact Or.inr rfl

/-- A version without a snapshot whose number came through the string constructor. -/
theorem ofSnapshotString_cases {n : ℕ} {s : Bytes} {f : Flags} {x : StandardVersion}
    (h : (ofSnapshotString n s f).eval .zero = .ok x) :
    validVersion n false f = true ∧ x = { version := n } ∨
      ∃ sn id, Checked n true f ∧ Pre.ValidSnapshot sn id ∧
        x = { version := n, snapshotSn := sn, snapshotId := id } := by
  obtain ⟨hv, ⟨rfl, rfl⟩ | ⟨hs, sn, id, ht, rfl⟩⟩ := ofSnapshotString_eq_ok.mp h
  · exact Or.inl ⟨by simpa using hv, rfl⟩
  · rw [decide_eq_true hs, validVersion_eq_true] at hv
    exact Or.inr ⟨sn, id, by simpa using hv, ht.closed, rfl⟩

theorem Pre.ValidSnapshot.id_or {sn : ℕ} {id : Bytes} (h : Pre.ValidSnapshot sn id) :
    id = [] ∨ sn ≠ 0 ∧ sn ≠ latestSn := by
  by_cases hid : id = []
  · exact Or.inl hid
  · exact Or.inr ⟨Nat.one_le_iff_ne_zero.mp h.pos, mt h.latest hid⟩

theorem Checked.ne_stub {n : ℕ} {sn : Bool} {f : Flags} (h : Checked n sn f) :
    n ≠ stubVersion := by
  have := h.lt
  unfold stubVersion
  omega

/-- **The invariants of what a constructor returns**, whatever the state of the thread. -/
theorem invariants_iff (k : Ctor) (errno : Errno) (v : StandardVersion)
    (h : k.run.eval errno = .ok v) : Invariants k.flags v ↔ k.Sound := by
  replace h := k.steady.eval_eq_ok h
  cases k with
  | string s f => exact invariants_of_parse h
  | number n f =>
    obtain ⟨hv, rfl⟩ := ofNumber_eq_ok.mp h
    rw [Ctor.flags, invariants_of_number hv]
    exact ⟨fun h hn => absurd (h hn).1 nofun, fun h hn => absurd hn h⟩
  | snapshotString n s f =>
    rcases ofSnapshotString_cases h with ⟨hv, rfl⟩ | ⟨sn, id, hc, hid, rfl⟩
    · rw [Ctor.flags, invariants_of_number hv]
      exact ⟨fun h hn => absurd (h hn).1 nofun, fun h hn => absurd hn h⟩
    · rw [Ctor.flags, invariants_of_snapshot hc hid.id_or]
      exact ⟨fun _ => hc.ne_stub, fun _ => Or.inl (Nat.one_le_iff_ne_zero.mp hid.pos)⟩
  | epochSnapshotString e n s r f =>
    obtain ⟨y, hy, he, rfl⟩ := ofEpochSnapshotString_eq_ok.mp h
    rcases ofSnapshotString_cases hy with ⟨hv, rfl⟩ | ⟨sn, id, hc, hid, rfl⟩
    · rw [Ctor.flags, invariants_of_number hv]
      refine ⟨fun h hn => (h hn).2, fun h hn => ⟨?_, h hn⟩⟩
      by_contra h0
      exact he ⟨decide_eq_true hn, h0⟩
    · rw [Ctor.flags, invariants_of_snapshot hc hid.id_or]
      exact ⟨fun _ hn => absurd hn hc.ne_stub, fun _ => Or.inl (Nat.one_le_iff_ne_zero.mp hid.pos)⟩
  | snapshot ep vr sn si rv fl =>
    obtain ⟨hc, hid, rfl⟩ := ofSnapshot_eq_ok.mp h
    exact invariants_of_snapshot hc (hid.imp_right fun h => h.2)
  | components ep mj mi pa pr rv =>
    obtain ⟨y, hy, he, rfl⟩ := ofEpochSnapshotString_eq_ok.mp h
    rcases ofSnapshotString_cases hy with ⟨hv, rfl⟩ | ⟨sn, id, hc, hid, rfl⟩
    · rw [Ctor.flags, invariants_of_number hv]
      refine ⟨fun _ => trivial, fun _ hn => ?_⟩
      rcases validVersion_eq_true.mp hv with ⟨-, hf, -⟩ | hc
      · cases hf
      · exact absurd hn hc.ne_stub
    · rw [Ctor.flags, invariants_of_snapshot hc hid.id_or]
      exact ⟨fun _ => trivial, fun _ => Or.inl (Nat.one_le_iff_ne_zero.mp hid.pos)⟩
  | snapshotComponents ep mj mi pa pr sn si rv =>
    obtain ⟨hc, hid, rfl⟩ := ofSnapshot_eq_ok.mp h
    rw [Ctor.flags, invariants_of_snapshot hc (hid.imp_right fun h => h.2)]
    exact or_iff_left nofun

/-- An object that some public constructor returns. -/
def Constructed (v : StandardVersion) : Prop := ∃ (k : Ctor) (e : Errno), k.run.eval e = .ok v

theorem Checked.regular {n e sn r : ℕ} {b : Bool} {id : Bytes} {f : Flags} (h : Checked n b f)
    (hsn : b = false → sn = 0) : Regular ⟨e, n, sn, id, r⟩ := by
  have h1 := h.joined
  have h2 := h.flag
  refine ⟨?_, h.lt, ?_, fun h0 => ?_⟩
  · show n ≠ 0
    omega
  · show n % 10 ≤ 1
    omega
  · show n % 10 = 1
    have hb : b ≠ false := mt hsn h0
    tauto

theorem regular_or_stub_of_number {n e r : ℕ} {f : Flags} (h : validVersion n false f = true) :
    Regular ⟨e, n, 0, [], r⟩ ∨ n = stubVersion := by
  rcases validVersion_eq_true.mp h with ⟨hn, -⟩ | hc
  · exact Or.inr hn
  · exact Or.inl (hc.regular fun _ => rfl)

theorem ofEpochSnapshotString_cases {e n r : ℕ} {s : Bytes} {f : Flags} {x : StandardVersion}
    (h : (ofEpochSnapshotString e n s r f).eval .zero = .ok x) :
    (x.Regular ∨ x.version = stubVersion) ∧ x.epoch = e := by
  obtain ⟨y, hy, he, rfl⟩ := ofEpochSnapshotString_eq_ok.mp h
  rcases ofSnapshotString_cases hy with ⟨hv, rfl⟩ | ⟨sn, id, hc, -, rfl⟩
  · exact ⟨regular_or_stub_of_number hv, rfl⟩
  · exact ⟨Or.inl (hc.regular nofun), rfl⟩

/-- **What holds of every object**: its number is regular or that of a stub. -/
theorem Constructed.cases {v : StandardVersion} (h : Constructed v) :
    (v.Regular ∨ v.version = stubVersion) ∧ v.epoch ≤ 65535 := by
  obtain ⟨k, e, h⟩ := h
  replace h := k.steady.eval_eq_ok h
  cases k with
  | string s f =>
    rcases (parseVersion_eq_ok.mp h).cases with ⟨-, r, -, rfl⟩ | ⟨c, hc, -, rfl, -⟩
    · exact ⟨Or.inr rfl, Nat.zero_le _⟩
    · exact ⟨Or.inl hc.regular, hc.epoch⟩
  | number n f =>
    obtain ⟨hv, rfl⟩ := ofNumber_eq_ok.mp h
    exact ⟨regular_or_stub_of_number hv, show 1 ≤ 65535 by decide⟩
  | snapshotString n s f =>
    rcases ofSnapshotString_cases h with ⟨hv, rfl⟩ | ⟨sn, id, hc, -, rfl⟩
    · exact ⟨regular_or_stub_of_number hv, show 1 ≤ 65535 by decide⟩
    · exact ⟨Or.inl (hc.regular nofun), show 1 ≤ 65535 by decide⟩
  | epochSnapshotString e n s r f =>
    obtain ⟨h1, h2⟩ := ofEpochSnapshotString_cases h
    exact ⟨h1, h2 ▸ Nat.le_of_lt_succ e.toNat_lt⟩
  | snapshot ep vr sn si rv fl =>
    obtain ⟨hc, -, rfl⟩ := ofSnapshot_eq_ok.mp h
    exact ⟨Or.inl (hc.regular nofun), Nat.le_of_lt_succ ep.toNat_lt⟩
  | components ep mj mi pa pr rv =>
    obtain ⟨h1, h2⟩ := ofEpochSnapshotString_cases h
    exact ⟨h1, h2 ▸ Nat.le_of_lt_succ ep.toNat_lt⟩
  | snapshotComponents ep mj mi pa pr sn si rv =>
    obtain ⟨hc, -, rfl⟩ := ofSnapshot_eq_ok.mp h
    exact ⟨Or.inl (hc.regular nofun), Nat.le_of_lt_succ ep.toNat_lt⟩

theorem Constructed.regular {v : StandardVersion} (h : Constructed v) (hs : v.stub = false) :
    v.Regular :=
  h.cases.1.resolve_right (of_decide_eq_false hs)

/-- The snapshot `1.2.3-a.1.5`. -/
theorem invariants_iff_at :
    Invariants .none ⟨1, 100002000020011, 5, [], 0⟩ ↔ (5 : UInt64).toNat ≠ 0 ∨ false = true :=
  invariants_iff (.snapshot 1 100002000020011 5 [] 0 .none) .zero _ (by decide)

/-- **A snapshot version without a snapshot number, and a stub whose epoch is not zero.** -/
theorem constructed_not_invariants :
    (fresh (Ctor.run (.snapshot 1 100002000020011 0 [] 0 .none)) =
        .ok ⟨1, 100002000020011, 0, [], 0⟩ ∧
      ¬ Invariants .none ⟨1, 100002000020011, 0, [], 0⟩) ∧
    (fresh (Ctor.run (.number 18446744073709551615 ⟨true, true⟩)) =
        .ok ⟨1, 18446744073709551615, 0, [], 0⟩ ∧
      ¬ Invariants ⟨true, true⟩ ⟨1, 18446744073709551615, 0, [], 0⟩) := by
  refine ⟨⟨by decide, fun h => ?_⟩, ⟨by decide, fun h => ?_⟩⟩
  · exact absurd (h.flag.mpr rfl) (by decide)
  · exact absurd (h.version.2 rfl).2.1 (by decide)

end Build2.Libbutl.StandardVersion
