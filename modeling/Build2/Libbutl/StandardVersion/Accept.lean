import Build2.Libbutl.StandardVersion.Grammar

/-! # What the parser accepts

Each function of the parser returns exactly where the part of the grammar it reads has a text, and
with what that text spells. -/

namespace Build2.Libbutl.StandardVersion

open Build2.Lib.ByteString Build2.Lib.Decimal Build2.Lib.Stateful Build2.Lib.Stateful.Comp
  Build2.Libbutl.ParseUint

theorem uint_eq_ok {s : Bytes} {a b n : ℕ} {m : String} {r : Bytes} :
    (orBail (parseUint64 s a b) m).eval .zero = .ok (n, r) ↔
      ∃ t, s = t ++ r ∧ LaxNumber t n ∧ a ≤ n ∧ n ≤ b ∧ Stops isDigit r :=
  eval_mapError_eq_ok.trans parseUint64_eq_ok

theorem uint_of_lax {t : Bytes} {n a b : ℕ} (h : LaxNumber t n) (h1 : a ≤ n) (h2 : n ≤ b)
    {r : Bytes} (hr : Stops isDigit r) (m : String) :
    (orBail (parseUint64 (t ++ r) a b) m).eval .zero = .ok (n, r) :=
  uint_eq_ok.mpr ⟨t, rfl, h, h1, h2, hr⟩

theorem bail_ne_ok {α : Type} {m : String} {a : α} : (bail m : Call α).eval .zero ≠ .ok a := nofun

/-- The end of a version or a revision. -/
def Closed (r : Bytes) : Prop := r = [] ∨ hd r = ch '+'

theorem Closed.stops {r : Bytes} (h : Closed r) {p : UInt8 → Bool}
    (h1 : p (ch '+') = false) : Stops p r := by
  rcases h with rfl | h
  · simp
  · exact stops_of_hd (by rw [h]; exact h1)

theorem Closed.hd_ne {r : Bytes} (h : Closed r) {c : UInt8} (h0 : c ≠ 0) (h1 : c ≠ ch '+') :
    hd r ≠ c := by
  rcases h with rfl | h
  · exact h0.symm
  · rw [h]; exact h1.symm

/-! ### The snapshot -/

theorem parseSnapshot_ok {s id r : Bytes} {sn : ℕ}
    (h : (parseSnapshot s).eval .zero = .ok (sn, id, r)) :
    ∃ t, s = t ++ r ∧ SnapshotText scanned sn id t := by
  unfold parseSnapshot at h
  split_ifs at h with hz
  · cases h
    exact ⟨[ch 'z'], eq_cons_of_hd hz (by decide), .latest⟩
  · obtain ⟨⟨n, u⟩, h1, h2⟩ := (eval_bind_eq_ok (steady_uint _ _ _ _)).mp h
    obtain ⟨t, rfl, hn, hge, hle, -⟩ := uint_eq_ok.mp h1
    have hsn : scanned.snapshot t n := ⟨hn, hge, by unfold latestSn at *; omega⟩
    simp only at h2
    split_ifs at h2 with hdot hid
    · exact absurd h2 bail_ne_ok
    · cases h2
      rw [not_or, not_lt] at hid
      have hu := eq_cons_of_hd hdot (by decide)
      refine ⟨t ++ ch '.' :: u.tail.takeWhile isAlnum, ?_,
        .withId hsn hid.1 hid.2 fun b hb => List.mem_takeWhile_imp hb⟩
      rw [List.append_assoc, List.cons_append, List.takeWhile_append_dropWhile, ← hu]
    · cases h2
      exact ⟨t, rfl, .number hsn⟩

theorem SnapshotText.parse {sn : ℕ} {id t r : Bytes} (h : SnapshotText scanned sn id t)
    (hr : Closed r) : (parseSnapshot (t ++ r)).eval .zero = .ok (sn, id, r) := by
  unfold parseSnapshot
  cases h with
  | latest => simp
  | number hn =>
    rw [if_neg (hn.1.hd_append_ne r (by decide))]
    refine (eval_bind_eq_ok (steady_uint _ _ _ _)).mpr ⟨(sn, r), ?_, ?_⟩
    · exact uint_of_lax hn.1 hn.2.1 (by have := hn.2.2; omega) (hr.stops (by decide)) _
    · simp only [if_neg (hr.hd_ne (c := ch '.') (by decide) (by decide))]
      rfl
  | @withId u _ _ hn hne hlen hid =>
    rw [List.append_assoc, if_neg (hn.1.hd_append_ne _ (by decide))]
    refine (eval_bind_eq_ok (steady_uint _ _ _ _)).mpr ⟨(sn, ch '.' :: id ++ r), ?_, ?_⟩
    · exact uint_of_lax hn.1 hn.2.1 (by have := hn.2.2; omega) (by simp; decide) _
    · have hstop : Stops isAlnum r := hr.stops (by decide)
      simp only [List.cons_append, hd_cons, List.tail_cons, if_true, takeWhile_run hid hstop,
        dropWhile_run hid hstop, if_neg (not_or.mpr ⟨hne, not_lt.mpr hlen⟩), eval_pure]

theorem SnapshotText.closed {sn : ℕ} {id t : Bytes} (h : SnapshotText scanned sn id t) :
    Pre.ValidSnapshot sn id := by
  cases h with
  | latest => exact ⟨by decide, le_rfl, fun _ => rfl, by simp, by simp⟩
  | number hn => exact ⟨hn.2.1, hn.2.2.le, fun _ => rfl, by simp, by simp⟩
  | withId hn hne hlen hid =>
    exact ⟨hn.2.1, hn.2.2.le, fun h => absurd h hn.2.2.ne, hlen, hid⟩

/-! ### The pre-release part -/

/-- What the scanner records of a pre-release part. -/
def Pre.scan : Pre → PreRelease
  | .release => {}
  | .earliest => { earliest := true }
  | .final ddd => { ab := ddd }
  | .snapshot ddd sn id => { ab := ddd, snapshotSn := sn, snapshotId := id }

theorem ddd_ne {k : UInt8} {n : ℕ} (h' : n ≤ 499) : ddd k n = 0 ∨ ddd k n = 500 ↔ n = 0 := by
  by_cases hk : k = ch 'b' <;> simp only [ddd, hk, if_true, if_false] <;> omega

theorem ddd_le {k : UInt8} {n : ℕ} (h : n ≤ 499) : ddd k n ≤ 999 := by
  unfold ddd
  split_ifs <;> omega

theorem parsePreReleaseNumber_ok {k : UInt8} {s r : Bytes} {f : Flags} {q : PreRelease}
    (hk : IsLetter k) (h : (parsePreReleaseNumber k s).eval .zero = .ok (q, r)) :
    ∃ p t, s = t ++ r ∧ PreText scanned f p (ch '-' :: k :: ch '.' :: t) ∧ q = p.scan ∧
      p ≠ .earliest := by
  unfold parsePreReleaseNumber at h
  obtain ⟨⟨n, u⟩, h1, h2⟩ := (eval_bind_eq_ok (steady_uint _ _ _ _)).mp h
  obtain ⟨t, rfl, hn, -, hle, -⟩ := uint_eq_ok.mp h1
  change (if hd u = ch '.' then _ else _ : Call _).eval .zero = _ at h2
  split_ifs at h2 with hdot hab
  · obtain ⟨⟨sn, id, w⟩, h3, h4⟩ := (eval_bind_eq_ok (steady_parseSnapshot _)).mp h2
    obtain ⟨v, hv, hsn⟩ := parseSnapshot_ok h3
    cases h4
    refine ⟨.snapshot (ddd k n) sn id, t ++ ch '.' :: v, ?_, .snapshot hk hn hle hsn, rfl, nofun⟩
    rw [eq_cons_of_hd hdot (by decide), hv, List.append_assoc, List.cons_append]
  · exact absurd h2 bail_ne_ok
  · cases h2
    have hn0 : n ≠ 0 := fun h0 => hab ((ddd_ne hle).mpr h0)
    exact ⟨.final (ddd k n), t, rfl, .final hk hn (by omega) hle, rfl, nofun⟩

theorem parsePreRelease_ok {s r : Bytes} {f : Flags} {q : PreRelease}
    (h : (parsePreRelease s f).eval .zero = .ok (q, r)) :
    ∃ p t, s = t ++ r ∧ PreText scanned f p t ∧ q = p.scan ∧ (p = .earliest → hd r = 0) := by
  unfold parsePreRelease at h
  split_ifs at h with hm he hk hdot
  · cases h
    exact ⟨.release, [], rfl, .release, rfl, nofun⟩
  · cases h
    exact ⟨.earliest, [ch '-'], eq_cons_of_hd (not_not.mp hm) (by decide), .earliest he.2, rfl,
      fun _ => he.1⟩
  · exact absurd h bail_ne_ok
  · exact absurd h bail_ne_ok
  · have hk' : IsLetter (hd s.tail) := by
      rw [not_and_or, not_not, not_not] at hk
      exact hk
    have hk0 : hd s.tail ≠ 0 := by
      rcases hk' with h | h <;> rw [h] <;> decide
    obtain ⟨p, t, ht, hp, hq, hne⟩ := parsePreReleaseNumber_ok hk' h
    refine ⟨p, _, ?_, hp, hq, fun h => absurd h hne⟩
    rw [List.cons_append, List.cons_append, List.cons_append, ← ht,
      ← eq_cons_of_hd (not_not.mp hdot) (by decide), ← eq_cons_of_hd rfl hk0,
      ← eq_cons_of_hd (not_not.mp hm) (by decide)]

theorem parsePreRelease_letter {k : UInt8} (hk : IsLetter k) (s : Bytes) (f : Flags) :
    parsePreRelease (ch '-' :: k :: ch '.' :: s) f = parsePreReleaseNumber k s := by
  have hk0 : k ≠ 0 := by
    rcases hk with rfl | rfl <;> decide
  have hk' : ¬ (k ≠ ch 'a' ∧ k ≠ ch 'b') := by
    rcases hk with rfl | rfl <;> simp
  simp [parsePreRelease, hk0, if_neg hk']

theorem PreText.parse {p : Pre} {t r : Bytes} {f : Flags} (h : PreText scanned f p t)
    (hr : Closed r) (he : p = .earliest → r = []) :
    (parsePreRelease (t ++ r) f).eval .zero = .ok (p.scan, r) := by
  cases h with
  | release => simp [parsePreRelease, hr.hd_ne (c := ch '-') (by decide) (by decide), Pre.scan]
  | earliest hf => simp [parsePreRelease, he rfl, hf, Pre.scan]
  | @final k t n hk hn h1 h2 =>
    rw [List.cons_append, List.cons_append, List.cons_append, parsePreRelease_letter hk]
    refine (eval_bind_eq_ok (steady_uint _ _ _ _)).mpr ⟨(n, r), ?_, ?_⟩
    · exact uint_of_lax hn (Nat.zero_le _) h2 (hr.stops (by decide)) _
    · have hab : ¬ (ddd k n = 0 ∨ ddd k n = 500) := fun h => by
        have := (ddd_ne h2).mp h
        omega
      simp only [if_neg (hr.hd_ne (c := ch '.') (by decide) (by decide)), if_neg hab]
      rfl
  | @snapshot k t u id n sn hk hn h2 hu =>
    rw [List.cons_append, List.cons_append, List.cons_append, parsePreRelease_letter hk,
      List.append_assoc, List.cons_append]
    refine (eval_bind_eq_ok (steady_uint _ _ _ _)).mpr ⟨(n, ch '.' :: (u ++ r)), ?_, ?_⟩
    · exact uint_of_lax hn (Nat.zero_le _) h2 (by simp; decide) _
    · simp only [hd_cons, if_true, List.tail_cons]
      exact (eval_bind_eq_ok (steady_parseSnapshot _)).mpr ⟨(sn, id, r), hu.parse hr, rfl⟩

theorem PreText.valid {p : Pre} {t : Bytes} {f : Flags} (h : PreText scanned f p t) : p.Valid := by
  cases h with
  | release => trivial
  | earliest => trivial
  | @final k _ _ hk hn h1 h2 =>
    obtain ⟨h3, h4⟩ := not_or.mp (mt (ddd_ne (k := k) h2).mp (Nat.one_le_iff_ne_zero.mp h1))
    exact ⟨Nat.pos_of_ne_zero h3, h4, ddd_le h2⟩
  | snapshot hk hn h2 hu => exact ⟨ddd_le h2, hu.closed⟩

/-! ### The epoch and the end -/

theorem parseEpoch_ok {s r : Bytes} {e : Option ℕ}
    (h : (parseEpoch s).eval .zero = .ok (e, r)) :
    ∃ t, s = t ++ r ∧ EpochText LaxNumber (e.getD 1) t ∧ (e = none ↔ t = []) := by
  unfold parseEpoch at h
  split_ifs at h with hp
  · obtain ⟨⟨n, u⟩, h1, h2⟩ := (eval_bind_eq_ok (steady_uint _ _ _ _)).mp h
    obtain ⟨t, ht, hn, hge, hle, -⟩ := uint_eq_ok.mp h1
    simp only at h2
    split_ifs at h2 with hm
    · cases h2
      refine ⟨ch '+' :: (t ++ [ch '-']), ?_, .given hn hge hle, by simp⟩
      rw [eq_cons_of_hd hp (by decide), ht, eq_cons_of_hd hm (by decide)]
      simp
    · exact absurd h2 bail_ne_ok
  · cases h
    exact ⟨[], rfl, .absent, by simp⟩

theorem EpochText.parse {e : ℕ} {t r : Bytes} (h : EpochText LaxNumber e t) (hr : hd r ≠ ch '+') :
    ∃ o, (parseEpoch (t ++ r)).eval .zero = .ok (o, r) ∧ o.getD 1 = e ∧ (o = none ↔ t = []) := by
  cases h with
  | absent => exact ⟨none, by simp [parseEpoch, hr], rfl, by simp⟩
  | @given t _ hn h1 h2 =>
    refine ⟨some e, ?_, rfl, by simp⟩
    simp only [parseEpoch, List.cons_append, hd_cons, if_true, List.tail_cons, List.append_assoc]
    refine (eval_bind_eq_ok (steady_uint _ _ _ _)).mpr ⟨(e, ch '-' :: r), ?_, ?_⟩
    · exact uint_of_lax hn h1 h2 (by simp; decide) _
    · simp

theorem parseEnd_ok {s : Bytes} {e : Bool} {n : ℕ} (h : (parseEnd s e).eval .zero = .ok n) :
    RevisionText LaxNumber n s ∧ (e = true → s = []) := by
  unfold parseEnd at h
  split_ifs at h with hp he hs
  · cases h
  · obtain ⟨⟨m, u⟩, h1, h2⟩ := (eval_bind_eq_ok (steady_uint _ _ _ _)).mp h
    obtain ⟨t, ht, hn, hge, hle, -⟩ := uint_eq_ok.mp h1
    simp only at h2
    split_ifs at h2 with hu
    · exact absurd h2 bail_ne_ok
    · cases h2
      rw [not_not] at hu
      rw [eq_cons_of_hd hp (by decide), ht, hu, List.append_nil]
      exact ⟨.given hn hge hle, fun h => absurd h he⟩
  · exact absurd h bail_ne_ok
  · cases h
    rw [not_not] at hs
    subst hs
    exact ⟨.absent, fun _ => rfl⟩

theorem RevisionText.closed {N : Bytes → ℕ → Prop} {n : ℕ} {s : Bytes}
    (h : RevisionText N n s) : Closed s := by
  cases h with
  | absent => exact Or.inl rfl
  | given => exact Or.inr rfl

theorem RevisionText.parse {n : ℕ} {s : Bytes} {e : Bool} (h : RevisionText LaxNumber n s)
    (he : e = true → s = []) : (parseEnd s e).eval .zero = .ok n := by
  unfold parseEnd
  cases h with
  | absent => simp [show (0 : UInt8) ≠ ch '+' by decide]
  | @given t _ hn h1 h2 =>
    have he' : ¬ e = true := fun h => by simpa using he h
    simp only [hd_cons, if_true, if_neg he', List.tail_cons]
    refine (eval_bind_eq_ok (steady_uint _ _ _ _)).mpr ⟨(n, []), ?_, ?_⟩
    · simpa using uint_of_lax hn h1 h2 (r := []) (by simp) _
    · simp

/-! ### The whole version -/

theorem releaseNumber_eq (ma mi bf : ℕ) : releaseNumber ma mi bf = 10000 * joined ma mi bf := by
  unfold releaseNumber joined
  omega

theorem adjust_scan {p : Pre} (hp : p.Valid) {t : ℕ} (ht : t ≠ 0) :
    adjust (10000 * t) p.scan = 10000 * t + p.ddde - 10000 := by
  cases p with
  | release => simp [adjust, Pre.scan, Pre.ddde]
  | earliest =>
    simp only [adjust, Pre.scan, Pre.ddde, or_true, if_true]
    omega
  | final n =>
    obtain ⟨h1, -, h2⟩ := hp
    simp only [adjust, Pre.scan, Pre.ddde, h1.ne', ne_eq, not_false_eq_true, true_or, if_true,
      not_true, or_self, if_false, Bool.false_eq_true]
    omega
  | snapshot n sn id =>
    obtain ⟨h1, h2⟩ := hp
    have := Nat.one_le_iff_ne_zero.mp h2.pos
    simp only [adjust, Pre.scan, Pre.ddde, this, ne_eq, not_false_eq_true, true_or,
      or_true, if_true]
    omega

@[simp] theorem Pre.scan_sn (p : Pre) : p.scan.snapshotSn = p.sn := by cases p <;> rfl

@[simp] theorem Pre.scan_id (p : Pre) : p.scan.snapshotId = p.id := by cases p <;> rfl

@[simp] theorem Pre.scan_earliest (p : Pre) : p.scan.earliest = true ↔ p = .earliest := by
  cases p <;> simp [Pre.scan]

theorem EpochText.valid {N : Bytes → ℕ → Prop} {e : ℕ} {t : Bytes} (h : EpochText N e t) :
    1 ≤ e ∧ e ≤ 65535 := by
  cases h with
  | absent => omega
  | given _ h1 h2 => exact ⟨h1, h2⟩

theorem RevisionText.valid {N : Bytes → ℕ → Prop} {r : ℕ} {t : Bytes}
    (h : RevisionText N r t) :
    r ≤ 65535 := by
  cases h with
  | absent => omega
  | given _ _ h2 => exact h2

theorem NormalText.valid {f : Flags} {c : Components} {ep ma mi bf pre rev : Bytes}
    (h : NormalText scanned f c ep ma mi bf pre rev) : c.Valid where
  epoch := h.epoch.valid.2
  major := h.major.2
  minor := h.minor.2
  patch := h.patch.2
  joined := h.joined
  pre := h.pre.valid
  revision := h.revision.valid

theorem NormalText.allowEarliest {L : Lexicon} {f : Flags} {c : Components}
    {ep ma mi bf pre rev : Bytes} (h : NormalText L f c ep ma mi bf pre rev)
    (hc : c.pre = .earliest) : f.allowEarliest = true := by
  have hp := h.pre
  rw [hc] at hp
  cases hp with
  | earliest hf => exact hf

theorem parseNormal_ok {s : Bytes} {f : Flags} {o : Option ℕ} {n : ℕ} {v : StandardVersion}
    {ep ma : Bytes} (hep : EpochText LaxNumber (o.getD 1) ep) (hma : LaxNumber ma n)
    (hn : n ≤ 99999) (h : (parseNormal s f o n).eval .zero = .ok v) :
    ∃ c mi bf pre rev, s = ch '.' :: (mi ++ ch '.' :: (bf ++ (pre ++ rev))) ∧
      NormalText scanned f c ep ma mi bf pre rev ∧ v = c.toVersion := by
  unfold parseNormal at h
  split_ifs at h with hdot
  · exact absurd h bail_ne_ok
  obtain ⟨⟨m, u⟩, h1, h2⟩ := (eval_bind_eq_ok (steady_uint _ _ _ _)).mp h
  obtain ⟨mi, hmi, hm, -, hmle, -⟩ := uint_eq_ok.mp h1
  simp only at h2
  split_ifs at h2 with hdot'
  · exact absurd h2 bail_ne_ok
  obtain ⟨⟨k, w⟩, h3, h4⟩ := (eval_bind_eq_ok (steady_uint _ _ _ _)).mp h2
  obtain ⟨bf, hbf, hk, -, hkle, -⟩ := uint_eq_ok.mp h3
  simp only at h4
  split_ifs at h4 with hzero
  · exact absurd h4 bail_ne_ok
  obtain ⟨⟨q, x⟩, h5, h6⟩ := (eval_bind_eq_ok (steady_parsePreRelease _ _)).mp h4
  obtain ⟨p, pre, hpre, hp, rfl, -⟩ := parsePreRelease_ok h5
  obtain ⟨r, h7, h8⟩ := (eval_bind_eq_ok (steady_parseEnd _ _)).mp h6
  obtain ⟨hr, he⟩ := parseEnd_ok h7
  have hj : joined n m k ≠ 0 := by
    intro h0
    rw [releaseNumber_eq, h0] at hzero
    exact hzero rfl
  refine ⟨⟨o.getD 1, n, m, k, p, r⟩, mi, bf, pre, x, ?_, ⟨hep, ⟨hma, hn⟩, ⟨hm, hmle⟩,
    ⟨hk, hkle⟩, hj, hp, hr, fun h => he (p.scan_earliest.mpr h)⟩, ?_⟩
  · rw [eq_cons_of_hd (not_not.mp hdot) (by decide), hmi,
      eq_cons_of_hd (not_not.mp hdot') (by decide), hbf, hpre]
  · rw [releaseNumber_eq, adjust_scan hp.valid hj] at h8
    rw [Pre.scan_sn, Pre.scan_id] at h8
    cases h8
    rfl

theorem PreText.stops {p : Pre} {t r : Bytes} {f : Flags} (h : PreText scanned f p t)
    (hr : Closed r) : Stops isDigit (t ++ r) := by
  have hm : isDigit (ch '-') = false := by decide
  cases h with
  | release => exact hr.stops (by decide)
  | _ => exact stops_of_hd hm

theorem NormalText.parse {f : Flags} {c : Components} {ep ma mi bf pre rev : Bytes}
    (h : NormalText scanned f c ep ma mi bf pre rev) {o : Option ℕ} (ho : o.getD 1 = c.epoch) :
    (parseNormal (ch '.' :: (mi ++ ch '.' :: (bf ++ (pre ++ rev)))) f o c.major).eval .zero =
      .ok c.toVersion := by
  unfold parseNormal
  have hdot : isDigit (ch '.') = false := by decide
  rw [if_neg (by simp)]
  refine (eval_bind_eq_ok (steady_uint _ _ _ _)).mpr ⟨(c.minor, ch '.' :: (bf ++ (pre ++ rev))),
    uint_of_lax h.minor.1 (Nat.zero_le _) h.minor.2 (stops_cons.mpr hdot) _, ?_⟩
  simp only [hd_cons, ne_eq, not_true, if_false, List.tail_cons]
  refine (eval_bind_eq_ok (steady_uint _ _ _ _)).mpr ⟨(c.patch, pre ++ rev),
    uint_of_lax h.patch.1 (Nat.zero_le _) h.patch.2 (h.pre.stops h.revision.closed) _, ?_⟩
  have hz : ¬ releaseNumber c.major c.minor c.patch = 0 := by
    have := h.joined
    rw [releaseNumber_eq]
    unfold Components.joined at this
    omega
  simp only [if_neg hz]
  refine (eval_bind_eq_ok (steady_parsePreRelease _ _)).mpr ⟨(c.pre.scan, rev),
    h.pre.parse h.revision.closed h.earliest, ?_⟩
  refine (eval_bind_eq_ok (steady_parseEnd _ _)).mpr ⟨c.revision,
    h.revision.parse fun he => h.earliest (c.pre.scan_earliest.mp he), ?_⟩
  have ha : adjust (releaseNumber c.major c.minor c.patch) c.pre.scan = c.number := by
    rw [releaseNumber_eq]
    exact adjust_scan h.pre.valid h.joined
  simp only [ha, ho, Pre.scan_sn, Pre.scan_id]
  rfl

/-- **What `parse_version` accepts.** -/
theorem parseVersion_eq_ok {s : Bytes} {f : Flags} {v : StandardVersion} :
    fresh (parseVersion s f) = .ok v ↔ Spells scanned f v s := by
  unfold fresh parseVersion
  constructor
  · intro h
    obtain ⟨⟨o, u⟩, h1, h2⟩ := (eval_bind_eq_ok (steady_parseEpoch s)).mp h
    obtain ⟨ep, rfl, hep, ho⟩ := parseEpoch_ok h1
    obtain ⟨⟨n, w⟩, h3, h4⟩ := (eval_bind_eq_ok (steady_uint _ _ _ _)).mp h2
    obtain ⟨ma, rfl, hma, -, hn, -⟩ := uint_eq_ok.mp h3
    simp only at h4
    split_ifs at h4 with hstub
    · obtain ⟨hf, hnone, rfl, -⟩ := hstub
      obtain rfl := ho.mp hnone
      obtain ⟨r, h5, h6⟩ := (eval_bind_eq_ok (steady_parseEnd _ _)).mp h4
      cases h6
      rw [List.nil_append]
      exact .stub hf hma (parseEnd_ok h5).1
    · obtain ⟨c, mi, bf, pre, rev, rfl, hc, rfl⟩ := parseNormal_ok hep hma hn h4
      exact .normal hc
  · intro h
    cases h with
    | @stub z rev r hf hz hr =>
      have hz' : hd (z ++ rev) ≠ ch '+' := LaxNumber.hd_append_ne hz rev (by decide)
      refine (eval_bind_eq_ok (steady_parseEpoch _)).mpr ⟨(none, z ++ rev), ?_, ?_⟩
      · simp [parseEpoch, hz']
      refine (eval_bind_eq_ok (steady_uint _ _ _ _)).mpr ⟨(0, rev),
        uint_of_lax hz (Nat.zero_le _) (Nat.zero_le _) (hr.closed.stops (by decide)) _, ?_⟩
      simp only
      rw [if_pos ⟨hf, trivial, trivial, hr.closed⟩]
      exact (eval_bind_eq_ok (steady_parseEnd _ _)).mpr ⟨r, hr.parse nofun, rfl⟩
    | @normal c ep ma mi bf pre rev h =>
      have hma : hd (ma ++ ch '.' :: (mi ++ ch '.' :: (bf ++ (pre ++ rev)))) ≠ ch '+' :=
        LaxNumber.hd_append_ne h.major.1 _ (by decide)
      obtain ⟨o, h1, h2, -⟩ := h.epoch.parse hma
      refine (eval_bind_eq_ok (steady_parseEpoch _)).mpr ⟨_, h1, ?_⟩
      refine (eval_bind_eq_ok (steady_uint _ _ _ _)).mpr ⟨(c.major, _),
        uint_of_lax h.major.1 (Nat.zero_le _) h.major.2 (stops_of_hd (by simp; decide)) _, ?_⟩
      have hdot : ¬ ch '.' = ch '+' := by decide
      simp only [hd_cons, hdot, or_false, reduceCtorEq, and_false, if_false]
      exact h.parse h2

/-! ### Failures -/

/-- The reasons `parse_version` gives from the dot after the major version on. -/
def laterReasons : List String :=
  ["'.' expected after major version", "invalid minor version", "'.' expected after minor version",
    "invalid patch version", "0.0.0 version", "'a' or 'b' expected in pre-release",
    "'.' expected after pre-release letter", "invalid pre-release", "invalid snapshot number",
    "invalid snapshot id", "invalid final pre-release", "invalid revision", "junk after version"]

section

variable {e : Fault} (he : ∀ m ∈ laterReasons, e ≠ .invalidArgument m)

include he

theorem avoids_bail {α : Type} {m : String} (hm : m ∈ laterReasons) :
    Avoids .zero e (bail m : Call α) := avoids_fail (he m hm).symm

theorem avoids_orBail {α : Type} {m : String} (x : Comp Errno Unit α) (hm : m ∈ laterReasons) :
    Avoids .zero e (orBail x m) :=
  avoids_mapError fun _ _ => (he m hm).symm

theorem avoids_parseSnapshot (s : Bytes) : Avoids .zero e (parseSnapshot s) := by
  refine avoids_ite (fun _ => avoids_pure _) fun _ => avoids_bind (steady_uint _ _ _ _)
    (avoids_orBail he _ (by simp [laterReasons])) fun _ _ => avoids_ite (fun _ => ?_)
      fun _ => avoids_pure _
  exact avoids_ite (fun _ => avoids_bail he (by simp [laterReasons])) fun _ => avoids_pure _

theorem avoids_parsePreRelease (s : Bytes) (f : Flags) :
    Avoids .zero e (parsePreRelease s f) := by
  refine avoids_ite (fun _ => avoids_pure _) fun _ => avoids_ite (fun _ => avoids_pure _) fun _ =>
    avoids_ite (fun _ => avoids_bail he (by simp [laterReasons])) fun _ =>
    avoids_ite (fun _ => avoids_bail he (by simp [laterReasons])) fun _ => ?_
  refine avoids_bind (steady_uint _ _ _ _) (avoids_orBail he _ (by simp [laterReasons]))
    fun _ _ => avoids_ite (fun _ => ?_)
    fun _ => avoids_ite (fun _ => avoids_bail he (by simp [laterReasons])) fun _ => avoids_pure _
  exact avoids_bind (steady_parseSnapshot _) (avoids_parseSnapshot he _) fun _ _ => avoids_pure _

/-- The revision of an earliest version is not even looked at. -/
theorem avoids_parseEnd {s : Bytes} {b : Bool} (h : b = true → hd s = 0) :
    Avoids .zero e (parseEnd s b) := by
  refine avoids_ite (fun hp => avoids_ite (fun hb => ?_) fun _ => ?_) fun _ =>
    avoids_ite (fun _ => avoids_bail he (by simp [laterReasons])) fun _ => avoids_pure _
  · exact absurd (hp.symm.trans (h hb)) (by decide)
  · exact avoids_bind (steady_uint _ _ _ _) (avoids_orBail he _ (by simp [laterReasons])) fun _ _ =>
      avoids_ite (fun _ => avoids_bail he (by simp [laterReasons])) fun _ => avoids_pure _

theorem avoids_parseNormal (s : Bytes) (f : Flags) (o : Option ℕ) (n : ℕ) :
    Avoids .zero e (parseNormal s f o n) := by
  refine avoids_ite (fun _ => avoids_bail he (by simp [laterReasons])) fun _ => avoids_bind
    (steady_uint _ _ _ _) (avoids_orBail he _ (by simp [laterReasons])) fun _ _ => ?_
  refine avoids_ite (fun _ => avoids_bail he (by simp [laterReasons])) fun _ => avoids_bind
    (steady_uint _ _ _ _) (avoids_orBail he _ (by simp [laterReasons])) fun _ _ => ?_
  refine avoids_ite (fun _ => avoids_bail he (by simp [laterReasons])) fun _ => avoids_bind
    (steady_parsePreRelease _ _) (avoids_parsePreRelease he _ _) fun q hq => ?_
  refine avoids_bind (steady_parseEnd _ _) (avoids_parseEnd he fun hb => ?_) fun _ _ =>
    avoids_pure _
  obtain ⟨p, t, -, -, hp, h0⟩ := parsePreRelease_ok hq
  rw [hp] at hb
  exact h0 (p.scan_earliest.mp hb)

/-- After the major version only later reasons are given. -/
theorem avoids_afterMajor (s : Bytes) (f : Flags) (o : Option ℕ) (n : ℕ) :
    Avoids .zero e (if f.allowStub ∧ o = none ∧ n = 0 ∧ (s = [] ∨ hd s = ch '+') then do
        let revision ← parseEnd s false
        pure { epoch := 0, version := stubVersion, revision := revision }
      else parseNormal s f o n : Call StandardVersion) :=
  avoids_ite (fun _ => avoids_bind (steady_parseEnd _ _) (avoids_parseEnd he nofun) fun _ _ =>
    avoids_pure _) fun _ => avoids_parseNormal he _ _ _ _

end

/-- A call that fails only with `invalid_argument`. -/
def Bails {α : Type} (x : Call α) : Prop :=
  ∀ e, (∀ m, e ≠ .invalidArgument m) → Avoids .zero e x

theorem bails_pure {α : Type} (a : α) : Bails (pure a : Call α) := fun _ _ => avoids_pure a

theorem bails_bail {α : Type} (m : String) : Bails (bail m : Call α) :=
  fun _ he => avoids_fail (he m).symm

theorem bails_orBail {α : Type} (x : Comp Errno Unit α) (m : String) : Bails (orBail x m) :=
  fun _ he => avoids_mapError fun _ _ => (he m).symm

theorem bails_ite {α : Type} {c : Prop} [Decidable c] {x y : Call α} (hx : c → Bails x)
    (hy : ¬ c → Bails y) : Bails (if c then x else y) :=
  fun e he => avoids_ite (fun h => hx h e he) fun h => hy h e he

theorem bails_bind {α β : Type} {x : Call α} {f : α → Call β} (hs : Steady .zero x) (hx : Bails x)
    (hf : ∀ a, x.eval .zero = .ok a → Bails (f a)) : Bails (x >>= f) :=
  fun e he => avoids_bind hs (hx e he) fun a ha => hf a ha e he

theorem bails_parseSnapshot (s : Bytes) : Bails (parseSnapshot s) :=
  fun _ he => avoids_parseSnapshot (fun m _ => he m) s

theorem bails_parseEpoch (s : Bytes) : Bails (parseEpoch s) :=
  bails_ite (fun _ => bails_bind (steady_uint _ _ _ _) (bails_orBail _ _) fun _ _ =>
    bails_ite (fun _ => bails_pure _) fun _ => bails_bail _) fun _ => bails_pure _

/-- **`parse_version` fails only with a reason**: its assertion holds. -/
theorem bails_parseVersion (s : Bytes) (f : Flags) : Bails (parseVersion s f) :=
  bails_bind (steady_parseEpoch _) (bails_parseEpoch _) fun _ _ => bails_bind
    (steady_uint _ _ _ _) (bails_orBail _ _) fun _ _ _ he =>
      avoids_afterMajor (fun m _ => he m) _ _ _ _

end Build2.Libbutl.StandardVersion
