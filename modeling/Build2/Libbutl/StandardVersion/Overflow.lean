import Build2.Libbutl.StandardVersion.Accept

/-! # Numbers of a version that do not fit

`parse_version` leaves `ERANGE` behind exactly when reading the version gets to a number that does
not fit in 64 bits, and from then on rejects every version. -/

namespace Build2.Libbutl.StandardVersion

open Build2.Lib.ByteString Build2.Lib.Decimal Build2.Lib.Stateful Build2.Lib.Stateful.Comp
  Build2.Libbutl.ParseUint

section

variable (f : Flags)

/-- Reading the part of a version after the patch version gets to a number at the position `u`. -/
inductive RestReaches : Bytes → Bytes → Prop
  | pre {k : UInt8} {u : Bytes} (hk : IsLetter k) : RestReaches (ch '-' :: k :: ch '.' :: u) u
  | snapshot {k : UInt8} {t u : Bytes} {n : ℕ} (hk : IsLetter k) (hn : LaxNumber t n)
      (h : n ≤ 499) : RestReaches (ch '-' :: k :: ch '.' :: (t ++ ch '.' :: u)) u
  | revision {p : Pre} {pre u : Bytes} (hp : PreText scanned f p pre) (hne : p ≠ .earliest) :
      RestReaches (pre ++ ch '+' :: u) u

/-- Reading a version gets to a number at the position `u`. -/
inductive Reaches : Bytes → Bytes → Prop
  | epoch {u : Bytes} : Reaches (ch '+' :: u) u
  | major {e : ℕ} {ep u : Bytes} (hep : EpochText LaxNumber e ep) : Reaches (ep ++ u) u
  | stubRevision {z u : Bytes} (hf : f.allowStub = true) (hz : LaxNumber z 0) :
      Reaches (z ++ ch '+' :: u) u
  | minor {e n : ℕ} {ep ma u : Bytes} (hep : EpochText LaxNumber e ep)
      (hma : LaxNumber ma n ∧ n ≤ 99999) : Reaches (ep ++ (ma ++ ch '.' :: u)) u
  | patch {e n m : ℕ} {ep ma mi u : Bytes} (hep : EpochText LaxNumber e ep)
      (hma : LaxNumber ma n ∧ n ≤ 99999) (hmi : LaxNumber mi m ∧ m ≤ 99999) :
      Reaches (ep ++ (ma ++ ch '.' :: (mi ++ ch '.' :: u))) u
  | rest {e n m k : ℕ} {ep ma mi bf w u : Bytes} (hep : EpochText LaxNumber e ep)
      (hma : LaxNumber ma n ∧ n ≤ 99999) (hmi : LaxNumber mi m ∧ m ≤ 99999)
      (hbf : LaxNumber bf k ∧ k ≤ 99999) (hj : joined n m k ≠ 0) (hw : RestReaches f w u) :
      Reaches (ep ++ (ma ++ ch '.' :: (mi ++ ch '.' :: (bf ++ w)))) u

/-- **Reading a version gets to a number that does not fit.** -/
def HasExcess (s : Bytes) : Prop := ∃ u, Reaches f s u ∧ Overruns u

end

/-! ### The state that is left -/

theorem spoils_uint {s : Bytes} {a b : ℕ} {m : String} :
    Spoils .zero (orBail (parseUint64 s a b) m) ↔ Overruns s :=
  spoils_mapError.trans spoils_parseUint64

theorem spoils_uint_bind {α : Type} {s : Bytes} {a b : ℕ} {m : String} {F : ℕ × Bytes → Call α} :
    Spoils .zero (orBail (parseUint64 s a b) m >>= F) ↔
      Overruns s ∨ ∃ n r, (∃ t, s = t ++ r ∧ LaxNumber t n ∧ a ≤ n ∧ n ≤ b ∧ Stops isDigit r) ∧
        Spoils .zero (F (n, r)) := by
  rw [spoils_bind (steady_uint _ _ _ _), spoils_uint]
  simp only [Prod.exists, uint_eq_ok]

theorem spoils_uint_of_lax {α : Type} {t r : Bytes} {n a b : ℕ} {m : String}
    {F : ℕ × Bytes → Call α} (h : LaxNumber t n) (h1 : a ≤ n) (h2 : n ≤ b) (hr : Stops isDigit r)
    (hF : Spoils .zero (F (n, r))) : Spoils .zero (orBail (parseUint64 (t ++ r) a b) m >>= F) :=
  spoils_uint_bind.mpr (Or.inr ⟨n, r, ⟨t, rfl, h, h1, h2, hr⟩, hF⟩)

theorem spoils_parseSnapshot {s : Bytes} : Spoils .zero (parseSnapshot s) ↔ Overruns s := by
  unfold parseSnapshot
  rw [spoils_ite, spoils_uint_bind]
  constructor
  · rintro (⟨-, h⟩ | ⟨-, h | ⟨n, r, -, h⟩⟩)
    · exact absurd h (spoils_pure _)
    · exact h
    · simp only at h
      split_ifs at h <;> exact absurd rfl h
  · exact fun h => Or.inr ⟨ne_of_class h.lead (by decide), Or.inl h⟩

theorem spoils_parseEpoch {s : Bytes} :
    Spoils .zero (parseEpoch s) ↔ hd s = ch '+' ∧ Overruns s.tail := by
  unfold parseEpoch parseUint16
  rw [spoils_ite, spoils_uint_bind]
  constructor
  · rintro (⟨hp, h | ⟨n, r, -, h⟩⟩ | ⟨-, h⟩)
    · exact ⟨hp, h⟩
    · simp only at h
      split_ifs at h <;> exact absurd rfl h
    · exact absurd h (spoils_pure _)
  · exact fun h => Or.inl ⟨h.1, Or.inl h.2⟩

theorem spoils_parseEnd {s : Bytes} {e : Bool} :
    Spoils .zero (parseEnd s e) ↔ e = false ∧ hd s = ch '+' ∧ Overruns s.tail := by
  unfold parseEnd parseUint16
  rw [spoils_ite, spoils_ite, spoils_uint_bind]
  constructor
  · rintro (⟨hp, ⟨-, h⟩ | ⟨he, h | ⟨n, r, -, h⟩⟩⟩ | ⟨-, h⟩)
    · exact absurd h (spoils_fail _)
    · exact ⟨eq_false_of_ne_true he, hp, h⟩
    · simp only at h
      split_ifs at h <;> exact absurd rfl h
    · split_ifs at h <;> exact absurd rfl h
  · rintro ⟨rfl, hp, h⟩
    exact Or.inl ⟨hp, Or.inr ⟨nofun, Or.inl h⟩⟩

theorem spoils_parsePreReleaseNumber {k : UInt8} {s : Bytes} :
    Spoils .zero (parsePreReleaseNumber k s) ↔
      Overruns s ∨ ∃ t n u, s = t ++ ch '.' :: u ∧ LaxNumber t n ∧ n ≤ 499 ∧ Overruns u := by
  unfold parsePreReleaseNumber parseUint16
  rw [spoils_uint_bind]
  refine or_congr_right ⟨?_, ?_⟩
  · rintro ⟨n, r, ⟨t, rfl, hn, -, hle, -⟩, h⟩
    simp only at h
    split_ifs at h with hdot
    · rcases (spoils_bind (steady_parseSnapshot _)).mp h with h | ⟨q, -, h⟩
      · exact ⟨t, n, r.tail, by rw [← eq_cons_of_hd hdot (by decide)], hn, hle,
          spoils_parseSnapshot.mp h⟩
      · exact absurd rfl h
    · exact absurd rfl h
    · exact absurd rfl h
  · rintro ⟨t, n, u, rfl, hn, hle, h⟩
    have hdot : isDigit (ch '.') = false := by decide
    refine ⟨n, ch '.' :: u, ⟨t, rfl, hn, Nat.zero_le _, hle, stops_cons.mpr hdot⟩, ?_⟩
    simp only [hd_cons, if_true, List.tail_cons]
    exact (spoils_bind (steady_parseSnapshot _)).mpr (Or.inl (spoils_parseSnapshot.mpr h))

theorem spoils_parsePreRelease {s : Bytes} {f : Flags} :
    Spoils .zero (parsePreRelease s f) ↔
      ∃ k w, IsLetter k ∧ s = ch '-' :: k :: ch '.' :: w ∧
        Spoils .zero (parsePreReleaseNumber k w) := by
  constructor
  · intro h
    unfold parsePreRelease at h
    split_ifs at h with hm he hk hdot
    · exact absurd rfl h
    · exact absurd rfl h
    · exact absurd rfl h
    · exact absurd rfl h
    · have hk' : IsLetter (hd s.tail) := by
        rw [not_and_or, not_not, not_not] at hk
        exact hk
      have hk0 : hd s.tail ≠ 0 := by
        rcases hk' with h | h <;> rw [h] <;> decide
      refine ⟨_, _, hk', ?_, h⟩
      rw [← eq_cons_of_hd (not_not.mp hdot) (by decide), ← eq_cons_of_hd rfl hk0,
        ← eq_cons_of_hd (not_not.mp hm) (by decide)]
  · rintro ⟨k, w, hk, rfl, h⟩
    rw [parsePreRelease_letter hk]
    exact h

theorem spoils_rest {s : Bytes} {f : Flags} {F : PreRelease → ℕ → StandardVersion} :
    Spoils .zero (do
        let (pr, s) ← parsePreRelease s f
        let revision ← parseEnd s pr.earliest
        pure (F pr revision) : Call StandardVersion) ↔
      ∃ u, RestReaches f s u ∧ Overruns u := by
  rw [spoils_bind (steady_parsePreRelease _ _)]
  constructor
  · rintro (h | ⟨⟨q, r⟩, h1, h2⟩)
    · obtain ⟨k, w, hk, rfl, h'⟩ := spoils_parsePreRelease.mp h
      rcases spoils_parsePreReleaseNumber.mp h' with hu | ⟨t, n, u, rfl, hn, hle, hu⟩
      · exact ⟨w, .pre hk, hu⟩
      · exact ⟨u, .snapshot hk hn hle, hu⟩
    · obtain ⟨p, pre, rfl, hp, rfl, -⟩ := parsePreRelease_ok h1
      rcases (spoils_bind (steady_parseEnd _ _)).mp h2 with h | ⟨n, -, h⟩
      · obtain ⟨he, hplus, h⟩ := spoils_parseEnd.mp h
        obtain ⟨u, rfl⟩ : ∃ u, r = ch '+' :: u := ⟨r.tail, eq_cons_of_hd hplus (by decide)⟩
        refine ⟨u, .revision hp fun h => ?_, h⟩
        rw [p.scan_earliest.mpr h] at he
        cases he
      · exact absurd rfl h
  · rintro ⟨u, hu, h⟩
    cases hu with
    | pre hk =>
      exact Or.inl (spoils_parsePreRelease.mpr
        ⟨_, u, hk, rfl, spoils_parsePreReleaseNumber.mpr (Or.inl h)⟩)
    | snapshot hk hn hle =>
      exact Or.inl (spoils_parsePreRelease.mpr
        ⟨_, _, hk, rfl, spoils_parsePreReleaseNumber.mpr (Or.inr ⟨_, _, u, rfl, hn, hle, h⟩)⟩)
    | @revision p pre _ hp hne =>
      refine Or.inr ⟨(p.scan, ch '+' :: u), hp.parse (Or.inr rfl) fun h => absurd h hne, ?_⟩
      refine (spoils_bind (steady_parseEnd _ _)).mpr (Or.inl (spoils_parseEnd.mpr ⟨?_, rfl, h⟩))
      exact eq_false_of_ne_true fun he => hne (p.scan_earliest.mp he)

theorem spoils_parseNormal {s : Bytes} {f : Flags} {o : Option ℕ} {n : ℕ} :
    Spoils .zero (parseNormal s f o n) ↔
      (∃ u, s = ch '.' :: u ∧ Overruns u) ∨
      (∃ mi m u, s = ch '.' :: (mi ++ ch '.' :: u) ∧ (LaxNumber mi m ∧ m ≤ 99999) ∧ Overruns u) ∨
      ∃ mi m bf k w u, s = ch '.' :: (mi ++ ch '.' :: (bf ++ w)) ∧ (LaxNumber mi m ∧ m ≤ 99999) ∧
        (LaxNumber bf k ∧ k ≤ 99999) ∧ joined n m k ≠ 0 ∧ RestReaches f w u ∧ Overruns u := by
  unfold parseNormal parseUint32
  constructor
  · intro h
    split_ifs at h with hdot
    · exact absurd rfl h
    have hs := eq_cons_of_hd (not_not.mp hdot) (by decide)
    rcases spoils_uint_bind.mp h with h1 | ⟨m, r, ⟨mi, hmi', hmi, -, hm, -⟩, h1⟩
    · exact Or.inl ⟨s.tail, hs, h1⟩
    simp only at h1
    split_ifs at h1 with hdot'
    · exact absurd rfl h1
    have hr := eq_cons_of_hd (not_not.mp hdot') (by decide)
    rcases spoils_uint_bind.mp h1 with h2 | ⟨k, w, ⟨bf, hbf', hbf, -, hk, -⟩, h2⟩
    · exact Or.inr (Or.inl ⟨mi, m, r.tail, by rw [← hr, ← hmi', ← hs], ⟨hmi, hm⟩, h2⟩)
    simp only at h2
    split_ifs at h2 with hzero
    · exact absurd rfl h2
    obtain ⟨u, hu, hex⟩ := (spoils_rest (F := fun q x =>
      ⟨o.getD 1, adjust (releaseNumber n m k) q, q.snapshotSn, q.snapshotId, x⟩)).mp h2
    refine Or.inr (Or.inr ⟨mi, m, bf, k, w, u, by rw [← hbf', ← hr, ← hmi', ← hs], ⟨hmi, hm⟩,
      ⟨hbf, hk⟩, fun h0 => ?_, hu, hex⟩)
    rw [releaseNumber_eq, h0] at hzero
    exact hzero rfl
  · have hdot : isDigit (ch '.') = false := by decide
    rintro (⟨u, rfl, h⟩ | ⟨mi, m, u, rfl, hmi, h⟩ | ⟨mi, m, bf, k, w, u, rfl, hmi, hbf, hj, hu, h⟩)
    · rw [if_neg (by simp)]
      exact spoils_uint_bind.mpr (Or.inl h)
    · rw [if_neg (by simp)]
      refine spoils_uint_of_lax hmi.1 (Nat.zero_le _) hmi.2 (stops_cons.mpr hdot) ?_
      simp only [hd_cons, ne_eq, not_true, if_false]
      exact spoils_uint_bind.mpr (Or.inl h)
    · rw [if_neg (by simp)]
      refine spoils_uint_of_lax hmi.1 (Nat.zero_le _) hmi.2 (stops_cons.mpr hdot) ?_
      simp only [hd_cons, ne_eq, not_true, if_false]
      refine spoils_uint_of_lax hbf.1 (Nat.zero_le _) hbf.2 ?_ ?_
      · cases hu with
        | pre => exact stops_cons.mpr (by decide)
        | snapshot => exact stops_cons.mpr (by decide)
        | revision hp => exact hp.stops (Or.inr rfl)
      · have hz : ¬ releaseNumber n m k = 0 := by
          rw [releaseNumber_eq]
          omega
        simp only [if_neg hz]
        exact (spoils_rest (F := fun q x =>
          ⟨o.getD 1, adjust (releaseNumber n m k) q, q.snapshotSn, q.snapshotId, x⟩)).mpr ⟨u, hu, h⟩

/-- **`parse_version` leaves `ERANGE` behind when it gets to a number that does not fit.** -/
theorem spoils_parseVersion {s : Bytes} {f : Flags} :
    Spoils .zero (parseVersion s f) ↔ HasExcess f s := by
  have hdot : isDigit (ch '.') = false := by decide
  have hplus : isDigit (ch '+') = false := by decide
  unfold parseVersion parseUint32
  rw [spoils_bind (steady_parseEpoch _)]
  constructor
  · rintro (h | ⟨⟨o, w⟩, h1, h⟩)
    · obtain ⟨hp, h⟩ := spoils_parseEpoch.mp h
      exact ⟨s.tail, by rw [eq_cons_of_hd hp (by decide)]; exact .epoch, h⟩
    obtain ⟨ep, rfl, hep, ho⟩ := parseEpoch_ok h1
    rcases spoils_uint_bind.mp h with h2 | ⟨n, x, ⟨ma, rfl, hma, -, hn, -⟩, h2⟩
    · exact ⟨w, .major hep, h2⟩
    simp only at h2
    split_ifs at h2 with hstub
    · obtain ⟨hf, hnone, rfl, hx⟩ := hstub
      obtain rfl := ho.mp hnone
      rcases (spoils_bind (steady_parseEnd _ _)).mp h2 with h3 | ⟨_, -, h3⟩
      · obtain ⟨-, hp, h4⟩ := spoils_parseEnd.mp h3
        refine ⟨x.tail, ?_, h4⟩
        rw [eq_cons_of_hd hp (by decide)]
        exact .stubRevision hf hma
      · exact absurd rfl h3
    · rcases spoils_parseNormal.mp h2 with ⟨u, rfl, h3⟩ | ⟨mi, m, u, rfl, hmi, h3⟩ |
        ⟨mi, m, bf, k, y, u, rfl, hmi, hbf, hj, hu, h3⟩
      · exact ⟨u, .minor hep ⟨hma, hn⟩, h3⟩
      · exact ⟨u, .patch hep ⟨hma, hn⟩ hmi, h3⟩
      · exact ⟨u, .rest hep ⟨hma, hn⟩ hmi hbf hj hu, h3⟩
  · rintro ⟨u, hu, h⟩
    -- past the epoch and the major version, a dot leads to the rest of a version
    have key : ∀ {e n ep ma x}, EpochText LaxNumber e ep → LaxNumber ma n ∧ n ≤ 99999 →
        (∀ o, Spoils .zero (parseNormal (ch '.' :: x) f o n)) →
        Spoils .zero (parseEpoch (ep ++ (ma ++ ch '.' :: x))) ∨ ∃ a,
          (parseEpoch (ep ++ (ma ++ ch '.' :: x))).eval .zero = .ok a ∧ Spoils .zero
            ((orBail (parseUint64 a.2 0 99999) "invalid major version" >>= fun y =>
              if f.allowStub ∧ a.1 = none ∧ y.1 = 0 ∧ (y.2 = [] ∨ hd y.2 = ch '+') then do
                let revision ← parseEnd y.2 false
                pure { epoch := 0, version := stubVersion, revision := revision }
              else parseNormal y.2 f a.1 y.1 : Call StandardVersion)) := by
      intro e n ep ma x hep hma hx
      obtain ⟨o, h1, -⟩ := hep.parse (hma.1.hd_append_ne (ch '.' :: x) (by decide))
      refine Or.inr ⟨(o, ma ++ ch '.' :: x), h1, ?_⟩
      refine spoils_uint_of_lax hma.1 (Nat.zero_le _) hma.2 (stops_cons.mpr hdot) ?_
      have hd : ¬ ch '.' = ch '+' := by decide
      simp only [hd_cons, hd, or_false, reduceCtorEq, and_false, if_false]
      exact hx o
    cases hu with
    | epoch => exact Or.inl (spoils_parseEpoch.mpr ⟨rfl, h⟩)
    | major hep =>
      obtain ⟨o, h1, -⟩ := hep.parse (ne_of_class h.lead (by decide))
      exact Or.inr ⟨(o, u), h1, spoils_uint_bind.mpr (Or.inl h)⟩
    | @stubRevision z _ hf hz =>
      have hz' : hd (z ++ ch '+' :: u) ≠ ch '+' := hz.hd_append_ne _ (by decide)
      refine Or.inr ⟨(none, z ++ ch '+' :: u), by simp [parseEpoch, hz'], ?_⟩
      refine spoils_uint_of_lax hz (Nat.zero_le _) (Nat.zero_le _) (stops_cons.mpr hplus) ?_
      simp only
      rw [if_pos ⟨hf, trivial, trivial, Or.inr rfl⟩]
      exact (spoils_bind (steady_parseEnd _ _)).mpr (Or.inl (spoils_parseEnd.mpr ⟨rfl, rfl, h⟩))
    | minor hep hma =>
      exact key hep hma fun o => spoils_parseNormal.mpr (Or.inl ⟨u, rfl, h⟩)
    | patch hep hma hmi =>
      exact key hep hma fun o => spoils_parseNormal.mpr (Or.inr (Or.inl ⟨_, _, u, rfl, hmi, h⟩))
    | rest hep hma hmi hbf hj hw =>
      exact key hep hma fun o => spoils_parseNormal.mpr
        (Or.inr (Or.inr ⟨_, _, _, _, _, u, rfl, hmi, hbf, hj, hw, h⟩))

/-! ### The first number -/

/-- What is reported when the first number of a version is not there. -/
def noFirst (s : Bytes) : Fault :=
  .invalidArgument (if hd s = ch '+' then "invalid epoch" else "invalid major version")

/-- **The first number of a version is there and within its limits.** -/
def HasFirst (s : Bytes) : Prop :=
  ∃ t n r, LaxNumber t n ∧ Stops isDigit r ∧
    (s = ch '+' :: (t ++ r) ∧ 1 ≤ n ∧ n ≤ 65535 ∨ s = t ++ r ∧ n ≤ 99999)

/-- **Once `ERANGE` is there, no version is accepted.** -/
theorem parseVersion_erange (s : Bytes) (f : Flags) :
    parseVersion s f .erange = (.error (noFirst s), .erange) := by
  unfold noFirst
  by_cases hp : hd s = ch '+'
  · rw [if_pos hp]
    show andThen (parseEpoch s) _ _ = _
    have h : parseEpoch s .erange = (.error (.invalidArgument "invalid epoch"), .erange) := by
      rw [parseEpoch, if_pos hp]
      show andThen (orBail _ _) _ _ = _
      unfold andThen orBail mapError parseUint16
      rw [parseUint64_erange]
    unfold andThen
    rw [h]
  · rw [if_neg hp]
    show andThen (parseEpoch s) _ _ = _
    have h : parseEpoch s .erange = (.ok (none, s), .erange) := by
      rw [parseEpoch, if_neg hp]
      rfl
    unfold andThen
    rw [h]
    show andThen (orBail _ _) _ _ = _
    unfold andThen orBail mapError parseUint32
    rw [parseUint64_erange]

theorem eval_uint (s : Bytes) (a b : ℕ) (m : String) :
    (orBail (parseUint64 s a b) m).eval .zero = .error (.invalidArgument m) ∨
      ∃ t n r, s = t ++ r ∧ LaxNumber t n ∧ a ≤ n ∧ n ≤ b ∧ Stops isDigit r := by
  cases h : (parseUint64 s a b).eval .zero with
  | error e => exact Or.inl (by rw [orBail, eval_mapError, h]; rfl)
  | ok x =>
    obtain ⟨t, ht⟩ := parseUint64_eq_ok.mp h
    exact Or.inr ⟨t, x.1, x.2, ht⟩

theorem ne_of_laterReasons {m : String} (h : m ∉ laterReasons) :
    ∀ m' ∈ laterReasons, Fault.invalidArgument m ≠ .invalidArgument m' := by
  rintro m' hm' heq
  cases heq
  exact h hm'

/-- Past the epoch, its absence is not reported any more. -/
theorem avoids_noEpoch {t r : Bytes} {n : ℕ} (f : Flags) (hn : LaxNumber t n)
    (hr : Stops isDigit r) (h1 : 1 ≤ n) (h2 : n ≤ 65535) :
    Avoids .zero (.invalidArgument "invalid epoch") (parseVersion (ch '+' :: (t ++ r)) f) := by
  refine avoids_bind (steady_parseEpoch _) ?_ fun o _ => avoids_bind (steady_uint _ _ _ _)
    (avoids_mapError fun _ _ => by simp) fun q _ => avoids_afterMajor
      (ne_of_laterReasons (by simp [laterReasons])) _ _ _ _
  refine avoids_ite (fun _ => avoids_bind (steady_uint _ _ _ _) ?_ fun o _ =>
    avoids_ite (fun _ => avoids_pure _) fun _ => avoids_fail (by simp)) fun _ => avoids_pure _
  have hok : (orBail (parseUint16 (t ++ r) 1 65535) "invalid epoch").eval .zero = .ok (n, r) :=
    uint_of_lax hn h1 h2 hr _
  unfold Avoids
  rw [List.tail_cons, hok]
  intro h
  cases h

/-- Past the major version, its absence is not reported any more. -/
theorem avoids_noMajor {t r : Bytes} {n : ℕ} (f : Flags) (hn : LaxNumber t n)
    (hr : Stops isDigit r) (h2 : n ≤ 99999) :
    Avoids .zero (.invalidArgument "invalid major version") (parseVersion (t ++ r) f) := by
  have hp : hd (t ++ r) ≠ ch '+' := hn.hd_append_ne r (by decide)
  have he : (parseEpoch (t ++ r)).eval .zero = .ok (none, t ++ r) := by
    rw [parseEpoch, if_neg hp]
    rfl
  refine avoids_bind (steady_parseEpoch _) (by rw [Avoids, he]; simp) fun o ho => ?_
  rw [he] at ho
  cases ho
  refine avoids_bind (steady_uint _ _ _ _) ?_ fun q _ => avoids_afterMajor
    (ne_of_laterReasons (by simp [laterReasons])) _ _ _ _
  have hok : (orBail (parseUint32 (t ++ r) 0 99999) "invalid major version").eval .zero =
      .ok (n, r) := uint_of_lax hn (Nat.zero_le _) h2 hr _
  unfold Avoids
  rw [hok]
  intro h
  cases h

/-- **A version is rejected at its first number exactly where that is not there.** -/
theorem parseVersion_noFirst (s : Bytes) (f : Flags) :
    fresh (parseVersion s f) = .error (noFirst s) ↔ ¬ HasFirst s := by
  unfold noFirst
  constructor
  · rintro h ⟨t, n, r, hn, hr, ⟨rfl, h1, h2⟩ | ⟨rfl, h2⟩⟩
    · rw [hd_cons, if_pos rfl] at h
      exact avoids_noEpoch f hn hr h1 h2 h
    · rw [if_neg (hn.hd_append_ne r (by decide))] at h
      exact avoids_noMajor f hn hr h2 h
  · intro hno
    by_cases hp : hd s = ch '+'
    · rw [if_pos hp]
      refine eval_bind_of_error ?_
      rw [parseEpoch, if_pos hp]
      rcases eval_uint s.tail 1 65535 "invalid epoch" with h | ⟨t, n, r, ht, hn, h1, h2, hr⟩
      · exact eval_bind_of_error h
      · refine absurd ⟨t, n, r, hn, hr, Or.inl ⟨?_, h1, h2⟩⟩ hno
        rw [← ht]
        exact eq_cons_of_hd hp (by decide)
    · rw [if_neg hp]
      have he : (parseEpoch s).eval .zero = .ok (none, s) := by
        rw [parseEpoch, if_neg hp]
        rfl
      refine (eval_bind (steady_parseEpoch _)).trans ?_
      rw [he]
      rcases eval_uint s 0 99999 "invalid major version" with h | ⟨t, n, r, ht, hn, -, h2, hr⟩
      · exact eval_bind_of_error h
      · exact absurd ⟨t, n, r, hn, hr, Or.inr ⟨ht, h2⟩⟩ hno

end Build2.Libbutl.StandardVersion
