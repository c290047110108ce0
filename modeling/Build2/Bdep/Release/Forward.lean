import Build2.Bdep.Release.Plan
import Build2.Libbutl.StandardVersion.Endpoints

/-! # Planned versions move forward

What is released is after the current version and what is opened is after what is released, where
the planning code does not run into the limits of a version. -/

namespace Build2.Bdep.Release

open Build2.Lib.ByteString Build2.Lib.Stateful Build2.Lib.Stateful.Comp Build2.Libbutl
  Build2.Libbutl.StandardVersion Build2.Libbutl.ParseUint

/-! ### Readable versions -/

/-- A version whose string the parser reads back as an equal version. -/
def Readable (v : StandardVersion) : Prop := fresh (ofString v.string .none) = .ok v

theorem readable_iff {v : StandardVersion} : Readable v ↔
    ∃ c : Components, c.Valid ∧ 1 ≤ c.epoch ∧ c.pre ≠ .earliest ∧ v = c.toVersion := by
  constructor
  · intro h
    rcases (parseVersion_eq_ok.mp h).cases with ⟨hf, -⟩ | ⟨c, hc, he, rfl, hf⟩
    · cases hf
    · exact ⟨c, hc, he, fun hp => absurd (hf hp).1 nofun, rfl⟩
  · rintro ⟨c, hc, he, hp, rfl⟩
    refine parseVersion_eq_ok.mpr (Spells.mono canonical_le_scanned ?_ fun _ _ => trivial)
    rw [hc.string_eq]
    exact hc.spells he fun h => absurd h hp

theorem readable_of_parse {s : Bytes} {v : StandardVersion} (h : fresh (ofString s .none) = .ok v) :
    Readable v := parse_string h

/-- What the version number `10000 * t + d - 10000` of a readable version says. -/
structure Facts (v : StandardVersion) (t d : ℕ) : Prop where
  number : v.version + 10000 = 10000 * t + d
  triple : joined v.major v.minor v.patch = t
  pos : t ≠ 0
  lt : t < 1000000000000000
  epoch : 1 ≤ v.epoch ∧ v.epoch ≤ 65535
  kind : v.preRelease = none ∧ v.snapshot = false ∧ d = 10000 ∨
    ∃ pr, v.preRelease = some pr ∧ pr ≤ 999 ∧
      (v.snapshot = false ∧ pr ≠ 0 ∧ pr ≠ 500 ∧ d = pr * 10 ∨ v.snapshot = true ∧ d = pr * 10 + 1)

theorem Readable.facts {v : StandardVersion} (h : Readable v) : ∃ t d, Facts v t d := by
  obtain ⟨c, hc, he, hne, rfl⟩ := readable_iff.mp h
  have hpre := hc.preRelease
  have hsn := hc.snapshot
  have hp := hc.pre
  obtain ⟨h1, h2, h3⟩ := hc.decode
  refine ⟨c.joined, c.pre.ddde, hc.number_eq, by rw [h1, h2, h3]; rfl, hc.joined, ?_,
    ⟨he, hc.epoch⟩, ?_⟩
  · have := hc.joined_le
    omega
  · cases hk : c.pre with
    | release =>
      rw [hk] at hpre hsn
      exact Or.inl ⟨hpre, eq_false_of_ne_true fun h => by simpa using hsn.mp h, rfl⟩
    | earliest => exact absurd hk hne
    | final n =>
      rw [hk] at hpre hsn hp
      obtain ⟨hp1, hp2, hp3⟩ := hp
      refine Or.inr ⟨n, hpre, hp3, Or.inl ⟨?_, by omega, hp2, rfl⟩⟩
      exact eq_false_of_ne_true fun h => by simpa using hsn.mp h
    | snapshot n sn id =>
      rw [hk] at hpre hsn hp
      exact Or.inr ⟨n, hpre, hp.1, Or.inr ⟨hsn.mpr ⟨n, sn, id, rfl⟩, rfl⟩⟩

/-- The components of a joined number. -/
def ofTriple (e t : ℕ) (p : Pre) : Components :=
  ⟨e, t / 10000000000, t / 100000 % 100000, t % 100000, p, 0⟩

section

variable {e t pr : ℕ} {p : Pre}

theorem joined_eq (mj mi pa : ℕ) : joined mj mi pa = mj * 10000000000 + mi * 100000 + pa := rfl

theorem joined_ofTriple (e t : ℕ) (p : Pre) : (ofTriple e t p).joined = t := by
  show joined (t / 10000000000) (t / 100000 % 100000) (t % 100000) = t
  unfold joined
  omega

theorem readable_ofTriple (he : 1 ≤ e ∧ e ≤ 65535) (h0 : t ≠ 0) (ht : t < 1000000000000000)
    (hp : p.Valid) (hne : p ≠ .earliest) : Readable (ofTriple e t p).toVersion := by
  refine readable_iff.mpr ⟨ofTriple e t p,
    ⟨he.2, ?_, ?_, ?_, ?_, hp, Nat.zero_le _⟩, he.1, hne, rfl⟩
  · show t / 10000000000 ≤ 99999
    omega
  · show t / 100000 % 100000 ≤ 99999
    omega
  · show t % 100000 ≤ 99999
    omega
  · rw [joined_ofTriple]
    exact h0

theorem ofTriple_prePart (e t pr : ℕ) :
    (ofTriple e t (prePart pr)).toVersion = ⟨e, componentNumber t pr, 0, [], 0⟩ := by
  have hn : (ofTriple e t (prePart pr)).number = componentNumber t pr := by
    have hj : (ofTriple e t (prePart pr)).number = 10000 * t + (prePart pr).ddde - 10000 := by
      unfold Components.number
      rw [joined_ofTriple]
      rfl
    rw [hj]
    unfold prePart componentNumber
    split_ifs <;> simp only [Pre.ddde] <;> omega
  have hid : (prePart pr).id = [] := by
    unfold prePart
    split_ifs <;> rfl
  unfold Components.toVersion
  rw [hn]
  simp [ofTriple, prePart_sn, hid]

/-- **What is put together without a snapshot is readable**: the constructor rejects the release
after the last one. -/
theorem returns_ofComponents {mj mi pa : ℕ} (he : 1 ≤ e ∧ e ≤ 65535) (h0 : joined mj mi pa ≠ 0)
    (h1 : joined mj mi pa ≤ 1000000000000000)
    (h2 : pr ≠ 0 → joined mj mi pa < 1000000000000000) (h3 : pr ≤ 1000) :
    Returns (fun x => Readable x ∧ x = ⟨e, componentNumber (joined mj mi pa) pr, 0, [], 0⟩)
      (ofComponents e mj mi pa pr 0) := by
  intro s x hx
  replace hx := (steady_ofComponents e mj mi pa pr 0).eval_eq_ok hx
  unfold ofComponents at hx
  rw [ofEpochSnapshotString_none, releaseNumber_eq] at hx
  obtain ⟨hc, rfl⟩ := hx
  generalize joined mj mi pa = t at *
  have hn : (10000 * t + pr * 10 + (2 ^ 64 - if pr ≠ 0 then 10000 else 0)) % 2 ^ 64 =
      componentNumber t pr := by
    unfold componentNumber
    by_cases hpr : pr = 0
    · subst hpr
      simp only [ne_eq, not_true_eq_false, if_false, if_true]
      omega
    · rw [if_pos hpr, if_neg hpr, sub_borrow (by omega) (by omega)]
  rw [hn] at hc ⊢
  refine ⟨?_, rfl⟩
  have ht : t < 1000000000000000 := by
    by_cases hpr : pr = 0
    · have := hc.lt
      rw [hpr, componentNumber, if_pos rfl] at this
      omega
    · exact h2 hpr
  have h500 : pr ≠ 500 := by
    rintro rfl
    refine absurd (hc.beta ?_) Bool.false_ne_true
    rw [componentNumber, if_neg (by decide)]
    omega
  rw [← ofTriple_prePart e t pr]
  exact readable_ofTriple he h0 ht (prePart_valid h3 h500) (prePart_ne_earliest pr)

/-- The latest snapshot after pre-release `pr` of a joined number. -/
def latest (e t pr : ℕ) : StandardVersion := ⟨e, 10000 * t + pr * 10 + 1 - 10000, latestSn, [], 0⟩

theorem latest_epoch (e t pr : ℕ) : (latest e t pr).epoch = e := rfl

theorem latest_version (e t pr : ℕ) :
    (latest e t pr).version = 10000 * t + pr * 10 + 1 - 10000 := rfl

theorem latestSnapshot_latest (e t pr : ℕ) : (latest e t pr).latestSnapshot = true := by
  have h0 : latestSn ≠ 0 := by decide
  simp [latestSnapshot, snapshot, latest, h0]

theorem latest_eq (e t pr : ℕ) :
    latest e t pr = (ofTriple e t (.snapshot pr latestSn [])).toVersion := by
  unfold latest Components.toVersion Components.number
  rw [joined_ofTriple]
  rfl

/-- The latest snapshot of the version after the last one is not readable. -/
theorem readable_latest_iff (he : 1 ≤ e ∧ e ≤ 65535) (h0 : t ≠ 0) (hpr : pr ≤ 999) :
    Readable (latest e t pr) ↔ t < 1000000000000000 := by
  constructor
  · intro h
    obtain ⟨u, d, hf⟩ := h.facts
    have hn : 10000 * t + pr * 10 + 1 - 10000 + 10000 = 10000 * u + d := hf.number
    have hlt := hf.lt
    have hd : d ≤ 10000 := by
      rcases hf.kind with ⟨-, -, rfl⟩ | ⟨q, -, hq, ⟨-, -, -, rfl⟩ | ⟨-, rfl⟩⟩ <;> omega
    omega
  · intro ht
    rw [latest_eq e t pr]
    have hsn : Pre.ValidSnapshot latestSn [] :=
      ⟨by decide, le_rfl, fun _ => rfl, by simp, by simp⟩
    exact readable_ofTriple he h0 ht ⟨hpr, hsn⟩ nofun

theorem returns_makeSnapshot {cv : StandardVersion} {mj mi pa : ℕ} (h0 : joined mj mi pa ≠ 0)
    (h1 : joined mj mi pa ≤ 1000000000000000) (hpr : pr ≤ 999) :
    Returns (fun x => x = latest cv.epoch (joined mj mi pa) pr) (makeSnapshot cv mj mi pa pr) := by
  intro s x hx
  replace hx := (steady_ofSnapshotComponents _ _ _ _ _ _ _ _).eval_eq_ok hx
  unfold ofSnapshotComponents at hx
  rw [ofSnapshot_eq_ok, releaseNumber_eq] at hx
  obtain ⟨-, -, rfl⟩ := hx
  unfold latest
  rw [sub_borrow (by omega) (by omega)]

/-- The version number of a readable version without a snapshot gives its parts back. -/
theorem facts_componentNumber {u d : ℕ} (hpr : pr ≤ 1000) (h0 : t ≠ 0)
    (hf : Facts ⟨e, componentNumber t pr, 0, [], 0⟩ u d) :
    u = t ∧ (d = 10000 ↔ pr = 0 ∨ pr = 1000) := by
  have hn : componentNumber t pr + 10000 = 10000 * u + d := hf.number
  have hd : 1 ≤ d ∧ d ≤ 10000 := by
    rcases hf.kind with ⟨-, -, rfl⟩ | ⟨q, -, hq, ⟨-, hq0, -, rfl⟩ | ⟨-, rfl⟩⟩ <;> omega
  unfold componentNumber at hn
  split_ifs at hn with h <;> omega

end

theorem Facts.final_iff {v : StandardVersion} {t d : ℕ} (h : Facts v t d) :
    v.preRelease = none ↔ d = 10000 := by
  rcases h.kind with ⟨hp, -, rfl⟩ | ⟨pr, hp, hpr, hk⟩
  · simp [hp]
  · rw [hp]
    rcases hk with ⟨-, -, -, rfl⟩ | ⟨-, rfl⟩
    · simp only [reduceCtorEq, false_iff]
      omega
    · simp only [reduceCtorEq, false_iff]
      omega

/-! ### What is released -/

/-- The major, minor and patch numbers that are released, as one number. -/
def releaseTriple (o : Options) (cv : StandardVersion) : ℕ :=
  if cv.snapshot ∧ o.major then joined (cv.major + 1) 0 0
  else if cv.snapshot ∧ o.minor then joined cv.major (cv.minor + 1) 0
  else joined cv.major cv.minor cv.patch

/-- A final version is released. The beta after the last one is the final version, too. -/
def ReleasesFinal (o : Options) (cv : StandardVersion) : Prop :=
  cv.snapshot = true ∧ (o.major = true ∨ o.minor = true) ∨
    (o.beta = true → cv.preRelease = some 999) ∧ (o.beta = false → o.alpha = false)

/-- What is known of a version that is released after `cv`. -/
structure Advances (cv : StandardVersion) (t : ℕ) (final : Prop) (rv : StandardVersion) : Prop where
  readable : Readable rv
  epoch : rv.epoch = cv.epoch
  lt : cv.version < rv.version
  snapshot : rv.snapshot = false
  triple : joined rv.major rv.minor rv.patch = t
  final : rv.preRelease = none ↔ final

section

variable {o : Options} {cv : StandardVersion} {t d pr q : ℕ}

theorem advances_ofComponents {mj mi pa : ℕ} (hf : Facts cv t d) (h0 : t ≤ joined mj mi pa)
    (h1 : joined mj mi pa ≤ 1000000000000000)
    (h2 : q ≠ 0 → joined mj mi pa < 1000000000000000) (hq : q ≤ 1000)
    (hlt : d < 10000 ∧ (q = 0 ∨ joined mj mi pa = t ∧ d < q * 10)) :
    Returns (Advances cv (joined mj mi pa) (q = 0 ∨ q = 1000))
      ((ofComponents cv.epoch mj mi pa q 0).mapError Failure.version) := by
  refine returns_mapError _ fun s rv hrv => ?_
  have hpos := hf.pos
  obtain ⟨hr, rfl⟩ := returns_ofComponents hf.epoch (by omega) h1 h2 hq s rv hrv
  obtain ⟨u, d', hf'⟩ := hr.facts
  obtain ⟨rfl, hd⟩ := facts_componentNumber hq (by omega) hf'
  refine ⟨hr, rfl, ?_, rfl, hf'.triple, hf'.final_iff.trans hd⟩
  have hn := hf.number
  show cv.version < componentNumber _ q
  unfold componentNumber
  split_ifs <;> omega

theorem components_le (cv : StandardVersion) :
    cv.major ≤ 99999 ∧ cv.minor ≤ 99999 ∧ cv.patch ≤ 99999 := by
  unfold major minor patch
  omega

theorem Advances.congr {final final' : Prop} {rv : StandardVersion} (h : Advances cv t final rv)
    (hiff : final ↔ final') : Advances cv t final' rv :=
  { h with final := h.final.trans hiff }

theorem beta_isSome (hp : cv.preRelease = some pr) : cv.beta.isSome = true ↔ 500 ≤ pr := by
  unfold beta
  rw [hp]
  by_cases h : 500 ≤ pr
  · simp [h]
  · simp [h]

theorem alpha_isSome (hp : cv.preRelease = some pr) : cv.alpha.isSome = true ↔ pr < 500 := by
  unfold alpha
  rw [hp]
  by_cases h : pr < 500
  · simp [h]
  · simp [h]

theorem returns_nextPreRelease (hf : Facts cv t d) (hp : cv.preRelease = some pr) :
    Returns (Advances cv t ((o.beta = true → cv.preRelease = some 999) ∧
      (o.beta = false → o.alpha = false))) (nextPreRelease o cv) := by
  obtain ⟨hpr, hd1, hd2⟩ : pr ≤ 999 ∧ pr * 10 ≤ d ∧ d ≤ pr * 10 + 1 := by
    rcases hf.kind with ⟨hno, -⟩ | ⟨q, hq, hle, hk⟩
    · rw [hno] at hp
      cases hp
    · obtain rfl := Option.some.inj (hq.symm.trans hp)
      omega
  have hlt := hf.lt
  have hbeta := beta_isSome hp
  have hput : ∀ q, q ≤ 1000 → (q = 0 ∨ d < q * 10) → Returns (Advances cv t (q = 0 ∨ q = 1000))
      ((ofComponents cv.epoch cv.major cv.minor cv.patch q 0).mapError Failure.version) := by
    intro q hq hdq
    have htr := hf.triple
    have h := advances_ofComponents (q := q) hf htr.ge (by omega) (fun _ => by omega) hq
      ⟨by omega, hdq.imp_right fun h => ⟨htr, h⟩⟩
    rw [htr] at h
    exact h
  unfold nextPreRelease
  simp only [hp, Option.getD_some]
  refine returns_ite (fun hob => ?_) fun hob => returns_ite (fun hoa => ?_) fun hoa => ?_
  · intro s rv hrv
    by_cases hb : cv.beta.isSome = true
    · rw [if_pos hb] at hrv
      refine (hput (pr + 1) (by omega) (Or.inr (by omega)) s rv hrv).congr ?_
      simp [hob]
    · rw [if_neg hb] at hrv
      have hpr' : pr < 500 := by
        rw [hbeta] at hb
        omega
      refine (hput (500 + 1) (by omega) (Or.inr (by omega)) s rv hrv).congr ?_
      simp [hob]
      omega
  · refine returns_ite (fun _ => returns_fail _) fun hb s rv hrv => ?_
    have hpr' : pr < 500 := by
      rw [hbeta] at hb
      omega
    refine (hput (pr + 1) (by omega) (Or.inr (by omega)) s rv hrv).congr ?_
    simp [hob, hoa]
    omega
  · refine fun s rv hrv => (hput 0 (by omega) (Or.inl rfl) s rv hrv).congr ?_
    simp [hob, hoa]

/-- **What is released** is a readable version after the current one. -/
theorem returns_nextRelease (h : Readable cv) :
    Returns (Advances cv (releaseTriple o cv) (ReleasesFinal o cv)) (nextRelease o cv) := by
  obtain ⟨t, d, hf⟩ := h.facts
  obtain ⟨hmj, hmi, hpa⟩ := components_le cv
  have htr := hf.triple
  unfold nextRelease
  refine returns_ite (fun hs => ?_) fun hs => returns_ite (fun hp => ?_) fun _ => returns_fail _
  · -- a snapshot is one of a pre-release
    obtain ⟨pr, hp, hd⟩ : ∃ pr, cv.preRelease = some pr ∧ d < 10000 := by
      rcases hf.kind with ⟨-, hno, -⟩ | ⟨pr, hp, hle, hk⟩
      · rw [hno] at hs
        cases hs
      · exact ⟨pr, hp, by omega⟩
    refine returns_ite (fun hma => ?_) fun hma => returns_ite (fun hmi' => ?_) fun hmi' => ?_
    · have hle : t ≤ joined (cv.major + 1) 0 0 ∧ joined (cv.major + 1) 0 0 ≤ 1000000000000000 := by
        unfold joined at htr ⊢
        omega
      have hr : releaseTriple o cv = joined (cv.major + 1) 0 0 := by simp [releaseTriple, hs, hma]
      rw [hr]
      refine fun s rv hrv => (advances_ofComponents hf hle.1 hle.2 (fun h => absurd rfl h)
        (Nat.zero_le _) ⟨hd, Or.inl rfl⟩ s rv hrv).congr ?_
      simp [ReleasesFinal, hs, hma]
    · have hle : t ≤ joined cv.major (cv.minor + 1) 0 ∧
          joined cv.major (cv.minor + 1) 0 ≤ 1000000000000000 := by
        unfold joined at htr ⊢
        omega
      have hr : releaseTriple o cv = joined cv.major (cv.minor + 1) 0 := by
        simp [releaseTriple, hs, hma, hmi']
      rw [hr]
      refine fun s rv hrv => (advances_ofComponents hf hle.1 hle.2 (fun h => absurd rfl h)
        (Nat.zero_le _) ⟨hd, Or.inl rfl⟩ s rv hrv).congr ?_
      simp [ReleasesFinal, hs, hmi']
    · have hr : releaseTriple o cv = t := by simp [releaseTriple, hma, hmi', htr]
      rw [hr]
      refine fun s rv hrv => (returns_nextPreRelease hf hp s rv hrv).congr ?_
      simp [ReleasesFinal, hma, hmi']
  · obtain ⟨pr, hp⟩ := Option.isSome_iff_exists.mp hp
    refine returns_ite (fun _ => returns_fail _) fun hmi' => returns_ite (fun _ => returns_fail _)
      fun hma => ?_
    have hr : releaseTriple o cv = t := by simp [releaseTriple, hs, htr]
    rw [hr]
    refine fun s rv hrv => (returns_nextPreRelease hf hp s rv hrv).congr ?_
    simp [ReleasesFinal, hs]

end

/-! ### What is opened -/

/-- The major, minor and patch numbers that are opened after a final version, as one number. -/
def openTriple (o : Options) (t : ℕ) : ℕ :=
  if o.openMajor then (t / 10000000000 + 1) * 10000000000
  else if o.openMinor then (t / 100000 + 1) * 100000
  else if o.openPatch then t + 1
  else if t % 100000 = 0 then (t / 100000 + 1) * 100000
  else t + 1

/-- **What is opened is a version after the one before it**: a base version has greater numbers, and
without one the last version is not followed by another one. -/
def Opens (o : Options) (final : Prop) (t : ℕ) : Prop :=
  match o.openBase with
  | some vs => ∃ v, fresh (ofString vs .none) = .ok v ∧ t < joined v.major v.minor v.patch
  | none => final → openTriple o t < 1000000000000000

section

variable {o : Options} {cv : StandardVersion} {t d : ℕ}

/-- What is known of a version that is opened after `cv`. -/
def OpenedAfter (cv : StandardVersion) (C : Prop) (ov : StandardVersion) : Prop :=
  ov.latestSnapshot = true ∧ (ov.cmp cv = .gt ∧ Readable ov ↔ C)

/-- The number of a version that is not a snapshot. -/
theorem Facts.ddde_of_final (hf : Facts cv t d) (hs : cv.snapshot = false) :
    d % 10 = 0 ∧ 10 ≤ d ∧ d ≤ 10000 := by
  rcases hf.kind with ⟨-, -, rfl⟩ | ⟨pr, -, hpr, ⟨-, h0, -, rfl⟩ | ⟨hsn, -⟩⟩
  · omega
  · omega
  · rw [hs] at hsn
    cases hsn

theorem openedAfter_latest {u pr : ℕ} (hf : Facts cv t d) (hs : cv.snapshot = false) (h0 : u ≠ 0)
    (hpr : pr ≤ 999) :
    OpenedAfter cv (10000 * t + d < 10000 * u + pr * 10 + 1 ∧ u < 1000000000000000)
      (latest cv.epoch u pr) := by
  have hn := hf.number
  have hd := hf.ddde_of_final hs
  have hl := latest_version cv.epoch u pr
  have hne : (latest cv.epoch u pr).version ≠ cv.version := by omega
  have hlt : cv.version < (latest cv.epoch u pr).version ↔
      10000 * t + d < 10000 * u + pr * 10 + 1 := by omega
  refine ⟨latestSnapshot_latest _ _ _, and_congr ?_ (readable_latest_iff hf.epoch h0 hpr)⟩
  have he := latest_epoch cv.epoch u pr
  rw [cmp_eq_gt, ← hlt]
  constructor
  · rintro (h | ⟨-, h | ⟨h, -⟩⟩)
    · exact absurd h (by rw [he]; exact lt_irrefl _)
    · exact h
    · exact absurd h hne
  · exact fun h => Or.inr ⟨he, Or.inl h⟩

theorem OpenedAfter.congr {C C' : Prop} {ov : StandardVersion} (h : OpenedAfter cv C ov)
    (hiff : C ↔ C') : OpenedAfter cv C' ov :=
  ⟨h.1, h.2.trans hiff⟩

theorem returns_latest {mj mi pa pr : ℕ} (hf : Facts cv t d) (hs : cv.snapshot = false)
    (h0 : joined mj mi pa ≠ 0) (h1 : joined mj mi pa ≤ 1000000000000000) (hpr : pr ≤ 999) :
    Returns (OpenedAfter cv (10000 * t + d < 10000 * joined mj mi pa + pr * 10 + 1 ∧
      joined mj mi pa < 1000000000000000)) (makeSnapshot cv mj mi pa pr) := by
  intro s ov hov
  obtain rfl := returns_makeSnapshot h0 h1 hpr s ov hov
  exact openedAfter_latest hf hs h0 hpr

theorem openTriple_bounds (o : Options) (h : t < 1000000000000000) :
    t < openTriple o t ∧ openTriple o t ≤ 1000000000000000 := by
  unfold openTriple
  split_ifs <;> omega

theorem returns_openFinal (hf : Facts cv t d) (hs : cv.snapshot = false) :
    Returns (OpenedAfter cv (openTriple o t < 1000000000000000)) (openFinal o cv) := by
  obtain ⟨hmj, hmi, hpa⟩ := components_le cv
  obtain ⟨hlt, hle⟩ := openTriple_bounds o hf.lt
  have htr := hf.triple
  have hd := hf.ddde_of_final hs
  have hput : ∀ mj mi pa, joined mj mi pa = openTriple o t →
      Returns (OpenedAfter cv (openTriple o t < 1000000000000000))
        (makeSnapshot cv mj mi pa 0) := by
    intro mj mi pa hj s ov hov
    refine (returns_latest hf hs (by omega) (by omega) (by omega) s ov hov).congr ?_
    rw [hj]
    exact and_iff_right (by omega)
  rw [joined_eq] at htr
  unfold openFinal
  refine returns_ite (fun h1 => hput _ _ _ ?_) fun h1 => returns_ite (fun h2 => hput _ _ _ ?_)
    fun h2 => returns_ite (fun h3 => hput _ _ _ ?_) fun h3 => returns_ite (fun h4 => hput _ _ _ ?_)
    fun h4 => hput _ _ _ ?_
  · have hj := joined_eq (cv.major + 1) 0 0
    have ho : openTriple o t = (t / 10000000000 + 1) * 10000000000 := if_pos h1
    omega
  · have hj := joined_eq cv.major (cv.minor + 1) 0
    rw [openTriple, if_neg h1, if_pos h2]
    omega
  · have hj := joined_eq cv.major cv.minor (cv.patch + 1)
    rw [openTriple, if_neg h1, if_neg h2, if_pos h3]
    omega
  · have hj := joined_eq cv.major (cv.minor + 1) cv.patch
    rw [openTriple, if_neg h1, if_neg h2, if_neg h3, if_pos (by omega)]
    omega
  · have hj := joined_eq cv.major cv.minor (cv.patch + 1)
    rw [openTriple, if_neg h1, if_neg h2, if_neg h3, if_neg (by omega)]
    omega

/-- From a base version: the epoch is that of the version before. -/
theorem returns_openBase (hf : Facts cv t d) (hs : cv.snapshot = false) (vs : Bytes) :
    Returns (OpenedAfter cv (∃ v, fresh (ofString vs .none) = .ok v ∧
      t < joined v.major v.minor v.patch)) (openBase cv vs) := by
  have hd := hf.ddde_of_final hs
  have hparse : Returns (fun v => fresh (ofString vs .none) = .ok v)
      ((ofString vs .none).mapError (Failure.invalidBaseVersion vs)) :=
    returns_mapError _ fun s v hv => (Ctor.steady (.string vs .none)).eval_eq_ok hv
  refine hparse.bind fun v hv => returns_ite (fun _ => returns_fail _) fun _ =>
    returns_ite (fun _ => returns_fail _) fun _ => returns_ite (fun _ => returns_fail _) fun _ =>
    returns_mapError _ fun s ov hov => ?_
  obtain ⟨u, d', hf'⟩ := (readable_of_parse hv).facts
  have hu := hf'.lt
  have hu0 := hf'.pos
  have htr := hf'.triple
  refine (returns_latest hf hs (by omega) (by omega) (Nat.zero_le _) s ov hov).congr ?_
  constructor
  · exact fun h => ⟨v, hv, by omega⟩
  · rintro ⟨w, hw, hlt⟩
    obtain rfl := Except.ok.inj (hv.symm.trans hw)
    omega

/-- **What is opened.** -/
theorem returns_nextOpen (h : Readable cv) :
    Returns (OpenedAfter cv (Opens o (cv.preRelease = none) (joined cv.major cv.minor cv.patch)))
      (nextOpen o cv) := by
  obtain ⟨t, d, hf⟩ := h.facts
  have htr := hf.triple
  have hlt := hf.lt
  have hpos := hf.pos
  unfold nextOpen
  refine returns_ite (fun _ => returns_fail _) fun hsn => ?_
  have hs : cv.snapshot = false := eq_false_of_ne_true hsn
  have hd := hf.ddde_of_final hs
  rw [htr]
  unfold Opens
  cases o.openBase with
  | some vs => exact returns_openBase hf hs vs
  | none =>
    simp only
    -- a pre-release is continued
    have hput : ∀ pr q, cv.preRelease = some pr → d < q * 10 + 1 → q ≤ 999 →
        Returns (OpenedAfter cv (cv.preRelease = none → openTriple o t < 1000000000000000))
          ((makeSnapshot cv cv.major cv.minor cv.patch q).mapError Failure.version) := by
      intro pr q hp hdq hq
      refine returns_mapError _ fun s ov hov => ?_
      refine (returns_latest hf hs (by omega) (by omega) hq s ov hov).congr ?_
      rw [htr, hp]
      simp only [reduceCtorEq, false_imp_iff, iff_true]
      omega
    rcases hf.kind with ⟨hp, -, -⟩ | ⟨pr, hp, hpr, hk⟩
    · have ha : cv.alpha.isSome = false := by simp [alpha, hp]
      have hb : cv.beta.isSome = false := by simp [beta, hp]
      rw [if_neg (by simp [ha]), if_neg (by simp [hb])]
      refine returns_ite (fun _ => returns_fail _) fun _ => returns_mapError _ fun s ov hov => ?_
      exact (returns_openFinal hf hs s ov hov).congr (by simp [hp])
    · have hdd : d = pr * 10 := by
        rcases hk with ⟨-, -, -, hd⟩ | ⟨hsn', -⟩
        · exact hd
        · exact absurd hsn' hsn
      refine returns_ite (fun ha => ?_) fun ha => returns_ite (fun hb => ?_) fun hb => ?_
      · have hpr' := (alpha_isSome hp).mp ha
        split
        · exact returns_fail _
        · refine hput pr _ hp ?_ ?_ <;> rw [hp, Option.getD_some] <;> split_ifs <;> omega
      · split
        · exact returns_fail _
        · have hget : cv.preRelease.getD 0 = pr := by rw [hp, Option.getD_some]
          rw [hget]
          exact hput pr pr hp (by omega) hpr
      · rw [alpha_isSome hp] at ha
        rw [beta_isSome hp] at hb
        omega

end

/-! ### The plans -/

/-- The plan for a release: `rv` is a readable version after that of each package. -/
structure Released (prj p : Project) (rv : StandardVersion) : Prop where
  current : p.packages.map Package.currentVersion = prj.packages.map Package.currentVersion
  release : ∀ k ∈ p.packages, k.releaseVersion = some rv
  snapshot : rv.snapshot = false
  forward : ∀ k ∈ p.packages, rv.cmp k.currentVersion = .gt
  readable : Readable rv

/-- The plan for a revision: each package has a readable version after its own. -/
structure Revised (prj p : Project) : Prop where
  current : p.packages.map Package.currentVersion = prj.packages.map Package.currentVersion
  forward : ∀ k ∈ p.packages, ∃ rv, k.releaseVersion = some rv ∧ rv.cmp k.currentVersion = .gt ∧
    Readable rv

/-- What is opened, if anything, is a readable latest snapshot after `v`. -/
def Opened (p : Project) (v : StandardVersion) : Prop :=
  ∀ ov, p.openVersion = some ov → ov.latestSnapshot = true ∧ ov.cmp v = .gt ∧ Readable ov

/-- A project before it is planned: the packages have the same version but for the revision. -/
structure Unplanned (prj : Project) : Prop where
  release : prj.front.releaseVersion = none
  openVersion : prj.openVersion = none
  readable : ∀ k ∈ prj.packages, Readable k.currentVersion
  same : ∀ k ∈ prj.packages, prj.front.currentVersion.compare k.currentVersion true = .eq

section

variable {o : Options} {prj p : Project} {st : Status}
  {packageVersion : Package → Planner StandardVersion}

theorem version_of_same {x y : StandardVersion} (h : x.compare y true = .eq) :
    x.epoch = y.epoch ∧ x.version = y.version := by
  unfold StandardVersion.compare at h
  split_ifs at h
  omega

/-- A tag does not change the versions. -/
theorem returns_planTag :
    Returns (fun p => p.packages = prj.packages ∧ p.version = prj.version ∧
      p.openVersion = prj.openVersion) (planTag packageVersion o prj st) := by
  refine returns_ite (fun _ => returns_fail _) fun _ => returns_ite (fun _ => returns_fail _)
    fun _ => returns_bind fun v => returns_ite (fun _ => returns_ite (fun _ => returns_fail _)
    fun _ => ?_) fun _ => ?_
  · exact returns_pure ⟨rfl, rfl, rfl⟩
  · exact returns_pure ⟨rfl, rfl, rfl⟩

theorem returns_planOpen (h : Readable prj.version) :
    Returns (fun p => p.packages = prj.packages ∧ ∃ ov, p.openVersion = some ov ∧
      OpenedAfter prj.version (Opens o (prj.version.preRelease = none)
        (joined prj.version.major prj.version.minor prj.version.patch)) ov)
      (planOpen o prj st) :=
  returns_ite (fun _ => returns_fail _) fun _ => (returns_nextOpen h).bind fun ov hov =>
    returns_pure ⟨rfl, ov, rfl, hov⟩

/-- A version after the current one is after that of each package. -/
theorem released_of_advances {t : ℕ} {final : Prop} {rv : StandardVersion} (h : Unplanned prj)
    (hrv : Advances prj.front.currentVersion t final rv)
    (hp : p.packages = prj.packages.map (Package.release rv)) : Released prj p rv := by
  have hcur : ∀ k, (Package.release rv k).currentVersion = k.currentVersion := fun _ => rfl
  refine ⟨by simp [hp, Function.comp_def, hcur], fun k hk => ?_, hrv.snapshot, fun k hk => ?_,
    hrv.readable⟩
  · rw [hp] at hk
    obtain ⟨k, -, rfl⟩ := List.mem_map.mp hk
    rfl
  · rw [hp] at hk
    obtain ⟨k, hmem, rfl⟩ := List.mem_map.mp hk
    obtain ⟨he, hn⟩ := version_of_same (h.same k hmem)
    have hlt := hrv.lt
    exact cmp_eq_gt.mpr (Or.inr ⟨hrv.epoch.trans he, Or.inl (hn ▸ hlt)⟩)

theorem returns_planVersion (h : Unplanned prj) :
    Returns (fun p => ∃ rv, Advances prj.front.currentVersion
        (releaseTriple o prj.front.currentVersion) (ReleasesFinal o prj.front.currentVersion) rv ∧
      p.packages = prj.packages.map (Package.release rv) ∧
      if o.noCommit ∨ o.noOpen then p.openVersion = none
      else ∃ ov, p.openVersion = some ov ∧ OpenedAfter rv
        (Opens o (rv.preRelease = none) (joined rv.major rv.minor rv.patch)) ov)
      (planVersion packageVersion o prj st) := by
  have hcv := h.readable prj.front (by simp [Project.packages])
  refine returns_ite (fun _ => returns_fail _) fun _ =>
    (returns_nextRelease hcv).bind fun rv hrv => ?_
  refine returns_ite (fun hnc => returns_pure ⟨rv, hrv, rfl, ?_⟩) fun hnc => ?_
  · rw [if_pos (Or.inl hnc)]
    exact h.openVersion
  · let prj' : Project :=
      { prj with front := prj.front.release rv, others := prj.others.map (·.release rv) }
    have htag : Returns
        (fun p => p.packages = prj'.packages ∧ p.version = rv ∧ p.openVersion = none)
        (if o.noTag then pure prj' else planTag packageVersion o prj' st) := by
      refine returns_ite (fun _ => returns_pure ⟨rfl, rfl, h.openVersion⟩) fun _ s p hp => ?_
      obtain ⟨h1, h2, h3⟩ := returns_planTag s p hp
      exact ⟨h1, h2, h3.trans h.openVersion⟩
    refine htag.bind fun p hp => ?_
    obtain ⟨hpk, hver, hopen⟩ := hp
    refine returns_ite (fun hno => returns_pure ⟨rv, hrv, hpk, ?_⟩) fun hno s q hq => ?_
    · rw [if_pos (Or.inr hno)]
      exact hopen
    · obtain ⟨hqk, ov, hov, hafter⟩ := returns_planOpen (hver ▸ hrv.readable) s q hq
      rw [hver] at hafter
      refine ⟨rv, hrv, hqk.trans hpk, ?_⟩
      rw [if_neg (not_or.mpr ⟨hnc, hno⟩)]
      exact ⟨ov, hov, hafter⟩

theorem returns_planRevision :
    Returns (fun p => p.packages = prj.packages.map Package.revise)
      (planRevision packageVersion o prj st) := by
  refine returns_ite (fun _ => returns_fail _) fun _ => returns_ite (fun _ => returns_fail _)
    fun _ => returns_ite (fun _ => returns_fail _) fun _ => returns_ite (fun _ => returns_pure rfl)
    fun _ => returns_ite (fun _ => returns_pure rfl) fun _ s p hp => ?_
  exact (returns_planTag s p hp).1

theorem revise_iff {v : StandardVersion} (h : Readable v) :
    Readable { v with revision := (v.revision + 1) % 2 ^ 16 } ∧
      (StandardVersion.cmp { v with revision := (v.revision + 1) % 2 ^ 16 } v = .gt ↔
        v.revision < 65535) := by
  obtain ⟨c, hc, he, hne, rfl⟩ := readable_iff.mp h
  have hr := hc.revision
  have hrev : c.toVersion.revision = c.revision := rfl
  constructor
  · have hlt : (c.revision + 1) % 2 ^ 16 ≤ 65535 := by omega
    exact readable_iff.mpr ⟨{ c with revision := (c.revision + 1) % 2 ^ 16 },
      ⟨hc.epoch, hc.major, hc.minor, hc.patch, hc.joined, hc.pre, hlt⟩, he, hne, rfl⟩
  · rw [cmp_eq_gt, hrev]
    simp only [lt_irrefl, false_or, true_and]
    omega

theorem opened_iff {cv rv : StandardVersion} {t : ℕ} {final : Prop} (hrv : Advances cv t final rv)
    {ov : StandardVersion} (hov : p.openVersion = some ov)
    (h : OpenedAfter rv (Opens o (rv.preRelease = none) (joined rv.major rv.minor rv.patch)) ov) :
    Opened p rv ↔ Opens o final t := by
  have hfinal : (rv.preRelease = none) = final := propext hrv.final
  rw [hrv.triple, hfinal] at h
  refine Iff.trans ⟨fun hp => (hp ov hov).2, fun hp w hw => ?_⟩ h.2
  obtain rfl := Option.some.inj (hov.symm.trans hw)
  exact ⟨h.1, hp⟩

/-- **When planned versions move forward.** A release does unless it opens from a base version
whose numbers are not greater than the released ones or after the last version, and so does opening
after the current version; a revision does unless a package has the last one. -/
theorem plan_iff (packageVersion : Package → Planner StandardVersion) (o : Options)
    (prj p : Project) (st : Status) (errno : Errno) (h : Unplanned prj) :
    ((planVersion packageVersion o prj st).eval errno = .ok p →
      ((∃ rv, Released prj p rv ∧ Opened p rv) ↔ o.noCommit = true ∨ o.noOpen = true ∨
        Opens o (ReleasesFinal o prj.front.currentVersion)
          (releaseTriple o prj.front.currentVersion))) ∧
    ((planRevision packageVersion o prj st).eval errno = .ok p →
      (Revised prj p ↔ ∀ k ∈ prj.packages, k.currentVersion.revision < 65535)) ∧
    ((planOpen o prj st).eval errno = .ok p →
      (p.openVersion.isSome = true ∧ Opened p prj.front.currentVersion ↔
        Opens o (prj.front.currentVersion.preRelease = none) (joined prj.front.currentVersion.major
          prj.front.currentVersion.minor prj.front.currentVersion.patch))) := by
  refine ⟨fun hp => ?_, fun hp => ?_, fun hp => ?_⟩
  · obtain ⟨rv, hrv, hpk, hopen⟩ := returns_planVersion h errno p hp
    have hrel := released_of_advances h hrv hpk
    have huniq : (∃ rv, Released prj p rv ∧ Opened p rv) ↔ Opened p rv := by
      refine ⟨?_, fun ho => ⟨rv, hrel, ho⟩⟩
      rintro ⟨rv', hrel', ho⟩
      have h1 := hrel.release p.front (by simp [Project.packages])
      have h2 := hrel'.release p.front (by simp [Project.packages])
      exact Option.some.inj (h2.symm.trans h1) ▸ ho
    rw [huniq, ← or_assoc]
    by_cases hno : o.noCommit = true ∨ o.noOpen = true
    · rw [if_pos hno] at hopen
      refine ⟨fun _ => Or.inl hno, fun _ ov hov => ?_⟩
      rw [hopen] at hov
      cases hov
    · rw [if_neg hno] at hopen
      obtain ⟨ov, hov, hafter⟩ := hopen
      rw [or_iff_right hno]
      exact opened_iff hrv hov hafter
  · have hpk := returns_planRevision errno p hp
    constructor
    · intro hrev k hk
      have hmem : k.revise ∈ p.packages := hpk ▸ List.mem_map_of_mem hk
      obtain ⟨rv, hrv, hgt, -⟩ := hrev.forward _ hmem
      obtain rfl := Option.some.inj hrv
      exact (revise_iff (h.readable k hk)).2.mp hgt
    · intro hlt
      have hcur : ∀ k, (Package.revise k).currentVersion = k.currentVersion := fun _ => rfl
      refine ⟨by simp [hpk, Function.comp_def, hcur], fun k hk => ?_⟩
      rw [hpk] at hk
      obtain ⟨k, hmem, rfl⟩ := List.mem_map.mp hk
      obtain ⟨hread, hgt⟩ := revise_iff (h.readable k hmem)
      exact ⟨_, rfl, hgt.mpr (hlt k hmem), hread⟩
  · have hver : prj.version = prj.front.currentVersion := by
      simp [Project.version, h.release]
    have hcv := h.readable prj.front (by simp [Project.packages])
    obtain ⟨-, ov, hov, hafter⟩ := returns_planOpen (hver ▸ hcv) errno p hp
    rw [hver] at hafter
    refine Iff.trans ⟨fun hp => (hp.2 ov hov).2, fun hp => ⟨by simp [hov], fun w hw => ?_⟩⟩ hafter.2
    obtain rfl := Option.some.inj (hov.symm.trans hw)
    exact ⟨hafter.1, hp⟩

/-- A project with one package. -/
def single (v : StandardVersion) : Project :=
  { front := { name := str ['p'], currentVersion := v } }

theorem unplanned_single {v : StandardVersion} (h : Readable v)
    (hv : v.compare v true = .eq) : Unplanned (single v) := by
  have hmem : ∀ k ∈ (single v).packages, k.currentVersion = v := by
    intro k hk
    obtain rfl := List.mem_singleton.mp hk
    rfl
  exact ⟨rfl, rfl, fun k hk => (hmem k hk).symm ▸ h, fun k hk => (hmem k hk).symm ▸ hv⟩

/-- No package manifest is looked at. -/
def noManifest (_ : Package) : Planner StandardVersion := Comp.fail .uncommittedChanges

/-- Release `1.2.3` from `1.2.3-a.1` and open `1.2.4-a.0.z`. -/
theorem plan_iff_patch : ∃ p,
    (planVersion noManifest {} (single ⟨1, 100002000020010, 0, [], 0⟩) ⟨false, false⟩).eval .zero =
      .ok p ∧
    ((∃ rv, Released (single ⟨1, 100002000020010, 0, [], 0⟩) p rv ∧ Opened p rv) ↔
      ({} : Options).noCommit = true ∨ ({} : Options).noOpen = true ∨
        Opens {} (ReleasesFinal {} ⟨1, 100002000020010, 0, [], 0⟩)
          (releaseTriple {} ⟨1, 100002000020010, 0, [], 0⟩)) := by
  have hread : Readable ⟨1, 100002000020010, 0, [], 0⟩ :=
    readable_of_parse (s := str ['1', '.', '2', '.', '3', '-', 'a', '.', '1']) (by decide)
  have h := (plan_iff noManifest {} (single ⟨1, 100002000020010, 0, [], 0⟩)
    { front := ⟨str ['p'], ⟨1, 100002000020010, 0, [], 0⟩, some ⟨1, 100002000030000, 0, [], 0⟩⟩
      openVersion := some ⟨1, 100002000030001, latestSn, [], 0⟩
      tag := some (str ['v', '1', '.', '2', '.', '3']) } ⟨false, false⟩ .zero
    (unplanned_single hread (by decide))).1 (by decide)
  exact ⟨_, by decide, h⟩

/-- **Versions that do not move forward.** `--open-base 1.2.3` after `1.2.3-a.1` opens
`1.2.3-a.0.z`, `--open-base +2-1.0.0` after `1.2.3` opens `1.0.0-a.0.z`, `--open-major` after
`99999.0.0` opens what reads as `0.0.0-a.0.z`, and the revision after 65535 is 0. -/
theorem plan_not_forward :
    (Readable ⟨1, 100002000020010, 0, [], 0⟩ ∧
      ((planOpen { openBase := some (str ['1', '.', '2', '.', '3']) }
        (single ⟨1, 100002000020010, 0, [], 0⟩) ⟨false, false⟩).eval .zero).toOption.map
          Project.openVersion = some (some ⟨1, 100002000020001, latestSn, [], 0⟩) ∧
      StandardVersion.cmp ⟨1, 100002000020001, latestSn, [], 0⟩ ⟨1, 100002000020010, 0, [], 0⟩ =
        .lt) ∧
    (Readable ⟨1, 100002000030000, 0, [], 0⟩ ∧
      ((planOpen { openBase := some (str ['+', '2', '-', '1', '.', '0', '.', '0']) }
        (single ⟨1, 100002000030000, 0, [], 0⟩) ⟨false, false⟩).eval .zero).toOption.map
          Project.openVersion = some (some ⟨1, 99999999990001, latestSn, [], 0⟩) ∧
      StandardVersion.cmp ⟨1, 99999999990001, latestSn, [], 0⟩ ⟨1, 100002000030000, 0, [], 0⟩ =
        .lt) ∧
    (Readable ⟨1, 9999900000000000000, 0, [], 0⟩ ∧
      ((planOpen { openMajor := true } (single ⟨1, 9999900000000000000, 0, [], 0⟩)
        ⟨false, false⟩).eval .zero).toOption.map Project.openVersion =
          some (some ⟨1, 9999999999999990001, latestSn, [], 0⟩) ∧
      ¬ Readable ⟨1, 9999999999999990001, latestSn, [], 0⟩) ∧
    Readable ⟨1, 100002000030000, 0, [], 65535⟩ ∧
      ((planRevision noManifest { revision := true } (single ⟨1, 100002000030000, 0, [], 65535⟩)
        ⟨true, false⟩).eval .zero).toOption.map (fun p => p.front.releaseVersion) =
          some (some ⟨1, 100002000030000, 0, [], 0⟩) ∧
      StandardVersion.cmp ⟨1, 100002000030000, 0, [], 0⟩ ⟨1, 100002000030000, 0, [], 65535⟩ =
        .lt := by
  have hlast : ¬ Readable ⟨1, 9999999999999990001, latestSn, [], 0⟩ := by
    have h := (readable_latest_iff (e := 1) (t := 1000000000000000) (by decide) (by decide)
      (show 0 ≤ 999 by decide)).mp
    exact fun hr => absurd (h hr) (lt_irrefl _)
  have h1 : Readable ⟨1, 100002000020010, 0, [], 0⟩ :=
    readable_of_parse (s := str ['1', '.', '2', '.', '3', '-', 'a', '.', '1']) (by decide)
  have h2 : Readable ⟨1, 100002000030000, 0, [], 0⟩ :=
    readable_of_parse (s := str ['1', '.', '2', '.', '3']) (by decide)
  have h3 : Readable ⟨1, 9999900000000000000, 0, [], 0⟩ :=
    readable_of_parse (s := str ['9', '9', '9', '9', '9', '.', '0', '.', '0']) (by decide)
  have h4 : Readable ⟨1, 100002000030000, 0, [], 65535⟩ :=
    readable_of_parse (s := str ['1', '.', '2', '.', '3', '+', '6', '5', '5', '3', '5']) (by decide)
  exact ⟨⟨h1, by decide, by decide⟩, ⟨h2, by decide, by decide⟩, ⟨h3, by decide, hlast⟩, h4,
    by decide, by decide⟩

end

end Build2.Bdep.Release
