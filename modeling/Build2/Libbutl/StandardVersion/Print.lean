import Build2.Libbutl.StandardVersion.Accept

/-! # Printing a version

`string ()` of a version put together from components is their canonical text, which the grammar
spells: parsing it gives the version back. -/

namespace Build2.Libbutl.StandardVersion

open Build2.Lib.ByteString Build2.Lib.Decimal Build2.Lib.Stateful Build2.Lib.Stateful.Comp
  Build2.Libbutl.ParseUint

/-! ### The accessors of a version put together -/

namespace Components.Valid

variable {c : Components}

theorem stub (h : c.Valid) : c.toVersion.stub = false := h.regular.stub

theorem empty (h : c.Valid) : c.toVersion.empty = false := h.regular.empty

theorem mod (h : c.Valid) : c.toVersion.version % 10000 = c.pre.ddde % 10000 := by
  have := h.number_eq
  show c.number % 10000 = _
  omega

theorem release (h : c.Valid) : c.toVersion.release = true ↔ c.pre = .release := by
  have hp := h.pre
  have hd := h.pre.ddde
  simp only [StandardVersion.release, decide_eq_true_eq, h.mod]
  cases hc : c.pre <;> rw [hc] at hp hd <;>
    simp only [Pre.ddde, Pre.Valid, reduceCtorEq, iff_false] at *
  · omega
  · omega

theorem preRelease (h : c.Valid) :
    c.toVersion.preRelease =
      match c.pre with
      | .release => none
      | .earliest => some 0
      | .final n => some n
      | .snapshot n _ _ => some n := by
  have hr := h.release
  have hp := h.pre
  have hm := h.mod
  unfold StandardVersion.preRelease
  rw [h.stub, Bool.or_false]
  cases hc : c.pre with
  | release => rw [if_pos (hr.mpr hc)]
  | earliest =>
    rw [if_neg (by rw [hr, hc]; simp)]
    rw [hc] at hm
    simp only [Pre.ddde] at hm
    rw [Option.some_inj]
    omega
  | final n =>
    rw [if_neg (by rw [hr, hc]; simp)]
    rw [hc] at hm hp
    simp only [Pre.ddde, Pre.Valid] at hm hp
    rw [Option.some_inj]
    omega
  | snapshot n sn id =>
    rw [if_neg (by rw [hr, hc]; simp)]
    rw [hc] at hm hp
    simp only [Pre.ddde, Pre.Valid] at hm hp
    rw [Option.some_inj]
    omega

theorem snapshot (h : c.Valid) :
    c.toVersion.snapshot = true ↔ ∃ n sn id, c.pre = .snapshot n sn id := by
  have hp := h.pre
  show decide (c.pre.sn ≠ 0) = true ↔ _
  rw [decide_eq_true_iff]
  cases hc : c.pre with
  | snapshot n sn id =>
    rw [hc] at hp
    simp only [Pre.sn, Pre.snapshot.injEq]
    exact ⟨fun _ => ⟨n, sn, id, rfl, rfl, rfl⟩, fun _ => Nat.one_le_iff_ne_zero.mp hp.2.pos⟩
  | _ => simp [Pre.sn]

theorem earliest (h : c.Valid) : c.toVersion.earliest = true ↔ c.pre = .earliest := by
  have hp := h.pre
  have hs := h.snapshot
  simp only [StandardVersion.earliest, h.stub, h.mod, Bool.not_false, Bool.and_true,
    Bool.and_eq_true, decide_eq_true_eq, Bool.not_eq_true']
  cases hc : c.pre with
  | snapshot n sn id =>
    have : c.toVersion.snapshot = true := hs.mpr ⟨n, sn, id, hc⟩
    simp [this]
  | earliest =>
    have : ¬ c.toVersion.snapshot = true := by rw [hs, hc]; rintro ⟨n, sn, id, h⟩; cases h
    simp [this, Pre.ddde]
  | release => simp [Pre.ddde]
  | final n =>
    rw [hc] at hp
    simp only [Pre.ddde, Pre.Valid] at hp ⊢
    refine ⟨fun h => ?_, fun h => by cases h⟩
    omega

end Components.Valid

/-! ### The canonical text -/

/-- A pre-release letter and number. -/
def letterNumber (n : ℕ) : Bytes :=
  if n < 500 then str ['a', '.'] ++ decimal n else str ['b', '.'] ++ decimal (n - 500)

/-- A snapshot number and id. -/
def snapshotText (sn : ℕ) (id : Bytes) : Bytes :=
  (if sn = latestSn then str ['z'] else decimal sn) ++ if id ≠ [] then str ['.'] ++ id else []

/-- The canonical text of a pre-release part. -/
def Pre.text : Pre → Bytes
  | release => []
  | earliest => str ['-']
  | final n => str ['-'] ++ letterNumber n
  | snapshot n sn id => str ['-'] ++ letterNumber n ++ str ['.'] ++ snapshotText sn id

/-- The canonical text of an epoch. -/
def epochText (e : ℕ) : Bytes := if e ≠ 1 then str ['+'] ++ decimal e ++ str ['-'] else []

/-- The canonical text of a revision. -/
def revisionText (r : ℕ) : Bytes := if r ≠ 0 then str ['+'] ++ decimal r else []

/-- The canonical text of a version. -/
def Components.text (c : Components) : Bytes :=
  epochText c.epoch ++ (decimal c.major ++ ch '.' :: (decimal c.minor ++ ch '.' ::
    (decimal c.patch ++ (c.pre.text ++ revisionText c.revision))))

/-! ### Printing -/

section

variable {v : StandardVersion}

theorem alpha_or_beta (v : StandardVersion) :
    (v.alpha.isSome || v.beta.isSome) = v.preRelease.isSome := by
  unfold alpha beta
  cases v.preRelease with
  | none => rfl
  | some n =>
    simp only [Option.isSome_some]
    split_ifs <;> simp
    omega

theorem stringPreRelease_some {n : ℕ} (h : v.preRelease = some n) (he : v.earliest = false) :
    v.stringPreRelease = letterNumber n := by
  have hn : v.version / 10 % 1000 = n := by
    unfold preRelease at h
    split_ifs at h
    simpa using h
  have hs := alpha_or_beta v
  rw [h, Option.isSome_some] at hs
  unfold stringPreRelease letterNumber
  rw [he, Bool.not_false, Bool.and_true, hs, if_pos rfl, hn]

theorem stringPreRelease_earliest (h : v.preRelease = some 0) (he : v.earliest = true) :
    v.stringPreRelease = [] := by
  simp [stringPreRelease, beta, h, he]

theorem stringVersion_release (h1 : v.empty = false) (h2 : v.stub = false)
    (h : v.preRelease = none) :
    v.stringVersion = decimal v.major ++
      ch '.' :: (decimal v.minor ++ ch '.' :: decimal v.patch) := by
  simp [stringVersion, alpha_or_beta, h, h1, h2, str]

theorem stringVersion_some {n : ℕ} (h1 : v.empty = false) (h2 : v.stub = false)
    (h : v.preRelease = some n) :
    v.stringVersion = decimal v.major ++ ch '.' :: (decimal v.minor ++ ch '.' :: (decimal v.patch ++
      ch '-' :: (v.stringPreRelease ++ if v.snapshot then [ch '.'] else []))) := by
  simp [stringVersion, alpha_or_beta, h, h1, h2, str]

theorem stringSnapshot_eq (h : v.snapshot = true) :
    v.stringSnapshot = snapshotText v.snapshotSn v.snapshotId := by
  simp [stringSnapshot, snapshotText, h]

theorem string_eq (h : v.stub = false) :
    v.string = epochText v.epoch ++ (v.stringVersion ++
      ((if v.snapshot then v.stringSnapshot else []) ++ revisionText v.revision)) := by
  simp [string, stringProject, epochText, revisionText, h]

end

/-- **A version prints as the canonical text of its components.** -/
theorem Components.Valid.string_eq {c : Components} (h : c.Valid) :
    c.toVersion.string = c.text := by
  obtain ⟨h1, h2, h3⟩ := h.decode
  have hp := h.preRelease
  have he := h.earliest
  have hs := h.snapshot
  rw [StandardVersion.string_eq h.stub]
  unfold Components.text
  have hsn : c.toVersion.snapshotSn = c.pre.sn := rfl
  have hid : c.toVersion.snapshotId = c.pre.id := rfl
  have hep : c.toVersion.epoch = c.epoch := rfl
  have hrev : c.toVersion.revision = c.revision := rfl
  rw [hep, hrev]
  cases hc : c.pre with
  | release =>
    rw [hc] at hp hs
    have hs' : c.toVersion.snapshot = false := by simpa using hs
    simp [stringVersion_release h.empty h.stub hp, h1, h2, h3, hs', Pre.text]
  | earliest =>
    rw [hc] at hp he hs
    have hs' : c.toVersion.snapshot = false := by simpa using hs
    simp [stringVersion_some h.empty h.stub hp, stringPreRelease_earliest hp (he.mpr rfl),
      h1, h2, h3, hs', Pre.text, str]
  | final n =>
    rw [hc] at hp he hs
    have hs' : c.toVersion.snapshot = false := by simpa using hs
    have he' : c.toVersion.earliest = false := by simpa using he
    simp [stringVersion_some h.empty h.stub hp, stringPreRelease_some hp he',
      h1, h2, h3, hs', Pre.text, str]
  | snapshot n sn id =>
    rw [hc] at hp he hs
    have hs' : c.toVersion.snapshot = true := hs.mpr ⟨n, sn, id, rfl⟩
    have he' : c.toVersion.earliest = false := by simpa using he
    simp [stringVersion_some h.empty h.stub hp, stringPreRelease_some hp he',
      stringSnapshot_eq hs', hsn, hid, hc, h1, h2, h3, hs', Pre.text, Pre.sn, Pre.id, str]

/-! ### Parsing the canonical text -/

/-- The lexicon of canonical texts. -/
def canonical : Lexicon where
  number t n := t = decimal n
  snapshot t n := t = decimal n ∧ 1 ≤ n ∧ n < latestSn
  zero t := t = [ch '0']

theorem isLetter_a : IsLetter (ch 'a') := Or.inl rfl

theorem isLetter_b : IsLetter (ch 'b') := Or.inr rfl

theorem Pre.ValidSnapshot.spells {sn : ℕ} {id : Bytes} (h : ValidSnapshot sn id) :
    SnapshotText canonical sn id (snapshotText sn id) := by
  unfold snapshotText
  by_cases hl : sn = latestSn
  · subst hl
    obtain rfl := h.latest rfl
    simpa [str] using SnapshotText.latest
  · have hsn : canonical.snapshot (decimal sn) sn := ⟨rfl, h.pos, lt_of_le_of_ne h.le hl⟩
    rw [if_neg hl]
    by_cases hid : id = []
    · subst hid
      simpa using SnapshotText.number hsn
    · rw [if_pos hid]
      exact .withId hsn hid h.length h.alnum

theorem letterNumber_spells {n : ℕ} (h : n ≤ 999) :
    ∃ k m, IsLetter k ∧ ddd k m = n ∧ m ≤ 499 ∧ letterNumber n = k :: ch '.' :: decimal m := by
  unfold letterNumber
  by_cases hn : n < 500
  · exact ⟨ch 'a', n, isLetter_a, by simp [ddd]; decide, by omega, by simp [hn, str]⟩
  · exact ⟨ch 'b', n - 500, isLetter_b, by simp [ddd]; omega, by omega, by simp [hn, str]⟩

theorem Pre.Valid.spells {p : Pre} {f : Flags} (h : p.Valid)
    (hf : p = .earliest → f.allowEarliest = true) : PreText canonical f p p.text := by
  cases p with
  | release => exact .release
  | earliest => exact .earliest (hf rfl)
  | final n =>
    obtain ⟨h1, h2, h3⟩ := h
    obtain ⟨k, m, hk, rfl, hm, ht⟩ := letterNumber_spells h3
    have hm0 : m ≠ 0 := fun h0 => by
      have := (ddd_ne (k := k) hm).mpr h0
      omega
    rw [Pre.text, ht]
    exact .final hk rfl (by omega) hm
  | snapshot n sn id =>
    obtain ⟨h1, h2⟩ := h
    obtain ⟨k, m, hk, rfl, hm, ht⟩ := letterNumber_spells h1
    rw [Pre.text, ht]
    simpa [str] using PreText.snapshot hk rfl hm h2.spells

theorem revisionText_spells {r : ℕ} (h : r ≤ 65535) :
    RevisionText canonical.number r (revisionText r) := by
  unfold revisionText
  by_cases hr : r = 0
  · subst hr
    exact .absent
  · rw [if_pos hr]
    exact .given rfl (by omega) h

theorem epochText_spells {e : ℕ} (h1 : 1 ≤ e) (h2 : e ≤ 65535) :
    EpochText canonical.number e (epochText e) := by
  unfold epochText
  by_cases he : e = 1
  · subst he
    exact .absent
  · rw [if_pos he]
    exact .given rfl h1 h2

/-- **The canonical text spells the version.** -/
theorem Components.Valid.spells {c : Components} {f : Flags} (h : c.Valid) (he : 1 ≤ c.epoch)
    (hf : c.pre = .earliest → f.allowEarliest = true ∧ c.revision = 0) :
    Spells canonical f c.toVersion c.text :=
  .normal ⟨epochText_spells he h.epoch, ⟨rfl, h.major⟩, ⟨rfl, h.minor⟩, ⟨rfl, h.patch⟩, h.joined,
    h.pre.spells fun hp => (hf hp).1, revisionText_spells h.revision, fun hp => by
      simp [revisionText, (hf hp).2]⟩

theorem stub_string {v : StandardVersion} (h : v.stub = true) (hs : v.snapshotSn = 0) :
    v.string = ch '0' :: revisionText v.revision := by
  have he : v.empty = false := by
    simp only [StandardVersion.stub, decide_eq_true_eq] at h
    simp [StandardVersion.empty, h, stubVersion]
  simp [string, stringProject, stringVersion, revisionText, snapshot, h, hs, he, str]

/-! ### Lexicons -/

/-- One lexicon has every text of another whose bytes satisfy `p`. -/
structure Lexicon.LeOn (p : UInt8 → Prop) (L M : Lexicon) : Prop where
  number : ∀ {t n}, (∀ b ∈ t, p b) → n ≤ 99999 → L.number t n → M.number t n
  snapshot : ∀ {t n}, (∀ b ∈ t, p b) → L.snapshot t n → M.snapshot t n
  zero : ∀ {t}, (∀ b ∈ t, p b) → L.zero t → M.zero t

section

variable {p : UInt8 → Prop} {L M : Lexicon} {f : Flags}

theorem SnapshotText.mono (h : L.LeOn p M) {sn : ℕ} {id t : Bytes} (ht : SnapshotText L sn id t)
    (hp : ∀ b ∈ t, p b) : SnapshotText M sn id t := by
  cases ht with
  | latest => exact .latest
  | number hn => exact .number (h.snapshot hp hn)
  | withId hn hne hlen hid =>
    exact .withId (h.snapshot (fun b hb => hp b (by simp [hb])) hn) hne hlen hid

theorem PreText.mono (h : L.LeOn p M) {q : Pre} {t : Bytes} (ht : PreText L f q t)
    (hp : ∀ b ∈ t, p b) : PreText M f q t := by
  cases ht with
  | release => exact .release
  | earliest hf => exact .earliest hf
  | final hk hn h1 h2 =>
    exact .final hk (h.number (fun b hb => hp b (by simp [hb])) (by omega) hn) h1 h2
  | snapshot hk hn h2 hu =>
    exact .snapshot hk (h.number (fun b hb => hp b (by simp [hb])) (by omega) hn) h2
      (hu.mono h fun b hb => hp b (by simp [hb]))

theorem RevisionText.mono (h : L.LeOn p M) {r : ℕ} {t : Bytes} (ht : RevisionText L.number r t)
    (hp : ∀ b ∈ t, p b) : RevisionText M.number r t := by
  cases ht with
  | absent => exact .absent
  | given hn h1 h2 =>
    exact .given (h.number (fun b hb => hp b (by simp [hb])) (by omega) hn) h1 h2

theorem EpochText.mono (h : L.LeOn p M) {e : ℕ} {t : Bytes} (ht : EpochText L.number e t)
    (hp : ∀ b ∈ t, p b) : EpochText M.number e t := by
  cases ht with
  | absent => exact .absent
  | given hn h1 h2 =>
    exact .given (h.number (fun b hb => hp b (by simp [hb])) (by omega) hn) h1 h2

theorem NormalText.mono (h : L.LeOn p M) {c : Components} {ep ma mi bf pre rev : Bytes}
    (ht : NormalText L f c ep ma mi bf pre rev)
    (hp : ∀ b ∈ ep ++ (ma ++ ch '.' :: (mi ++ ch '.' :: (bf ++ (pre ++ rev)))), p b) :
    NormalText M f c ep ma mi bf pre rev where
  epoch := EpochText.mono h ht.epoch fun b hb => hp b (by simp [hb])
  major := ⟨h.number (fun b hb => hp b (by simp [hb])) ht.major.2 ht.major.1, ht.major.2⟩
  minor := ⟨h.number (fun b hb => hp b (by simp [hb])) ht.minor.2 ht.minor.1, ht.minor.2⟩
  patch := ⟨h.number (fun b hb => hp b (by simp [hb])) ht.patch.2 ht.patch.1, ht.patch.2⟩
  joined := ht.joined
  pre := ht.pre.mono h fun b hb => hp b (by simp [hb])
  revision := RevisionText.mono h ht.revision fun b hb => hp b (by simp [hb])
  earliest := ht.earliest

/-- **A text of one lexicon is a text of a larger one.** -/
theorem Spells.mono (h : L.LeOn p M) {v : StandardVersion} {s : Bytes} (hs : Spells L f v s)
    (hp : ∀ b ∈ s, p b) : Spells M f v s := by
  cases hs with
  | stub hf hz hr =>
    exact .stub hf (h.zero (fun b hb => hp b (by simp [hb])) hz)
      (RevisionText.mono h hr fun b hb => hp b (by simp [hb]))
  | normal ht => exact .normal (ht.mono h hp)

end

theorem canonical_le_scanned : canonical.LeOn (fun _ => True) scanned where
  number _ hn h := h ▸ (number_decimal _).lax (by omega)
  snapshot _ h :=
    ⟨h.1 ▸ (number_decimal _).lax (by have := h.2.2; unfold latestSn at this; omega), h.2⟩
  zero _ h := h ▸ (number_decimal 0).lax (by omega)

/-! ### The round trip -/

theorem Spells.cases {f : Flags} {v : StandardVersion} {s : Bytes} (h : Spells scanned f v s) :
    (f.allowStub = true ∧ ∃ r ≤ 65535, v = { epoch := 0, version := stubVersion, revision := r }) ∨
      ∃ c : Components, c.Valid ∧ 1 ≤ c.epoch ∧ v = c.toVersion ∧
        (c.pre = .earliest → f.allowEarliest = true ∧ c.revision = 0) := by
  cases h with
  | stub hf hz hr => exact Or.inl ⟨hf, _, hr.valid, rfl⟩
  | @normal c ep ma mi bf pre rev h =>
    refine Or.inr ⟨c, h.valid, h.epoch.valid.1, rfl, fun hc => ⟨h.allowEarliest hc, ?_⟩⟩
    have hr := h.revision
    rw [h.earliest hc] at hr
    cases hr' : c.revision with
    | zero => rfl
    | succ n => rw [hr'] at hr; cases hr

/-- Printing and parsing a parsed version gives it back. -/
theorem parse_string {f : Flags} {v : StandardVersion} {s : Bytes}
    (h : fresh (parseVersion s f) = .ok v) : fresh (parseVersion v.string f) = .ok v := by
  rw [parseVersion_eq_ok] at h ⊢
  refine Spells.mono canonical_le_scanned ?_ fun _ _ => trivial
  rcases h.cases with ⟨hf, r, hr, rfl⟩ | ⟨c, hc, he, rfl, hf⟩
  · rw [stub_string rfl rfl]
    exact .stub hf rfl (revisionText_spells hr)
  · rw [hc.string_eq]
    exact hc.spells he hf

end Build2.Libbutl.StandardVersion
