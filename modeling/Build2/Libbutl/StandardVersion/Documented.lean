import Build2.Libbutl.StandardVersion.Construct

/-! # The documented grammar

The documented grammar has runs of digits for numbers, snapshot numbers of at most sixteen digits
and the stub `0`. The parser accepts all of it, and also texts with white space and signs in front
of numbers, with longer snapshot numbers and with a stub of several zeros. -/

namespace Build2.Libbutl.StandardVersion

open Build2.Lib.ByteString Build2.Lib.Decimal Build2.Lib.Stateful Build2.Lib.Stateful.Comp
  Build2.Libbutl.ParseUint

/-- The documented lexicon. -/
def documented : Lexicon where
  number := Number
  snapshot t n := Number t n ∧ 1 ≤ n ∧ t.length ≤ 16
  zero t := t = [ch '0']

/-- The lexicon of the scanner without white space and signs. -/
def digits : Lexicon where
  number := Number
  snapshot t n := Number t n ∧ 1 ≤ n ∧ n < latestSn
  zero t := Number t 0

/-- What follows the `n`-th dot. -/
def afterDots : ℕ → Bytes → Bytes
  | 0, s => s
  | n + 1, s => afterDots n (s.dropWhile fun b => b ≠ ch '.').tail

/-- The digits after the fourth dot, where the snapshot number stands. -/
def snapshotDigits (s : Bytes) : Bytes := (afterDots 4 s).takeWhile isDigit

/-- A byte that is a zero. -/
def isZero (b : UInt8) : Bool := b = ch '0'

/-- Several zeros and the end or a revision. -/
def SeveralZeros (s : Bytes) : Prop :=
  2 ≤ (s.takeWhile isZero).length ∧ Closed (s.dropWhile isZero)

/-- A byte that is not white space. -/
def Solid (b : UInt8) : Prop := isSpace b = false

/-! ### Comparing the lexicons -/

theorem scanned_le_digits : scanned.LeOn Solid digits where
  number ht _ h := h.number ht
  snapshot ht h := ⟨h.1.number ht, h.2⟩
  zero ht h := h.number ht

theorem digits_le_scanned : digits.LeOn (fun _ => True) scanned where
  number _ hn h := h.lax (by omega)
  snapshot _ h := ⟨h.1.lax (by have := h.2.2; unfold latestSn at this; omega), h.2⟩
  zero _ h := h.lax (by omega)

theorem documented_le_digits : documented.LeOn (fun _ => True) digits where
  number _ _ h := h
  snapshot {t n} _ h := by
    refine ⟨h.1, h.2.1, ?_⟩
    have h1 := value_lt h.1.1.2
    have h2 : 10 ^ t.length ≤ 10 ^ 16 := Nat.pow_le_pow_right (by omega) h.2.2
    rw [h.1.2] at h1
    unfold latestSn
    omega
  zero _ h := by
    rw [h]
    exact number_decimal 0

theorem Spells.digits {f : Flags} {v : StandardVersion} {s : Bytes} (h : Spells scanned f v s)
    (hs : ∀ b ∈ s, Solid b) : Spells digits f v s :=
  h.mono scanned_le_digits hs

/-! ### The bytes of a text -/

/-- The texts of a lexicon, alphanumeric characters and the separators are within a class. -/
structure Lexicon.Within (L : Lexicon) (p : UInt8 → Prop) : Prop where
  number : ∀ {t n}, L.number t n → ∀ b ∈ t, p b
  snapshot : ∀ {t n}, L.snapshot t n → ∀ b ∈ t, p b
  zero : ∀ {t}, L.zero t → ∀ b ∈ t, p b
  alnum : ∀ {b}, isAlnum b = true → p b
  plus : p (ch '+')
  dash : p (ch '-')
  dot : p (ch '.')

section

variable {f : Flags} {L : Lexicon} {p : UInt8 → Prop}

theorem SnapshotText.within (hL : L.Within p) {sn : ℕ} {id t : Bytes}
    (h : SnapshotText L sn id t) : ∀ b ∈ t, p b := by
  cases h with
  | latest => simpa using hL.alnum (show isAlnum (ch 'z') = true by decide)
  | number hn => exact hL.snapshot hn
  | withId hn hne hlen hid =>
    rw [List.forall_mem_append, List.forall_mem_cons]
    exact ⟨hL.snapshot hn, hL.dot, fun b hb => hL.alnum (hid b hb)⟩

theorem IsLetter.isAlnum {k : UInt8} (h : IsLetter k) : isAlnum k = true := by
  rcases h with rfl | rfl <;> decide

theorem PreText.within (hL : L.Within p) {q : Pre} {t : Bytes} (h : PreText L f q t) :
    ∀ b ∈ t, p b := by
  cases h with
  | release => simp
  | earliest => simpa using hL.dash
  | final hk hn =>
    simp only [List.forall_mem_cons]
    exact ⟨hL.dash, hL.alnum hk.isAlnum, hL.dot, hL.number hn⟩
  | snapshot hk hn h2 hu =>
    simp only [List.forall_mem_cons, List.forall_mem_append]
    exact ⟨hL.dash, hL.alnum hk.isAlnum, hL.dot, hL.number hn, hL.dot, hu.within hL⟩

theorem RevisionText.within (hL : L.Within p) {r : ℕ} {t : Bytes}
    (h : RevisionText L.number r t) : ∀ b ∈ t, p b := by
  cases h with
  | absent => simp
  | given hn =>
    simp only [List.forall_mem_cons]
    exact ⟨hL.plus, hL.number hn⟩

theorem EpochText.within (hL : L.Within p) {e : ℕ} {t : Bytes} (h : EpochText L.number e t) :
    ∀ b ∈ t, p b := by
  cases h with
  | absent => simp
  | given hn =>
    simp only [List.forall_mem_cons, List.forall_mem_append]
    exact ⟨hL.plus, hL.number hn, hL.dash, by simp⟩

/-- **The bytes of a version string** are those of its numbers, alphanumeric or separators. -/
theorem Spells.within (hL : L.Within p) {v : StandardVersion} {s : Bytes} (h : Spells L f v s) :
    ∀ b ∈ s, p b := by
  cases h with
  | stub hf hz hr =>
    rw [List.forall_mem_append]
    exact ⟨hL.zero hz, RevisionText.within hL hr⟩
  | normal h =>
    simp only [List.forall_mem_append, List.forall_mem_cons]
    exact ⟨EpochText.within hL h.epoch, hL.number h.major.1, hL.dot, hL.number h.minor.1, hL.dot,
      hL.number h.patch.1, h.pre.within hL, RevisionText.within hL h.revision⟩

theorem digits_within_solid : digits.Within Solid where
  number h := Number.solid h
  snapshot h := Number.solid h.1
  zero h := Number.solid h
  alnum h := isSpace_of_isAlnum h
  plus := by unfold Solid; decide
  dash := by unfold Solid; decide
  dot := by unfold Solid; decide

theorem Spells.solid {v : StandardVersion} {s : Bytes} (h : Spells StandardVersion.digits f v s) :
    ∀ b ∈ s, Solid b := h.within digits_within_solid

theorem LaxNumber.ne_nul {t : Bytes} {n : ℕ} (h : LaxNumber t n) : ∀ b ∈ t, b ≠ 0 := by
  obtain ⟨sp, sg, ds, rfl, hsp, hsg, hds, -, -⟩ := h
  intro b hb
  simp only [List.mem_append] at hb
  rcases hb with hb | hb | hb
  · exact ne_of_class (hsp b hb) (by decide)
  · rcases hsg with rfl | ⟨-, h⟩
    · cases hb
    · obtain ⟨c, rfl, hc⟩ := isSign_sign h
      rw [List.mem_singleton.mp hb]
      exact ne_of_class hc (by decide)
  · exact ne_of_class (hds.2 b hb) (by decide)

theorem scanned_within_ne_nul : scanned.Within (· ≠ 0) where
  number h := LaxNumber.ne_nul h
  snapshot h := LaxNumber.ne_nul h.1
  zero h := LaxNumber.ne_nul h
  alnum h := ne_of_class h (by decide)
  plus := by decide
  dash := by decide
  dot := by decide

end

/-! ### Where the snapshot number stands -/

/-- A text without a dot. -/
def NoDot (t : Bytes) : Prop := ∀ b ∈ t, b ≠ ch '.'

theorem afterDots_dot {t : Bytes} (ht : NoDot t) (n : ℕ) (r : Bytes) :
    afterDots (n + 1) (t ++ ch '.' :: r) = afterDots n r := by
  rw [afterDots, dropWhile_run (fun b hb => by simpa using ht b hb) (by simp)]
  rfl

theorem afterDots_noDot {t : Bytes} (ht : NoDot t) : ∀ n, afterDots (n + 1) t = []
  | 0 => by
    have := dropWhile_run (t := []) (fun b hb => by simpa using ht b hb : ∀ b ∈ t,
      decide (b ≠ ch '.') = true) (by simp)
    rw [afterDots, afterDots, ← List.append_nil t, this]
    rfl
  | n + 1 => by
    have := dropWhile_run (t := []) (fun b hb => by simpa using ht b hb : ∀ b ∈ t,
      decide (b ≠ ch '.') = true) (by simp)
    rw [afterDots, ← List.append_nil t, this]
    exact afterDots_noDot (by simp [NoDot]) n

theorem noDot_number {t : Bytes} {n : ℕ} (h : Number t n) : NoDot t := fun b hb =>
  ne_of_class (h.1.2 b hb) (by decide)

theorem RevisionText.noDot {r : ℕ} {t : Bytes} (h : RevisionText Number r t) :
    NoDot t := by
  have hp : ch '+' ≠ ch '.' := by decide
  unfold NoDot
  cases h with
  | absent => simp
  | given hn =>
    simp only [List.forall_mem_cons]
    exact ⟨hp, noDot_number hn⟩

theorem EpochText.noDot {e : ℕ} {t : Bytes} (h : EpochText Number e t) :
    NoDot t := by
  have hp : ch '+' ≠ ch '.' := by decide
  have hm : ch '-' ≠ ch '.' := by decide
  unfold NoDot
  cases h with
  | absent => simp
  | given hn =>
    simp only [List.forall_mem_cons, List.forall_mem_append]
    exact ⟨hp, noDot_number hn, hm, by simp⟩

theorem NoDot.append {s t : Bytes} (hs : NoDot s) (ht : NoDot t) : NoDot (s ++ t) :=
  List.forall_mem_append.mpr ⟨hs, ht⟩

theorem IsLetter.noDot {k : UInt8} (h : IsLetter k) : NoDot [ch '-', k] := by
  unfold NoDot
  rcases h with rfl | rfl <;> simp <;> decide

section

variable {f : Flags} {bf rev : Bytes}

theorem afterDots_final {k : UInt8} {t : Bytes} {n : ℕ} (hbf : NoDot bf) (hrev : NoDot rev)
    (hk : IsLetter k) (ht : Number t n) :
    afterDots 2 (bf ++ (ch '-' :: k :: ch '.' :: t ++ rev)) = [] := by
  have h := afterDots_dot (hbf.append hk.noDot) 1 (t ++ rev)
  rw [List.append_assoc] at h
  exact h.trans (afterDots_noDot ((noDot_number ht).append hrev) 0)

theorem afterDots_snapshot {k : UInt8} {t u : Bytes} {n : ℕ} (hbf : NoDot bf)
    (hk : IsLetter k) (ht : Number t n) :
    afterDots 2 (bf ++ (ch '-' :: k :: ch '.' :: (t ++ ch '.' :: u) ++ rev)) = u ++ rev := by
  have h := afterDots_dot (hbf.append hk.noDot) 1 (t ++ ch '.' :: (u ++ rev))
  have h' := afterDots_dot (noDot_number ht) 0 (u ++ rev)
  rw [List.append_assoc] at h
  simpa [afterDots] using h.trans h'

/-- A documented snapshot number has at most sixteen digits. -/
theorem SnapshotText.documented_iff {sn : ℕ} {id u : Bytes}
    (h : SnapshotText StandardVersion.digits sn id u) (hr : Closed rev) :
    SnapshotText documented sn id u ↔ ((u ++ rev).takeWhile isDigit).length ≤ 16 := by
  have hz : isDigit (ch 'z') = false := by decide
  have hdot : ∀ id : Bytes, Stops isDigit (ch '.' :: id ++ rev) := fun id =>
    stops_cons.mpr (by decide)
  constructor
  · intro hd
    cases hd with
    | latest => simp [hz]
    | number hn => rw [takeWhile_run hn.1.1.2 (hr.stops (by decide))]; exact hn.2.2
    | withId hn => rw [List.append_assoc, takeWhile_run hn.1.1.2 (hdot _)]; exact hn.2.2
  · intro hlen
    cases h with
    | latest => exact .latest
    | number hn =>
      rw [takeWhile_run hn.1.1.2 (hr.stops (by decide))] at hlen
      exact .number ⟨hn.1, hn.2.1, hlen⟩
    | withId hn hne hl hid =>
      rw [List.append_assoc, takeWhile_run hn.1.1.2 (hdot _)] at hlen
      exact .withId ⟨hn.1, hn.2.1, hlen⟩ hne hl hid

theorem PreText.documented_iff {p : Pre} {pre : Bytes} (hbf : NoDot bf) (hrev : NoDot rev)
    (hr : Closed rev) (h : PreText StandardVersion.digits f p pre) :
    PreText documented f p pre ↔
      ((afterDots 2 (bf ++ (pre ++ rev))).takeWhile isDigit).length ≤ 16 := by
  have hm : NoDot [ch '-'] := by
    unfold NoDot
    simp
    decide
  cases h with
  | release =>
    rw [List.nil_append, afterDots_noDot (hbf.append hrev)]
    exact ⟨fun _ => by simp, fun _ => .release⟩
  | earliest hf =>
    rw [afterDots_noDot (hbf.append (hm.append hrev))]
    exact ⟨fun _ => by simp, fun _ => .earliest hf⟩
  | final hk hn h1 h2 =>
    rw [afterDots_final hbf hrev hk hn]
    exact ⟨fun _ => by simp, fun _ => .final hk hn h1 h2⟩
  | @snapshot k t u id n sn hk hn h2 hu =>
    rw [afterDots_snapshot hbf hk hn, ← hu.documented_iff hr]
    refine ⟨fun hd => ?_, fun hu => .snapshot hk hn h2 hu⟩
    -- another derivation puts its snapshot after the same dot
    have hsplit : afterDots 2 (bf ++ (ch '-' :: k :: ch '.' :: (t ++ ch '.' :: u) ++ [])) =
      u ++ [] := afterDots_snapshot hbf hk hn
    generalize ch '-' :: k :: ch '.' :: (t ++ ch '.' :: u) = w at hd hsplit
    generalize hp : Pre.snapshot (ddd k n) sn id = p at hd
    cases hd with
    | snapshot hk' hn' h2' hu' =>
      rw [afterDots_snapshot hbf hk' hn', List.append_nil, List.append_nil] at hsplit
      rw [Pre.snapshot.injEq] at hp
      obtain ⟨-, rfl, rfl⟩ := hp
      exact hsplit ▸ hu'
    | _ => cases hp

/-- A text of digits is documented when its snapshot number is short enough. -/
theorem NormalText.documented_iff {c : Components} {ep ma mi pre : Bytes}
    (h : NormalText StandardVersion.digits f c ep ma mi bf pre rev) :
    NormalText documented f c ep ma mi bf pre rev ↔
      (snapshotDigits (ep ++ (ma ++ ch '.' :: (mi ++ ch '.' :: (bf ++ (pre ++ rev)))))).length ≤
        16 := by
  have hep := h.epoch.noDot.append (noDot_number h.major.1)
  have hdots : afterDots 4 (ep ++ (ma ++ ch '.' :: (mi ++ ch '.' :: (bf ++ (pre ++ rev))))) =
      afterDots 2 (bf ++ (pre ++ rev)) := by
    rw [← List.append_assoc, afterDots_dot hep, afterDots_dot (noDot_number h.minor.1)]
  unfold snapshotDigits
  rw [hdots, ← h.pre.documented_iff (noDot_number h.patch.1) h.revision.noDot h.revision.closed]
  exact ⟨fun hd => hd.pre, fun hd =>
    ⟨h.epoch, h.major, h.minor, h.patch, h.joined, hd, h.revision, h.earliest⟩⟩

end

/-! ### The zero of a stub -/

theorem not_severalZeros_of_normal {f : Flags} {c : Components} {ep ma mi bf pre rev : Bytes}
    (h : NormalText digits f c ep ma mi bf pre rev) :
    ¬ SeveralZeros (ep ++ (ma ++ ch '.' :: (mi ++ ch '.' :: (bf ++ (pre ++ rev))))) := by
  rintro ⟨h2, hc⟩
  have hp : isZero (ch '+') = false := by decide
  cases hep : ep with
  | cons b t =>
    have he := h.epoch
    rw [hep] at he h2
    generalize c.epoch = e at he
    cases he with
    | given => simp [hp] at h2
  | nil =>
    -- the zeros end at another digit or at the dot
    obtain ⟨zs, ds, hma, hzs, hds⟩ := exists_run isZero ma
    rw [hep, List.nil_append, hma, List.append_assoc] at hc
    have hstop : ∀ r, Stops isZero (ds ++ ch '.' :: r) := by
      intro r
      cases ds with
      | nil => exact stops_cons.mpr (by decide)
      | cons d ds => exact stops_cons.mpr (stops_cons.mp hds)
    rw [dropWhile_run hzs (hstop _)] at hc
    have hdot : ch '.' ≠ ch '+' := by decide
    cases ds with
    | nil => exact hc.elim nofun hdot
    | cons d ds =>
      have hd : isDigit d = true := h.major.1.1.2 d (by simp [hma])
      exact hc.elim nofun (ne_of_class hd (by decide))

theorem severalZeros_stub {z rev : Bytes} (hz : Number z 0) (hr : Closed rev) :
    SeveralZeros (z ++ rev) ↔ z ≠ [ch '0'] := by
  have hzero := (value_eq_zero_iff hz.1.2).mp hz.2
  have hall : ∀ b ∈ z, isZero b = true := fun b hb => decide_eq_true (hzero b hb)
  have hstop : Stops isZero rev := hr.stops (by decide)
  unfold SeveralZeros
  rw [takeWhile_run hall hstop, dropWhile_run hall hstop, and_iff_left hr]
  obtain ⟨d, ds, rfl⟩ := List.exists_cons_of_ne_nil hz.1.1
  obtain rfl := hzero d (by simp)
  cases ds <;> simp

/-- **The parser and the documented grammar** agree on the strings that are not versions even with
white space, signs, long snapshot numbers and several zeros allowed, and on those that have none of
these. -/
theorem accepts_documented_iff (s : Bytes) (f : Flags) :
    ((∃ v, fresh (parseVersion s f) = .ok v) ↔ ∃ v, Spells documented f v s) ↔
      ((∃ v, Spells scanned f v s) → (∀ b ∈ s, isSpace b = false) ∧
        (snapshotDigits s).length ≤ 16 ∧ (f.allowStub = true → ¬ SeveralZeros s)) := by
  simp only [parseVersion_eq_ok]
  constructor
  · intro hiff hlax
    obtain ⟨v, hd⟩ := hiff.mp hlax
    have hdig := hd.mono documented_le_digits fun _ _ => trivial
    refine ⟨hdig.solid, ?_⟩
    cases hd with
    | @stub z rev r hf hz hr =>
      have hz0 : Number z 0 := documented_le_digits.zero (fun _ _ => trivial) hz
      have hdots := afterDots_noDot ((noDot_number hz0).append (RevisionText.noDot hr)) 3
      refine ⟨by simp [snapshotDigits, hdots], fun _ hs => ?_⟩
      exact (severalZeros_stub hz0 hr.closed).mp hs hz
    | normal h =>
      have h' := h.mono documented_le_digits fun _ _ => trivial
      exact ⟨h'.documented_iff.mp h, fun _ => not_severalZeros_of_normal h'⟩
  · intro hcond
    constructor
    · rintro ⟨v, hv⟩
      obtain ⟨hsolid, hlen, hzeros⟩ := hcond ⟨v, hv⟩
      refine ⟨v, ?_⟩
      cases hv.digits hsolid with
      | @stub z rev r hf hz hr =>
        refine .stub hf (not_not.mp fun hne => hzeros hf ?_) hr
        exact (severalZeros_stub hz hr.closed).mpr hne
      | normal h => exact .normal (h.documented_iff.mpr hlen)
    · rintro ⟨v, hv⟩
      exact ⟨v, (hv.mono documented_le_digits fun _ _ => trivial).mono digits_le_scanned
        fun _ _ => trivial⟩

/-- **White space in front of the minor version is accepted.** -/
theorem accepted_not_documented :
    fresh (parseVersion (str "1. 2.3".toList) .none) = .ok ⟨1, 100002000030000, 0, [], 0⟩ ∧
      ¬ ∃ v, Spells documented .none v (str "1. 2.3".toList) := by
  refine ⟨by decide, ?_⟩
  rintro ⟨v, hv⟩
  have hsolid := (hv.mono documented_le_digits fun _ _ => trivial).solid (ch ' ') (by decide)
  exact absurd hsolid (by unfold Solid; decide)

end Build2.Libbutl.StandardVersion
