import Build2.Libbpkg.Version.Print
import Build2.Libbutl.StandardVersion.Documented

/-! # Standard versions as package versions

What a package version makes of the text of a standard version depends only on the components
(`Spelled.key_eq`), and the order of package versions refines that of standard versions, where the
snapshot ids do not count. -/

namespace Build2.Libbpkg.Version

open Build2.Lib.ByteString Build2.Lib.Decimal Build2.Lib.Joined Build2.Libbutl
  Build2.Libbutl.ParseUint
open StandardVersion (Pre Components IsLetter ddd latestSn letterNumber snapshotText)

/-! ### Numeric components -/

/-- The canonical form of a number. -/
def pad (n : ℕ) : Bytes := canonComp (decimal n)

theorem eq_of_value_eq {ds es : Bytes} (hl : ds.length = es.length)
    (hds : ∀ d ∈ ds, isDigit d = true) (hes : ∀ d ∈ es, isDigit d = true)
    (h : value ds = value es) : ds = es := by
  have hc := compare_of_length_eq hl hds hes
  rw [h, compare_eq_iff_eq.mpr rfl] at hc
  exact Std.LawfulEqOrd.eq_of_compare hc

/-- What the canonical form of a numeric component is. -/
theorem canonComp_numeral {t : Bytes} (h : Numeral t) (hl : t.length ≤ 16) :
    (canonComp t).length = 16 ∧ (∀ d ∈ canonComp t, isDigit d = true) ∧
      value (canonComp t) = value t := by
  have hd : t.all isDigit = true := List.all_eq_true.mpr h.2
  unfold canonComp
  rw [if_pos hd]
  refine ⟨?_, fun d hm => ?_, value_pad _ _⟩
  · rw [List.length_append, List.length_replicate]
    omega
  · rcases List.mem_append.mp hm with hm | hm
    · rw [List.eq_of_mem_replicate hm]
      decide
    · exact h.2 d hm

theorem length_decimal {n : ℕ} (h : n < 10 ^ 16) : (decimal n).length ≤ 16 :=
  (length_decimal_le (by decide)).mpr h

section

variable {a b : ℕ}

theorem length_pad (h : a < 10 ^ 16) : (pad a).length = 16 :=
  (canonComp_numeral (numeral_decimal a) (length_decimal h)).1

theorem isDigit_pad (h : a < 10 ^ 16) : ∀ d ∈ pad a, isDigit d = true :=
  (canonComp_numeral (numeral_decimal a) (length_decimal h)).2.1

theorem value_pad_decimal (h : a < 10 ^ 16) : value (pad a) = a :=
  (canonComp_numeral (numeral_decimal a) (length_decimal h)).2.2.trans (value_decimal a)

theorem pad_ne_nil (a : ℕ) : pad a ≠ [] := canonComp_ne_nil (decimal_ne_nil a)

theorem compare_pad (ha : a < 10 ^ 16) (hb : b < 10 ^ 16) :
    Ord.compare (pad a) (pad b) = Ord.compare a b := by
  rw [compare_of_length_eq ((length_pad ha).trans (length_pad hb).symm) (isDigit_pad ha)
    (isDigit_pad hb), value_pad_decimal ha, value_pad_decimal hb]

/-- The canonical form of any numeral of a number. -/
theorem canonComp_number {t : Bytes} (h : Number t a) (hf : Fits t) : canonComp t = pad a := by
  have hl : t.length ≤ 16 := hf (List.all_eq_true.mpr h.1.2)
  have ha : a < 10 ^ 16 := by
    rw [← h.2]
    exact lt_of_lt_of_le (value_lt h.1.2) (Nat.pow_le_pow_right (by decide) hl)
  obtain ⟨h1, h2, h3⟩ := canonComp_numeral h.1 hl
  refine eq_of_value_eq (h1.trans (length_pad ha).symm) h2 (isDigit_pad ha) ?_
  rw [h3, value_pad_decimal ha, h.2]

theorem all_isZero_pad (h : a < 10 ^ 16) : (pad a).all isZero = true ↔ a = 0 := by
  rw [← value_pad_decimal h, value_eq_zero_iff (isDigit_pad h), List.all_eq_true,
    value_pad_decimal h]
  simp [isZero]

end

theorem above_dot {x : Bytes} (h : ∀ b ∈ x, 46 < b.toNat) : Above dot x := by
  intro b hb
  have hlt : dot < b := UInt8.lt_iff_toNat_lt.mpr (show dot.toNat < b.toNat from h b hb)
  show compareOfLessAndEq dot b = .lt
  unfold compareOfLessAndEq
  rw [if_pos hlt]

theorem above_of_isDigit {x : Bytes} (h : ∀ b ∈ x, isDigit b = true) : Above dot x :=
  above_dot fun b hb => by
    have := isDigit_iff.mp (h b hb)
    omega

theorem toNat_toLower {b : UInt8} (h : isAlnum b = true) : 46 < (toLower b).toNat := by
  have h1 := le_toNat_of_isAlnum h
  unfold toLower
  split_ifs with hu
  · simp only [Bool.and_eq_true, decide_eq_true_eq, UInt8.le_iff_toNat_le] at hu
    have h2 : (ch 'Z').toNat = 90 := rfl
    have h3 : (32 : UInt8).toNat = 32 := rfl
    rw [UInt8.toNat_add, h3]
    omega
  · omega

theorem above_canonComp {x : Bytes} (h : ∀ b ∈ x, isAlnum b = true) : Above dot (canonComp x) := by
  unfold canonComp
  split_ifs with hd
  · refine above_of_isDigit fun b hb => ?_
    rcases List.mem_append.mp hb with hb | hb
    · rw [List.eq_of_mem_replicate hb]
      decide
    · exact List.all_eq_true.mp hd b hb
  · refine above_dot fun b hb => ?_
    obtain ⟨a, ha, rfl⟩ := List.mem_map.mp hb
    exact toNat_toLower (h a ha)

/-! ### The canonical parts -/

/-- The canonical upstream part of major, minor and patch numbers. -/
def upstreamKey (ma mi bf : ℕ) : Bytes :=
  Lib.Joined.joined dot (trim (·.all isZero) [pad ma, pad mi, pad bf])

/-- The letter of a `DDD`. -/
def letter (n : ℕ) : UInt8 := if n < 500 then ch 'a' else ch 'b'

/-- The number after the letter. -/
def num (n : ℕ) : ℕ := if n < 500 then n else n - 500

/-- The canonical form of a snapshot number. -/
def snapshotPad (sn : ℕ) : Bytes := if sn = latestSn then [ch 'z'] else pad sn

/-- The canonical form of a snapshot id, nothing for zeros. -/
def idPad (id : Bytes) : List Bytes :=
  if id = [] ∨ (canonComp id).all isZero = true then [] else [canonComp id]

/-- The components of the canonical release part. -/
def releasePad : Pre → List Bytes
  | .release => [[ch '~']]
  | .earliest => []
  | .final n => [[letter n], pad (num n)]
  | .snapshot n sn id => [letter n] :: pad (num n) :: snapshotPad sn :: idPad id

/-- The snapshot number has at most sixteen digits. -/
def ShortSn (sn : ℕ) : Prop := sn < 10 ^ 16 ∨ sn = latestSn

theorem shortSn_zero : ShortSn 0 := Or.inl (by decide)

/-- What `compare` looks at in the package version of a standard version. -/
def standardKey (c : Components) : ℕ × Bytes × Bytes × Option ℕ × ℕ :=
  (c.epoch, upstreamKey c.major c.minor c.patch, Lib.Joined.joined dot (releasePad c.pre),
    if c.revision = 0 then none else some c.revision, 0)

/-! ### Texts of standard versions -/

/-- The components of a release part that spell a pre-release part. -/
inductive ReleaseOf : Pre → Option (List Bytes) → Prop
  | release : ReleaseOf .release none
  | earliest : ReleaseOf .earliest (some [])
  | final {k : UInt8} {t : Bytes} {n : ℕ} (hk : IsLetter k) (hn : Number t n) (h : n ≤ 499) :
      ReleaseOf (.final (ddd k n)) (some [[k], t])
  | snapshot {k : UInt8} {t u id : Bytes} {n sn : ℕ} (hk : IsLetter k) (hn : Number t n)
      (h : n ≤ 499) (hu : u = [ch 'z'] ∧ sn = latestSn ∨ Number u sn ∧ sn < latestSn)
      (hid : ∀ b ∈ id, isAlnum b = true) :
      ReleaseOf (.snapshot (ddd k n) sn id) (some ([k] :: t :: u :: if id = [] then [] else [id]))

/-- A text that spells components. -/
structure Spelled (c : Components) (x : Text) : Prop where
  epoch : (∀ e ∈ x.epoch, Numeral e) ∧ x.epoch.elim 1 value = c.epoch
  upstream : ∃ ma mi bf, x.upstream = [ma, mi, bf] ∧ Number ma c.major ∧ Number mi c.minor ∧
    Number bf c.patch
  release : ReleaseOf c.pre x.release
  trailing : x.trailing = false
  revision : (∀ r ∈ x.revision, Numeral r ∧ value r ≠ 0) ∧ x.revision.elim 0 value = c.revision

theorem isWord_number {t : Bytes} {n : ℕ} (h : Number t n) : IsWord t :=
  ⟨h.1.1, fun b hb => isAlnum_of_isDigit (h.1.2 b hb)⟩

theorem isWord_letter {k : UInt8} (h : IsLetter k) : IsWord [k] := by
  refine ⟨by simp, fun b hb => ?_⟩
  rw [List.mem_singleton.mp hb]
  rcases h with rfl | rfl <;> decide

theorem ReleaseOf.isWord {p : Pre} {o : Option (List Bytes)} (h : ReleaseOf p o) :
    ∀ rs ∈ o, ∀ r ∈ rs, IsWord r := by
  cases h with
  | release => nofun
  | earliest =>
    rintro _ ⟨⟩ r hr
    cases hr
  | final hk hn =>
    rintro _ ⟨⟩
    simp only [List.forall_mem_cons]
    exact ⟨isWord_letter hk, isWord_number hn, by simp⟩
  | snapshot hk hn _ hu hid =>
    rintro _ ⟨⟩
    simp only [List.forall_mem_cons]
    refine ⟨isWord_letter hk, isWord_number hn, ?_, ?_⟩
    · rcases hu with ⟨rfl, -⟩ | ⟨hu, -⟩
      · exact ⟨by simp, by simp; decide⟩
      · exact isWord_number hu
    · split_ifs with h0
      · simp
      · simpa using ⟨h0, hid⟩

theorem canonComp_letter {k : UInt8} (h : IsLetter k) : canonComp [k] = [k] := by
  rcases h with rfl | rfl <;> decide

theorem letter_ddd {k : UInt8} {n : ℕ} (hk : IsLetter k) (h : n ≤ 499) : letter (ddd k n) = k := by
  unfold letter ddd
  rcases hk with rfl | rfl
  · rw [if_neg (show ¬ ch 'a' = ch 'b' by decide), if_pos (by omega)]
  · rw [if_pos (show ch 'b' = ch 'b' from rfl), if_neg (by omega)]

theorem num_ddd {k : UInt8} {n : ℕ} (h : n ≤ 499) : num (ddd k n) = n := by
  unfold num ddd
  split_ifs <;> omega

theorem canonical_snapshot (xs : List Bytes) {u : Bytes} (id : Bytes) {sn : ℕ} (hsn : sn ≠ 0)
    (hu : u = [ch 'z'] ∧ sn = latestSn ∨ Number u sn ∧ sn < latestSn) (hf : Fits u) :
    canonComp u = snapshotPad sn ∧
      trim (·.all isZero) (xs ++ canonComp u :: if id = [] then [] else [canonComp id]) =
        xs ++ canonComp u :: idPad id := by
  have hpad : canonComp u = snapshotPad sn ∧ (canonComp u).all isZero = false := by
    unfold snapshotPad
    rcases hu with ⟨rfl, rfl⟩ | ⟨hu, hlt⟩
    · rw [if_pos rfl]
      decide
    · have hl : u.length ≤ 16 := hf (List.all_eq_true.mpr hu.1.2)
      rw [if_neg hlt.ne, canonComp_number hu hf]
      refine ⟨rfl, eq_false_of_ne_true fun h => hsn ((all_isZero_pad ?_).mp h)⟩
      rw [← hu.2]
      exact lt_of_lt_of_le (value_lt hu.1.2) (Nat.pow_le_pow_right (by decide) hl)
  refine ⟨hpad.1, ?_⟩
  have h1 : trim (·.all isZero) (xs ++ [canonComp u]) = xs ++ [canonComp u] := by
    rw [trim_snoc, if_neg (by rw [hpad.2]; nofun)]
  unfold idPad
  by_cases hid : id = []
  · rw [if_pos hid, if_pos (Or.inl hid)]
    exact h1
  · rw [if_neg hid]
    have h2 : xs ++ [canonComp u, canonComp id] = (xs ++ [canonComp u]) ++ [canonComp id] := by simp
    rw [h2, trim_snoc]
    by_cases hz : (canonComp id).all isZero = true
    · rw [if_pos hz, if_pos (Or.inr hz), h1]
    · rw [if_neg hz, if_neg (by simp [hid, hz])]
      simp

/-- **The canonical release part** depends only on the pre-release part. -/
theorem ReleaseOf.canonical_eq {p : Pre} {o : Option (List Bytes)} (h : ReleaseOf p o)
    (hp : p.Valid) (hf : ∀ rs ∈ o, ∀ r ∈ rs, Fits r) :
    o.elim (str ['~']) canonical = Lib.Joined.joined dot (releasePad p) := by
  cases h with
  | release => rfl
  | earliest => rfl
  | @final k t n hk hn h =>
    have hfits := hf _ rfl
    simp only [List.forall_mem_cons] at hfits
    have ht := canonComp_number hn hfits.2.1
    have hn0 : n ≠ 0 := fun h0 => by
      have := (StandardVersion.ddd_ne (k := k) h).mpr h0
      have := hp.1
      have := hp.2.1
      omega
    have h1 : trim (·.all isZero) ([[k]] ++ [pad n]) = [[k]] ++ [pad n] := by
      rw [trim_snoc, if_neg]
      rw [all_isZero_pad (by omega)]
      exact hn0
    show Lib.Joined.joined dot (trim _ [canonComp [k], canonComp t]) = _
    rw [canonComp_letter hk, ht, releasePad, letter_ddd hk h, num_ddd h]
    exact congrArg _ h1
  | @snapshot k t u id n sn hk hn h hu hid =>
    have hfits := hf _ rfl
    simp only [List.forall_mem_cons] at hfits
    obtain ⟨h1, h2⟩ := canonical_snapshot [canonComp [k], canonComp t] id
      (Nat.one_le_iff_ne_zero.mp hp.2.pos) hu hfits.2.2.1
    have h3 : ([k] :: t :: u :: if id = [] then [] else [id]).map canonComp =
        [canonComp [k], canonComp t] ++ canonComp u :: if id = [] then [] else [canonComp id] := by
      split_ifs <;> rfl
    show Lib.Joined.joined dot (trim _ (List.map _ _)) = _
    rw [h3, h2, canonComp_letter hk, canonComp_number hn hfits.2.1, h1, releasePad,
      letter_ddd hk h, num_ddd h]
    rfl

section

variable {c : Components} {x : Text}

theorem Spelled.wellFormed (h : Spelled c x) (hc : c.Valid)
    (he : c.pre = .earliest → c.revision = 0) : x.WellFormed where
  epoch e hm := by
    have h1 := h.epoch.2
    rw [Option.mem_def.mp hm] at h1
    exact ⟨h.epoch.1 e hm, (show value e = c.epoch from h1) ▸ hc.epoch⟩
  nonempty := by
    obtain ⟨ma, mi, bf, hu, -⟩ := h.upstream
    simp [hu]
  upstream := by
    obtain ⟨ma, mi, bf, hu, h1, h2, h3⟩ := h.upstream
    rw [hu]
    simp only [List.forall_mem_cons]
    exact ⟨isWord_number h1, isWord_number h2, isWord_number h3, by simp⟩
  release := h.release.isWord
  trailing ht := by
    rw [h.trailing] at ht
    cases ht
  earliest hr := by
    have hp : c.pre = .earliest := by
      have h1 := h.release
      rw [hr] at h1
      generalize c.pre = p at h1
      cases h1
      rfl
    have h1 := h.revision
    cases hv : x.revision with
    | none => rfl
    | some r =>
      rw [hv, he hp] at h1
      exact absurd h1.2 (h1.1 r rfl).2
  revision r hm := by
    have h1 := h.revision.2
    rw [Option.mem_def.mp hm] at h1
    exact ⟨(h.revision.1 r hm).1, (show value r = c.revision from h1) ▸ hc.revision⟩

/-- The canonical upstream part depends only on the numbers. -/
theorem Spelled.upstream_eq (h : Spelled c x) (hf : ∀ u ∈ x.upstream, Fits u) :
    canonical x.upstream = upstreamKey c.major c.minor c.patch := by
  obtain ⟨ma, mi, bf, hu, h1, h2, h3⟩ := h.upstream
  rw [hu] at hf ⊢
  simp only [List.forall_mem_cons] at hf
  obtain ⟨f1, f2, f3, -⟩ := hf
  unfold canonical upstreamKey
  rw [List.map_cons, List.map_cons, List.map_singleton, canonComp_number h1 f1,
    canonComp_number h2 f2, canonComp_number h3 f3]

/-- A version of the grammar is not `0.0.0`. -/
theorem upstreamKey_ne_nil (hc : c.Valid) : upstreamKey c.major c.minor c.patch ≠ [] := by
  have h1 := hc.major
  have h2 := hc.minor
  have h3 := hc.patch
  have hj := hc.joined
  unfold upstreamKey
  have htrim : trim (·.all isZero) [pad c.major, pad c.minor, pad c.patch] ≠ [] := by
    rw [Ne, trim_eq_nil]
    simp only [List.forall_mem_cons]
    rintro ⟨h4, h5, h6, -⟩
    rw [all_isZero_pad (by omega)] at h4 h5 h6
    rw [Components.joined, h4, h5, h6] at hj
    exact hj rfl
  refine joined_ne_nil (fun y hy => ?_) htrim
  have hy := (trim_initial _).subset hy
  simp only [List.mem_cons, List.not_mem_nil, or_false] at hy
  rcases hy with rfl | rfl | rfl <;> exact pad_ne_nil _

theorem Spelled.epoch_eq (h : Spelled c x) (hc : c.Valid) (hf : ∀ u ∈ x.upstream, Fits u) :
    x.epochValue = c.epoch := by
  have hne := upstreamKey_ne_nil hc
  have h1 := h.epoch.2
  unfold Text.epochValue defaultEpoch
  rw [h.upstream_eq hf, if_neg (fun h => hne h.1)]
  cases hv : x.epoch <;> rw [hv] at h1 <;> exact h1

theorem Spelled.revision_eq (h : Spelled c x) (fold : Bool) :
    x.revisionValue fold = if c.revision = 0 then none else some c.revision := by
  obtain ⟨h1, h2⟩ := h.revision
  unfold Text.revisionValue
  cases hv : x.revision with
  | none =>
    rw [hv] at h2
    rw [if_pos (show c.revision = 0 from h2.symm)]
    rfl
  | some r =>
    rw [hv] at h1 h2
    have hr := (h1 r rfl).2
    have h2 : value r = c.revision := h2
    rw [← h2, if_neg hr]
    exact if_pos (Or.inl hr)

theorem Spelled.valid (h : Spelled c x) (hc : c.Valid) (he : c.pre = .earliest → c.revision = 0)
    (hf : x.AllFit) : x.Valid where
  toWellFormed := h.wellFormed hc he
  fits := hf
  notEmpty hn := upstreamKey_ne_nil hc (by rw [← h.upstream_eq hf.1]; exact hn.2.1)

/-- **The package version of a standard version** is known up to equality from the components. -/
theorem Spelled.key_eq (h : Spelled c x) (hc : c.Valid) (hf : x.AllFit) (fold : Bool) :
    (x.version fold).key = standardKey c := by
  unfold key Text.version standardKey
  simp only
  rw [h.epoch_eq hc hf.1, h.upstream_eq hf.1, h.revision_eq, Text.canonicalRelease,
    h.release.canonical_eq hc.pre hf.2]

end

/-! ### The texts of the two grammars -/

section

open StandardVersion (NormalText PreText SnapshotText EpochText RevisionText Flags digits)

variable {f : Flags}

theorem exists_releaseOf {p : Pre} {t : Bytes} (h : PreText digits f p t) :
    ∃ o, ReleaseOf p o ∧
      o.elim [] (fun rs => ch '-' :: (Lib.Joined.joined dot rs ++ [])) = t := by
  cases h with
  | release => exact ⟨_, .release, rfl⟩
  | earliest => exact ⟨_, .earliest, rfl⟩
  | final hk hn _ h2 => exact ⟨_, .final hk hn h2, by simp [Lib.Joined.joined]⟩
  | snapshot hk hn h2 hu =>
    cases hu with
    | latest =>
      have hid : ∀ b ∈ ([] : Bytes), isAlnum b = true := by simp
      refine ⟨_, .snapshot hk hn h2 (Or.inl ⟨rfl, rfl⟩) hid, ?_⟩
      simp [Lib.Joined.joined]
    | number hu =>
      have hid : ∀ b ∈ ([] : Bytes), isAlnum b = true := by simp
      refine ⟨_, .snapshot hk hn h2 (Or.inr ⟨hu.1, hu.2.2⟩) hid, ?_⟩
      simp [Lib.Joined.joined]
    | withId hu hne _ hid =>
      refine ⟨_, .snapshot hk hn h2 (Or.inr ⟨hu.1, hu.2.2⟩) hid, ?_⟩
      simp [Lib.Joined.joined, hne]

/-- **Every text of a standard version is a text of a package version**, the lengths of its
components apart. -/
theorem exists_spelled {c : Components} {ep ma mi bf pre rev : Bytes}
    (h : NormalText digits f c ep ma mi bf pre rev) :
    ∃ x, Spelled c x ∧
      x.text = ep ++ (ma ++ ch '.' :: (mi ++ ch '.' :: (bf ++ (pre ++ rev)))) := by
  obtain ⟨o, ho, hpre⟩ := exists_releaseOf h.pre
  obtain ⟨e, he, hep⟩ : ∃ e : Option Bytes, ((∀ d ∈ e, Numeral d) ∧ e.elim 1 value = c.epoch) ∧
      e.elim [] (fun d => ch '+' :: (d ++ [ch '-'])) = ep := by
    have h1 := h.epoch
    generalize c.epoch = n at h1
    cases h1 with
    | absent => exact ⟨none, ⟨nofun, rfl⟩, rfl⟩
    | @given t n hn h1 h2 =>
      refine ⟨some t, ⟨?_, hn.2⟩, rfl⟩
      rintro _ ⟨⟩
      exact hn.1
  obtain ⟨r, hr, hrev⟩ : ∃ r : Option Bytes,
      ((∀ d ∈ r, Numeral d ∧ value d ≠ 0) ∧ r.elim 0 value = c.revision) ∧
      r.elim [] (fun d => ch '+' :: d) = rev := by
    have h1 := h.revision
    generalize c.revision = n at h1
    cases h1 with
    | absent => exact ⟨none, ⟨nofun, rfl⟩, rfl⟩
    | @given t n hn h1 h2 =>
      refine ⟨some t, ⟨?_, hn.2⟩, rfl⟩
      rintro _ ⟨⟩
      exact ⟨hn.1, by rw [hn.2]; omega⟩
  refine ⟨⟨e, [ma, mi, bf], o, false, r⟩, ⟨he, ⟨ma, mi, bf, rfl, h.major.1, h.minor.1,
    h.patch.1⟩, ho, rfl, hr⟩, ?_⟩
  unfold Text.text Text.epochText Text.releaseText Text.revisionText
  simp only [Bool.false_eq_true, if_false, hep, hpre, hrev]
  simp [Lib.Joined.joined]

end

/-! ### Canonical texts -/

/-- The canonical text of components, taken apart. -/
def textOf (c : Components) : Text where
  epoch := if c.epoch ≠ 1 then some (decimal c.epoch) else none
  upstream := [decimal c.major, decimal c.minor, decimal c.patch]
  release :=
    match c.pre with
    | .release => none
    | .earliest => some []
    | .final n => some [[letter n], decimal (num n)]
    | .snapshot n sn id =>
      some ([letter n] :: decimal (num n) ::
        (if sn = latestSn then [ch 'z'] else decimal sn) :: if id = [] then [] else [id])
  trailing := false
  revision := if c.revision ≠ 0 then some (decimal c.revision) else none

section

variable {c : Components}

theorem letterNumber_eq (n : ℕ) : letterNumber n = letter n :: ch '.' :: decimal (num n) := by
  unfold letterNumber letter num
  split_ifs <;> simp [str]

theorem textOf_text (c : Components) : (textOf c).text = c.text := by
  have hr : (textOf c).releaseText = c.pre.text := by
    unfold Text.releaseText textOf Pre.text
    cases c.pre with
    | release => rfl
    | earliest => rfl
    | final n => simp [letterNumber_eq, Lib.Joined.joined, str]
    | snapshot n sn id =>
      by_cases hid : id = []
      · simp [letterNumber_eq, Lib.Joined.joined, snapshotText, hid, str]
      · simp [letterNumber_eq, Lib.Joined.joined, snapshotText, hid, str]
  have he : (textOf c).epochText = StandardVersion.epochText c.epoch := by
    unfold Text.epochText textOf StandardVersion.epochText
    simp only
    split_ifs <;> simp [str]
  have hv : (textOf c).revisionText = StandardVersion.revisionText c.revision := by
    unfold Text.revisionText textOf StandardVersion.revisionText
    simp only
    split_ifs <;> simp [str]
  unfold Text.text Components.text
  rw [hr, he, hv]
  simp [textOf, Lib.Joined.joined]

theorem letter_num {n : ℕ} (h : n ≤ 999) :
    IsLetter (letter n) ∧ num n ≤ 499 ∧ ddd (letter n) (num n) = n := by
  unfold letter num ddd
  by_cases hn : n < 500
  · rw [if_pos hn, if_pos hn]
    exact ⟨Or.inl rfl, by omega, if_neg (show ¬ ch 'a' = ch 'b' by decide)⟩
  · rw [if_neg hn, if_neg hn]
    exact ⟨Or.inr rfl, by omega, by rw [if_pos rfl]; omega⟩

theorem releaseOf_textOf (hp : c.pre.Valid) : ReleaseOf c.pre (textOf c).release := by
  unfold textOf
  cases hc : c.pre with
  | release => exact .release
  | earliest => exact .earliest
  | final n =>
    rw [hc] at hp
    obtain ⟨h1, h2, h3⟩ := letter_num hp.2.2
    have := ReleaseOf.final h1 (number_decimal (num n)) h2
    rwa [h3] at this
  | snapshot n sn id =>
    rw [hc] at hp
    obtain ⟨h1, h2, h3⟩ := letter_num hp.1
    have hu : (if sn = latestSn then [ch 'z'] else decimal sn) = [ch 'z'] ∧ sn = latestSn ∨
        Number (if sn = latestSn then [ch 'z'] else decimal sn) sn ∧ sn < latestSn := by
      split_ifs with hl
      · exact Or.inl ⟨rfl, hl⟩
      · exact Or.inr ⟨number_decimal sn, lt_of_le_of_ne hp.2.le hl⟩
    have := ReleaseOf.snapshot h1 (number_decimal (num n)) h2 hu hp.2.alnum
    rwa [h3] at this

theorem spelled_textOf (hp : c.pre.Valid) : Spelled c (textOf c) where
  epoch := by
    unfold textOf
    simp only
    split_ifs with h
    · refine ⟨?_, value_decimal _⟩
      rintro _ ⟨⟩
      exact numeral_decimal _
    · exact ⟨nofun, (not_not.mp h).symm⟩
  upstream := ⟨_, _, _, rfl, number_decimal _, number_decimal _, number_decimal _⟩
  release := releaseOf_textOf hp
  trailing := rfl
  revision := by
    unfold textOf
    simp only
    split_ifs with h
    · refine ⟨?_, value_decimal _⟩
      rintro _ ⟨⟩
      exact ⟨numeral_decimal _, by rwa [value_decimal]⟩
    · exact ⟨nofun, (not_not.mp h).symm⟩

theorem fits_decimal {n : ℕ} : Fits (decimal n) ↔ n < 10 ^ 16 := by
  unfold Fits
  rw [length_decimal_le (by decide)]
  exact ⟨fun h => h (List.all_eq_true.mpr isDigit_decimal), fun h _ => h⟩

theorem fits_of_length {x : Bytes} (h : x.length ≤ 16) : Fits x := fun _ => h

/-- **The components of a canonical text are short enough** unless it is for the snapshot number. -/
theorem allFit_textOf (hc : c.Valid) : (textOf c).AllFit ↔ ShortSn c.pre.sn := by
  have h1 := hc.major
  have h2 := hc.minor
  have h3 := hc.patch
  have hp := hc.pre
  have hup : ∀ u ∈ (textOf c).upstream, Fits u := by
    show ∀ u ∈ [decimal c.major, decimal c.minor, decimal c.patch], Fits u
    simp only [List.forall_mem_cons, fits_decimal]
    exact ⟨by omega, by omega, by omega, by simp⟩
  unfold Text.AllFit
  rw [and_iff_right hup]
  unfold textOf
  cases hpre : c.pre with
  | release => exact iff_of_true nofun shortSn_zero
  | earliest =>
    refine iff_of_true ?_ shortSn_zero
    rintro _ ⟨⟩ r hr
    cases hr
  | final n =>
    refine iff_of_true ?_ shortSn_zero
    rw [hpre] at hp
    have := (letter_num hp.2.2).2.1
    rintro _ ⟨⟩
    simp only [List.forall_mem_cons, fits_decimal]
    exact ⟨fits_of_length (by simp), by omega, by simp⟩
  | snapshot n sn id =>
    rw [hpre] at hp
    have := (letter_num hp.1).2.1
    have hid : ∀ r ∈ (if id = [] then [] else [id]), Fits r := by
      split_ifs
      · simp
      · simpa using fits_of_length hp.2.length
    have hsn : Fits (if sn = latestSn then [ch 'z'] else decimal sn) ↔ ShortSn sn := by
      unfold ShortSn
      split_ifs with hl
      · exact iff_of_true (fits_of_length (by simp)) (Or.inr hl)
      · rw [fits_decimal, or_iff_left hl]
    constructor
    · intro h
      have := h _ rfl
      simp only [List.forall_mem_cons] at this
      exact hsn.mp this.2.2.1
    · rintro h _ ⟨⟩
      simp only [List.forall_mem_cons]
      exact ⟨fits_of_length (by simp), fits_decimal.mpr (by omega), hsn.mpr h, hid⟩

/-- **Which standard versions are package versions**: those whose snapshot number is short. -/
theorem ofString_standard (hc : c.Valid) (he : c.pre = .earliest → c.revision = 0) (fold : Bool) :
    (∃ v, ofString c.toVersion.string fold = .ok v) ↔ ShortSn c.pre.sn := by
  have hs := spelled_textOf hc.pre
  rw [hc.string_eq, ← textOf_text, ← allFit_textOf hc]
  constructor
  · rintro ⟨v, h⟩
    exact ((ofString_text (hs.wellFormed hc he)).mp h).1.fits
  · exact fun h => ⟨_, (ofString_text (hs.wellFormed hc he)).mpr ⟨hs.valid hc he h, rfl⟩⟩

theorem ofString_standard_key (hc : c.Valid) (he : c.pre = .earliest → c.revision = 0)
    {fold : Bool} {v : Version} (h : ofString c.toVersion.string fold = .ok v) :
    v.key = standardKey c ∧ ∃ x : Text, x.Valid ∧ v = x.version fold := by
  have hs := spelled_textOf hc.pre
  rw [hc.string_eq, ← textOf_text, ofString_text (hs.wellFormed hc he)] at h
  obtain ⟨hv, rfl⟩ := h
  exact ⟨hs.key_eq hc hv.fits fold, _, hv, rfl⟩

end

end Build2.Libbpkg.Version
