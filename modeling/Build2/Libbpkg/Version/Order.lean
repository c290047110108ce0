import Build2.Libbpkg.Version.Standard
import Build2.Libbutl.StandardVersion.Endpoints

/-! # The two orders

Package versions of standard versions are ordered by epoch, version number and snapshot number, as
the standard versions are, and only then by the snapshot id, which standard versions leave out. -/

namespace Build2.Libbpkg.Version

open Build2.Lib.ByteString Build2.Lib.Decimal Build2.Lib.Joined Build2.Lib.Lex Build2.Libbutl
  Build2.Libbutl.ParseUint
open StandardVersion (Pre Components latestSn)

/-! ### Comparing keys -/

/-- The comparison of revisions. -/
def compareRevision (m n : Option ℕ) : Ordering :=
  if m ≠ n then if revisionLt m n then .lt else .gt else .eq

theorem cmp_eq {x y : Version} (h : x.iteration = y.iteration) :
    x.cmp y = (Ord.compare x.epoch y.epoch).then
      ((Ord.compare x.canonicalUpstream y.canonicalUpstream).then
        ((Ord.compare x.canonicalRelease y.canonicalRelease).then
          (compareRevision x.revision y.revision))) := by
  unfold cmp Version.compare compareRevision
  rw [← compare_ite x.epoch]
  simp [h]

theorem compareRevision_standard (m n : ℕ) :
    compareRevision (if m = 0 then none else some m) (if n = 0 then none else some n) =
      Ord.compare m n := by
  unfold compareRevision
  have h := compare_ite m n .eq
  rw [Ordering.then_eq] at h
  rw [← h]
  by_cases hm : m = 0 <;> by_cases hn : n = 0
  · simp [hm, hn]
  · have : ¬ 0 = n := fun h => hn h.symm
    simp [hm, hn, revisionLt, Nat.pos_of_ne_zero hn, this]
  · simp [hm, hn, revisionLt]
  · simp [hm, hn, revisionLt]

/-! ### The upstream part -/

/-- The canonical upstream parts compare as the numbers. -/
theorem compare_upstreamKey {c d : Components} (hc : c.Valid) (hd : d.Valid) :
    Ord.compare (upstreamKey c.major c.minor c.patch) (upstreamKey d.major d.minor d.patch) =
      Ord.compare c.joined d.joined := by
  have hshort : ∀ {e : Components}, e.Valid → ∀ x ∈ [pad e.major, pad e.minor, pad e.patch],
      ∃ n < 10 ^ 16, x = pad n := by
    intro e he
    have h1 := he.major
    have h2 := he.minor
    have h3 := he.patch
    simp only [List.forall_mem_cons]
    exact ⟨⟨_, by omega, rfl⟩, ⟨_, by omega, rfl⟩, ⟨_, by omega, rfl⟩, by simp⟩
  have hgood : ∀ {e : Components}, e.Valid →
      ∀ x ∈ trim (·.all isZero) [pad e.major, pad e.minor, pad e.patch],
        x ≠ [] ∧ Above dot x := by
    intro e he x hx
    obtain ⟨n, hn, rfl⟩ := hshort he x ((trim_initial _).subset hx)
    exact ⟨pad_ne_nil n, above_of_isDigit (isDigit_pad hn)⟩
  unfold upstreamKey
  rw [Lib.Joined.compare_joined (hgood hc) (hgood hd), compare_trim (by rfl), hc.compare_joined hd]
  · have h1 := hc.major
    have h2 := hc.minor
    have h3 := hc.patch
    have h4 := hd.major
    have h5 := hd.minor
    have h6 := hd.patch
    simp only [List.compare_cons_cons]
    rw [compare_pad (by omega) (by omega), compare_pad (by omega) (by omega),
      compare_pad (by omega) (by omega)]
    simp
  · intro x hx y hy
    obtain ⟨m, hm, rfl⟩ := hshort hc x hx
    obtain ⟨n, hn, rfl⟩ := hshort hd y hy
    have hm' := all_isZero_pad hm
    have hn' := all_isZero_pad hn
    rw [compare_pad hm hn]
    refine ⟨fun h1 h2 => ?_, fun h1 h2 => ?_, fun h1 h2 => ?_⟩
    · rw [hm'.mp h1, hn'.mp h2]
      rfl
    · rw [hm'.mp h1, compare_lt_iff_lt]
      exact Nat.pos_of_ne_zero fun h => by rw [hn'.mpr h] at h2; cases h2
    · rw [hn'.mp h2, compare_gt_iff_gt]
      exact Nat.pos_of_ne_zero fun h => by rw [hm'.mpr h] at h1; cases h1

/-! ### The release part -/

theorem compare_letter {n m : ℕ} : Ord.compare [letter n] [letter m] =
    if n < 500 then if m < 500 then .eq else .lt else if m < 500 then .gt else .eq := by
  unfold letter
  split_ifs <;> decide

theorem compare_ddd {n m : ℕ} (hn : n ≤ 999) (hm : m ≤ 999) (us vs : List Bytes) :
    Ord.compare ([letter n] :: pad (num n) :: us) ([letter m] :: pad (num m) :: vs) =
      (Ord.compare n m).then (Ord.compare us vs) := by
  have h1 : num n < 10 ^ 16 := by
    unfold num
    split_ifs <;> omega
  have h2 : num m < 10 ^ 16 := by
    unfold num
    split_ifs <;> omega
  have h3 : Ord.compare ([letter n] :: pad (num n) :: us) ([letter m] :: pad (num m) :: vs) =
      (Ord.compare [letter n] [letter m]).then
        ((Ord.compare (pad (num n)) (pad (num m))).then (Ord.compare us vs)) :=
    List.compare_cons_cons.trans (congrArg _ List.compare_cons_cons)
  rw [h3, compare_letter, compare_pad h1 h2, ← Ordering.then_assoc]
  congr 1
  unfold num
  split_ifs with h4 h5 h5
  · rfl
  · rw [compare_lt_iff_lt.mpr (show n < m by omega)]
    rfl
  · rw [compare_gt_iff_gt.mpr (show m < n by omega)]
    rfl
  · rcases lt_trichotomy n m with h | h | h
    · rw [compare_lt_iff_lt.mpr h, compare_lt_iff_lt.mpr (show n - 500 < m - 500 by omega)]
      rfl
    · rw [h, compare_eq_iff_eq.mpr rfl, compare_eq_iff_eq.mpr rfl]
      rfl
    · rw [compare_gt_iff_gt.mpr h, compare_gt_iff_gt.mpr (show m - 500 < n - 500 by omega)]
      rfl

theorem compare_z {n : ℕ} (h : n < 10 ^ 16) : Ord.compare (pad n) [ch 'z'] = .lt := by
  obtain ⟨d, ds, hd⟩ := List.exists_cons_of_ne_nil (pad_ne_nil n)
  have h1 := isDigit_iff.mp (isDigit_pad h d (by rw [hd]; simp))
  have hlt : d < ch 'z' := UInt8.lt_iff_toNat_lt.mpr (show d.toNat < 122 by omega)
  have hc : Ord.compare d (ch 'z') = .lt := by
    show compareOfLessAndEq d (ch 'z') = .lt
    unfold compareOfLessAndEq
    rw [if_pos hlt]
  rw [hd, List.compare_cons_cons, hc]
  rfl

theorem compare_snapshotPad {m n : ℕ} (hm : ShortSn m) (hn : ShortSn n) :
    Ord.compare (snapshotPad m) (snapshotPad n) = Ord.compare m n := by
  have hlt : ∀ {k : ℕ}, k < 10 ^ 16 → k < latestSn := by
    intro k hk
    unfold latestSn
    omega
  have hpad : ∀ {k : ℕ}, k < 10 ^ 16 → snapshotPad k = pad k := fun hk => if_neg (hlt hk).ne
  have hz : snapshotPad latestSn = [ch 'z'] := if_pos rfl
  rcases hm with hm | rfl <;> rcases hn with hn | rfl
  · rw [hpad hm, hpad hn, compare_pad hm hn]
  · rw [hpad hm, hz, compare_z hm, compare_lt_iff_lt.mpr (hlt hm)]
  · rw [hpad hn, hz, compare_gt_iff_gt.mpr (hlt hn), Std.OrientedOrd.eq_swap, compare_z hn]
    rfl
  · rw [hz, compare_eq_iff_eq.mpr rfl]
    rfl

theorem compare_tilde (n : ℕ) (us : List Bytes) :
    Ord.compare [[ch '~']] ([letter n] :: us) = .gt := by
  have h : Ord.compare [ch '~'] [letter n] = .gt := by
    unfold letter
    split_ifs <;> decide
  rw [List.compare_cons_cons, h]
  rfl

/-- The letter, the number and the snapshot of a pre-release. -/
theorem releasePad_cases {p : Pre} (h : p.Valid) (hs : ShortSn p.sn) :
    releasePad p = [[ch '~']] ∧ p.ddde = 10000 ∧ p.sn = 0 ∧ p.id = [] ∨
      releasePad p = [] ∧ p.ddde = 1 ∧ p.sn = 0 ∧ p.id = [] ∨
      ∃ n us, releasePad p = [letter n] :: pad (num n) :: us ∧ n ≤ 999 ∧
        (us = [] ∧ p.ddde = n * 10 ∧ p.sn = 0 ∧ p.id = [] ∧ 1 ≤ n ∨
          us = snapshotPad p.sn :: idPad p.id ∧ p.ddde = n * 10 + 1 ∧ 1 ≤ p.sn) := by
  cases p with
  | release => exact Or.inl ⟨rfl, rfl, rfl, rfl⟩
  | earliest => exact Or.inr (Or.inl ⟨rfl, rfl, rfl, rfl⟩)
  | final n => exact Or.inr (Or.inr ⟨n, [], rfl, h.2.2, Or.inl ⟨rfl, rfl, rfl, rfl, h.1⟩⟩)
  | snapshot n sn id => exact Or.inr (Or.inr ⟨n, _, rfl, h.1, Or.inr ⟨rfl, rfl, h.2.pos⟩⟩)

theorem releasePad_above {p : Pre} (h : p.Valid) (hs : ShortSn p.sn) :
    ∀ x ∈ releasePad p, x ≠ [] ∧ Above dot x := by
  have hletter : ∀ n, [letter n] ≠ [] ∧ Above dot [letter n] := by
    refine fun n => ⟨by simp, above_dot fun b hb => ?_⟩
    rw [List.mem_singleton.mp hb]
    unfold letter
    split_ifs <;> decide
  have hpad : ∀ {n}, n < 10 ^ 16 → pad n ≠ [] ∧ Above dot (pad n) := fun hn =>
    ⟨pad_ne_nil _, above_of_isDigit (isDigit_pad hn)⟩
  have hnum : ∀ {n}, n ≤ 999 → num n < 10 ^ 16 := by
    intro n hn
    unfold num
    split_ifs <;> omega
  cases p with
  | release =>
    show ∀ x ∈ [[ch '~']], _
    simp only [List.forall_mem_cons]
    refine ⟨⟨by simp, above_dot fun b hb => ?_⟩, by simp⟩
    rw [List.mem_singleton.mp hb]
    decide
  | earliest => nofun
  | final n =>
    show ∀ x ∈ [[letter n], pad (num n)], _
    simp only [List.forall_mem_cons]
    exact ⟨hletter n, hpad (hnum h.2.2), by simp⟩
  | snapshot n sn id =>
    show ∀ x ∈ [letter n] :: pad (num n) :: snapshotPad sn :: idPad id, _
    simp only [List.forall_mem_cons]
    refine ⟨hletter n, hpad (hnum h.1), ?_, fun x hx => ?_⟩
    · unfold snapshotPad
      split_ifs with hl
      · refine ⟨by simp, above_dot fun b hb => ?_⟩
        rw [List.mem_singleton.mp hb]
        decide
      · exact hpad (hs.resolve_right hl)
    · unfold idPad at hx
      split_ifs at hx with hid
      · cases hx
      · rw [List.mem_singleton.mp hx]
        exact ⟨canonComp_ne_nil fun h => hid (Or.inl h), above_canonComp h.2.alnum⟩

/-- **The canonical release parts** compare by `DDDE`, then by the snapshot number and the id. -/
theorem compare_releasePad {p q : Pre} (hp : p.Valid) (hq : q.Valid) (hps : ShortSn p.sn)
    (hqs : ShortSn q.sn) :
    Ord.compare (Lib.Joined.joined dot (releasePad p)) (Lib.Joined.joined dot (releasePad q)) =
      (Ord.compare p.ddde q.ddde).then ((Ord.compare p.sn q.sn).then
        (Ord.compare (idPad p.id) (idPad q.id))) := by
  rw [Lib.Joined.compare_joined (releasePad_above hp hps) (releasePad_above hq hqs)]
  rcases releasePad_cases hp hps with ⟨h1, h2, h3, h4⟩ | ⟨h1, h2, h3, h4⟩ | ⟨n, us, h1, hn, hu⟩ <;>
    rcases releasePad_cases hq hqs with ⟨k1, k2, k3, k4⟩ | ⟨k1, k2, k3, k4⟩ | ⟨m, vs, k1, hm, hv⟩
  · rw [h1, h2, h3, h4, k1, k2, k3, k4]
    decide
  · rw [h1, h2, k1, k2]
    rfl
  · have hd : q.ddde < p.ddde := by
      rcases hv with ⟨-, hv, -⟩ | ⟨-, hv, -⟩ <;> omega
    rw [h1, k1, compare_tilde, compare_gt_iff_gt.mpr hd]
    rfl
  · rw [h1, h2, k1, k2]
    rfl
  · rw [h1, h2, h3, h4, k1, k2, k3, k4]
    rfl
  · rw [h1, k1]
    rcases hv with ⟨-, hv, -, -, hm1⟩ | ⟨-, hv, hv'⟩
    · rw [compare_lt_iff_lt.mpr (show p.ddde < q.ddde by omega)]
      rfl
    · rcases Nat.eq_zero_or_pos m with rfl | hm0
      · have h0 : 0 < q.sn := hv'
        rw [h2, h3, hv, compare_lt_iff_lt.mpr h0]
        rfl
      · rw [compare_lt_iff_lt.mpr (show p.ddde < q.ddde by omega)]
        rfl
  · have hd : p.ddde < q.ddde := by
      rcases hu with ⟨-, hu, -⟩ | ⟨-, hu, -⟩ <;> omega
    rw [h1, k1, compare_lt_iff_lt.mpr hd, Std.OrientedOrd.eq_swap, compare_tilde]
    rfl
  · rw [h1, k1]
    rcases hu with ⟨-, hu, -, -, hn1⟩ | ⟨-, hu, hu'⟩
    · rw [compare_gt_iff_gt.mpr (show q.ddde < p.ddde by omega)]
      rfl
    · rcases Nat.eq_zero_or_pos n with rfl | hn0
      · have h0 : 0 < p.sn := hu'
        rw [k2, k3, hu, compare_gt_iff_gt.mpr h0]
        rfl
      · rw [compare_gt_iff_gt.mpr (show q.ddde < p.ddde by omega)]
        rfl
  · rw [h1, k1, compare_ddd hn hm]
    -- whether there is a snapshot decides between two `DDDE` of one `DDD`
    have hlt : n < m → Ord.compare p.ddde q.ddde = .lt := fun h => by
      rw [compare_lt_iff_lt]
      rcases hu with ⟨-, hu, -⟩ | ⟨-, hu, -⟩ <;> rcases hv with ⟨-, hv, -⟩ | ⟨-, hv, -⟩ <;> omega
    have hgt : m < n → Ord.compare p.ddde q.ddde = .gt := fun h => by
      rw [compare_gt_iff_gt]
      rcases hu with ⟨-, hu, -⟩ | ⟨-, hu, -⟩ <;> rcases hv with ⟨-, hv, -⟩ | ⟨-, hv, -⟩ <;> omega
    rcases lt_trichotomy n m with h | rfl | h
    · rw [hlt h, compare_lt_iff_lt.mpr h]
      rfl
    · rw [compare_eq_iff_eq.mpr rfl, Ordering.eq_then]
      rcases hu with ⟨rfl, hu, hu1, hu2, -⟩ | ⟨rfl, hu, -⟩ <;>
        rcases hv with ⟨rfl, hv, hv1, hv2, -⟩ | ⟨rfl, hv, -⟩
      · rw [hu, hv, hu1, hu2, hv1, hv2, compare_eq_iff_eq.mpr rfl, compare_eq_iff_eq.mpr rfl]
        rfl
      · rw [compare_lt_iff_lt.mpr (show p.ddde < q.ddde by omega)]
        rfl
      · rw [compare_gt_iff_gt.mpr (show q.ddde < p.ddde by omega)]
        rfl
      · rw [hu, hv, compare_eq_iff_eq.mpr rfl, Ordering.eq_then, List.compare_cons_cons,
          compare_snapshotPad hps hqs]
    · rw [hgt h, compare_gt_iff_gt.mpr h]
      rfl

/-! ### The two orders -/

section

variable {c d : Components} {x y : Version}

theorem keys_of_standard (hx : x.key = standardKey c) :
    x.epoch = c.epoch ∧ x.canonicalUpstream = upstreamKey c.major c.minor c.patch ∧
      x.canonicalRelease = Lib.Joined.joined dot (releasePad c.pre) ∧
      x.revision = (if c.revision = 0 then none else some c.revision) ∧ x.iteration = 0 := by
  simpa only [key, standardKey, Prod.mk.injEq] using hx

/-- **Package versions of standard versions** compare as these do, but for the snapshot id, which
comes before the revision. -/
theorem cmp_standard (hx : x.key = standardKey c) (hy : y.key = standardKey d) (hc : c.Valid)
    (hd : d.Valid) (hcs : ShortSn c.pre.sn) (hds : ShortSn d.pre.sn) :
    x.cmp y = (Ord.compare c.epoch d.epoch).then ((Ord.compare c.number d.number).then
      ((Ord.compare c.pre.sn d.pre.sn).then ((Ord.compare (idPad c.pre.id) (idPad d.pre.id)).then
        (Ord.compare c.revision d.revision)))) := by
  obtain ⟨h1, h2, h3, h4, h5⟩ := keys_of_standard hx
  obtain ⟨k1, k2, k3, k4, k5⟩ := keys_of_standard hy
  rw [cmp_eq (h5.trans k5.symm), h1, h2, h3, h4, k1, k2, k3, k4, compare_upstreamKey hc hd,
    compare_releasePad hc.pre hd.pre hcs hds, compareRevision_standard,
    StandardVersion.compare_number c.number d.number, hc.triple_eq, hd.triple_eq, hc.ddde_eq,
    hd.ddde_eq]
  simp only [Ordering.then_assoc]

theorem cmp_lt_of_standard (hx : x.key = standardKey c) (hy : y.key = standardKey d)
    (hc : c.Valid) (hd : d.Valid) (hcs : ShortSn c.pre.sn) (hds : ShortSn d.pre.sn)
    (h : c.epoch < d.epoch ∨ c.epoch = d.epoch ∧ (c.number < d.number ∨
      c.number = d.number ∧ c.pre.sn < d.pre.sn)) : x.cmp y = .lt := by
  rw [cmp_standard hx hy hc hd hcs hds]
  simp only [Ordering.then_eq_lt, compare_lt_iff_lt, compare_eq_iff_eq]
  rcases h with h | ⟨h1, h | ⟨h2, h⟩⟩
  · exact Or.inl h
  · exact Or.inr ⟨h1, Or.inl h⟩
  · exact Or.inr ⟨h1, Or.inr ⟨h2, Or.inl h⟩⟩

end

/-! ### Strings that are both -/

theorem Spelled.shortSn {c : Components} {x : Text} (h : Spelled c x) (hp : c.pre.Valid)
    (hf : x.AllFit) : ShortSn c.pre.sn := by
  have h1 := h.release
  have h2 := hf.2
  generalize x.release = o at h1 h2
  generalize c.pre = p at h1 hp
  cases h1 with
  | snapshot hk hn hle hu hid =>
    rcases hu with ⟨-, rfl⟩ | ⟨hu, -⟩
    · exact Or.inr rfl
    · have hfits := h2 _ rfl
      simp only [List.forall_mem_cons] at hfits
      have hl := hfits.2.2.1 (List.all_eq_true.mpr hu.1.2)
      refine Or.inl ?_
      show _ < _
      rw [← hu.2]
      exact lt_of_lt_of_le (value_lt hu.1.2) (Nat.pow_le_pow_right (by decide) hl)
  | _ => exact shortSn_zero

/-- **A string that both parsers accept** has components that say how both versions compare. -/
theorem exists_components {s : Bytes} {a : StandardVersion} {x : Version} {fold : Bool}
    (ha : fresh (StandardVersion.parseVersion s .earliest) = .ok a) (hx : ofString s fold = .ok x) :
    ∃ c : Components, c.Printable ∧ a = c.toVersion ∧ ShortSn c.pre.sn ∧ x.key = standardKey c := by
  have hs := StandardVersion.parseVersion_eq_ok.mp ha
  obtain ⟨y, hc, hy, rfl⟩ := exists_text hx
  -- the string has neither a NUL nor white space
  have hnul : cString s = s := by
    refine List.takeWhile_eq_self_iff.mpr fun b hb => ?_
    simpa using hs.within StandardVersion.scanned_within_ne_nul b hb
  rw [hnul] at hc
  have hsolid : ∀ b ∈ s, StandardVersion.Solid b := by
    intro b hb
    rw [hc] at hb
    have hb := hy.toWellFormed.chars b hb
    unfold StandardVersion.Solid
    unfold isVersionChar at hb
    rcases Bool.or_eq_true_iff.mp hb with hb | hb
    · exact isSpace_of_isAlnum hb
    · simp only [isSeparator, Bool.or_eq_true, decide_eq_true_eq] at hb
      rcases hb with (rfl | rfl) | rfl <;> decide
  have hd := hs.digits hsolid
  cases hd with
  | stub hf => cases hf
  | @normal c ep ma mi bf pre rev hn =>
    obtain ⟨z, hz, htext⟩ := exists_spelled hn
    have hcv := (hn.mono StandardVersion.digits_le_scanned fun _ _ => trivial).valid
    have he : c.pre = .earliest → c.revision = 0 := by
      intro hpre
      have hr := hn.revision
      rw [hn.earliest hpre] at hr
      generalize c.revision = r at hr
      cases hr
      rfl
    have hw := hz.wellFormed hcv he
    rw [← htext] at hc
    have hok : ofString y.text fold = .ok (y.version fold) :=
      (ofString_text hy.toWellFormed).mpr ⟨hy, rfl⟩
    rw [← hc, ofString_text hw] at hok
    obtain ⟨hzv, hzx⟩ := hok
    refine ⟨c, ⟨hcv, he⟩, rfl, hz.shortSn hcv.pre hzv.fits, ?_⟩
    rw [hzx]
    exact hz.key_eq hcv hzv.fits _

/-- The versions agree up to the snapshot number, and the snapshot ids differ by more than case and
leading zeros. -/
def DifferInId (a b : StandardVersion) : Prop :=
  a.epoch = b.epoch ∧ a.version = b.version ∧ a.snapshotSn = b.snapshotSn ∧
    idPad a.snapshotId ≠ idPad b.snapshotId

instance (a b : StandardVersion) : Decidable (DifferInId a b) :=
  inferInstanceAs (Decidable (_ ∧ _))

/-- **The orders agree** on strings that are versions of both kinds, except that snapshots that
differ in the id are ordered by it as package versions, whatever their revisions. -/
theorem cmp_eq_standard (s t : Bytes) (f g : Bool) (a b : StandardVersion) (x y : Version)
    (ha : fresh (StandardVersion.parseVersion s .earliest) = .ok a)
    (hb : fresh (StandardVersion.parseVersion t .earliest) = .ok b)
    (hx : ofString s f = .ok x) (hy : ofString t g = .ok y) :
    x.cmp y = if DifferInId a b then Ord.compare (idPad a.snapshotId) (idPad b.snapshotId)
      else a.cmp b := by
  obtain ⟨c, hc, rfl, hcs, hxk⟩ := exists_components ha hx
  obtain ⟨d, hd, rfl, hds, hyk⟩ := exists_components hb hy
  rw [cmp_standard hxk hyk hc.toValid hd.toValid hcs hds, StandardVersion.cmp_eq]
  by_cases h : DifferInId c.toVersion d.toVersion
  · rw [if_pos h]
    obtain ⟨h1, h2, h3, h4⟩ := h
    simp only [Components.toVersion] at h1 h2 h3 h4 ⊢
    have hne : Ord.compare (idPad c.pre.id) (idPad d.pre.id) ≠ .eq := fun he =>
      h4 (Std.LawfulEqOrd.eq_of_compare he)
    rw [compare_eq_iff_eq.mpr h1, compare_eq_iff_eq.mpr h2, compare_eq_iff_eq.mpr h3]
    simp only [Ordering.eq_then]
    cases hcmp : Ord.compare (idPad c.pre.id) (idPad d.pre.id) with
    | eq => exact absurd hcmp hne
    | lt => rfl
    | gt => rfl
  · rw [if_neg h]
    simp only [DifferInId, Components.toVersion] at h ⊢
    by_cases h1 : c.epoch = d.epoch ∧ c.number = d.number ∧ c.pre.sn = d.pre.sn
    · have h4 : idPad c.pre.id = idPad d.pre.id :=
        not_not.mp fun h4 => h ⟨h1.1, h1.2.1, h1.2.2, h4⟩
      rw [h4, Std.ReflOrd.compare_self, Ordering.eq_then]
    · -- the difference is before the id
      have hpre : (Ord.compare c.epoch d.epoch).then ((Ord.compare c.number d.number).then
          (Ord.compare c.pre.sn d.pre.sn)) ≠ .eq := by
        simp only [ne_eq, Ordering.then_eq_eq, compare_eq_iff_eq]
        exact h1
      simp only [← Ordering.then_assoc] at hpre ⊢
      generalize ((Ord.compare c.epoch d.epoch).then (Ord.compare c.number d.number)).then
        (Ord.compare c.pre.sn d.pre.sn) = o at hpre ⊢
      cases o with
      | eq => exact absurd rfl hpre
      | lt => rfl
      | gt => rfl

/-- The versions `1.2.3-a.1.5` and `1.2.3-`. -/
theorem cmp_eq_standard_at :
    Version.cmp ⟨1, str "1.2.3".toList, some (str "a.1.5".toList), none, 0,
          upstreamKey 1 2 3, Lib.Joined.joined dot [[ch 'a'], pad 1, pad 5]⟩
        ⟨1, str "1.2.3".toList, some [], none, 0, upstreamKey 1 2 3, []⟩ =
      if DifferInId ⟨1, 100002000020011, 5, [], 0⟩ ⟨1, 100002000020001, 0, [], 0⟩ then
        Ord.compare (idPad []) (idPad [])
      else StandardVersion.cmp ⟨1, 100002000020011, 5, [], 0⟩ ⟨1, 100002000020001, 0, [], 0⟩ :=
  cmp_eq_standard (str "1.2.3-a.1.5".toList) (str "1.2.3-".toList) false false _ _ _ _
    (by decide) (by decide) (by decide) (by decide)

/-- **Two snapshots with different ids** that the orders sort in opposite ways, by the id and by the
revision. -/
theorem cmp_ne_standard :
    fresh (StandardVersion.parseVersion (str "1.2.3-a.1.5.b+1".toList) .earliest) =
        .ok ⟨1, 100002000020011, 5, str ['b'], 1⟩ ∧
      fresh (StandardVersion.parseVersion (str "1.2.3-a.1.5.a+2".toList) .earliest) =
        .ok ⟨1, 100002000020011, 5, str ['a'], 2⟩ ∧
      (do
        let x ← ofString (str "1.2.3-a.1.5.b+1".toList) true
        let y ← ofString (str "1.2.3-a.1.5.a+2".toList) true
        pure (x.cmp y)) = .ok .gt ∧
      StandardVersion.cmp ⟨1, 100002000020011, 5, str ['b'], 1⟩
        ⟨1, 100002000020011, 5, str ['a'], 2⟩ = .lt := by
  decide

end Build2.Libbpkg.Version
