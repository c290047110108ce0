import Build2.Libbpkg.Version.Accept

/-! # Printing a package version

A version prints as the text it was parsed from, put into a normal form. Parsing what was printed
gives the version back, and versions that compare as equal have the same canonical parts. -/

namespace Build2.Libbpkg.Version

open Build2.Lib.ByteString Build2.Lib.Decimal Build2.Lib.Joined Build2.Libbutl.ParseUint

/-! ### The normal form of a text -/

namespace Text

/-- The text that the version of `x` is printed as. -/
def normal (x : Text) (fold : Bool) : Text where
  epoch :=
    if x.epochValue ≠ defaultEpoch (canonical x.upstream) (x.release.map (joined dot)) then
      some (decimal x.epochValue)
    else none
  upstream := x.upstream
  release := x.release
  trailing := false
  revision := (x.revisionValue fold).map decimal

variable {x : Text} {fold : Bool}

theorem defaultEpoch_le (u : Bytes) (l : Option Bytes) : defaultEpoch u l ≤ 65535 := by
  unfold defaultEpoch
  split_ifs <;> omega

theorem WellFormed.epochValue_le (h : x.WellFormed) : x.epochValue ≤ 65535 := by
  unfold epochValue
  cases he : x.epoch with
  | none => exact defaultEpoch_le _ _
  | some e => exact (h.epoch e he).2

theorem WellFormed.revisionValue_le (h : x.WellFormed) {r : ℕ}
    (hr : x.revisionValue fold = some r) : r ≤ 65535 := by
  unfold revisionValue at hr
  cases he : x.revision with
  | none =>
    rw [he] at hr
    cases hr
  | some e =>
    rw [he] at hr
    simp only [Option.bind_some] at hr
    split_ifs at hr with h0
    · cases hr
      exact (h.revision e he).2

theorem isUint16_decimal {n : ℕ} (h : n ≤ 65535) : IsUint16 (decimal n) :=
  ⟨numeral_decimal n, by rwa [value_decimal]⟩

theorem WellFormed.normal (h : x.WellFormed) : (x.normal fold).WellFormed where
  epoch e he := by
    unfold Text.normal at he
    simp only at he
    split_ifs at he
    · cases he
      exact isUint16_decimal h.epochValue_le
    · cases he
  nonempty := h.nonempty
  upstream := h.upstream
  release := h.release
  trailing := nofun
  earliest he := by
    show (x.revisionValue fold).map decimal = none
    rw [revisionValue, h.earliest he]
    rfl
  revision r hr := by
    obtain ⟨n, hn, rfl⟩ := Option.map_eq_some_iff.mp hr
    exact isUint16_decimal (h.revisionValue_le hn)

theorem epochValue_normal : (x.normal fold).epochValue = x.epochValue := by
  unfold epochValue normal
  simp only
  split_ifs with h
  · exact value_decimal _
  · exact (not_not.mp h).symm

/-- A version that has been read is not folded a second time. -/
theorem revisionValue_normal : (x.normal fold).revisionValue false = x.revisionValue fold := by
  show ((x.revisionValue fold).map decimal).bind _ = _
  cases x.revisionValue fold with
  | none => rfl
  | some r => simp

/-- The normal form is the text of the same version. -/
theorem version_normal : (x.normal fold).version false = x.version fold := by
  unfold version
  rw [epochValue_normal, revisionValue_normal]
  rfl

theorem Valid.normal (h : x.Valid) : (x.normal fold).Valid where
  toWellFormed := h.toWellFormed.normal
  fits := h.fits
  notEmpty := by
    rw [epochValue_normal]
    exact h.notEmpty

theorem WellFormed.not_empty (h : x.WellFormed) : (x.version fold).empty = false := by
  have hne : joined dot x.upstream ≠ [] :=
    joined_ne_nil (fun u hu => (h.upstream u hu).1) h.nonempty
  exact decide_eq_false hne

theorem epochText_normal : (x.normal fold).epochText =
    if x.epochValue ≠ defaultEpoch (canonical x.upstream) (x.release.map (joined dot)) then
      ch '+' :: (decimal x.epochValue ++ [ch '-'])
    else [] := by
  unfold epochText Text.normal
  simp only
  split_ifs <;> rfl

theorem releaseText_normal : (x.normal fold).releaseText =
    match x.release.map (joined dot) with
    | some l => ch '-' :: l
    | none => [] := by
  unfold releaseText Text.normal
  cases x.release <;> simp

theorem revisionText_normal : (x.normal fold).revisionText =
    match x.revisionValue fold with
    | some r => ch '+' :: decimal r
    | none => [] := by
  unfold revisionText Text.normal
  cases x.revisionValue fold <;> rfl

/-- **A version prints as the normal form.** -/
theorem WellFormed.string_eq (h : x.WellFormed) :
    (x.version fold).string false false = .ok (x.normal fold).text := by
  have hi : (!false && (x.version fold).iteration ≠ 0) = false := rfl
  unfold Version.string
  rw [h.not_empty, if_neg (by simp), hi, text, epochText_normal, releaseText_normal,
    revisionText_normal]
  refine congrArg Except.ok ?_
  unfold version
  simp only [if_neg Bool.false_ne_true, List.append_nil, List.append_assoc]
  by_cases he : x.epochValue ≠ defaultEpoch (canonical x.upstream) (x.release.map (joined dot))
  · rw [if_pos he, if_pos he]
    simp only [str, Text.normal, List.map_cons, List.map_nil, List.cons_append, List.nil_append,
      List.append_assoc]
    rfl
  · rw [if_neg he, if_neg he]
    rfl

end Text

/-! ### The round trip -/

/-- **Printing a parsed version and parsing it again gives it back.** -/
theorem exists_string {s : Bytes} {fold : Bool} {v : Version} (h : ofString s fold = .ok v) :
    ∃ x : Text, x.Valid ∧ v = x.version false ∧ v.string false false = .ok x.text ∧
      ofString x.text false = .ok v := by
  obtain ⟨x, -, hx, rfl⟩ := exists_text h
  refine ⟨x.normal fold, hx.normal, Text.version_normal.symm, hx.toWellFormed.string_eq, ?_⟩
  exact (ofString_text hx.toWellFormed.normal).mpr ⟨hx.normal, Text.version_normal.symm⟩

/-! ### Versions that compare as equal -/

/-- What `compare` looks at. -/
def key (v : Version) : ℕ × Bytes × Bytes × Option ℕ × ℕ :=
  (v.epoch, v.canonicalUpstream, v.canonicalRelease, v.revision, v.iteration)

theorem cmp_eq_eq {x y : Version} : x.cmp y = .eq ↔ x.key = y.key := by
  unfold cmp Version.compare key
  simp only [Prod.mk.injEq]
  by_cases h1 : x.epoch = y.epoch
  swap
  · simp only [ne_eq, h1, not_false_eq_true, if_true, false_and, iff_false]
    split_ifs <;> nofun
  by_cases h2 : x.revision = y.revision
  swap
  · simp only [ne_eq, h1, not_true, if_false, Ordering.then_eq_eq, h2,
      not_false_eq_true, if_true, false_and, and_false, iff_false, Bool.false_eq_true]
    split_ifs <;> simp
  by_cases h3 : x.iteration = y.iteration
  · simp [h1, h2, h3, Ordering.then_eq_eq]
  · simp only [ne_eq, h1, not_true, if_false, Ordering.then_eq_eq, h2, h3,
      Bool.false_eq_true, Bool.not_false, Bool.true_and, and_false, iff_false]
    simp only [not_false_eq_true, decide_true, if_true]
    split_ifs <;> simp

theorem cmp_congr {x x' y y' : Version} (hx : x.key = x'.key) (hy : y.key = y'.key) :
    x.cmp y = x'.cmp y' := by
  simp only [key, Prod.mk.injEq] at hx hy
  obtain ⟨h1, h2, h3, h4, h5⟩ := hx
  obtain ⟨h6, h7, h8, h9, h10⟩ := hy
  unfold cmp Version.compare
  rw [h1, h2, h3, h4, h5, h6, h7, h8, h9, h10]

theorem cmp_self (x : Version) : x.cmp x = .eq := cmp_eq_eq.mpr rfl

end Build2.Libbpkg.Version
