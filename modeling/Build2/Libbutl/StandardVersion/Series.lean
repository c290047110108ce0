import Build2.Libbutl.StandardVersion.Shortcut

/-! # The meaning of the shortcuts

A shortcut constraint written with a version that the parser accepts has exactly the versions of
the series it names. The constraint parser skips blanks after the operator, though, so that a
version that starts with blanks and a sign is read differently there. -/

namespace Build2.Libbutl.StandardVersion

open Build2.Lib.ByteString Build2.Lib.Decimal Build2.Lib.Stateful Build2.Lib.Stateful.Comp
  Build2.Libbutl.ParseUint

/-- A string of blanks and then a sign and so on. -/
def BlankSign (s : Bytes) : Prop :=
  isBlank (hd s) = true ∧ isSign (hd (s.dropWhile isBlank)) = true

theorem isLead_of_isSign {b : UInt8} (h : isSign b = true) : isLead b = false := by
  simp only [isSign, Bool.or_eq_true, decide_eq_true_eq] at h
  rcases h with rfl | rfl <;> decide

/-- No version starts with a sign, digits and something other than a dash. -/
theorem not_spells_sign {f : Flags} {w : StandardVersion} {b : UInt8} {ds r : Bytes}
    (hb : isSign b = true) (hds : Numeral ds) (hr : Stops isDigit r) (hm : hd r ≠ ch '-') :
    ¬ Spells scanned f w (b :: (ds ++ r)) := by
  intro h
  generalize ht : b :: (ds ++ r) = t at h
  have hlead : ∀ {u n} v, LaxNumber u n → b :: (ds ++ r) ≠ u ++ v := fun v hu he =>
    hu.hd_append_ne v (isLead_of_isSign hb) (by rw [← he]; rfl)
  cases h with
  | stub hf hz hr => exact hlead _ hz ht
  | @normal c ep ma mi bf pre rev hn =>
    have he := hn.epoch
    generalize c.epoch = e at he
    cases he with
    | absent => exact hlead _ hn.major.1 ht
    | @given u _ hu =>
      have he : ds ++ r = u ++
          ch '-' :: (ma ++ ch '.' :: (mi ++ ch '.' :: (bf ++ (pre ++ rev)))) := by
        have := (List.cons.inj ht).2
        simpa using this
      have hdig : isDigit (hd u) = true := by
        rw [← hd_append hu.ne_nil, ← he, hd_append hds.1]
        exact hds.isDigit_hd
      -- both digit runs end at the same place
      have h1 := dropWhile_run hds.2 hr
      rw [he, dropWhile_run (hu.numeral hdig).2 (stops_cons.mpr (by decide))] at h1
      rw [← h1] at hm
      exact hm rfl

/-- **Skipping blanks in front of a version** leaves it as it was, unless it leaves a sign. -/
theorem parse_dropBlanks {s : Bytes} {f : Flags} {v : StandardVersion}
    (h : fresh (parseVersion s f) = .ok v) :
    (BlankSign s ∧ ∀ w, fresh (parseVersion (s.dropWhile isBlank) f) ≠ .ok w) ∨
      ¬ BlankSign s ∧ fresh (parseVersion (s.dropWhile isBlank) f) = .ok v := by
  simp only [parseVersion_eq_ok, Ne] at h ⊢
  have hsign : ∀ {u n r}, LaxNumber u n → isBlank (hd u) = true → Stops isDigit r → hd r ≠ ch '-' →
      ∀ b ds, isSign b = true → Numeral ds → (u ++ r).dropWhile isBlank = b :: (ds ++ r) →
      BlankSign (u ++ r) ∧ ∀ w, ¬ Spells scanned f w ((u ++ r).dropWhile isBlank) := by
    intro u n r hu hbl hr hm b ds hb hds he
    refine ⟨⟨by rw [hd_append hu.ne_nil]; exact hbl, by rw [he]; exact hb⟩, fun w => ?_⟩
    rw [he]
    exact not_spells_sign hb hds hr hm
  have hlead : ∀ {u n r}, LaxNumber u n → ∀ u', LaxNumber u' n →
      (u ++ r).dropWhile isBlank = u' ++ r → ¬ BlankSign (u ++ r) := by
    rintro u n r - u' hu' he ⟨-, h2⟩
    rw [he, hd_append hu'.ne_nil] at h2
    have := hu'.lead
    rw [isLead_of_isSign h2] at this
    cases this
  cases h with
  | @stub z rev n hf hz hr =>
    have hstop := hr.closed.stops (p := isDigit) (by decide)
    have hm := hr.closed.hd_ne (c := ch '-') (by decide) (by decide)
    rcases LaxNumber.dropBlanks hz rev with ⟨hbl, b, ds, hb, hds, he⟩ | ⟨z', hz', he⟩
    · exact Or.inl (hsign hz hbl hstop hm b ds hb hds he)
    · refine Or.inr ⟨hlead hz z' hz' he, ?_⟩
      rw [he]
      exact .stub hf hz' hr
  | @normal c ep ma mi bf pre rev hn =>
    have he := hn.epoch
    cases hep : ep with
    | cons b t =>
      -- the plus in front of an epoch stays where it is
      have hp : b = ch '+' := by
        rw [hep] at he
        generalize c.epoch = e at he
        cases he
        rfl
      have hb : isBlank b = false := by
        rw [hp]
        decide
      refine Or.inr ⟨fun h => ?_, ?_⟩
      · exact absurd (hb.symm.trans h.1) nofun
      · rw [List.cons_append, dropWhile_of_stops (stops_cons.mpr hb), ← List.cons_append, ← hep]
        exact .normal hn
    | nil =>
      have hdot : isDigit (ch '.') = false := by decide
      have hm : ch '.' ≠ ch '-' := by decide
      rw [List.nil_append]
      rcases LaxNumber.dropBlanks hn.major.1 (ch '.' :: (mi ++ ch '.' :: (bf ++ (pre ++ rev)))) with
        ⟨hbl, b, ds, hb, hds, he'⟩ | ⟨ma', hma', he'⟩
      · exact Or.inl (hsign hn.major.1 hbl (stops_cons.mpr hdot) hm b ds hb hds he')
      · refine Or.inr ⟨hlead hn.major.1 ma' hma' he', ?_⟩
        rw [he']
        rw [hep] at hn
        exact .normal { hn with major := ⟨hma', hn.major.2⟩ }

/-! ### The series of a shortcut -/

theorem parse_of_ofString {c : UInt8} (hc : IsShortcut c) {s : Bytes} {x : Constraint}
    (h : fresh (Constraint.ofString (c :: s)) = .ok x) :
    ∃ base, fresh (parseVersion (s.dropWhile isBlank) .earliest) = .ok base := by
  rw [ofString_shortcut hc] at h
  unfold parseShortcut at h
  simp only at h
  split_ifs at h with hs
  · exact absurd h bail_ne_ok
  · obtain ⟨y, hy, -⟩ :=
      (eval_bind_eq_ok (steady_mapError (steady_shortcutEndpoints _ _) _)).mp h
    rw [eval_mapError_eq_ok, eval_shortcutEndpoints] at hy
    cases hp : fresh (parseVersion (s.dropWhile isBlank) .earliest) with
    | error e =>
      rw [hp] at hy
      cases hy
    | ok base => exact ⟨base, rfl⟩

/-- The shortcut constraint of operator `c` on the version string `s` can be constructed, and
whether it is satisfied by `v` is a matter of the series of `base`. -/
def HasSeries (c : UInt8) (s : Bytes) (base v : StandardVersion) : Prop :=
  ∃ x, fresh (Constraint.ofString (c :: s)) = .ok x ∧ (x.satisfies v = true ↔ InSeries c base v)

/-- A pre-release of `100000.0.0`, whose major version does not fit in its field. -/
def Beyond (v : StandardVersion) : Prop := 9999999999999990000 < v.version

/-- **The meaning of the shortcuts.** For a version string the parser accepts and a right endpoint
that can be formed, the constraint has the versions of the series, except that the string must not
start with blanks and a sign, and that a pre-release of `100000.0.0` reads as one of `0.0.0`. The
constructor never runs into its assertion. -/
theorem hasSeries_iff (c : UInt8) (hc : IsShortcut c) :
    (∀ s base v, fresh (parseVersion s .earliest) = .ok base → ¬ Overflows c base →
      Constructed v → v.stub = false →
      (HasSeries c s base v ↔ ¬ BlankSign s ∧
        ¬ (Beyond v ∧ v.epoch = base.epoch ∧ base.major = 0 ∧ base.minor = 0))) ∧
    ∀ s, fresh (Constraint.ofString (c :: s)) ≠ .error .assertion := by
  refine ⟨fun s base v h ho hv hstub => ?_,
    fun s => bails_ofString_shortcut hc s .assertion fun _ => nofun⟩
  rcases parse_dropBlanks h with ⟨hbs, hno⟩ | ⟨hbs, hok⟩
  · refine ⟨fun ⟨x, hx, _⟩ => ?_, fun h' => absurd hbs h'.1⟩
    obtain ⟨base', hbase⟩ := parse_of_ofString hc hx
    exact absurd hbase (hno base')
  · obtain ⟨h1, h2, -⟩ := parsed_regular hok
    have hreg := hv.regular hstub
    have hbeyond : Beyond v ↔ triple v.version = 1000000000000000 := by
      have := hreg.lt
      unfold Beyond triple
      omega
    have key := inSeries_iff (c := c) h1 h2 hreg
    have hx := parseShortcut_ok hc hok ho
    have hsat : HasSeries c s base v ↔
        (v.cmp base ≠ .lt ∧ v.cmp (bound c base).toVersion = .lt ↔ InSeries c base v) := by
      constructor
      · rintro ⟨x, hx', hs⟩
        rw [hx] at hx'
        cases hx'
        simpa [Constraint.satisfies] using hs
      · intro hs
        exact ⟨_, hx, by simpa [Constraint.satisfies] using hs⟩
    rw [hsat, key, hbeyond, and_iff_right hbs]
    exact not_congr and_left_comm

/-- The constraint `~1.2.3` and the version `1.2.9`. -/
theorem hasSeries_iff_at :
    HasSeries (ch '~') (str "1.2.3".toList) ⟨1, 100002000030000, 0, [], 0⟩
        ⟨1, 100002000090000, 0, [], 0⟩ ↔
      ¬ BlankSign (str "1.2.3".toList) ∧ ¬ (Beyond ⟨1, 100002000090000, 0, [], 0⟩ ∧ 1 = 1 ∧
        major ⟨1, 100002000030000, 0, [], 0⟩ = 0 ∧ minor ⟨1, 100002000030000, 0, [], 0⟩ = 0) :=
  (hasSeries_iff (ch '~') (Or.inl rfl)).1 _ _ _ (by decide) (by unfold Overflows; decide)
    ⟨.string (str "1.2.9".toList) .none, .zero, by decide⟩ (by decide)

/-- **`~ +1.2.3` is rejected** although ` +1.2.3` is a version, and `~0.0.1` does not have the
pre-releases of `100000.0.0`. -/
theorem not_hasSeries :
    (fresh (parseVersion (str " +1.2.3".toList) .earliest) = .ok ⟨1, 100002000030000, 0, [], 0⟩ ∧
      ∀ v, ¬ HasSeries (ch '~') (str " +1.2.3".toList) ⟨1, 100002000030000, 0, [], 0⟩ v) ∧
    (fresh (parseVersion (str "0.0.1".toList) .earliest) = .ok ⟨1, 10000, 0, [], 0⟩ ∧
      fresh (Ctor.run (.number 9999999999999990010 .none)) =
        .ok ⟨1, 9999999999999990010, 0, [], 0⟩ ∧
      ¬ HasSeries (ch '~') (str "0.0.1".toList) ⟨1, 10000, 0, [], 0⟩
        ⟨1, 9999999999999990010, 0, [], 0⟩) := by
  refine ⟨⟨by decide, ?_⟩, by decide, by decide, ?_⟩
  · rintro v ⟨x, hx, -⟩
    have he : fresh (Constraint.ofString (ch '~' :: str " +1.2.3".toList)) =
        .error (.invalidArgument "invalid version: '-' expected after epoch") := by decide
    exact absurd (he.symm.trans hx) nofun
  · rintro ⟨x, hx, hs⟩
    have he : fresh (Constraint.ofString (ch '~' :: str "0.0.1".toList)) =
        .ok ⟨some ⟨1, 10000, 0, [], 0⟩, some ⟨1, 999990001, 0, [], 0⟩, false, true⟩ := by decide
    rw [he] at hx
    cases hx
    have h1 : InSeries (ch '~') ⟨1, 10000, 0, [], 0⟩ ⟨1, 9999999999999990010, 0, [], 0⟩ :=
      ⟨rfl, by decide, by decide, fun _ => by decide⟩
    exact absurd (hs.mpr h1) (by decide)

end Build2.Libbutl.StandardVersion
