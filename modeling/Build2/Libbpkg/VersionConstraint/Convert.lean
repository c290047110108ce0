import Build2.Libbpkg.Version.ComponentOrder
import Build2.Libbpkg.Version.Order
import Build2.Libbpkg.VersionConstraint.Basic
import Build2.Libbutl.StandardVersion.Endpoints

/-! # Shortcut constraints as package constraints

A shortcut is first a standard version constraint, whose endpoints are then converted. Both are
package versions unless the snapshot number of the left one is too long. -/

namespace Build2.Libbpkg.VersionConstraint

open Build2.Lib.ByteString Build2.Lib.Stateful Build2.Lib.Stateful.Comp Build2.Libbutl
  Build2.Libbutl.ParseUint
open StandardVersion (Bails Components IsRange IsShortcut Overflows Spells bound scanned)
open Version (ShortSn)

/-- Both endpoints are package versions. -/
def Converts (x : StandardVersion.Constraint) : Prop :=
  ∃ mn mx v w, x.minVersion = some mn ∧ x.maxVersion = some mx ∧
    Version.ofString mn.string true = .ok v ∧ Version.ofString mx.string true = .ok w

/-- The version after the operator is a snapshot whose number has more than sixteen digits. -/
def LongSnapshot (c : UInt8) (s : Bytes) : Prop :=
  ∃ v, Spells scanned .earliest v (s.dropWhile isBlank) ∧ ¬ Overflows c v ∧
    10 ^ 16 ≤ v.snapshotSn ∧ v.snapshotSn ≠ StandardVersion.latestSn

/-- A constraint that its constructor has made. -/
def Made (c : VersionConstraint) : Prop :=
  ∃ mnv mno mxv mxo, ofVersions mnv mno mxv mxo = .ok c

section

variable {a b : Components} {x : StandardVersion.Constraint} {c : UInt8} {s : Bytes}

/-- The right endpoint of a range may be converted if the left one may. -/
theorem converts_iff (h : IsRange a b x) (hb : b.pre.sn = 0) : Converts x ↔ ShortSn a.pre.sn := by
  have hmin := Version.ofString_standard h.min.toValid h.min.earliest true
  have hmax := Version.ofString_standard h.max.toValid h.max.earliest true
  have hx := h.eq
  subst hx
  constructor
  · rintro ⟨_, _, v, w, ⟨rfl⟩, ⟨rfl⟩, hv, -⟩
    exact hmin.mp ⟨v, hv⟩
  · intro hs
    obtain ⟨v, hv⟩ := hmin.mpr hs
    obtain ⟨w, hw⟩ := hmax.mpr (hb ▸ Version.shortSn_zero)
    exact ⟨_, _, v, w, rfl, rfl, hv, hw⟩

/-- **A range that may be converted is converted**: the order of the endpoints is kept. -/
theorem convert_eq_ok (h : IsRange a b x) (hb : b.pre.sn = 0) (hx : Converts x) :
    ∃ v w, Version.ofString a.toVersion.string true = .ok v ∧
      Version.ofString b.toVersion.string true = .ok w ∧
      ∀ s, (convert x).eval s = .ok ⟨some v, some w, false, true⟩ := by
  have ha : ShortSn a.pre.sn := (converts_iff h hb).mp hx
  have hs : ShortSn b.pre.sn := hb ▸ Version.shortSn_zero
  obtain ⟨_, _, v, w, hmn, hmx, hv, hw⟩ := hx
  have heq := h.eq
  subst heq
  cases hmn
  cases hmx
  have hvk := (Version.ofString_standard_key h.min.toValid h.min.earliest hv).1
  have hwk := (Version.ofString_standard_key h.max.toValid h.max.earliest hw).1
  have hlt : v.cmp w = .lt := by
    refine Version.cmp_lt_of_standard hvk hwk h.min.toValid h.max.toValid ha hs ?_
    have hstd := StandardVersion.cmp_eq_lt.mp h.lt
    have hrev := h.revision
    simp only [Components.toVersion] at hstd
    omega
  have hof : ofVersions (some v) false (some w) true = .ok ⟨some v, some w, false, true⟩ := by
    simp [ofVersions, hlt, pure, Except.pure]
  refine ⟨v, w, hv, hw, fun s => eval_mapError_eq_ok.mpr ?_⟩
  show (Version.ofString a.toVersion.string true >>= fun mnv =>
    Version.ofString b.toVersion.string true >>= fun mxv =>
      ofVersions (some mnv) false (some mxv) true) = _
  rw [hv, hw]
  exact hof

theorem shortcut_range (hc : IsShortcut c)
    (h : fresh (StandardVersion.Constraint.ofString (c :: s)) = .ok x) :
    ∃ a, IsRange a (bound c a.toVersion) x ∧ ¬ Overflows c a.toVersion ∧
      Spells scanned .earliest a.toVersion (s.dropWhile isBlank) := by
  obtain ⟨base, hbase, ho, rfl⟩ := (StandardVersion.ofString_shortcut_eq_ok hc).mp h
  obtain ⟨a, ha, rfl⟩ := StandardVersion.parsed_components hbase
  exact ⟨a, StandardVersion.isRange_shortcut ha ho, ho, StandardVersion.parseVersion_eq_ok.mp hbase⟩

/-- **Which shortcuts on a version are converted.** -/
theorem converts_shortcut (hc : IsShortcut c) :
    (∀ x, fresh (StandardVersion.Constraint.ofString (c :: s)) = .ok x → Converts x) ↔
      ¬ LongSnapshot c s := by
  have hb : ∀ v, (bound c v).pre.sn = 0 := by
    intro v
    rw [StandardVersion.bound_pre]
    rfl
  constructor
  · rintro h ⟨v, hv, ho, hlong, hlatest⟩
    have hp := StandardVersion.parseVersion_eq_ok.mpr hv
    have hx := (StandardVersion.ofString_shortcut_eq_ok hc).mpr ⟨v, hp, ho, rfl⟩
    obtain ⟨a, ha, rfl⟩ := StandardVersion.parsed_components hp
    have hconv := (converts_iff (StandardVersion.isRange_shortcut ha ho) (hb _)).mp (h _ hx)
    have hshort : a.pre.sn < 10 ^ 16 := hconv.resolve_right hlatest
    exact absurd hlong (Nat.not_le.mpr hshort)
  · intro h x hx
    obtain ⟨a, hr, ho, hs⟩ := shortcut_range hc hx
    refine (converts_iff hr (hb _)).mpr ?_
    by_contra hlong
    unfold ShortSn at hlong
    rw [not_or, Nat.not_lt] at hlong
    exact h ⟨_, hs, ho, hlong⟩

theorem avoids_assertion {α : Type} {y : Call α} (h : Bails y) : fresh y ≠ .error .assertion :=
  h .assertion nofun

theorem ofString_avoids (hc : IsShortcut c)
    (h : ∀ x, fresh (StandardVersion.Constraint.ofString (c :: s)) = .ok x → Converts x) :
    fresh (ofString (c :: s)) ≠ .error .assertion := by
  have h1 : ¬ (c = ch '(' ∨ c = ch '[') := by
    rcases hc with rfl | rfl <;> decide
  have h2 : c = ch '~' ∨ c = ch '^' := hc
  have heq : ofString (c :: s) = parseShortcut c s := by
    simp only [ofString, hd_cons, h1, h2, if_false, if_true, List.tail_cons]
  rw [heq, parseShortcut]
  split_ifs with hd
  · rcases hc with rfl | rfl <;> decide
  · refine avoids_bind (StandardVersion.steady_ofString_shortcut hc s)
      (avoids_assertion (StandardVersion.bails_ofString_shortcut hc s)) fun x hx => ?_
    obtain ⟨a, hr, -, -⟩ := shortcut_range hc hx
    have hb : (bound c a.toVersion).pre.sn = 0 := by
      rw [StandardVersion.bound_pre]
      rfl
    obtain ⟨v, w, -, -, hy⟩ := convert_eq_ok hr hb (h x hx)
    exact fun he => by
      rw [hy] at he
      cases he

/-! ### Completed shortcuts -/

/-- **A completed shortcut is converted**: its left endpoint is a snapshot only in lockstep, and
then the first one. -/
theorem dependent_range (hc : IsShortcut c) {dv : StandardVersion}
    (hv : StandardVersion.Constructed dv)
    (h : fresh (StandardVersion.Constraint.ofDependent [c, ch '$'] dv) = .ok x) :
    ∃ a b, IsRange a b x ∧ b.pre.sn = 0 ∧ Converts x := by
  obtain ⟨a, b, hr, ha, hb⟩ := StandardVersion.isRange_dependent hc hv h
  have hshort : ShortSn a.pre.sn := Or.inl (by omega)
  exact ⟨a, b, hr, hb, (converts_iff hr hb).mpr hshort⟩

theorem steady_pureCall {α : Type} (y : Except Fault α) : Steady .zero (pureCall y) := by
  intro s₁ z s₂ h
  cases h
  rfl

/-- The parser of a standard version does not fail, and it leaves `errno` as it was when it returns
a version. -/
theorem parseStandardVersion_run {t : Bytes} {f : StandardVersion.Flags} :
    (∀ e, (StandardVersion.parseStandardVersion t f).eval .zero ≠ .error e) ∧
      ∀ sv s', StandardVersion.parseStandardVersion t f .zero = (.ok (some sv), s') →
        s' = .zero ∧ fresh (StandardVersion.parseVersion t f) = .ok sv := by
  have hbails := StandardVersion.bails_parseVersion t f
  have hsteady := StandardVersion.steady_parseVersion t f
  have hsome : Steady .zero (do let v ← StandardVersion.parseVersion t f; pure (some v)) :=
    steady_bind hsteady fun _ => steady_pure _
  constructor
  · intro e he
    unfold StandardVersion.parseStandardVersion Comp.eval handle at he
    rcases hrun : (do let v ← StandardVersion.parseVersion t f; pure (some v) :
        Call (Option StandardVersion)) Errno.zero with ⟨e' | r, s'⟩
    · rw [hrun] at he
      have heval := congrArg Prod.fst hrun
      rcases bind_fails heval with hp | ⟨v, _, _, hv⟩
      · cases e' with
        | invalidArgument m => cases he
        | logicError m => exact hbails (.logicError m) (fun _ => nofun) hp
        | assertion => exact hbails .assertion (fun _ => nofun) hp
      · cases hv
    · rw [hrun] at he
      cases he
  · intro sv s' h
    have hrun := handle_run h fun e s₁ s₂ he => by
      cases e <;> cases he
    have hzero := hsome .zero _ _ hrun
    refine ⟨(Prod.mk.inj (hrun.symm.trans hzero)).2, ?_⟩
    obtain ⟨v, s₁, hv, hsv⟩ := bind_run (congrArg Prod.fst hzero)
    cases hsv
    exact congrArg Prod.fst hv

/-- Endpoints that were valid are valid when they have been completed. -/
theorem ofVersions_avoids {mnv mxv : Option Version} {mno mxo : Bool}
    (h : ((mnv.isSome || mxv.isSome) && (mnv.isSome || mno) && (mxv.isSome || mxo)) = true) :
    ofVersions mnv mno mxv mxo ≠ .error .assertion := by
  unfold ofVersions
  rw [h]
  cases mnv <;> cases mxv <;> simp [pure, Except.pure]
  split_ifs <;> simp

/-- A constraint has an endpoint, and one that refers to the dependent package twice is not open at
both ends. -/
theorem Made.endpoints {y : VersionConstraint} (h : Made y) :
    ((y.minVersion.isSome || y.maxVersion.isSome) && (y.minVersion.isSome || y.minOpen) &&
      (y.maxVersion.isSome || y.maxOpen)) = true ∧
    (y.isShortcut = true → ¬ (y.minOpen = true ∧ y.maxOpen = true)) := by
  obtain ⟨mnv, mno, mxv, mxo, h⟩ := h
  unfold ofVersions at h
  split_ifs at h with hopen
  rw [Bool.not_eq_true, Bool.not_eq_false'] at hopen
  cases mnv with
  | none =>
    cases h
    exact ⟨hopen, nofun⟩
  | some mn =>
    cases mxv with
    | none =>
      cases h
      exact ⟨hopen, nofun⟩
    | some mx =>
      simp only at h
      split_ifs at h with h1 h2 h3
      cases h
      refine ⟨hopen, fun hs ho => h2 ?_⟩
      obtain ⟨hmin, hmax⟩ := ho
      simp only [isShortcut, Bool.and_eq_true, decide_eq_true_eq] at hs
      have hswap : mn.cmp mx = (mx.cmp mn).swap := Version.compare_swap mx mn false false
      refine ⟨by rw [hswap, hs.1.2]; rfl, ?_⟩
      cases mx.empty with
      | false => exact Or.inl ⟨rfl, Or.inl hmin⟩
      | true => exact Or.inr ⟨rfl, hmin, hmax⟩

theorem exists_stripped {v : Version} (hv : Version.Constructed v) (hne : ¬ v.empty = true) :
    ∃ w, Version.ofParts v.epoch v.upstream v.release none 0 = .ok w := by
  obtain ⟨hu, hl⟩ := hv.forms
  have hup : v.upstream ≠ [] := fun h => hne (decide_eq_true h)
  refine ⟨_, Version.ofParts_eq_ok.mpr ⟨?_, _, _, hu, hl, rfl⟩⟩
  unfold Version.MembersOk
  rw [if_neg hup]
  exact fun _ => ⟨rfl, rfl⟩

theorem string_avoids (v : Version) : v.string false false ≠ .error .assertion := by
  unfold Version.string
  split_ifs <;> nofun

theorem completed_avoids (hc : IsShortcut c) {dv : StandardVersion}
    (hv : StandardVersion.Constructed dv) : Avoids .zero .assertion (do
      let vc ← StandardVersion.Constraint.ofDependent [c, ch '$'] dv
      convert vc) := by
  refine avoids_bind (StandardVersion.steady_ofDependent hc)
    (avoids_assertion (StandardVersion.bails_ofDependent hc hv)) fun x hx he => ?_
  obtain ⟨a, b, hr, hb, hconv⟩ := dependent_range hc hv hx
  obtain ⟨v, w, -, -, hy⟩ := convert_eq_ok hr hb hconv
  rw [hy] at he
  cases he

/-- **Completing a constraint fails no assertion.** -/
theorem effective_avoids {y : VersionConstraint} (hy : Made y) {v : Version}
    (hv : Version.Constructed v) : fresh (y.effective v) ≠ .error .assertion := by
  unfold effective
  refine avoids_ite (fun _ => avoids_fail nofun) fun hne => avoids_ite (fun _ => avoids_fail nofun)
    fun _ => avoids_bind (steady_pureCall _) ?_ fun w _ => avoids_ite (fun hs => ?_) fun _ => ?_
  · obtain ⟨w, hw⟩ := exists_stripped hv hne
    intro he
    cases hw.symm.trans he
  · refine avoids_ite (fun ho => absurd ho (hy.endpoints.2 hs)) fun _ =>
      avoids_bind (steady_pureCall _) (string_avoids w) fun vs _ he => ?_
    obtain ⟨hfail, hrun⟩ := parseStandardVersion_run (t := vs) (f := ⟨false, true⟩)
    rcases bind_fails he with hp | ⟨r, s', hp, hrest⟩
    · exact hfail _ hp
    cases r with
    | none => cases hrest
    | some sv =>
      obtain ⟨rfl, hsv⟩ := hrun sv s' hp
      refine completed_avoids ?_ ⟨.string vs ⟨false, true⟩, .zero, hsv⟩ hrest
      cases y.minOpen
      · exact Or.inr rfl
      · exact Or.inl rfl
  · refine ofVersions_avoids ?_
    simpa only [Option.isSome_map] using hy.endpoints.1

/-! ### The conversion -/

/-- **Which shortcuts are package constraints**: those that are not on a snapshot whose number is
too long. Those on the dependent version all are. -/
theorem converts_iff_not_long (c : UInt8) (hc : IsShortcut c) (s : Bytes) :
    (((∀ x, fresh (StandardVersion.Constraint.ofString (c :: s)) = .ok x → Converts x) ∧
        fresh (ofString (c :: s)) ≠ .error .assertion) ↔ ¬ LongSnapshot c s) ∧
      (∀ dv x, StandardVersion.Constructed dv →
        fresh (StandardVersion.Constraint.ofDependent [c, ch '$'] dv) = .ok x → Converts x) ∧
      ∀ y v, Made y → Version.Constructed v → fresh (y.effective v) ≠ .error .assertion := by
  refine ⟨?_, fun dv x hv hx => ?_, fun y v hy hv => effective_avoids hy hv⟩
  · rw [← converts_shortcut hc]
    exact ⟨And.left, fun h => ⟨h, ofString_avoids hc h⟩⟩
  · obtain ⟨_, _, -, -, h⟩ := dependent_range hc hv hx
    exact h

/-- The shortcut `~1.2.3`. -/
theorem converts_iff_not_long_tilde :
    ((∀ x, fresh (StandardVersion.Constraint.ofString (ch '~' :: str "1.2.3".toList)) = .ok x →
        Converts x) ∧
      fresh (ofString (ch '~' :: str "1.2.3".toList)) ≠ .error .assertion) ↔
      ¬ LongSnapshot (ch '~') (str "1.2.3".toList) :=
  (converts_iff_not_long (ch '~') (Or.inl rfl) (str "1.2.3".toList)).1

/-- **A snapshot number of seventeen digits**: the constraint is a standard one, and its conversion
fails the assertion. -/
theorem not_converts_long :
    (∃ x, fresh (StandardVersion.Constraint.ofString (str "~1.2.3-a.1.12345678901234567".toList)) =
      .ok x) ∧
    fresh (ofString (str "~1.2.3-a.1.12345678901234567".toList)) = .error .assertion :=
  ⟨⟨_, by rfl⟩, by decide⟩

end

end Build2.Libbpkg.VersionConstraint
