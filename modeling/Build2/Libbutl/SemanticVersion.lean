import Build2.Libbutl.StandardVersion.Parse

/-! # Semantic versions

The class `semantic_version` and its parser, which reads numbers with the same `parse_uint64` as the
parser of standard versions. -/

namespace Build2.Libbutl

open Build2.Lib.ByteString Build2.Lib.Stateful Build2.Lib.Stateful.Comp Build2.Libbutl.ParseUint

/-- A `semantic_version` object. -/
structure SemanticVersion where
  major : ℕ := 0
  minor : ℕ := 0
  patch : ℕ := 0
  build : Bytes := []
  deriving DecidableEq, Repr

namespace SemanticVersion

open StandardVersion (bail orBail)

/-- A number of any value that fits. -/
def parseNumber (s : Bytes) : Comp Errno Unit (ℕ × Bytes) := parseUint64 s 0 (2 ^ 64 - 1)

/-- The patch version, if there is one, and the position after it: that of the dot where what
follows it is not a number. -/
def parsePatch (s : Bytes) : Call (ℕ × Bytes) :=
  if hd s = ch '.' then do
    let patch ← (parseNumber s.tail).attempt
    match patch with
    | some (patch, s) => pure (patch, s)
    | none => pure (0, s)
  else pure (0, s)

/-- Whether the separators `bs` admit a build component that starts with `c`. -/
def separates (bs : Option Bytes) (c : UInt8) : Bool :=
  match bs with
  | none => false
  | some bs => bs = [] || bs.contains c

/-- The build component, if there is one. -/
def parseBuild (s : Bytes) (bs : Option Bytes) : Call Bytes :=
  if hd s ≠ 0 then
    if !separates bs (hd s) then bail "junk after version" else pure s
  else pure []

/-- `parse_semantic_version_impl`. The separators are a C string, absent for `nullptr`. -/
def parseSemanticVersionImpl (s : Bytes) (p : ℕ) (bs : Option Bytes) : Call SemanticVersion := do
  let (major, s) ← orBail (parseNumber (s.drop p)) "invalid major version"
  if hd s ≠ ch '.' then bail "'.' expected after major version"
  else do
    let (minor, s) ← orBail (parseNumber s.tail) "invalid minor version"
    let (patch, s) ← parsePatch s
    let build ← parseBuild s bs
    pure ⟨major, minor, patch, build⟩

/-- `parse_semantic_version (s, p, bs)`. -/
def parseSemanticVersion (s : Bytes) (p : ℕ) (bs : Option Bytes) :
    Call (Option SemanticVersion) :=
  Comp.handle (do let v ← parseSemanticVersionImpl s p bs; pure (some v)) fun
    | .invalidArgument _ => pure none
    | e => Comp.fail e

/-- `semantic_version (s, p, bs)`. -/
def ofString (s : Bytes) (p : ℕ) (bs : Option Bytes) : Call SemanticVersion :=
  parseSemanticVersionImpl s p bs

/-! ### The grammar -/

/-- A build component: nothing, or a text that starts with a separator. -/
def BuildText (bs : Option Bytes) (r build : Bytes) : Prop :=
  if hd r = 0 then build = [] else separates bs (hd r) = true ∧ build = r

/-- No number starts here. -/
def NoNumber (s : Bytes) : Prop :=
  ∀ t n r, s = t ++ r → Stops isDigit r → ¬ LaxNumber t n

/-- `[.<patch>][<build>]` -/
inductive PatchText (bs : Option Bytes) : ℕ → Bytes → Bytes → Prop
  | given {t r build : Bytes} {n : ℕ} (hn : LaxNumber t n) (hr : Stops isDigit r)
      (hb : BuildText bs r build) : PatchText bs n build (ch '.' :: (t ++ r))
  | absent {r build : Bytes} (hr : hd r = ch '.' → NoNumber r.tail) (hb : BuildText bs r build) :
      PatchText bs 0 build r

/-- **`<major>.<minor>[.<patch>][<build>]`**, the numbers as they are scanned. -/
def Spells (bs : Option Bytes) (v : SemanticVersion) (s : Bytes) : Prop :=
  ∃ ma mi r, s = ma ++ ch '.' :: (mi ++ r) ∧ LaxNumber ma v.major ∧ LaxNumber mi v.minor ∧
    Stops isDigit r ∧ PatchText bs v.patch v.build r

/-! ### What the parser accepts -/

theorem steady_number (s : Bytes) (m : String) : Steady .zero (orBail (parseNumber s) m) :=
  steady_mapError (steady_parseUint64 _ _ _) _

theorem LaxNumber_le {t : Bytes} {n : ℕ} (h : LaxNumber t n) : n ≤ 2 ^ 64 - 1 := by
  obtain ⟨sp, sg, ds, -, -, -, -, hlt, rfl⟩ := h
  split_ifs <;> omega

theorem parseNumber_eq_ok {s r : Bytes} {n : ℕ} :
    (parseNumber s).eval .zero = .ok (n, r) ↔
      ∃ t, s = t ++ r ∧ LaxNumber t n ∧ Stops isDigit r := by
  unfold parseNumber
  rw [parseUint64_eq_ok]
  refine exists_congr fun t => and_congr_right fun _ => and_congr_right fun h => ?_
  simp only [Nat.zero_le, LaxNumber_le h, true_and]

theorem number_eq_ok {s r : Bytes} {n : ℕ} {m : String} :
    (orBail (parseNumber s) m).eval .zero = .ok (n, r) ↔
      ∃ t, s = t ++ r ∧ LaxNumber t n ∧ Stops isDigit r :=
  eval_mapError_eq_ok.trans parseNumber_eq_ok

/-- The patch version is read, or left alone with `errno` spoilt by a number that does not fit. -/
theorem parsePatch_eq (s : Bytes) :
    (hd s = ch '.' ∧ ∃ n r, (parseNumber s.tail).eval .zero = .ok (n, r) ∧
        parsePatch s .zero = (.ok (n, r), .zero)) ∨
      (hd s = ch '.' → NoNumber s.tail) ∧ ∃ e, parsePatch s .zero = (.ok (0, s), e) := by
  by_cases hdot : hd s = ch '.'
  swap
  · exact Or.inr ⟨fun h => absurd h hdot, .zero, by rw [parsePatch, if_neg hdot]; rfl⟩
  have hs : Steady .zero (parseNumber s.tail) := steady_parseUint64 _ _ _
  have hp : parsePatch s .zero = match parseNumber s.tail .zero with
      | (.ok (n, r), e) => (.ok (n, r), e)
      | (.error _, e) => (.ok (0, s), e) := by
    rw [parsePatch, if_pos hdot]
    show andThen (attempt _) _ _ = _
    unfold andThen attempt
    rcases parseNumber s.tail .zero with ⟨_ | ⟨n, r⟩, e⟩ <;> rfl
  rcases hx : parseNumber s.tail .zero with ⟨_ | ⟨n, r⟩, e⟩
  · refine Or.inr ⟨fun _ t n r ht hr hn => ?_, e, by rw [hp, hx]⟩
    have hok := parseNumber_eq_ok.mpr ⟨t, ht, hn, hr⟩
    unfold eval at hok
    rw [hx] at hok
    cases hok
  · have he := hs _ _ _ hx
    rw [he] at hx
    cases hx
    exact Or.inl ⟨hdot, n, r, by rw [eval, he], by rw [hp, he]⟩

theorem eval_parseBuild {bs : Option Bytes} {r b : Bytes} {e : Errno} :
    (parseBuild r bs).eval e = .ok b ↔ BuildText bs r b := by
  unfold parseBuild BuildText
  by_cases h0 : hd r = 0
  · simp only [h0, ne_eq, not_true, if_false, if_true]
    exact ⟨fun h => by cases h; rfl, fun h => by rw [h]; rfl⟩
  · cases hsep : separates bs (hd r)
    · simp only [h0, ne_eq, not_false_eq_true, if_true, if_false, Bool.not_false,
        Bool.false_eq_true, false_and, iff_false]
      nofun
    · simp only [h0, ne_eq, not_false_eq_true, if_true, if_false, Bool.not_true, Bool.false_eq_true,
        true_and]
      exact ⟨fun h => by cases h; rfl, fun h => by rw [h]; rfl⟩

/-- The part after the minor version. -/
def parseRest (major minor : ℕ) (s : Bytes) (bs : Option Bytes) : Call SemanticVersion := do
  let (patch, s) ← parsePatch s
  let build ← parseBuild s bs
  pure ⟨major, minor, patch, build⟩

theorem eval_parseRest {ma mi : ℕ} {r : Bytes} {bs : Option Bytes} {v : SemanticVersion} :
    (parseRest ma mi r bs).eval .zero = .ok v ↔
      v.major = ma ∧ v.minor = mi ∧ PatchText bs v.patch v.build r := by
  have key : ∀ {n x e}, parsePatch r .zero = (.ok (n, x), e) →
      ((parseRest ma mi r bs).eval .zero = .ok v ↔
        v.major = ma ∧ v.minor = mi ∧ v.patch = n ∧ BuildText bs x v.build) := by
    intro n x e hp
    have h : (parseRest ma mi r bs).eval .zero =
        (do let b ← (parseBuild x bs).eval e; pure ⟨ma, mi, n, b⟩) := by
      unfold parseRest
      show (andThen _ _ _).1 = _
      unfold andThen
      rw [hp]
      show (andThen _ _ _).1 = _
      unfold andThen eval
      rcases parseBuild x bs e with ⟨_ | _, _⟩ <;> rfl
    rw [h]
    simp only [← eval_parseBuild (e := e)]
    constructor
    · intro h'
      cases hb : (parseBuild x bs).eval e with
      | error _ =>
        rw [hb] at h'
        cases h'
      | ok b =>
        rw [hb] at h'
        cases h'
        exact ⟨rfl, rfl, rfl, rfl⟩
    · rintro ⟨rfl, rfl, rfl, h4⟩
      rw [h4]
      rfl
  rcases parsePatch_eq r with ⟨hdot, n, x, hn, hp⟩ | ⟨hno, e, hp⟩
  · obtain ⟨t, ht, hlax, hx⟩ := parseNumber_eq_ok.mp hn
    have hr : r = ch '.' :: (t ++ x) := by rw [← ht]; exact eq_cons_of_hd hdot (by decide)
    rw [key hp]
    refine and_congr_right fun _ => and_congr_right fun _ => ⟨?_, fun h => ?_⟩
    · rintro ⟨hv, hb⟩
      rw [hr, hv]
      exact .given hlax hx hb
    · generalize hr' : r = r' at h
      generalize v.patch = pa at h ⊢
      generalize v.build = bu at h ⊢
      cases h with
      | @given t' x' _ _ hn' hx' hb' =>
        have htail : r.tail = t' ++ x' := by rw [hr']; rfl
        have hn'' := parseNumber_eq_ok.mpr ⟨t', htail, hn', hx'⟩
        rw [hn] at hn''
        cases hn''
        exact ⟨rfl, hb'⟩
      | absent hno hb =>
        rw [← hr'] at hno
        exact absurd hlax (hno hdot t n x ht hx)
  · rw [key hp]
    refine and_congr_right fun _ => and_congr_right fun _ => ⟨?_, fun h => ?_⟩
    · rintro ⟨hv, hb⟩
      rw [hv]
      exact .absent hno hb
    · generalize hr' : r = r' at h
      generalize v.patch = pa at h ⊢
      generalize v.build = bu at h ⊢
      cases h with
      | @given t' x' _ _ hn' hx' hb' =>
        have htail : r.tail = t' ++ x' := by rw [hr']; rfl
        exact absurd hn' (hno (by rw [hr']; rfl) _ _ _ htail hx')
      | absent hno hb => exact ⟨rfl, hr' ▸ hb⟩

/-- **What the parser accepts.** -/
theorem parseSemanticVersionImpl_eq_ok {s : Bytes} {p : ℕ} {bs : Option Bytes}
    {v : SemanticVersion} :
    fresh (parseSemanticVersionImpl s p bs) = .ok v ↔ Spells bs v (s.drop p) := by
  unfold fresh parseSemanticVersionImpl
  rw [eval_bind_eq_ok (steady_number _ _)]
  constructor
  · rintro ⟨⟨ma, w⟩, h1, h2⟩
    obtain ⟨t, ht, hma, hw⟩ := number_eq_ok.mp h1
    simp only at h2
    split_ifs at h2 with hdot
    · cases h2
    obtain ⟨⟨mi, x⟩, h3, h4⟩ := (eval_bind_eq_ok (steady_number _ _)).mp h2
    obtain ⟨u, hu, hmi, hx⟩ := number_eq_ok.mp h3
    obtain ⟨rfl, rfl, h5⟩ := eval_parseRest.mp h4
    refine ⟨t, u, x, ?_, hma, hmi, hx, h5⟩
    rw [ht, ← hu]
    exact congrArg _ (eq_cons_of_hd (not_not.mp hdot) (by decide))
  · rintro ⟨ma, mi, r, hs, hma, hmi, hr, hp⟩
    have hdot : isDigit (ch '.') = false := by decide
    refine ⟨(v.major, ch '.' :: (mi ++ r)), number_eq_ok.mpr ⟨ma, hs, hma, stops_cons.mpr hdot⟩, ?_⟩
    simp only [hd_cons, ne_eq, not_true, if_false, List.tail_cons]
    exact (eval_bind_eq_ok (steady_number _ _)).mpr
      ⟨(v.minor, r), number_eq_ok.mpr ⟨mi, rfl, hmi, hr⟩, eval_parseRest.mpr ⟨rfl, rfl, hp⟩⟩

/-! ### Numbers that do not fit -/

/-- Reading a version gets to a number at the position `u`. -/
inductive Reaches : Bytes → Bytes → Prop
  | major {u : Bytes} : Reaches u u
  | minor {ma u : Bytes} {n : ℕ} (hma : LaxNumber ma n) : Reaches (ma ++ ch '.' :: u) u
  | patch {ma mi u : Bytes} {n m : ℕ} (hma : LaxNumber ma n) (hmi : LaxNumber mi m) :
      Reaches (ma ++ ch '.' :: (mi ++ ch '.' :: u)) u

/-- Reading a version gets to a number that does not fit. -/
def HasExcess (s : Bytes) : Prop := ∃ u, Reaches s u ∧ Overruns u

theorem spoils_number_bind {α : Type} {s : Bytes} {m : String} {f : ℕ × Bytes → Call α} :
    Spoils .zero (orBail (parseNumber s) m >>= f) ↔
      Overruns s ∨ ∃ n r, (∃ t, s = t ++ r ∧ LaxNumber t n ∧ Stops isDigit r) ∧
        Spoils .zero (f (n, r)) := by
  rw [spoils_bind (steady_number _ _)]
  unfold orBail
  rw [spoils_mapError, parseNumber, spoils_parseUint64]
  simp only [Prod.exists, ← number_eq_ok (m := m)]
  rfl

theorem spoils_parsePatch {s : Bytes} :
    Spoils .zero (parsePatch s) ↔ hd s = ch '.' ∧ Overruns s.tail := by
  by_cases hdot : hd s = ch '.'
  · have h : (parsePatch s .zero).2 = (parseNumber s.tail .zero).2 := by
      rw [parsePatch, if_pos hdot]
      show (andThen (attempt _) _ _).2 = _
      unfold andThen attempt
      rcases parseNumber s.tail .zero with ⟨_ | ⟨n, r⟩, e⟩ <;> rfl
    rw [and_iff_right hdot, ← spoils_parseUint64, Spoils, h]
    rfl
  · rw [parsePatch, if_neg hdot]
    exact ⟨fun h => absurd rfl h, fun h => absurd h.1 hdot⟩

theorem spoils_parseRest {ma mi : ℕ} {r : Bytes} {bs : Option Bytes} :
    Spoils .zero (parseRest ma mi r bs) ↔ hd r = ch '.' ∧ Overruns r.tail := by
  have hb : ∀ {x e}, (parseBuild x bs e).2 = e := by
    intro x e
    unfold parseBuild
    split_ifs <;> rfl
  have h : (parseRest ma mi r bs .zero).2 = (parsePatch r .zero).2 := by
    show (andThen _ _ _).2 = _
    unfold andThen
    rcases parsePatch r .zero with ⟨_ | ⟨n, x⟩, e⟩
    · rfl
    · show (andThen _ _ _).2 = e
      unfold andThen
      have := hb (x := x) (e := e)
      rcases hx : parseBuild x bs e with ⟨_ | _, e'⟩ <;> rw [hx] at this <;> exact this
  rw [← spoils_parsePatch, Spoils, h]
  rfl

/-- **The parser leaves `ERANGE` behind when it gets to a number that does not fit.** -/
theorem spoils_parseSemanticVersionImpl {s : Bytes} {p : ℕ} {bs : Option Bytes} :
    Spoils .zero (parseSemanticVersionImpl s p bs) ↔ HasExcess (s.drop p) := by
  unfold parseSemanticVersionImpl
  generalize s.drop p = s
  rw [spoils_number_bind]
  constructor
  · rintro (h | ⟨n, w, ⟨ma, rfl, hma, -⟩, h⟩)
    · exact ⟨s, .major, h⟩
    simp only at h
    split_ifs at h with hdot
    · exact absurd rfl h
    have hw := eq_cons_of_hd (not_not.mp hdot) (by decide)
    rcases spoils_number_bind.mp h with h | ⟨m, x, ⟨mi, hx, hmi, -⟩, h⟩
    · exact ⟨w.tail, by rw [hw]; exact .minor hma, h⟩
    · obtain ⟨hdot', h⟩ := spoils_parseRest.mp h
      obtain ⟨y, rfl⟩ : ∃ y, x = ch '.' :: y := ⟨x.tail, eq_cons_of_hd hdot' (by decide)⟩
      exact ⟨y, by rw [hw, hx]; exact .patch hma hmi, h⟩
  · rintro ⟨u, hu, h⟩
    have hdot : isDigit (ch '.') = false := by decide
    cases hu with
    | major => exact Or.inl h
    | @minor ma _ n hma =>
      refine Or.inr ⟨n, ch '.' :: u, ⟨ma, rfl, hma, stops_cons.mpr hdot⟩, ?_⟩
      simp only [hd_cons, ne_eq, not_true, if_false, List.tail_cons]
      exact spoils_number_bind.mpr (Or.inl h)
    | @patch ma mi _ n m hma hmi =>
      refine Or.inr ⟨n, _, ⟨ma, rfl, hma, stops_cons.mpr hdot⟩, ?_⟩
      simp only [hd_cons, ne_eq, not_true, if_false, List.tail_cons]
      exact spoils_number_bind.mpr (Or.inr ⟨m, ch '.' :: u, ⟨mi, rfl, hmi, stops_cons.mpr hdot⟩,
        spoils_parseRest.mpr ⟨rfl, h⟩⟩)

/-! ### Failures -/

/-- **Once `ERANGE` is there, no version is accepted.** -/
theorem parseSemanticVersionImpl_erange (s : Bytes) (p : ℕ) (bs : Option Bytes) :
    parseSemanticVersionImpl s p bs .erange =
      (.error (.invalidArgument "invalid major version"), .erange) := by
  show andThen (orBail _ _) _ _ = _
  unfold andThen orBail mapError parseNumber
  rw [parseUint64_erange]

/-- After the minor version the only failure is a rest that cannot be a build component. -/
theorem eval_parseRest_error {ma mi : ℕ} {r : Bytes} {bs : Option Bytes} {e : Fault}
    (h : (parseRest ma mi r bs).eval .zero = .error e) :
    e = .invalidArgument "junk after version" := by
  have hp : ∃ n x e', parsePatch r .zero = (.ok (n, x), e') := by
    rcases parsePatch_eq r with ⟨-, n, x, -, hp⟩ | ⟨-, e, hp⟩
    · exact ⟨n, x, _, hp⟩
    · exact ⟨0, r, e, hp⟩
  obtain ⟨n, x, e', hp⟩ := hp
  have hb : ∀ {e''}, parseBuild x bs e' = (.error e, e'') →
      e = .invalidArgument "junk after version" := by
    intro e'' hb
    unfold parseBuild at hb
    split_ifs at hb <;> cases hb
    rfl
  change (andThen _ _ _).1 = _ at h
  unfold andThen at h
  rw [hp] at h
  change (andThen _ _ _).1 = _ at h
  unfold andThen at h
  rcases hx : parseBuild x bs e' with ⟨e₁ | b, e''⟩ <;> rw [hx] at h <;> cases h
  exact hb hx

/-- **A version is rejected at its major version exactly where that is not there**, and else for
another reason. -/
theorem parseSemanticVersionImpl_error {s : Bytes} {p : ℕ} {bs : Option Bytes} {e : Fault}
    (h : fresh (parseSemanticVersionImpl s p bs) = .error e) :
    ∃ m, e = .invalidArgument m ∧ (m = "invalid major version" ↔ NoNumber (s.drop p)) := by
  unfold fresh parseSemanticVersionImpl at h
  rw [eval_bind (steady_number _ _)] at h
  cases hn : (orBail (parseNumber (s.drop p)) "invalid major version").eval .zero with
  | error e' =>
    rw [hn] at h
    cases h
    refine ⟨"invalid major version", ?_, iff_of_true rfl fun t n r ht hr hlax => ?_⟩
    · rw [orBail, eval_mapError] at hn
      cases hx : (parseNumber (s.drop p)).eval .zero <;> rw [hx] at hn <;> cases hn
      rfl
    · rw [number_eq_ok.mpr ⟨t, ht, hlax, hr⟩] at hn
      cases hn
  | ok x =>
    obtain ⟨t, ht, hlax, hr⟩ := number_eq_ok.mp hn
    have hno : ¬ NoNumber (s.drop p) := fun hno => hno t _ _ ht hr hlax
    rw [hn] at h
    change (if hd x.2 ≠ ch '.' then _ else _ : Call _).eval .zero = _ at h
    split_ifs at h with hdot
    · cases h
      exact ⟨_, rfl, iff_of_false (by decide) hno⟩
    rw [eval_bind (steady_number _ _)] at h
    cases hm : (orBail (parseNumber x.2.tail) "invalid minor version").eval .zero with
    | error e' =>
      rw [hm] at h
      cases h
      rw [orBail, eval_mapError] at hm
      cases hy : (parseNumber x.2.tail).eval .zero <;> rw [hy] at hm <;> cases hm
      exact ⟨_, rfl, iff_of_false (by decide) hno⟩
    | ok y =>
      rw [hm] at h
      exact ⟨_, eval_parseRest_error h, iff_of_false (by decide) hno⟩

end SemanticVersion

end Build2.Libbutl
