import Build2.Libbpkg.BuildClass.RoundTrip
import Build2.Libbutl.Manifest.Comment
import Build2.Libbutl.Manifest.Parser
import Mathlib.Data.List.Forall2

/-! # Overriding manifest values

`package_manifest::override` and `validate_overrides` of `manifest.cxx`. The values are collected
from the pairs alone (`collect`), and overriding puts what they give in place of the groups that
they name (`override_eq`). -/

namespace Build2.Libbpkg.Override

open Build2.Lib.ByteString
open Build2.Libbutl.Manifest (NameValue splitComment splitLoop_nil splitLoop_other)
open BuildClass (Expr)

/-- `manifest_parsing`. -/
structure Parsing where
  name : Bytes
  line : ℕ
  column : ℕ
  description : Bytes
  deriving DecidableEq, Repr

/-- The error at a place of the source, or the one without a place if the source has no name. -/
def parsing (source : Bytes) (line column : ℕ) (located unlocated : Bytes) : Parsing :=
  if source ≠ [] then ⟨source, line, column, located⟩ else ⟨[], 0, 0, unlocated⟩

/-- `email`. -/
structure Email where
  address : Bytes
  comment : Bytes
  deriving DecidableEq, Repr

/-- `build_constraint`. -/
structure BuildConstraint where
  exclusion : Bool
  config : Bytes
  target : Option Bytes
  comment : Bytes
  deriving DecidableEq, Repr

/-! ### Values -/

/-- A text followed by a value in quotes. -/
def inValue (d v : Bytes) : Bytes := d ++ str " in '".toList ++ v ++ str "'".toList

/-- `parse_build_class_expr`. -/
def parseBuildClassExpr (nv : NameValue) (first : Bool) (source : Bytes) : Except Parsing Expr :=
  let v := (splitComment nv.value).1
  let d := str "invalid package builds".toList
  let badValue (what : Bytes) : Parsing :=
    parsing source nv.valueLine nv.valueColumn (d ++ str ": ".toList ++ what)
      (inValue d v ++ str ": ".toList ++ what)
  match Expr.ofString v (splitComment nv.value).2 with
  | .error (.invalidArgument what) => .error (badValue what)
  | .error .exhausted => .error (badValue []) -- never the case (`ofString_ne_exhausted`)
  | .ok r =>
    if r.underlyingClasses ≠ [] ∧ !first then
      .error (badValue (str "unexpected underlying class set".toList))
    else .ok r

/-- `parse_build_constraint`. -/
def parseBuildConstraint (nv : NameValue) (exclusion : Bool) (source : Bytes) :
    Except Parsing BuildConstraint :=
  let v := (splitComment nv.value).1
  let badValue (d : Bytes) : Parsing :=
    parsing source nv.valueLine nv.valueColumn d (inValue d v)
  let nm := v.takeWhile (· ≠ ch '/')
  let tg := if ch '/' ∈ v then some (v.dropWhile (· ≠ ch '/')).tail else none
  if nm = [] then .error (badValue (str "empty build configuration name pattern".toList))
  else if tg = some [] then .error (badValue (str "empty build target pattern".toList))
  else .ok ⟨exclusion, nm, tg, (splitComment nv.value).2⟩

/-- `parse_email`. -/
def parseEmail (nv : NameValue) (what source : Bytes) (empty : Bool) : Except Parsing Email :=
  let v := (splitComment nv.value).1
  if v = [] ∧ !empty then
    let d := str "empty ".toList ++ what ++ str " email".toList
    .error (parsing source nv.valueLine nv.valueColumn d d)
  else .ok ⟨v, (splitComment nv.value).2⟩

/-- The values that can be overridden. -/
inductive Kind
  | builds
  | buildInclude
  | buildExclude
  | buildEmail
  | buildWarningEmail
  | buildErrorEmail
  deriving DecidableEq, Repr

/-- The comparisons of the name, in order. -/
def kind (nv : NameValue) : Option Kind :=
  if nv.name = str "builds".toList then some .builds
  else if nv.name = str "build-include".toList then some .buildInclude
  else if nv.name = str "build-exclude".toList then some .buildExclude
  else if nv.name = str "build-email".toList then some .buildEmail
  else if nv.name = str "build-warning-email".toList then some .buildWarningEmail
  else if nv.name = str "build-error-email".toList then some .buildErrorEmail
  else none

/-- What is thrown for any other name. -/
def cannotOverride (nv : NameValue) (source : Bytes) : Parsing :=
  let d := str "cannot override '".toList ++ nv.name ++ str "' value".toList
  parsing source nv.nameLine nv.nameColumn d d

/-! ### Overriding -/

/-- `package_manifest`. The members that are no part of a group that can be overridden are the
rest. -/
structure PackageManifest (R : Type) where
  builds : List Expr
  buildConstraints : List BuildConstraint
  buildEmail : Option Email
  buildWarningEmail : Option Email
  buildErrorEmail : Option Email
  rest : R

variable {R : Type}

/-- The manifest, and the flags of the closures: a group is still to be reset. -/
structure Overriding (R : Type) where
  rbc : Bool
  rb : Bool
  rbe : Bool
  m : PackageManifest R

/-- `reset_build_constraints`. -/
def Overriding.resetBuildConstraints (s : Overriding R) : Overriding R :=
  if s.rbc then { s with m := { s.m with buildConstraints := [] }, rbc := false } else s

/-- `reset_builds`. -/
def Overriding.resetBuilds (s : Overriding R) : Overriding R :=
  if s.rb then
    { ({ s with m := { s.m with builds := [] } } : Overriding R).resetBuildConstraints with
      rb := false }
  else s

/-- `reset_build_emails`. -/
def Overriding.resetBuildEmails (s : Overriding R) : Overriding R :=
  if s.rbe then
    { s with
      m := { s.m with buildEmail := none, buildWarningEmail := none, buildErrorEmail := none },
      rbe := false }
  else s

/-- The body of the loop of `override`. -/
def overrideOne (source : Bytes) (s : Overriding R) (nv : NameValue) :
    Except Parsing (Overriding R) :=
  match kind nv with
  | some .builds =>
    let s := s.resetBuilds
    (parseBuildClassExpr nv s.m.builds.isEmpty source).map fun e =>
      { s with m := { s.m with builds := s.m.builds ++ [e] } }
  | some .buildInclude =>
    let s := s.resetBuildConstraints
    (parseBuildConstraint nv false source).map fun c =>
      { s with m := { s.m with buildConstraints := s.m.buildConstraints ++ [c] } }
  | some .buildExclude =>
    let s := s.resetBuildConstraints
    (parseBuildConstraint nv true source).map fun c =>
      { s with m := { s.m with buildConstraints := s.m.buildConstraints ++ [c] } }
  | some .buildEmail =>
    let s := s.resetBuildEmails
    (parseEmail nv (str "build".toList) source true).map fun e =>
      { s with m := { s.m with buildEmail := some e } }
  | some .buildWarningEmail =>
    let s := s.resetBuildEmails
    (parseEmail nv (str "build warning".toList) source false).map fun e =>
      { s with m := { s.m with buildWarningEmail := some e } }
  | some .buildErrorEmail =>
    let s := s.resetBuildEmails
    (parseEmail nv (str "build error".toList) source false).map fun e =>
      { s with m := { s.m with buildErrorEmail := some e } }
  | none => .error (cannotOverride nv source)

/-- `package_manifest::override`. -/
def override (m : PackageManifest R) (nvs : List NameValue) (source : Bytes) :
    Except Parsing (PackageManifest R) :=
  (nvs.foldlM (overrideOne source) ⟨true, true, true, m⟩).map Overriding.m

/-- `package_manifest::validate_overrides`. The rest of a default-constructed manifest is given. -/
def validateOverrides (initial : R) (nvs : List NameValue) (source : Bytes) :
    Except Parsing Unit :=
  (override (⟨[], [], none, none, none, initial⟩ : PackageManifest R) nvs source).map fun _ => ()

/-! ### What the pairs give -/

/-- The values of the groups. -/
structure Groups where
  builds : List Expr
  buildConstraints : List BuildConstraint
  buildEmail : Option Email
  buildWarningEmail : Option Email
  buildErrorEmail : Option Email

/-- A pair adds its value. Only the first class expression may have underlying classes. -/
def Groups.add (source : Bytes) (g : Groups) (nv : NameValue) : Except Parsing Groups :=
  match kind nv with
  | some .builds => (parseBuildClassExpr nv g.builds.isEmpty source).map fun e =>
      { g with builds := g.builds ++ [e] }
  | some .buildInclude => (parseBuildConstraint nv false source).map fun c =>
      { g with buildConstraints := g.buildConstraints ++ [c] }
  | some .buildExclude => (parseBuildConstraint nv true source).map fun c =>
      { g with buildConstraints := g.buildConstraints ++ [c] }
  | some .buildEmail => (parseEmail nv (str "build".toList) source true).map fun e =>
      { g with buildEmail := some e }
  | some .buildWarningEmail =>
      (parseEmail nv (str "build warning".toList) source false).map fun e =>
        { g with buildWarningEmail := some e }
  | some .buildErrorEmail => (parseEmail nv (str "build error".toList) source false).map fun e =>
      { g with buildErrorEmail := some e }
  | none => .error (cannotOverride nv source)

/-- What the pairs give, whatever is overridden. -/
def collect (source : Bytes) (nvs : List NameValue) : Except Parsing Groups :=
  nvs.foldlM (Groups.add source) ⟨[], [], none, none, none⟩

/-- The value of a pair is of one of the kinds. -/
def hasKind (ks : List Kind) (nv : NameValue) : Bool := (kind nv).any fun k => k ∈ ks

/-- Some of the pairs has a value of one of the kinds. -/
def names (ks : List Kind) (nvs : List NameValue) : Bool := nvs.any (hasKind ks)

/-- The group of builds, which has the group of build constraints as a part. -/
def buildsGroup : List Kind := [.builds]

def constraintsGroup : List Kind := [.builds, .buildInclude, .buildExclude]

def emailsGroup : List Kind := [.buildEmail, .buildWarningEmail, .buildErrorEmail]

/-- The manifest with the values of the groups in place of its own ones, in the groups that are
named. -/
def Groups.applied (g : Groups) (c b e : Bool) (m : PackageManifest R) : PackageManifest R :=
  { m with
    builds := if b then g.builds else m.builds
    buildConstraints := if c then g.buildConstraints else m.buildConstraints
    buildEmail := if e then g.buildEmail else m.buildEmail
    buildWarningEmail := if e then g.buildWarningEmail else m.buildWarningEmail
    buildErrorEmail := if e then g.buildErrorEmail else m.buildErrorEmail }

/-- The values of the groups are those of the pairs, in order. Of several emails for the same thing
the last one counts. -/
structure Groups.Holds (source : Bytes) (nvs : List NameValue) (g : Groups) : Prop where
  builds : List.Forall₂ (fun p e => parseBuildClassExpr p.1 (p.2 = 0) source = .ok e)
    (nvs.filter fun nv => kind nv = some .builds).zipIdx g.builds
  buildConstraints : List.Forall₂
    (fun nv c => parseBuildConstraint nv (kind nv = some .buildExclude) source = .ok c)
    (nvs.filter fun nv => kind nv = some .buildInclude ∨ kind nv = some .buildExclude)
    g.buildConstraints
  buildEmail : ((nvs.filter fun nv => kind nv = some .buildEmail).getLast?).map
      (fun nv => parseEmail nv (str "build".toList) source true) = g.buildEmail.map .ok
  buildWarningEmail : ((nvs.filter fun nv => kind nv = some .buildWarningEmail).getLast?).map
      (fun nv => parseEmail nv (str "build warning".toList) source false) =
    g.buildWarningEmail.map .ok
  buildErrorEmail : ((nvs.filter fun nv => kind nv = some .buildErrorEmail).getLast?).map
      (fun nv => parseEmail nv (str "build error".toList) source false) =
    g.buildErrorEmail.map .ok

variable {source : Bytes} {nvs : List NameValue} {nv : NameValue} {g g' : Groups}
  {m : PackageManifest R} {c b e : Bool}

/-! ### The loop -/

/-- The state of the loop in which the groups with a flag have been named: they are reset and hold
the values given so far. -/
def reached (g : Groups) (c b e : Bool) (m : PackageManifest R) : Overriding R :=
  ⟨!c, !b, !e, g.applied c b e m⟩

/-- A group that has not been named has got no values. -/
structure Groups.Fits (g : Groups) (c b e : Bool) : Prop where
  nested : b = true → c = true
  builds : b = false → g.builds = []
  buildConstraints : c = false → g.buildConstraints = []
  buildEmail : e = false → g.buildEmail = none
  buildWarningEmail : e = false → g.buildWarningEmail = none
  buildErrorEmail : e = false → g.buildErrorEmail = none

theorem resetBuildConstraints_reached (h : g.Fits c b e) :
    (reached g c b e m).resetBuildConstraints = reached g true b e m := by
  cases c with
  | true => rfl
  | false =>
    have hempty := h.buildConstraints rfl
    simp [Overriding.resetBuildConstraints, reached, Groups.applied, hempty]

theorem resetBuilds_reached (h : g.Fits c b e) :
    (reached g c b e m).resetBuilds = reached g true true e m := by
  cases b with
  | true =>
    rw [h.nested rfl]
    rfl
  | false =>
    have hempty := h.builds rfl
    cases c with
    | true => simp [Overriding.resetBuilds, Overriding.resetBuildConstraints, reached,
        Groups.applied, hempty]
    | false =>
      have hempty' := h.buildConstraints rfl
      simp [Overriding.resetBuilds, Overriding.resetBuildConstraints, reached, Groups.applied,
        hempty, hempty']

theorem resetBuildEmails_reached (h : g.Fits c b e) :
    (reached g c b e m).resetBuildEmails = reached g c b true m := by
  cases e with
  | true => rfl
  | false =>
    have hempty := h.buildEmail rfl
    have hempty' := h.buildWarningEmail rfl
    have hempty'' := h.buildErrorEmail rfl
    simp [Overriding.resetBuildEmails, reached, Groups.applied, hempty, hempty', hempty'']

/-- **A step of the loop**: what the pair gives is added, and its group is reset before that if it
has not been. -/
theorem overrideOne_reached (h : g.Fits c b e) :
    overrideOne source (reached g c b e m) nv = (g.add source nv).map fun g' =>
      reached g' (c || hasKind constraintsGroup nv) (b || hasKind buildsGroup nv)
        (e || hasKind emailsGroup nv) m := by
  rw [overrideOne, Groups.add, resetBuilds_reached h, resetBuildConstraints_reached h,
    resetBuildEmails_reached h, hasKind, hasKind, hasKind]
  rcases hk : kind nv with _ | k
  · rfl
  · cases k with
    | builds =>
      have hflag : (reached g true true e m).m.builds.isEmpty = g.builds.isEmpty := rfl
      dsimp only
      rw [hflag]
      rcases parseBuildClassExpr nv g.builds.isEmpty source with _ | x <;>
        simp [Except.map, reached, Groups.applied, constraintsGroup, buildsGroup, emailsGroup]
    | buildInclude =>
      rcases parseBuildConstraint nv false source with _ | x <;>
        simp [Except.map, reached, Groups.applied, constraintsGroup, buildsGroup, emailsGroup]
    | buildExclude =>
      rcases parseBuildConstraint nv true source with _ | x <;>
        simp [Except.map, reached, Groups.applied, constraintsGroup, buildsGroup, emailsGroup]
    | buildEmail =>
      rcases parseEmail nv (str "build".toList) source true with _ | x <;>
        simp [Except.map, reached, Groups.applied, constraintsGroup, buildsGroup, emailsGroup]
    | buildWarningEmail =>
      rcases parseEmail nv (str "build warning".toList) source false with _ | x <;>
        simp [Except.map, reached, Groups.applied, constraintsGroup, buildsGroup, emailsGroup]
    | buildErrorEmail =>
      rcases parseEmail nv (str "build error".toList) source false with _ | x <;>
        simp [Except.map, reached, Groups.applied, constraintsGroup, buildsGroup, emailsGroup]

/-- What adding a pair does. -/
inductive Added (source : Bytes) (g : Groups) (nv : NameValue) : Groups → Prop
  | builds (x : Expr) (hk : kind nv = some .builds)
    (hx : parseBuildClassExpr nv g.builds.isEmpty source = .ok x) :
    Added source g nv { g with builds := g.builds ++ [x] }
  | buildConstraint (x : BuildConstraint)
    (hk : kind nv = some .buildInclude ∨ kind nv = some .buildExclude)
    (hx : parseBuildConstraint nv (kind nv = some .buildExclude) source = .ok x) :
    Added source g nv { g with buildConstraints := g.buildConstraints ++ [x] }
  | buildEmail (x : Email) (hk : kind nv = some .buildEmail)
    (hx : parseEmail nv (str "build".toList) source true = .ok x) :
    Added source g nv { g with buildEmail := some x }
  | buildWarningEmail (x : Email) (hk : kind nv = some .buildWarningEmail)
    (hx : parseEmail nv (str "build warning".toList) source false = .ok x) :
    Added source g nv { g with buildWarningEmail := some x }
  | buildErrorEmail (x : Email) (hk : kind nv = some .buildErrorEmail)
    (hx : parseEmail nv (str "build error".toList) source false = .ok x) :
    Added source g nv { g with buildErrorEmail := some x }

theorem map_ok {α β : Type} {x : Except Parsing α} {f : α → β} {y : β}
    (h : x.map f = .ok y) : ∃ z, x = .ok z ∧ f z = y := by
  cases x with
  | error e => exact absurd h (by simp [Except.map])
  | ok z => exact ⟨z, rfl, Except.ok.inj h⟩

theorem added_of_add (h : g.add source nv = .ok g') : Added source g nv g' := by
  rw [Groups.add] at h
  rcases hk : kind nv with _ | k
  · rw [hk] at h
    exact absurd h (by simp)
  · rw [hk] at h
    cases k with
    | builds =>
      obtain ⟨x, hx, rfl⟩ := map_ok h
      exact .builds x hk hx
    | buildInclude =>
      obtain ⟨x, hx, rfl⟩ := map_ok h
      refine .buildConstraint x (.inl hk) ?_
      rw [hk]
      exact hx
    | buildExclude =>
      obtain ⟨x, hx, rfl⟩ := map_ok h
      refine .buildConstraint x (.inr hk) ?_
      rw [hk]
      exact hx
    | buildEmail =>
      obtain ⟨x, hx, rfl⟩ := map_ok h
      exact .buildEmail x hk hx
    | buildWarningEmail =>
      obtain ⟨x, hx, rfl⟩ := map_ok h
      exact .buildWarningEmail x hk hx
    | buildErrorEmail =>
      obtain ⟨x, hx, rfl⟩ := map_ok h
      exact .buildErrorEmail x hk hx

theorem fits_add (h : g.Fits c b e) (ha : g.add source nv = .ok g') :
    g'.Fits (c || hasKind constraintsGroup nv) (b || hasKind buildsGroup nv)
      (e || hasKind emailsGroup nv) := by
  obtain ⟨hn, hb, hc, he, hw, hr⟩ := h
  cases added_of_add ha with
  | builds x hk hx =>
    constructor <;> simp_all [hasKind, constraintsGroup, buildsGroup, emailsGroup]
  | buildConstraint x hk hx =>
    rcases hk with hk | hk <;>
      constructor <;> simp_all [hasKind, constraintsGroup, buildsGroup, emailsGroup]
  | buildEmail x hk hx =>
    constructor <;> simp_all [hasKind, constraintsGroup, buildsGroup, emailsGroup]
  | buildWarningEmail x hk hx =>
    constructor <;> simp_all [hasKind, constraintsGroup, buildsGroup, emailsGroup]
  | buildErrorEmail x hk hx =>
    constructor <;> simp_all [hasKind, constraintsGroup, buildsGroup, emailsGroup]

/-- **The loop.** -/
theorem foldlM_reached (source : Bytes) (nvs : List NameValue) (m : PackageManifest R)
    (h : g.Fits c b e) :
    nvs.foldlM (overrideOne source) (reached g c b e m) =
      (nvs.foldlM (Groups.add source) g).map fun g' =>
        reached g' (c || names constraintsGroup nvs) (b || names buildsGroup nvs)
          (e || names emailsGroup nvs) m := by
  induction nvs generalizing g c b e with
  | nil => simp [names, pure, Except.pure, Except.map]
  | cons nv nvs ih =>
    rw [List.foldlM_cons, List.foldlM_cons, overrideOne_reached h]
    rcases ha : g.add source nv with _ | g'
    · rfl
    · have hrest := ih (fits_add h ha)
      simp only [Bool.or_assoc] at hrest
      exact hrest

/-- **Overriding** puts what the pairs give in place of the groups that they name. -/
theorem override_eq (m : PackageManifest R) (nvs : List NameValue) (source : Bytes) :
    override m nvs source = (collect source nvs).map fun g =>
      g.applied (names constraintsGroup nvs) (names buildsGroup nvs) (names emailsGroup nvs) m := by
  have hfits : Groups.Fits ⟨[], [], none, none, none⟩ false false false :=
    ⟨fun h => h, fun _ => rfl, fun _ => rfl, fun _ => rfl, fun _ => rfl, fun _ => rfl⟩
  have hloop := foldlM_reached source nvs m hfits
  simp only [Bool.false_or] at hloop
  have hstart : reached ⟨[], [], none, none, none⟩ false false false m = ⟨true, true, true, m⟩ :=
    rfl
  rw [hstart] at hloop
  rw [override, hloop, collect]
  cases List.foldlM (Groups.add source) _ nvs <;> rfl

/-! ### The values -/

theorem filter_snoc_pos {q : NameValue → Bool} (h : q nv = true) :
    (nvs ++ [nv]).filter q = nvs.filter q ++ [nv] := by
  rw [List.filter_append, List.filter_singleton, h]
  rfl

theorem filter_snoc_neg {q : NameValue → Bool} (h : q nv = false) :
    (nvs ++ [nv]).filter q = nvs.filter q := by
  rw [List.filter_append, List.filter_singleton, h]
  exact List.append_nil _

/-- The class expressions with one more: just the first one is parsed as the first. -/
theorem builds_snoc {xs : List NameValue} {es : List Expr} {x : Expr}
    (h : List.Forall₂ (fun p e => parseBuildClassExpr p.1 (p.2 = 0) source = .ok e) xs.zipIdx es)
    (hx : parseBuildClassExpr nv es.isEmpty source = .ok x) :
    List.Forall₂ (fun p e => parseBuildClassExpr p.1 (p.2 = 0) source = .ok e)
      (xs ++ [nv]).zipIdx (es ++ [x]) := by
  have hlen : xs.length = es.length := by
    have hl := h.length_eq
    rwa [List.length_zipIdx] at hl
  have hfirst : es.isEmpty = decide (0 + xs.length = 0) := by
    rw [Nat.zero_add, hlen]
    cases es <;> simp
  rw [List.zipIdx_append]
  refine List.rel_append h (.cons ?_ .nil)
  rw [← hfirst]
  exact hx

theorem holds_add (h : g.Holds source nvs) (ha : g.add source nv = .ok g') :
    g'.Holds source (nvs ++ [nv]) := by
  obtain ⟨hb, hc, he, hw, hr⟩ := h
  cases added_of_add ha with
  | builds x hk hx =>
    refine ⟨?_, ?_, ?_, ?_, ?_⟩
    · rw [filter_snoc_pos (decide_eq_true hk)]
      exact builds_snoc hb hx
    all_goals rw [filter_snoc_neg (by simp [hk])]; assumption
  | buildConstraint x hk hx =>
    refine ⟨?_, ?_, ?_, ?_, ?_⟩
    · rw [filter_snoc_neg (by rcases hk with hk | hk <;> simp [hk])]
      exact hb
    · rw [filter_snoc_pos (decide_eq_true hk)]
      exact List.rel_append hc (.cons hx .nil)
    all_goals rw [filter_snoc_neg (by rcases hk with hk | hk <;> simp [hk])]; assumption
  | buildEmail x hk hx =>
    refine ⟨?_, ?_, ?_, ?_, ?_⟩
    · rw [filter_snoc_neg (by simp [hk])]
      exact hb
    · rw [filter_snoc_neg (by simp [hk])]
      exact hc
    · rw [filter_snoc_pos (decide_eq_true hk), List.getLast?_concat, Option.map_some, hx]
      rfl
    all_goals rw [filter_snoc_neg (by simp [hk])]; assumption
  | buildWarningEmail x hk hx =>
    refine ⟨?_, ?_, ?_, ?_, ?_⟩
    · rw [filter_snoc_neg (by simp [hk])]
      exact hb
    · rw [filter_snoc_neg (by simp [hk])]
      exact hc
    · rw [filter_snoc_neg (by simp [hk])]
      exact he
    · rw [filter_snoc_pos (decide_eq_true hk), List.getLast?_concat, Option.map_some, hx]
      rfl
    · rw [filter_snoc_neg (by simp [hk])]
      exact hr
  | buildErrorEmail x hk hx =>
    refine ⟨?_, ?_, ?_, ?_, ?_⟩
    · rw [filter_snoc_neg (by simp [hk])]
      exact hb
    · rw [filter_snoc_neg (by simp [hk])]
      exact hc
    · rw [filter_snoc_neg (by simp [hk])]
      exact he
    · rw [filter_snoc_neg (by simp [hk])]
      exact hw
    · rw [filter_snoc_pos (decide_eq_true hk), List.getLast?_concat, Option.map_some, hx]
      rfl

theorem bind_ok {α β : Type} {x : Except Parsing α} {f : α → Except Parsing β} {y : β}
    (h : (x >>= f) = .ok y) : ∃ z, x = .ok z ∧ f z = .ok y := by
  cases x with
  | error e => exact absurd h (by simp [bind, Except.bind])
  | ok z => exact ⟨z, rfl, h⟩

theorem holds_collect (h : collect source nvs = .ok g) : g.Holds source nvs := by
  induction nvs using List.reverseRecOn generalizing g with
  | nil =>
    obtain rfl := Except.ok.inj h
    exact ⟨.nil, .nil, rfl, rfl, rfl⟩
  | append_singleton nvs nv ih =>
    rw [collect, List.foldlM_append] at h
    obtain ⟨g₁, hg₁, hadd⟩ := bind_ok h
    rw [List.foldlM_cons] at hadd
    obtain ⟨g₂, hg₂, hlast⟩ := bind_ok hadd
    obtain rfl := Except.ok.inj hlast
    exact holds_add (ih hg₁) hg₂

theorem applied_applied (g : Groups) (c b e : Bool) (m : PackageManifest R) :
    g.applied c b e (g.applied c b e m) = g.applied c b e m := by
  cases c <;> cases b <;> cases e <;> rfl

/-- **Overrides.** They are rejected with the same error whatever they are applied to. There are
values, those of the pairs in order, that replace the groups that are named, in any manifest, and
nothing else changes. Overriding again changes nothing. -/
theorem override_spec (nvs : List NameValue) (source : Bytes) (initial : R) :
    (∀ (m : PackageManifest R) (x : Parsing),
      override m nvs source = .error x ↔ validateOverrides initial nvs source = .error x) ∧
    ∃ g : Groups, ∀ m m' : PackageManifest R, override m nvs source = .ok m' →
      g.Holds source nvs ∧
      m' = g.applied (names constraintsGroup nvs) (names buildsGroup nvs)
        (names emailsGroup nvs) m ∧
      override m' nvs source = .ok m' := by
  constructor
  · intro m x
    rw [validateOverrides, override_eq, override_eq]
    cases collect source nvs <;> simp [Except.map]
  · rcases hc : collect source nvs with x | g
    · refine ⟨⟨[], [], none, none, none⟩, fun m m' h => ?_⟩
      rw [override_eq, hc] at h
      exact absurd h (by simp [Except.map])
    · refine ⟨g, fun m m' h => ?_⟩
      rw [override_eq, hc] at h
      obtain rfl := Except.ok.inj h
      refine ⟨holds_collect hc, rfl, ?_⟩
      rw [override_eq, hc, Except.map, applied_applied]

/-- The pair `build-exclude: x`. -/
def sampleExclude : NameValue := ⟨str "build-exclude".toList, [120], 1, 1, 1, 16, 0, 13, 17⟩

/-- A manifest with a build constraint and an email address. -/
def sampleManifest : PackageManifest Unit :=
  ⟨[], [⟨false, [121], none, []⟩], some ⟨[97], []⟩, none, none, ()⟩

theorem override_sample : override sampleManifest [sampleExclude] [] =
    .ok { sampleManifest with buildConstraints := [⟨true, [120], none, []⟩] } := by
  have hvalue : splitComment sampleExclude.value = ([120], []) := by
    show splitComment [120] = _
    rw [splitComment, splitLoop_other _ _ (by decide) (by decide), splitLoop_nil]
    decide
  have hx : parseBuildConstraint sampleExclude true [] = .ok ⟨true, [120], none, []⟩ := by
    unfold parseBuildConstraint
    rw [hvalue]
    rfl
  have hkind : kind sampleExclude = some .buildExclude := by decide
  have hone : overrideOne [] ⟨true, true, true, sampleManifest⟩ sampleExclude =
      .ok ⟨false, true, true,
        { sampleManifest with buildConstraints := [⟨true, [120], none, []⟩] }⟩ := by
    unfold overrideOne
    rw [hkind, hx]
    rfl
  rw [override, List.foldlM_cons, hone]
  rfl

/-- The constraint takes the place of the one that the manifest has, and the email stays. -/
theorem override_spec_exclude : ∃ m', override sampleManifest [sampleExclude] [] = .ok m' ∧
    m'.buildConstraints = [⟨true, [120], none, []⟩] ∧ m'.buildEmail = some ⟨[97], []⟩ ∧
      override m' [sampleExclude] [] = .ok m' := by
  obtain ⟨g, hg⟩ := (override_spec [sampleExclude] [] ()).2
  exact ⟨_, override_sample, rfl, rfl, (hg _ _ override_sample).2.2⟩

end Build2.Libbpkg.Override
