import Build2.Lib.Preprocessor
import Build2.Libbutl.StandardVersion.Constraint
import Build2.Libbutl.StandardVersion.Order

/-! # Version conditions

The substitutions of the version module for a dependency: the version constraint of the dependency
as a text, as a condition of the preprocessor on the macros for the version number and the snapshot
number, and as a check with this condition. -/

namespace Build2.Libbuild2.Version

open Build2.Lib.ByteString Build2.Lib.Decimal Build2.Lib.Stateful Build2.Lib.Stateful.Comp
  Build2.Lib.Preprocessor Build2.Libbutl Build2.Libbutl.StandardVersion Build2.Libbutl.ParseUint

/-! ### The substitution -/

structure Dependency where
  name : Bytes
  constraint : Bytes
  deriving DecidableEq, Repr

/-- What the version module knows of the project. -/
structure Module where
  project : Bytes
  version : StandardVersion
  dependencies : List (Bytes × Dependency)
  deriving DecidableEq, Repr

/-- The failures of `in_rule::lookup`. -/
inductive Failure
  | unknownDependency (name : Bytes)
  | noConstraint (name : Bytes)
  | invalidConstraint (name constraint : Bytes) (e : Fault)
  | missingParen
  | snapshotMacro (constraint : Bytes)
  | unknownSubstitution (name : Bytes)
  /-- One of the standard lookup. -/
  | standard (what : Bytes)
  /-- A constraint that cannot be printed. -/
  | string (e : Fault)
  deriving DecidableEq, Repr

/-- A call that may set `errno`. -/
abbrev Lookup (α : Type) := Comp Errno Failure α

/-- What `trim` strips. -/
def isTrimmed (c : UInt8) : Bool := c = ch ' ' || c = ch '\t' || c = ch '\n' || c = ch '\r'

def trim (s : Bytes) : Bytes :=
  ((s.dropWhile isTrimmed).reverse.dropWhile isTrimmed).reverse

/-- The `VER` and `SNAP` macros, from the position after the opening parenthesis, unless the closing
one is missing. The second one is empty if it is not there. -/
def macros (s : Bytes) : Option (Bytes × Bytes) :=
  let isMacro := fun c => !(c = ch ',' || c = ch ')')
  let vm := s.takeWhile isMacro
  match s.dropWhile isMacro with
  | [] => none
  | c :: r =>
    if c = ch ',' then
      if r.getLast? ≠ some (ch ')') then none else some (trim vm, trim r.dropLast)
    else some (trim vm, [])

/-- `cmp`: compare a macro with a number. -/
def compareText (m : Bytes) (o : List Char) (v : ℕ) : Bytes :=
  m ++ (str o ++ (decimal v ++ str ['U', 'L', 'L']))

/-- `max_cmp`. -/
def maxCmp (vm sm : Bytes) (mao : Bool) (mav : StandardVersion) (p : Bool) : Bytes :=
  if mav.snapshot then
    (if p then [ch '('] else []) ++
      (compareText vm [' ', '<', ' '] mav.version ++ (str [' ', '|', '|', ' ', '('] ++
        (compareText vm [' ', '=', '=', ' '] mav.version ++ (str [' ', '&', '&', ' '] ++
          (compareText sm (if mao then [' ', '<', ' '] else [' ', '<', '=', ' ']) mav.snapshotSn ++
            [ch ')']))))) ++
      if p then [ch ')'] else []
  else compareText vm (if mao then [' ', '<', ' '] else [' ', '<', '=', ' ']) mav.version

/-- `min_cmp`. -/
def minCmp (vm sm : Bytes) (mio : Bool) (miv : StandardVersion) (p : Bool) : Bytes :=
  if miv.snapshot then
    (if p then [ch '('] else []) ++
      (compareText vm [' ', '>', ' '] miv.version ++ (str [' ', '|', '|', ' ', '('] ++
        (compareText vm [' ', '=', '=', ' '] miv.version ++ (str [' ', '&', '&', ' '] ++
          (compareText sm (if mio then [' ', '>', ' '] else [' ', '>', '=', ' ']) miv.snapshotSn ++
            [ch ')']))))) ++
      if p then [ch ')'] else []
  else compareText vm (if mio then [' ', '>', ' '] else [' ', '>', '=', ' ']) miv.version

/-- The text of the constraint, for a caller that reports that it cannot be printed. -/
def constraintText (dc : Constraint) : Lookup Bytes := dc.string.mapError .string

/-- `cond`: the condition for a constraint. -/
def cond (dc : Constraint) (vm sm : Bytes) : Lookup Bytes :=
  if sm = [] ∧ (dc.minVersion.any snapshot ∨ dc.maxVersion.any snapshot) then do
    let s ← constraintText dc
    Comp.fail (.snapshotMacro s)
  else
    match dc.minVersion, dc.maxVersion with
    -- a constraint has an end point
    | none, none => Comp.fail (.string .assertion)
    | none, some mav => pure (maxCmp vm sm dc.maxOpen mav false)
    | some miv, none => pure (minCmp vm sm dc.minOpen miv false)
    | some miv, some mav =>
      if miv.cmp mav = .eq then
        pure (compareText vm [' ', '=', '=', ' '] miv.version ++
          if miv.snapshot then
            str [' ', '&', '&', ' '] ++ compareText sm [' ', '=', '=', ' '] miv.snapshotSn
          else [])
      else
        pure (minCmp vm sm dc.minOpen miv true ++
          (str [' ', '&', '&', ' '] ++ maxCmp vm sm dc.maxOpen mav true))

/-- `check`: a directive that fails unless the condition holds. -/
def check (dn : Bytes) (dc : Constraint) (vm sm : Bytes) : Lookup Bytes := do
  let c ← cond dc vm sm
  let s ← constraintText dc
  pure (str "#ifdef ".toList ++ vm ++ str "\n#  if !(".toList ++ c ++
    str ")\n#    error incompatible ".toList ++ dn ++ str " version, ".toList ++ dn ++ [ch ' '] ++
    s ++ str " is required\n#  endif\n#endif".toList)

/-- The substitution of a dependency for the name `vn` after the package name. -/
def substitute (dn : Bytes) (dc : Constraint) (vn : Bytes) : Lookup Bytes :=
  if vn = str ['v', 'e', 'r', 's', 'i', 'o', 'n'] then constraintText dc
  else if vn.take 6 = str ['c', 'h', 'e', 'c', 'k', '('] then
    match macros (vn.drop 6) with
    | none => Comp.fail .missingParen
    | some (vm, sm) => check dn dc vm sm
  else if vn.take 10 = str ['c', 'o', 'n', 'd', 'i', 't', 'i', 'o', 'n', '('] then
    match macros (vn.drop 10) with
    | none => Comp.fail .missingParen
    | some (vm, sm) => cond dc vm sm
  else Comp.fail (.unknownSubstitution vn)

/-- `in_rule::lookup`, with the standard lookup of the base rule. -/
def lookup (m : Module) (standard : Bytes → Lookup Bytes) (n : Bytes) : Lookup Bytes :=
  let pn := n.takeWhile fun c => c ≠ ch '.'
  match n.dropWhile fun c => c ≠ ch '.' with
  | [] => standard n
  | _ :: vn =>
    if pn = m.project then standard vn
    else
      match m.dependencies.lookup pn with
      | none => Comp.fail (.unknownDependency pn)
      | some dp =>
        if dp.constraint = [] then Comp.fail (.noConstraint dp.name)
        else do
          let dc ← (Constraint.ofDependent dp.constraint m.version).mapError
            (.invalidConstraint dp.name dp.constraint)
          substitute dp.name dc vn

/-! ### The constraints that are parsed -/

/-- A constraint has an end point, and two end points are in order: equal ones are closed. -/
structure Ordered (c : Constraint) : Prop where
  bounded : c.minVersion.isSome = true ∨ c.maxVersion.isSome = true
  order : ∀ mn mx, c.minVersion = some mn → c.maxVersion = some mx →
    mn.cmp mx = .lt ∨ mn.cmp mx = .eq ∧ c.minOpen = false ∧ c.maxOpen = false

theorem returns_ofVersions (mnv : Option StandardVersion) (mno : Bool)
    (mxv : Option StandardVersion) (mxo : Bool) :
    Returns Ordered (Constraint.ofVersions mnv mno mxv mxo) := by
  refine returns_ite (fun _ => returns_fail _) fun h => ?_
  simp only [Bool.not_eq_true', Bool.not_eq_false, Bool.and_eq_true, Bool.or_eq_true] at h
  have hb := h.1.1.1.1
  split
  · rename_i mn mx
    refine returns_ite (fun _ => returns_fail _) fun hgt => returns_ite (fun _ => returns_fail _)
      fun heq => returns_ite (fun _ => returns_fail _) fun _ => ?_
    rintro s c hc
    cases hc
    refine ⟨hb, ?_⟩
    rintro _ _ ⟨⟩ ⟨⟩
    cases ho : mn.cmp mx with
    | lt => exact Or.inl rfl
    | eq =>
      have hopen : ¬(mno = true ∨ mxo = true) := fun h => heq ⟨ho, h⟩
      simpa using hopen
    | gt => exact absurd ho hgt
  · rename_i hnot
    rintro s c hc
    cases hc
    exact ⟨hb, fun mn mx h1 h2 => (hnot mn mx h1 h2).elim⟩

theorem returns_parseConstraint (s : Bytes) (v : Option StandardVersion) :
    Returns Ordered (parseConstraint s v) := by
  refine returns_ite (fun _ => returns_fail _) fun _ => returns_ite (fun _ => returns_fail _)
    fun _ => returns_ite (fun _ => ?_) fun _ => returns_ite (fun _ => ?_) fun _ => ?_
  · refine returns_ite (fun _ => returns_fail _) fun _ => returns_bind fun mn =>
      returns_ite (fun _ => returns_fail _) fun _ => returns_bind fun mx =>
      returns_ite (fun _ => returns_fail _) fun _ => returns_ite (fun _ => returns_fail _)
      fun _ => returns_ofVersions _ _ _ _
  · refine returns_ite (fun _ => returns_fail _) fun _ => returns_bind ?_
    rintro ⟨mn, mx⟩
    exact returns_mapError _ (returns_ofVersions _ _ _ _)
  · unfold parseOperation
    split
    · exact returns_fail _
    · rename_i operation t _
      refine returns_ite (fun _ => returns_fail _) fun _ => returns_bind fun cv => ?_
      cases operation <;> exact returns_ofVersions _ _ _ _

theorem returns_parseConstraint_nil (v : Option StandardVersion) :
    Returns (fun _ => False) (parseConstraint [] v) := by
  refine returns_ite (fun _ => returns_fail _) fun _ => returns_ite (fun _ => returns_fail _)
    fun _ => returns_ite (fun h => absurd h (by decide)) fun _ =>
    returns_ite (fun h => absurd h (by decide)) fun _ => returns_fail _

/-! ### The value of a condition -/

/-- The comparison with an end point that is a snapshot: `o` is the operator on the version numbers
and `o'` the one on the snapshot numbers of the same version. -/
def snapshotText (vm sm : Bytes) (o o' : Op) (w : StandardVersion) : Bytes :=
  (vm ++ (o.text ++ literal w.version)) ++ (Op.or.text ++ (ch '(' ::
    ((vm ++ (Op.eq.text ++ literal w.version)) ++ (Op.and.text ++
      (sm ++ (o'.text ++ literal w.snapshotSn))) ++ [ch ')'])))

/-- The comparison with an end point. -/
def endText (vm sm : Bytes) (o o' : Op) (w : StandardVersion) (p : Bool) : Bytes :=
  if w.snapshot then
    if p then ch '(' :: (snapshotText vm sm o o' w ++ [ch ')']) else snapshotText vm sm o o' w
  else vm ++ (o'.text ++ literal w.version)

def maxOp (mao : Bool) : Op := if mao then .lt else .le

def minOp (mio : Bool) : Op := if mio then .gt else .ge

theorem maxCmp_eq (vm sm : Bytes) (mao : Bool) (w : StandardVersion) (p : Bool) :
    maxCmp vm sm mao w p = endText vm sm .lt (maxOp mao) w p := by
  unfold maxCmp endText snapshotText maxOp compareText literal
  cases mao <;> cases p <;> simp [Op.text, str]

theorem minCmp_eq (vm sm : Bytes) (mio : Bool) (w : StandardVersion) (p : Bool) :
    minCmp vm sm mio w p = endText vm sm .gt (minOp mio) w p := by
  unfold minCmp endText snapshotText minOp compareText literal
  cases mio <;> cases p <;> simp [Op.text, str]

/-- What the comparison with an end point says of a version number and a snapshot number. -/
def endHolds (o o' : Op) (w : StandardVersion) (x y : ℕ) : Bool :=
  if w.snapshot then
    o.holds x w.version || (Op.eq.holds x w.version && o'.holds y w.snapshotSn)
  else o'.holds x w.version

section

variable (env : Bytes → ℕ) {vm sm : Bytes} {o o' : Op} {w : StandardVersion}

theorem means_compare (hv : IsName vm) (n : ℕ) :
    Means env o.level (vm ++ (o.text ++ literal n)) (o.apply (env vm) n) :=
  (means_name hv).op (means_literal n)

theorem means_snapshot (hv : IsName vm) (hs : IsName sm) (ho : 2 ≤ o.level) (ho' : 3 ≤ o'.level) :
    Means env 1 (snapshotText vm sm o o' w) (Op.or.apply (o.apply (env vm) w.version)
      (Op.and.apply (Op.eq.apply (env vm) w.version) (o'.apply (env sm) w.snapshotSn))) := by
  have heq : Means env Op.and.level (vm ++ (Op.eq.text ++ literal w.version))
      (Op.eq.apply (env vm) w.version) := (means_compare env hv _).mono (by decide)
  have hsn : Means env (Op.and.level + 1) (sm ++ (o'.text ++ literal w.snapshotSn))
      (o'.apply (env sm) w.snapshotSn) := (means_compare env hs _).mono ho'
  have hnum : Means env Op.or.level (vm ++ (o.text ++ literal w.version))
      (o.apply (env vm) w.version) := (means_compare env hv _).mono (le_trans (by decide) ho)
  exact hnum.op (heq.op hsn).parens

/-- A comparison with an end point, an operand of `&&` if it has parentheses. -/
theorem means_end (hv : IsName vm) (hs : w.snapshot = true → IsName sm) (ho : 2 ≤ o.level)
    (ho' : 3 ≤ o'.level) (p : Bool) :
    ∃ k, Means env (if p then 3 else 1) (endText vm sm o o' w p) k ∧
      (k ≠ 0 ↔ endHolds o o' w (env vm) (env sm) = true) := by
  unfold endText endHolds
  by_cases h : w.snapshot = true
  · have hm := means_snapshot env (w := w) hv (hs h) ho ho'
    rw [if_pos h, if_pos h]
    refine ⟨Op.or.apply (o.apply (env vm) w.version) (Op.and.apply (Op.eq.apply (env vm) w.version)
      (o'.apply (env sm) w.snapshotSn)), ?_, ?_⟩
    · cases p with
      | true => exact hm.parens
      | false => exact hm
    · rw [apply_ne_zero]
      simp [Op.holds, apply_ne_zero]
  · rw [if_neg h, if_neg h]
    refine ⟨_, (means_compare env hv _).mono ?_, apply_ne_zero _ _ _⟩
    cases p with
    | true => exact ho'
    | false => exact le_trans (by decide) ho'

end

/-- The condition on a version number and a snapshot number for the left end point. -/
def lowerHolds (c : Constraint) (x y : ℕ) : Bool :=
  c.minVersion.all fun w => endHolds .gt (minOp c.minOpen) w x y

/-- The condition on a version number and a snapshot number for the right end point. -/
def upperHolds (c : Constraint) (x y : ℕ) : Bool :=
  c.maxVersion.all fun w => endHolds .lt (maxOp c.maxOpen) w x y

theorem three_le_maxOp (b : Bool) : 3 ≤ (maxOp b).level := by
  cases b <;> decide

theorem three_le_minOp (b : Bool) : 3 ≤ (minOp b).level := by
  cases b <;> decide

section

variable {c : Constraint} {vm sm : Bytes}

/-- There is a macro for the snapshot number if an end point is a snapshot. -/
theorem cond_macro {errno : Errno} {text : Bytes} (h : (cond c vm sm).eval errno = .ok text) :
    ¬(sm = [] ∧ (c.minVersion.any snapshot = true ∨ c.maxVersion.any snapshot = true)) := by
  intro hno
  unfold cond at h
  rw [if_pos hno] at h
  obtain ⟨_, _, -, h⟩ := bind_run h
  cases h

theorem cond_name {errno : Errno} {text : Bytes} (h : (cond c vm sm).eval errno = .ok text)
    (hs : sm = [] ∨ IsName sm) (w : StandardVersion)
    (hw : c.minVersion = some w ∨ c.maxVersion = some w) (hsn : w.snapshot = true) : IsName sm := by
  refine hs.resolve_left fun hnil => cond_macro h ⟨hnil, ?_⟩
  rcases hw with hw | hw
  · exact Or.inl (by simp [hw, hsn])
  · exact Or.inr (by simp [hw, hsn])

theorem means_equal (env : Bytes → ℕ) {w : StandardVersion} (hv : IsName vm)
    (hs : w.snapshot = true → IsName sm) :
    ∃ k, Means env 1 (compareText vm [' ', '=', '=', ' '] w.version ++
        if w.snapshot then
          str [' ', '&', '&', ' '] ++ compareText sm [' ', '=', '=', ' '] w.snapshotSn
        else []) k ∧
      (k ≠ 0 ↔ env vm = w.version ∧ (w.snapshot = true → env sm = w.snapshotSn)) := by
  have hnum : Means env Op.and.level (compareText vm [' ', '=', '=', ' '] w.version)
      (Op.eq.apply (env vm) w.version) := (means_compare env (o := .eq) hv _).mono (by decide)
  by_cases h : w.snapshot = true
  · have hsn : Means env (Op.and.level + 1) (compareText sm [' ', '=', '=', ' '] w.snapshotSn)
        (Op.eq.apply (env sm) w.snapshotSn) := means_compare env (o := .eq) (hs h) _
    have hand := (hnum.op hsn).mono (show 1 ≤ Op.and.level by decide)
    rw [if_pos h]
    refine ⟨_, hand, (apply_ne_zero _ _ _).trans ?_⟩
    simp [Op.holds, apply_ne_zero, h]
  · rw [if_neg h, List.append_nil]
    refine ⟨_, hnum.mono (by decide), (apply_ne_zero _ _ _).trans ?_⟩
    simp [Op.holds, h]

/-- **What a condition says**: both end points hold of the two macros. -/
theorem cond_holds (env : Bytes → ℕ) {errno : Errno} {text : Bytes} (hc : Ordered c)
    (hv : IsName vm) (hs : sm = [] ∨ IsName sm) (h : (cond c vm sm).eval errno = .ok text) :
    ∃ k, evaluate env text = some k ∧
      (k ≠ 0 ↔ (lowerHolds c (env vm) (env sm) && upperHolds c (env vm) (env sm)) = true) := by
  have hname := cond_name h hs
  suffices hmeans : ∃ k, Means env 1 text k ∧ (k ≠ 0 ↔
      (lowerHolds c (env vm) (env sm) && upperHolds c (env vm) (env sm)) = true) by
    obtain ⟨k, hk, hiff⟩ := hmeans
    exact ⟨k, hk.evaluate, hiff⟩
  have hmacro := cond_macro h
  unfold cond at h
  rw [if_neg hmacro] at h
  obtain ⟨mnv, mxv, mno, mxo⟩ := c
  unfold lowerHolds upperHolds
  cases mnv with
  | none =>
    cases mxv with
    | none => cases h
    | some mx =>
      have ht : maxCmp vm sm mxo mx false = text := Except.ok.inj h
      subst ht
      rw [maxCmp_eq]
      simpa using means_end env hv (hname mx (Or.inr rfl)) (by decide) (three_le_maxOp mxo) false
  | some mn =>
    cases mxv with
    | none =>
      have ht : minCmp vm sm mno mn false = text := Except.ok.inj h
      subst ht
      rw [minCmp_eq]
      simpa using means_end env hv (hname mn (Or.inl rfl)) (by decide) (three_le_minOp mno) false
    | some mx =>
      simp only at h
      by_cases heq : mn.cmp mx = .eq
      · rw [if_pos heq] at h
        obtain ⟨k, hk, hiff⟩ := means_equal env hv (hname mn (Or.inl rfl))
        have ht := Except.ok.inj h
        subst ht
        refine ⟨k, hk, hiff.trans ?_⟩
        obtain ⟨-, hn, hsn, -⟩ := cmp_eq_eq.mp heq
        obtain ⟨-, rfl, rfl⟩ := (hc.order mn mx rfl rfl).resolve_left (by rw [heq]; nofun)
        have hmax : mx.snapshot = mn.snapshot := congrArg (fun n => decide (n ≠ 0)) hsn.symm
        simp only [Option.all_some, endHolds, hmax, ← hn, ← hsn, minOp, maxOp, Op.holds]
        cases mn.snapshot <;> simp <;> omega
      · rw [if_neg heq] at h
        have ht := Except.ok.inj h
        subst ht
        rw [minCmp_eq, maxCmp_eq]
        obtain ⟨k, hk, hiff⟩ := means_end env hv (hname mn (Or.inl rfl))
          (show 2 ≤ Op.gt.level by decide) (three_le_minOp mno) true
        obtain ⟨k', hk', hiff'⟩ := means_end env hv (hname mx (Or.inr rfl))
          (show 2 ≤ Op.lt.level by decide) (three_le_maxOp mxo) true
        have hand : Means env Op.and.level _ (Op.and.apply k k') :=
          (hk.mono (by decide)).op hk'
        refine ⟨_, hand.mono (by decide), (apply_ne_zero _ _ _).trans ?_⟩
        simp [Op.holds, hiff, hiff']

end

/-! ### Conditions and constraints -/

/-- The right end point lets the version through. -/
def belowMax (c : Constraint) (v : StandardVersion) : Bool :=
  c.maxVersion.all fun w => if c.maxOpen then v.cmp w = .lt else v.cmp w ≠ .gt

/-- The left end point lets the version through. -/
def aboveMin (c : Constraint) (v : StandardVersion) : Bool :=
  c.minVersion.all fun w => if c.minOpen then v.cmp w = .gt else v.cmp w ≠ .lt

/-- The version is a snapshot of the version number of an end point that is not one. -/
def IsSnapshotOf (v w : StandardVersion) : Prop :=
  v.snapshot = true ∧ w.snapshot = false ∧ w.version = v.version

/-- **What the condition does not see**: the version is a snapshot of the number of an end point
that is not a snapshot, and this is a right end point that is closed or a left end point that is
open and the version is not to the right of the constraint. -/
def Blind (c : Constraint) (v : StandardVersion) : Prop :=
  (c.maxOpen = false ∧ ∃ w, c.maxVersion = some w ∧ IsSnapshotOf v w) ∨
    (c.minOpen = true ∧ belowMax c v = true ∧ ∃ w, c.minVersion = some w ∧ IsSnapshotOf v w)

/-- End points of the epoch of the version, without a revision. -/
def SameEpoch (c : Constraint) (v : StandardVersion) : Prop :=
  v.revision = 0 ∧ ∀ w, c.minVersion = some w ∨ c.maxVersion = some w →
    w.epoch = v.epoch ∧ w.revision = 0

section

variable {c : Constraint} {v w : StandardVersion}

/-- The snapshot number only matters next to an end point that is a snapshot. -/
theorem holds_congr {x y z : ℕ} (h : ∀ w, c.minVersion = some w ∨ c.maxVersion = some w →
    w.snapshot = true → y = z) :
    (lowerHolds c x y && upperHolds c x y) = (lowerHolds c x z && upperHolds c x z) := by
  have hend : ∀ o o' w, (w.snapshot = true → y = z) →
      endHolds o o' w x y = endHolds o o' w x z := by
    intro o o' w hw
    unfold endHolds
    by_cases hs : w.snapshot = true
    · rw [hw hs]
    · rw [if_neg hs, if_neg hs]
  unfold lowerHolds upperHolds
  congr 1
  · cases hmn : c.minVersion with
    | none => rfl
    | some w => exact hend _ _ w (h w (Or.inl hmn))
  · cases hmx : c.maxVersion with
    | none => rfl
    | some w => exact hend _ _ w (h w (Or.inr hmx))

theorem satisfies_eq (c : Constraint) (v : StandardVersion) :
    c.satisfies v = (aboveMin c v && belowMax c v) := by
  unfold Constraint.satisfies aboveMin belowMax
  cases c.minVersion <;> cases c.maxVersion <;> rfl

theorem isSnapshotOf_iff :
    IsSnapshotOf v w ↔ v.snapshotSn ≠ 0 ∧ w.snapshotSn = 0 ∧ w.version = v.version := by
  simp [IsSnapshotOf, snapshot]

/-- On the right the condition lets a snapshot through that is not in the constraint. -/
theorem upperHolds_iff (h : SameEpoch c v) :
    upperHolds c v.version v.snapshotSn = true ↔ belowMax c v = true ∨
      (c.maxOpen = false ∧ ∃ w, c.maxVersion = some w ∧ IsSnapshotOf v w) := by
  obtain ⟨hr, hw⟩ := h
  unfold upperHolds belowMax
  cases hmx : c.maxVersion with
  | none => simp
  | some w =>
    obtain ⟨he, hrw⟩ := hw w (Or.inr hmx)
    have hlt := cmp_eq_lt (x := v) (y := w)
    have hgt := cmp_eq_gt (x := v) (y := w)
    simp only [he, hr, hrw, lt_irrefl, false_or, true_and, and_false, or_false] at hlt hgt
    cases c.maxOpen <;> by_cases hs : w.snapshotSn = 0 <;>
      simp [endHolds, maxOp, Op.holds, snapshot, isSnapshotOf_iff, hlt, hgt, hs] <;> omega

/-- On the left the condition does not let a snapshot through that is in the constraint. -/
theorem lowerHolds_iff (h : SameEpoch c v) :
    lowerHolds c v.version v.snapshotSn = true ↔ aboveMin c v = true ∧
      ¬(c.minOpen = true ∧ ∃ w, c.minVersion = some w ∧ IsSnapshotOf v w) := by
  obtain ⟨hr, hw⟩ := h
  unfold lowerHolds aboveMin
  cases hmn : c.minVersion with
  | none => simp
  | some w =>
    obtain ⟨he, hrw⟩ := hw w (Or.inl hmn)
    have hlt := cmp_eq_lt (x := v) (y := w)
    have hgt := cmp_eq_gt (x := v) (y := w)
    simp only [he, hr, hrw, lt_irrefl, false_or, true_and, and_false, or_false] at hlt hgt
    cases c.minOpen <;> by_cases hs : w.snapshotSn = 0 <;>
      simp [endHolds, minOp, Op.holds, snapshot, isSnapshotOf_iff, hlt, hgt, hs] <;> omega

/-- A snapshot that the condition lets through on the right is not in the constraint, but the left
end point lets it through. -/
theorem lowerHolds_of_gain (hc : Ordered c) (h : SameEpoch c v) (ho : c.maxOpen = false)
    (hw : c.maxVersion = some w) (hs : IsSnapshotOf v w) :
    belowMax c v = false ∧ lowerHolds c v.version v.snapshotSn = true := by
  obtain ⟨hr, hends⟩ := h
  obtain ⟨he, hrw⟩ := hends w (Or.inr hw)
  obtain ⟨hv, hsw, hn⟩ := isSnapshotOf_iff.mp hs
  constructor
  · have hgt : v.cmp w = .gt :=
      cmp_eq_gt.mpr (Or.inr ⟨he.symm, Or.inr ⟨hn.symm, Or.inl (by omega)⟩⟩)
    simp [belowMax, hw, ho, hgt]
  · unfold lowerHolds
    cases hmn : c.minVersion with
    | none => rfl
    | some u =>
      obtain ⟨heu, hru⟩ := hends u (Or.inl hmn)
      have hcases : u.version < v.version ∨
          u.version = v.version ∧ u.snapshotSn = 0 ∧ c.minOpen = false := by
        rcases hc.order u w hmn hw with hlt | ⟨heq, hopen, -⟩
        · have := cmp_eq_lt.mp hlt
          omega
        · obtain ⟨-, h1, h2, -⟩ := cmp_eq_eq.mp heq
          exact Or.inr ⟨h1.trans hn, h2.trans hsw, hopen⟩
      rcases hcases with hlt | ⟨heq, hsu, hopen⟩
      · cases c.minOpen <;> cases hsu : u.snapshot <;>
          simp [endHolds, minOp, Op.holds, hsu, hlt, hlt.le]
      · simp [endHolds, minOp, Op.holds, snapshot, hsu, hopen, heq]

/-- **The condition agrees with the constraint** on the versions that it sees. -/
theorem holds_iff_satisfies (hc : Ordered c) (h : SameEpoch c v) :
    ((lowerHolds c v.version v.snapshotSn && upperHolds c v.version v.snapshotSn) = true ↔
      c.satisfies v = true) ↔ ¬ Blind c v := by
  rw [satisfies_eq, Bool.and_eq_true, Bool.and_eq_true]
  by_cases hgain : c.maxOpen = false ∧ ∃ w, c.maxVersion = some w ∧ IsSnapshotOf v w
  · obtain ⟨ho, w, hw, hs⟩ := hgain
    obtain ⟨hbelow, hlower⟩ := lowerHolds_of_gain hc h ho hw hs
    have hblind : Blind c v := Or.inl ⟨ho, w, hw, hs⟩
    have hupper := (upperHolds_iff h).mpr (Or.inr ⟨ho, w, hw, hs⟩)
    simp [hblind, hbelow, hlower, hupper]
  · have hblind : Blind c v ↔ (belowMax c v = true ∧
        (c.minOpen = true ∧ ∃ w, c.minVersion = some w ∧ IsSnapshotOf v w)) := by
      unfold Blind
      rw [or_iff_right hgain, and_left_comm]
    have hlost : (c.minOpen = true ∧ ∃ w, c.minVersion = some w ∧ IsSnapshotOf v w) →
        aboveMin c v = true := by
      rintro ⟨ho, w, hw, hs⟩
      obtain ⟨he, -⟩ := h.2 w (Or.inl hw)
      obtain ⟨hv, hsw, hn⟩ := isSnapshotOf_iff.mp hs
      have hgt : v.cmp w = .gt :=
        cmp_eq_gt.mpr (Or.inr ⟨he.symm, Or.inr ⟨hn.symm, Or.inl (by omega)⟩⟩)
      simp [aboveMin, hw, ho, hgt]
    rw [lowerHolds_iff h, upperHolds_iff h, hblind, or_iff_left hgain]
    by_cases hl : c.minOpen = true ∧ ∃ w, c.minVersion = some w ∧ IsSnapshotOf v w
    · simp [hl, hlost hl]
    · simp [hl]

end

/-! ### The substitution of a condition -/

/-- The name of a substitution, from the package name on. -/
def conditionName (pn args : Bytes) : Bytes :=
  pn ++ ch '.' :: (str ['c', 'o', 'n', 'd', 'i', 't', 'i', 'o', 'n', '('] ++ args)

theorem cond_returns {c : Constraint} {vm sm : Bytes} (hc : Ordered c) (hs : sm ≠ [])
    (errno : Errno) : ∃ text, (cond c vm sm).eval errno = .ok text := by
  obtain ⟨mnv, mxv, mno, mxo⟩ := c
  unfold cond
  rw [if_neg fun h => hs h.1]
  cases mnv with
  | none =>
    cases mxv with
    | none => exact absurd hc.bounded (by simp)
    | some mx => exact ⟨_, rfl⟩
  | some mn =>
    cases mxv with
    | none => exact ⟨_, rfl⟩
    | some mx =>
      simp only
      by_cases h : mn.cmp mx = .eq
      · exact ⟨_, by rw [if_pos h]; rfl⟩
      · exact ⟨_, by rw [if_neg h]; rfl⟩

theorem substitute_condition (dn : Bytes) (dc : Constraint) {args vm sm : Bytes}
    (h : macros args = some (vm, sm)) :
    substitute dn dc (str ['c', 'o', 'n', 'd', 'i', 't', 'i', 'o', 'n', '('] ++ args) =
      cond dc vm sm := by
  have h1 : str ['c', 'o', 'n', 'd', 'i', 't', 'i', 'o', 'n', '('] ++ args ≠
      str ['v', 'e', 'r', 's', 'i', 'o', 'n'] := by
    intro h
    have hlen := congrArg List.length h
    simp [str] at hlen
  have h2 : (str ['c', 'o', 'n', 'd', 'i', 't', 'i', 'o', 'n', '('] ++ args).take 6 ≠
      str ['c', 'h', 'e', 'c', 'k', '('] := by
    rw [List.take_append_of_le_length (by decide)]
    decide
  unfold substitute
  rw [if_neg h1, if_neg h2, List.take_left' (by decide), if_pos rfl, List.drop_left' (by decide), h]

theorem lookup_condition {m : Module} (standard : Bytes → Lookup Bytes) {pn args vm sm : Bytes}
    {dp : Dependency} {c : Constraint} {errno : Errno} (hp : pn ≠ m.project) (hdot : ch '.' ∉ pn)
    (hd : m.dependencies.lookup pn = some dp) (hm : macros args = some (vm, sm))
    (hc : (Constraint.ofDependent dp.constraint m.version).eval errno = .ok c) :
    ∃ e, (lookup m standard (conditionName pn args)).eval errno = (cond c vm sm).eval e := by
  have hpn : ∀ b ∈ pn, decide (b ≠ ch '.') = true := fun b hb => by
    simpa using ne_of_mem_of_not_mem hb hdot
  have hst : Stops (fun b => decide (b ≠ ch '.')) (ch '.' ::
      (str ['c', 'o', 'n', 'd', 'i', 't', 'i', 'o', 'n', '('] ++ args)) := stops_cons.mpr (by simp)
  have hne : dp.constraint ≠ [] := fun hnil => by
    unfold Constraint.ofDependent at hc
    rw [hnil] at hc
    exact returns_parseConstraint_nil _ _ _ hc
  have hrun : Constraint.ofDependent dp.constraint m.version errno =
      (.ok c, (Constraint.ofDependent dp.constraint m.version errno).2) := Prod.ext hc rfl
  refine ⟨(Constraint.ofDependent dp.constraint m.version errno).2, ?_⟩
  unfold lookup conditionName
  simp only [takeWhile_run hpn hst, dropWhile_run hpn hst, if_neg hp, hd, if_neg hne]
  show (andThen (mapError _ _) _ errno).1 = _
  unfold andThen mapError
  rw [hrun]
  show (substitute dp.name c _).eval _ = _
  rw [substitute_condition _ _ hm]

/-- **When the condition of a dependency is right.** Its value is that of the constraint unless the
version is one that it does not see. -/
theorem condition_iff (m : Module) (standard : Bytes → Lookup Bytes) (pn args vm sm : Bytes)
    (dp : Dependency) (c : Constraint) (v : StandardVersion) (env : Bytes → ℕ) (errno : Errno)
    (hp : pn ≠ m.project) (hdot : ch '.' ∉ pn) (hd : m.dependencies.lookup pn = some dp)
    (hc : (Constraint.ofDependent dp.constraint m.version).eval errno = .ok c)
    (hm : macros args = some (vm, sm)) (hvm : IsName vm) (hsm : sm = [] ∨ IsName sm)
    (hv : SameEpoch c v) (henv : env vm = v.version) (hsn : sm ≠ [] → env sm = v.snapshotSn) :
    (sm ≠ [] → ∃ text, (lookup m standard (conditionName pn args)).eval errno = .ok text) ∧
      ∀ text, (lookup m standard (conditionName pn args)).eval errno = .ok text →
        ∃ k, evaluate env text = some k ∧
          ((k ≠ 0 ↔ c.satisfies v = true) ↔ ¬ Blind c v) := by
  have hord : Ordered c := returns_parseConstraint _ _ _ _ hc
  obtain ⟨e, he⟩ := lookup_condition standard hp hdot hd hm hc
  rw [he]
  refine ⟨fun hs => cond_returns hord hs e, fun text ht => ?_⟩
  obtain ⟨k, hk, hiff⟩ := cond_holds env hord hvm hsm ht
  rw [henv] at hiff
  rw [holds_congr fun w hw hs => hsn (cond_name ht hsm w hw hs).1] at hiff
  exact ⟨k, hk, (iff_congr hiff Iff.rfl).trans (holds_iff_satisfies hord hv)⟩

/-- A project with a constraint on `f`. -/
def project (version : StandardVersion) (constraint : Bytes) : Module :=
  ⟨str ['a'], version, [(str ['f'], ⟨str ['f'], constraint⟩)]⟩

/-- No variables. -/
def noVariables (_ : Bytes) : Lookup Bytes := Comp.fail (.standard [])

/-- The macros of a version. -/
def macrosOf (v : StandardVersion) (s : Bytes) : ℕ :=
  if s = str ['V'] then v.version else v.snapshotSn

/-- `$f.condition(V,S)$` with the constraint `>= 1.2.3-` and the version `1.2.3-a.0.5`. -/
theorem condition_iff_earliest : ∃ text,
    (lookup
      (project ⟨1, 100002000030000, 0, [], 0⟩ (str ['>', '=', ' ', '1', '.', '2', '.', '3', '-']))
      noVariables (conditionName (str ['f']) (str ['V', ',', 'S', ')']))).eval .zero = .ok text ∧
    ∃ k, evaluate (macrosOf ⟨1, 100002000020001, 5, [], 0⟩) text = some k ∧ ((k ≠ 0 ↔
      (⟨some ⟨1, 100002000020001, 0, [], 0⟩, none, false, true⟩ : Constraint).satisfies
        ⟨1, 100002000020001, 5, [], 0⟩ = true) ↔
      ¬ Blind ⟨some ⟨1, 100002000020001, 0, [], 0⟩, none, false, true⟩
        ⟨1, 100002000020001, 5, [], 0⟩) := by
  have h := condition_iff
    (project ⟨1, 100002000030000, 0, [], 0⟩ (str ['>', '=', ' ', '1', '.', '2', '.', '3', '-']))
    noVariables (str ['f']) (str ['V', ',', 'S', ')']) (str ['V']) (str ['S'])
    ⟨str ['f'], str ['>', '=', ' ', '1', '.', '2', '.', '3', '-']⟩
    ⟨some ⟨1, 100002000020001, 0, [], 0⟩, none, false, true⟩
    ⟨1, 100002000020001, 5, [], 0⟩ (macrosOf ⟨1, 100002000020001, 5, [], 0⟩) .zero (by decide)
    (by decide) (by decide) (by decide) (by decide) (by decide) (Or.inr (by decide))
    ⟨rfl, by simp⟩ (by decide) (fun _ => by decide)
  obtain ⟨text, ht⟩ := h.1 (by decide)
  exact ⟨text, ht, h.2 text ht⟩

/-- **Snapshots that the conditions let through**: `1.2.3-a.0.5` for the constraint `<= 1.2.3-`, and
one for `<= $` with a version whose epoch is 0. -/
theorem condition_not_satisfies :
    (Constraint.ofDependent (str ['<', '=', ' ', '1', '.', '2', '.', '3', '-'])
          ⟨1, 100002000030000, 0, [], 0⟩).eval .zero =
        .ok ⟨none, some ⟨1, 100002000020001, 0, [], 0⟩, true, false⟩ ∧
      (⟨none, some ⟨1, 100002000020001, 0, [], 0⟩, true, false⟩ : Constraint).satisfies
          ⟨1, 100002000020001, 5, [], 0⟩ = false ∧
      (∃ text, (lookup (project ⟨1, 100002000030000, 0, [], 0⟩
          (str ['<', '=', ' ', '1', '.', '2', '.', '3', '-'])) noVariables
          (conditionName (str ['f']) (str ['V', ',', 'S', ')']))).eval .zero = .ok text ∧
        evaluate (macrosOf ⟨1, 100002000020001, 5, [], 0⟩) text = some 1) ∧
    (Constraint.ofDependent (str ['<', '=', ' ', '$']) ⟨0, 100002000020011, 0, [], 0⟩).eval .zero =
        .ok ⟨none, some ⟨0, 100002000020011, 0, [], 0⟩, true, false⟩ ∧
      (⟨none, some ⟨0, 100002000020011, 0, [], 0⟩, true, false⟩ : Constraint).satisfies
          ⟨0, 100002000020011, 5, [], 0⟩ = false ∧
      ∃ text,
        (lookup (project ⟨0, 100002000020011, 0, [], 0⟩ (str ['<', '=', ' ', '$'])) noVariables
          (conditionName (str ['f']) (str ['V', ',', 'S', ')']))).eval .zero = .ok text ∧
        evaluate (macrosOf ⟨0, 100002000020011, 5, [], 0⟩) text = some 1 := by
  have hv : IsName (str ['V']) := by decide
  have h1 := (means_compare (macrosOf ⟨1, 100002000020001, 5, [], 0⟩) (o := .le) hv
    100002000020001).evaluate
  have h2 := (means_compare (macrosOf ⟨0, 100002000020011, 5, [], 0⟩) (o := .le) hv
    100002000020011).evaluate
  refine ⟨by decide, by decide, ⟨compareText (str ['V']) [' ', '<', '=', ' '] 100002000020001, rfl,
    h1⟩, by decide, by decide,
      compareText (str ['V']) [' ', '<', '=', ' '] 100002000020011, rfl, h2⟩

end Build2.Libbuild2.Version
