import Build2.Libbpkg.Version.Print

/-! # Parsing a part

The constructor from parts parses the upstream and the release part on their own: lists of
components, the last of which may be empty. -/

namespace Build2.Libbpkg.Version

open Build2.Lib.ByteString Build2.Lib.Decimal Build2.Lib.Joined Build2.Libbutl.ParseUint
open Build2.Lib.Stateful (bind_eq_ok)

/-! ### A part -/

/-- In one of the parts: the components that are done and the one at hand. -/
def partState (m : Mode) (xs : List Bytes) (y : Bytes) : Scan :=
  if m = .upstream then
    { mode := m, canonUpstream := canonOf xs, comp := y, part := closed dot xs ++ y,
      upstream := joined dot xs }
  else
    { mode := m, canonRelease := canonOf xs, comp := y, part := closed dot xs ++ y,
      release := joined dot xs }

/-- The mode a part is parsed in. -/
def Parse.mode (pr : Parse) : Mode := if pr = .release then .release else .upstream

section

variable {m : Mode} {pr : Parse} {xs ws : List Bytes} {y w : Bytes} {st : Scan}

@[simp] theorem partState_mode : (partState m xs y).mode = m := by
  unfold partState
  split_ifs <;> rfl

@[simp] theorem partState_comp : (partState m xs y).comp = y := by
  unfold partState
  split_ifs <;> rfl

theorem Parse.mode_cases (pr : Parse) : pr.mode = .upstream ∨ pr.mode = .release := by
  unfold Parse.mode
  split_ifs
  · exact Or.inr rfl
  · exact Or.inl rfl

/-- The state once the component at hand has been added. -/
def addedState (m : Mode) (xs : List Bytes) (y : Bytes) : Scan :=
  if m = .upstream then
    { partState m xs y with
      canonUpstream := canonOf (xs ++ [y]), upstream := joined dot (xs ++ [y]) }
  else
    { partState m xs y with canonRelease := canonOf (xs ++ [y]), release := joined dot (xs ++ [y]) }

theorem addComponent_part (hm : m = .upstream ∨ m = .release) (hxs : ∀ x ∈ xs, IsWord x) :
    (partState m xs y).addComponent = .ok st ↔ Fits y ∧ st = addedState m xs y := by
  unfold Scan.addComponent addedState
  rw [partState_mode]
  rcases hm with rfl | rfl
  · refine (bind_eq_ok (x := (canonOf xs).add y (y.all isDigit))).trans ?_
    simp only [add_canonOf hxs, if_true, joined_snoc]
    constructor
    · rintro ⟨_, ⟨hf, rfl⟩, h⟩
      cases h
      exact ⟨hf, rfl⟩
    · rintro ⟨hf, rfl⟩
      exact ⟨_, ⟨hf, rfl⟩, rfl⟩
  · refine (bind_eq_ok (x := (canonOf xs).add y (y.all isDigit))).trans ?_
    simp only [add_canonOf hxs, reduceCtorEq, if_false, joined_snoc]
    constructor
    · rintro ⟨_, ⟨hf, rfl⟩, h⟩
      cases h
      exact ⟨hf, rfl⟩
    · rintro ⟨hf, rfl⟩
      exact ⟨_, ⟨hf, rfl⟩, rfl⟩

theorem step_dot (hm : m = .upstream ∨ m = .release) (hxs : ∀ x ∈ xs, IsWord x) :
    step pr (partState m xs y) dot = .ok st ↔
      y ≠ [] ∧ Fits y ∧ st = partState m (xs ++ [y]) [] := by
  have hok : ¬ (dot ≠ ch '.' ∧ pr ≠ .full) := fun h => h.1 rfl
  have hd : dot ≠ ch '-' := by decide
  have hne : m ≠ .epoch ∧ m ≠ .revision := by
    rcases hm with rfl | rfl <;> decide
  unfold step
  rw [if_pos (show isSeparator dot = true by decide), if_neg hok]
  by_cases hy : y = []
  · rw [if_pos (by simp [hy])]
    exact iff_of_false nofun fun h => h.1 hy
  · rw [if_neg (by simp [hy, hd, hne.1, hne.2]), bind_eq_ok, Scan.endComponent,
      if_neg (by simpa using hne.1)]
    simp only [addComponent_part hm hxs]
    have hsw : (addedState m xs y).switch dot = partState m (xs ++ [y]) [] := by
      unfold Scan.switch addedState partState
      rw [if_neg (show ¬ dot = ch '+' by decide), if_neg hd]
      rcases hm with rfl | rfl <;> simp
    constructor
    · rintro ⟨_, ⟨hf, rfl⟩, h⟩
      exact ⟨hy, hf, by rw [← hsw]; exact (Except.ok.inj h).symm⟩
    · rintro ⟨-, hf, rfl⟩
      exact ⟨_, ⟨hf, rfl⟩, congrArg _ hsw⟩

theorem step_alnum {c : UInt8} (hc : isAlnum c = true) :
    step pr (partState m xs y) c = .ok (partState m xs (y ++ [c])) := by
  rw [step_word hc]
  unfold partState
  split_ifs <;> simp

theorem step_other {c : UInt8} {st' : Scan} (hpr : pr ≠ .full) (hd : c ≠ dot)
    (hc : isAlnum c = false) : step pr st c ≠ .ok st' := by
  unfold step
  by_cases hs : isSeparator c = true
  · rw [if_pos hs, if_pos ⟨hd, hpr⟩]
    nofun
  · rw [if_neg hs, if_pos (by simp [hc])]
    nofun

/-! ### All characters -/

theorem word_cons_inj {x w t r : Bytes} (hx : ∀ b ∈ x, isAlnum b = true)
    (hw : ∀ b ∈ w, isAlnum b = true) (h : x ++ dot :: t = w ++ dot :: r) : x = w ∧ t = r := by
  have hstop : ∀ t, Stops isAlnum (dot :: t) := fun t => stops_cons.mpr (by decide)
  have h1 := congrArg (List.takeWhile isAlnum) h
  have h2 := congrArg (List.dropWhile isAlnum) h
  rw [takeWhile_run hx (hstop t), takeWhile_run hw (hstop r)] at h1
  rw [dropWhile_run hx (hstop t), dropWhile_run hw (hstop r)] at h2
  exact ⟨h1, (List.cons.inj h2).2⟩

theorem closed_cons (x : Bytes) (xs : List Bytes) :
    closed dot (x :: xs) = x ++ (dot :: closed dot xs) := by
  simp [closed]

/-- The text of a part is of alphanumeric characters and dots. -/
theorem mem_closed_append {b : UInt8} (hxs : ∀ x ∈ xs, IsWord x) (hy : ∀ c ∈ y, isAlnum c = true)
    (hb : b ∈ closed dot xs ++ y) : b = dot ∨ isAlnum b = true := by
  rcases List.mem_append.mp hb with hb | hb
  · obtain ⟨x, hx, hb⟩ := List.mem_flatMap.mp hb
    rcases List.mem_append.mp hb with hb | hb
    · exact Or.inr ((hxs x hx).2 b hb)
    · exact Or.inl (List.mem_singleton.mp hb)
  · exact Or.inr (hy b hb)

/-- **What the parser makes of a part**, by induction on its characters: components, each followed
by a dot, and the one at hand. -/
theorem run_part (hpr : pr ≠ .full) (hm : m = .upstream ∨ m = .release) : ∀ (s : Bytes)
    (ws : List Bytes) (w : Bytes) (st : Scan), (∀ x ∈ ws, IsWord x) → (∀ b ∈ w, isAlnum b = true) →
    (s.foldlM (step pr) (partState m ws w) = .ok st ↔ ∃ xs y, w ++ s = closed dot xs ++ y ∧
      (∀ x ∈ xs, IsWord x ∧ Fits x) ∧ (∀ b ∈ y, isAlnum b = true) ∧
      st = partState m (ws ++ xs) y) := by
  intro s
  induction s with
  | nil =>
    intro ws w st hws hw
    rw [List.foldlM_nil, List.append_nil]
    constructor
    · intro h
      cases h
      exact ⟨[], w, by simp, by simp, hw, by simp⟩
    · rintro ⟨xs, y, h, hxs, hy, rfl⟩
      cases xs with
      | nil =>
        rw [closed_nil, List.nil_append] at h
        rw [h, List.append_nil]
        rfl
      | cons x xs =>
        have hdot : dot ∈ w := by
          rw [h, closed_cons]
          simp
        exact absurd (hw dot hdot) (by decide)
  | cons c s ih =>
    intro ws w st hws hw
    rw [List.foldlM_cons, bind_eq_ok]
    by_cases hd : c = dot
    · rw [hd]
      simp only [step_dot hm hws]
      constructor
      · rintro ⟨_, ⟨hne, hf, rfl⟩, h⟩
        have hws' : ∀ x ∈ ws ++ [w], IsWord x := forall_mem_snoc.mpr ⟨hws, hne, hw⟩
        obtain ⟨xs, y, h1, hxs, hy, rfl⟩ := (ih _ [] st hws' (by simp)).mp h
        refine ⟨w :: xs, y, ?_, List.forall_mem_cons.mpr ⟨⟨⟨hne, hw⟩, hf⟩, hxs⟩, hy, by simp⟩
        rw [List.nil_append] at h1
        rw [closed_cons, h1]
        simp
      · rintro ⟨xs, y, h, hxs, hy, rfl⟩
        cases xs with
        | nil =>
          have hdot : dot ∈ y := by
            rw [closed_nil, List.nil_append] at h
            rw [← h]
            simp
          exact absurd (hy dot hdot) (by decide)
        | cons x xs =>
          obtain ⟨⟨hx, hf⟩, hfs⟩ := List.forall_mem_cons.mp hxs
          rw [closed_cons, List.append_assoc, List.cons_append] at h
          obtain ⟨rfl, hs⟩ := word_cons_inj hw hx.2 h
          refine ⟨_, ⟨hx.1, hf, rfl⟩, ?_⟩
          have hws' : ∀ x ∈ ws ++ [w], IsWord x := forall_mem_snoc.mpr ⟨hws, hx⟩
          exact (ih _ [] _ hws' (by simp)).mpr ⟨xs, y, hs, hfs, hy, by simp⟩
    · by_cases hc : isAlnum c = true
      · have hw' : ∀ b ∈ w ++ [c], isAlnum b = true := by
          intro b hb
          rcases List.mem_append.mp hb with hb | hb
          · exact hw b hb
          · rw [List.mem_singleton.mp hb]
            exact hc
        simp only [step_alnum hc, Except.ok.injEq, exists_eq_left']
        rw [ih ws (w ++ [c]) st hws hw']
        simp
      · refine iff_of_false (fun ⟨_, h, _⟩ => step_other hpr hd (eq_false_of_ne_true hc) h) ?_
        rintro ⟨xs, y, h, hxs, hy, -⟩
        have hmem : c ∈ closed dot xs ++ y := by
          rw [← h]
          simp
        exact (mem_closed_append (fun x hx => (hxs x hx).1) hy hmem).elim hd hc

/-! ### The end of a part -/

/-- The components of a part. -/
def components (xs : List Bytes) (y : Bytes) : List Bytes := if y = [] then xs else xs ++ [y]

/-- The data made of a part with the canonical form `c`. -/
def Parse.made (pr : Parse) (c : Bytes) : DataType :=
  { canonicalUpstream := if pr = .upstream then c else []
    canonicalRelease := if pr = .upstream then [] else c }

/-- Only the canonical forms and the mode are left of the state. -/
theorem parts_part {zs : List Bytes} (hpr : pr ≠ .full) (hzs : ∀ z ∈ zs, IsWord z)
    (hm : st.mode = pr.mode)
    (hu : st.canonUpstream = if pr = .upstream then canonOf zs else {})
    (hr : st.canonRelease = if pr = .upstream then {} else canonOf zs) :
    st.parts pr none = pr.made (canonical zs) := by
  have hne := canonOf_text_ne_nil hzs
  unfold Scan.parts Parse.made
  rw [hu, hr, hm]
  cases pr with
  | full => exact absurd rfl hpr
  | upstream =>
    by_cases h : zs = []
    · subst h
      rfl
    · simp [hne.mpr h, canonOf_final]
  | release =>
    by_cases h : zs = []
    · subst h
      rfl
    · simp [hne.mpr h, canonOf_final]

theorem isWord_components (hxs : ∀ x ∈ xs, IsWord x) (hy : ∀ b ∈ y, isAlnum b = true) :
    ∀ z ∈ components xs y, IsWord z := by
  unfold components
  split_ifs with h
  · exact hxs
  · exact forall_mem_snoc.mpr ⟨hxs, h, hy⟩

theorem last_part (hxs : ∀ x ∈ xs, IsWord x) (hm : m = .upstream ∨ m = .release)
    {fold : Bool} {rev : Option ℕ} :
    (partState m xs y).last fold = .ok (st, rev) ↔ Fits y ∧ rev = none ∧
      st = if y = [] then partState m xs y else addedState m xs y := by
  have hrev : ¬ (partState m xs y).mode = .revision := by
    rw [partState_mode]
    rcases hm with rfl | rfl <;> decide
  unfold Scan.last
  rw [if_neg hrev, partState_comp]
  by_cases hy : y = []
  · have hf : Fits y := fun _ => by simp [hy]
    rw [if_neg (not_not.mpr hy), if_pos hy]
    exact ⟨fun h => by cases h; exact ⟨hf, rfl, rfl⟩, fun ⟨_, h1, h2⟩ => by rw [h1, h2]; rfl⟩
  · rw [if_pos hy, if_neg hy, bind_eq_ok]
    simp only [addComponent_part hm hxs]
    constructor
    · rintro ⟨_, ⟨hf, rfl⟩, h⟩
      cases h
      exact ⟨hf, rfl, rfl⟩
    · rintro ⟨hf, rfl, rfl⟩
      exact ⟨_, ⟨hf, rfl⟩, rfl⟩

/-- The end of a part: an empty release part is one, and an upstream part may end with a dot. -/
theorem finish_part (hpr : pr ≠ .full) (hxs : ∀ x ∈ xs, IsWord x)
    (hy : ∀ b ∈ y, isAlnum b = true) {d : DataType} :
    (partState pr.mode xs y).finish pr false = .ok d ↔
      Fits y ∧ d = pr.made (canonical (components xs y)) := by
  have hm := pr.mode_cases
  have hend : ¬ ((partState pr.mode xs y).mode = .epoch ∨ ((partState pr.mode xs y).comp = [] ∧
      (partState pr.mode xs y).mode ≠ .release ∧ pr ≠ .upstream)) := by
    rw [partState_mode]
    cases pr with
    | full => exact absurd rfl hpr
    | upstream => simp [Parse.mode]
    | release => simp [Parse.mode]
  have hparts : (if y = [] then partState pr.mode xs y else addedState pr.mode xs y).parts pr none =
      pr.made (canonical (components xs y)) := by
    have hws := isWord_components hxs hy
    cases pr with
    | full => exact absurd rfl hpr
    | upstream =>
      by_cases h : y = []
      · exact parts_part hpr hws (by simp [h]) (by simp [h, components, partState, Parse.mode])
          (by simp [h, partState, Parse.mode])
      · exact parts_part hpr hws (by simp [h, addedState, Parse.mode])
          (by simp [h, components, addedState, Parse.mode])
          (by simp [h, addedState, partState, Parse.mode])
    | release =>
      by_cases h : y = []
      · exact parts_part hpr hws (by simp [h]) (by simp [h, partState, Parse.mode])
          (by simp [h, components, partState, Parse.mode])
      · exact parts_part hpr hws (by simp [h, addedState, Parse.mode])
          (by simp [h, addedState, partState, Parse.mode])
          (by simp [h, components, addedState, Parse.mode])
  unfold Scan.finish
  rw [if_neg hend, bind_eq_ok]
  simp only [Prod.exists, last_part hxs hm]
  constructor
  · rintro ⟨_, _, ⟨hf, rfl, rfl⟩, h⟩
    rw [if_neg hpr, hparts] at h
    exact ⟨hf, (Except.ok.inj h).symm⟩
  · rintro ⟨hf, rfl⟩
    refine ⟨_, _, ⟨hf, rfl, rfl⟩, ?_⟩
    rw [if_neg hpr, hparts]
    rfl

/-! ### A whole part -/

/-- A part that is accepted: components, the last of which may be empty. -/
structure IsPart (s : Bytes) (xs : List Bytes) (y : Bytes) : Prop where
  text : s = closed dot xs ++ y
  words : ∀ x ∈ xs, IsWord x ∧ Fits x
  alnum : ∀ b ∈ y, isAlnum b = true
  fits : Fits y

/-- **What the parser makes of a part.** -/
theorem parse_part (hpr : pr ≠ .full) {s : Bytes} {d : DataType} :
    DataType.parse (some s) pr false = .ok d ↔
      ∃ xs y, IsPart s xs y ∧ d = pr.made (canonical (components xs y)) := by
  have hstart : Scan.start pr s = (partState pr.mode [] [], s) := by
    cases pr with
    | full => exact absurd rfl hpr
    | upstream => rfl
    | release => rfl
  have hrun := fun st => run_part hpr pr.mode_cases s [] [] st (by simp) (by simp)
  unfold DataType.parse
  rw [if_neg (by simp)]
  show ((Scan.start pr s).2.foldlM (step pr) (Scan.start pr s).1 >>= _) = .ok d ↔ _
  rw [hstart, bind_eq_ok]
  simp only [hrun, List.nil_append]
  constructor
  · rintro ⟨_, ⟨xs, y, h1, h2, h3, rfl⟩, h⟩
    obtain ⟨hf, rfl⟩ := (finish_part hpr (fun x hx => (h2 x hx).1) h3).mp h
    exact ⟨xs, y, ⟨h1, h2, h3, hf⟩, rfl⟩
  · rintro ⟨xs, y, h, rfl⟩
    refine ⟨_, ⟨xs, y, h.text, h.words, h.alnum, rfl⟩, ?_⟩
    exact (finish_part hpr (fun x hx => (h.words x hx).1) h.alnum).mpr ⟨h.fits, rfl⟩

end

/-! ### The constructor from parts -/

/-- A part that is accepted and its canonical form. -/
def PartForm (s c : Bytes) : Prop :=
  ∃ xs y, IsPart (cString s) xs y ∧ c = canonical (components xs y)

/-- A release part: an absent one is greater than all others. -/
def ReleaseForm (l : Option Bytes) (c : Bytes) : Prop :=
  match l with
  | none => c = str ['~']
  | some l => PartForm l c

theorem parse_upstream {s : Bytes} {d : DataType} :
    DataType.parse (some (cString s)) .upstream false = .ok d ↔
      ∃ c, PartForm s c ∧ d = { canonicalUpstream := c } := by
  rw [parse_part (by decide)]
  constructor
  · rintro ⟨xs, y, h, rfl⟩
    exact ⟨_, ⟨xs, y, h, rfl⟩, rfl⟩
  · rintro ⟨_, ⟨xs, y, h, rfl⟩, rfl⟩
    exact ⟨xs, y, h, rfl⟩

theorem parse_release {l : Option Bytes} {d : DataType} :
    DataType.parse (l.map cString) .release false = .ok d ↔
      ∃ c, ReleaseForm l c ∧ d = { canonicalRelease := c } := by
  cases l with
  | none =>
    have h : DataType.parse none .release false = .ok { canonicalRelease := str ['~'] } := rfl
    show DataType.parse none .release false = .ok d ↔ _
    rw [h]
    simp [ReleaseForm, eq_comm]
  | some l =>
    refine (parse_part (by decide)).trans ?_
    constructor
    · rintro ⟨xs, y, h, rfl⟩
      exact ⟨_, ⟨xs, y, h, rfl⟩, rfl⟩
    · rintro ⟨_, ⟨xs, y, h, rfl⟩, rfl⟩
      exact ⟨xs, y, h, rfl⟩

/-- What the constructor asks of the members. -/
def MembersOk (e : ℕ) (u : Bytes) (l : Option Bytes) (r : Option ℕ) (i : ℕ) : Prop :=
  if u = [] then e = 0 ∧ l = some [] ∧ r = none ∧ i = 0 else l = some [] → r = none ∧ i = 0

/-- **What the constructor from parts accepts.** -/
theorem ofParts_eq_ok {e : ℕ} {u : Bytes} {l : Option Bytes} {r : Option ℕ} {i : ℕ} {v : Version} :
    ofParts e u l r i = .ok v ↔ MembersOk e u l r i ∧
      ∃ cu cl, PartForm u cu ∧ ReleaseForm l cl ∧ v = ⟨e, u, l, r, i, cu, cl⟩ := by
  have hmem : ∀ cu cl, ((if u = [] then
      if e ≠ 0 then badArg "epoch for empty version"
      else if l ≠ some [] then badArg "not-empty release for empty version"
      else if r.isSome then badArg "revision for empty version"
      else if i ≠ 0 then badArg "iteration for empty version"
      else pure ⟨e, u, l, r, i, cu, cl⟩
    else if l = some [] ∧ (r.isSome ∨ i ≠ 0) then badArg "revision for earliest possible release"
    else pure ⟨e, u, l, r, i, cu, cl⟩ : Except Fault Version) = .ok v ↔
      MembersOk e u l r i ∧ v = ⟨e, u, l, r, i, cu, cl⟩) := by
    intro cu cl
    unfold MembersOk badArg
    cases r <;> split_ifs <;> simp_all [eq_comm, pure, Except.pure]
  unfold ofParts
  simp only [bind_eq_ok, parse_upstream, parse_release]
  constructor
  · rintro ⟨_, ⟨cu, hu, rfl⟩, _, ⟨cl, hl, rfl⟩, h⟩
    obtain ⟨hm, rfl⟩ := (hmem cu cl).mp h
    exact ⟨hm, cu, cl, hu, hl, rfl⟩
  · rintro ⟨hm, cu, cl, hu, hl, rfl⟩
    exact ⟨_, ⟨cu, hu, rfl⟩, _, ⟨cl, hl, rfl⟩, (hmem cu cl).mpr ⟨hm, rfl⟩⟩

end Build2.Libbpkg.Version
