import Build2.Libbpkg.Version.Basic
import Build2.Lib.Joined

/-! # The grammar of package versions

`[+<epoch>-]<upstream>[-<release>][+<revision>]` with the upstream and release parts as components
joined by dots, and what the parser makes of such a text. -/

namespace Build2.Libbpkg.Version

open Build2.Lib.ByteString Build2.Lib.Decimal Build2.Lib.Joined Build2.Libbutl.ParseUint
open Build2.Lib.Stateful (bind_eq_ok)

/-- The separator of components. -/
abbrev dot : UInt8 := ch '.'

/-- A component: alphanumeric. -/
def IsWord (x : Bytes) : Prop := x ≠ [] ∧ ∀ b ∈ x, isAlnum b = true

/-- A numeric component has at most sixteen digits. -/
def Fits (x : Bytes) : Prop := x.all isDigit = true → x.length ≤ 16

instance (x : Bytes) : Decidable (Fits x) := inferInstanceAs (Decidable (_ → _))

/-- The canonical form of a component. -/
def canonComp (x : Bytes) : Bytes :=
  if x.all isDigit then List.replicate (16 - x.length) (ch '0') ++ x else x.map toLower

/-- The canonical form of a part: without the trailing zero components. -/
def canonical (xs : List Bytes) : Bytes := joined dot (trim (·.all isZero) (xs.map canonComp))

/-! ### Canonical parts -/

/-- The canonical part made of components. -/
def canonOf (xs : List Bytes) : CanonicalPart :=
  ⟨joined dot (xs.map canonComp), (canonical xs).length⟩

theorem canonComp_ne_nil {x : Bytes} (h : x ≠ []) : canonComp x ≠ [] := by
  unfold canonComp
  split_ifs
  · simp [h]
  · simpa using h

theorem toLower_zero (b : UInt8) : isZero (toLower b) = isZero b := by
  unfold toLower
  split_ifs with hu
  · simp only [Bool.and_eq_true, decide_eq_true_eq, UInt8.le_iff_toNat_le] at hu
    have h1 : (ch 'A').toNat = 65 := rfl
    have h2 : (ch 'Z').toNat = 90 := rfl
    have h3 : (ch '0').toNat = 48 := rfl
    have h4 : b ≠ ch '0' := fun h => by
      rw [h, h3] at hu
      omega
    have h5 : b + 32 ≠ ch '0' := fun h => by
      have := congrArg UInt8.toNat h
      rw [UInt8.toNat_add, h3] at this
      have h32 : (32 : UInt8).toNat = 32 := rfl
      omega
    simp [isZero, h4, h5]
  · rfl

theorem isDigit_of_isZero {b : UInt8} (h : isZero b = true) : isDigit b = true := by
  rw [of_decide_eq_true h]
  decide

theorem all_isZero_canonComp (x : Bytes) :
    (canonComp x).all isZero = (x.all isDigit && x.all isZero) := by
  unfold canonComp
  by_cases hd : x.all isDigit = true
  · rw [if_pos hd, hd, List.all_append]
    have hz : (List.replicate (16 - x.length) (ch '0')).all isZero = true := by
      rw [List.all_eq_true]
      intro b hb
      rw [List.eq_of_mem_replicate hb]
      decide
    rw [hz]
  · rw [if_neg hd, eq_false_of_ne_true hd, Bool.false_and, List.all_map]
    by_contra hz
    rw [Bool.not_eq_false, List.all_eq_true] at hz
    refine hd (List.all_eq_true.mpr fun b hb => isDigit_of_isZero ?_)
    rw [← toLower_zero b]
    exact hz b hb

theorem canonOf_final (xs : List Bytes) : (canonOf xs).final = canonical xs :=
  List.prefix_iff_eq_take.mp (joined_initial (trim_initial _)) |>.symm

theorem canonOf_text_ne_nil {xs : List Bytes} (h : ∀ x ∈ xs, IsWord x) :
    (canonOf xs).text ≠ [] ↔ xs ≠ [] := by
  unfold canonOf
  rw [Ne, joined_eq_nil, List.map_eq_nil_iff]
  intro y hy
  obtain ⟨x, hx, rfl⟩ := List.mem_map.mp hy
  exact canonComp_ne_nil (h x hx).1

/-- **Adding a component.** -/
theorem add_canonOf {xs : List Bytes} {x : Bytes} {p : CanonicalPart} (hxs : ∀ y ∈ xs, IsWord y) :
    (canonOf xs).add x (x.all isDigit) = .ok p ↔ Fits x ∧ p = canonOf (xs ++ [x]) := by
  have htext : (if (canonOf xs).text ≠ [] then (canonOf xs).text ++ [dot] else (canonOf xs).text) =
      closed dot (xs.map canonComp) := by
    by_cases h : xs = []
    · subst h
      rfl
    · rw [if_pos ((canonOf_text_ne_nil hxs).mpr h), closed_eq (by simpa using h)]
      rfl
  have hsnoc : canonOf (xs ++ [x]) = ⟨closed dot (xs.map canonComp) ++ canonComp x,
      if x.all isDigit && x.all isZero then (canonOf xs).len
      else (closed dot (xs.map canonComp) ++ canonComp x).length⟩ := by
    unfold canonOf canonical
    rw [List.map_append, List.map_singleton, trim_snoc, all_isZero_canonComp, joined_snoc]
    split_ifs
    · rfl
    · rw [joined_snoc]
  rw [hsnoc]
  unfold CanonicalPart.add Fits
  simp only [htext]
  by_cases hd : x.all isDigit = true
  · have hc : canonComp x = List.replicate (16 - x.length) (ch '0') ++ x := if_pos hd
    simp only [hd, if_true, hc, forall_const, Bool.true_and]
    by_cases hl : 16 < x.length
    · rw [if_pos hl]
      exact ⟨nofun, fun h => absurd h.1 (not_le.mpr hl)⟩
    · rw [if_neg hl]
      exact ⟨fun h => ⟨not_lt.mp hl, (Except.ok.inj h).symm⟩, fun h => by rw [h.2]; rfl⟩
  · have hc : canonComp x = x.map toLower := if_neg hd
    simp only [eq_false_of_ne_true hd, Bool.false_eq_true, if_false, hc, false_imp_iff,
      true_and, Bool.false_and]
    exact ⟨fun h => (Except.ok.inj h).symm, fun h => by rw [h]; rfl⟩

/-! ### Scanning -/

/-- In the upstream part: the epoch, the components that are done and the one at hand. -/
def upState (e : Option ℕ) (xs : List Bytes) (y : Bytes) : Scan :=
  { mode := .upstream, ep := e, canonUpstream := canonOf xs, comp := y,
    part := closed dot xs ++ y, upstream := joined dot xs }

/-- In the release part. -/
def relState (e : Option ℕ) (ups xs : List Bytes) (y : Bytes) : Scan :=
  { mode := .release, ep := e, canonUpstream := canonOf ups, canonRelease := canonOf xs, comp := y,
    part := closed dot xs ++ y, upstream := joined dot ups, release := joined dot xs }

/-- In the revision. -/
def revState (e : Option ℕ) (ups rels : List Bytes) (q y : Bytes) : Scan :=
  { mode := .revision, ep := e, canonUpstream := canonOf ups, canonRelease := canonOf rels,
    comp := y, part := q ++ y, upstream := joined dot ups, release := joined dot rels }

theorem isSeparator_of_isAlnum {c : UInt8} (h : isAlnum c = true) : isSeparator c = false := by
  have h1 : c ≠ ch '+' := ne_of_class h (by decide)
  have h2 : c ≠ ch '-' := ne_of_class h (by decide)
  have h3 : c ≠ ch '.' := ne_of_class h (by decide)
  simp [isSeparator, h1, h2, h3]

theorem step_word {pr : Parse} {st : Scan} {c : UInt8} (hc : isAlnum c = true) :
    step pr st c = .ok { st with comp := st.comp ++ [c], part := st.part ++ [c] } := by
  unfold step
  rw [if_neg (by simp [isSeparator_of_isAlnum hc]), if_neg (by simp [hc])]
  rfl

theorem scan_word {pr : Parse} : ∀ {w : Bytes} {st : Scan}, (∀ b ∈ w, isAlnum b = true) →
    w.foldlM (step pr) st = .ok { st with comp := st.comp ++ w, part := st.part ++ w }
  | [], st, _ => by simp; rfl
  | c :: w, st, h => by
    have hc := h c (by simp)
    rw [List.foldlM_cons, step_word hc]
    refine (scan_word fun b hb => h b (List.mem_cons_of_mem _ hb)).trans ?_
    simp

section

variable {e : Option ℕ} {ups xs : List Bytes} {y : Bytes} {st : Scan}

theorem addComponent_up (hxs : ∀ x ∈ xs, IsWord x) :
    (upState e xs y).addComponent = .ok st ↔ Fits y ∧ st =
      { upState e xs y with
        canonUpstream := canonOf (xs ++ [y]), upstream := joined dot (xs ++ [y]) } := by
  unfold Scan.addComponent
  refine (bind_eq_ok (x := (canonOf xs).add y (y.all isDigit))).trans ?_
  simp only [add_canonOf hxs]
  constructor
  · rintro ⟨_, ⟨hf, rfl⟩, h⟩
    cases h
    refine ⟨hf, ?_⟩
    rw [joined_snoc]
    rfl
  · rintro ⟨hf, rfl⟩
    refine ⟨_, ⟨hf, rfl⟩, ?_⟩
    rw [joined_snoc]
    rfl

theorem addComponent_rel (hxs : ∀ x ∈ xs, IsWord x) :
    (relState e ups xs y).addComponent = .ok st ↔ Fits y ∧ st =
      { relState e ups xs y with
        canonRelease := canonOf (xs ++ [y]), release := joined dot (xs ++ [y]) } := by
  unfold Scan.addComponent
  refine (bind_eq_ok (x := (canonOf xs).add y (y.all isDigit))).trans ?_
  simp only [add_canonOf hxs]
  constructor
  · rintro ⟨_, ⟨hf, rfl⟩, h⟩
    cases h
    refine ⟨hf, ?_⟩
    rw [joined_snoc]
    rfl
  · rintro ⟨hf, rfl⟩
    refine ⟨_, ⟨hf, rfl⟩, ?_⟩
    rw [joined_snoc]
    rfl

theorem step_up (hxs : ∀ x ∈ xs, IsWord x) (hy : y ≠ []) {c : UInt8} (hc : isSeparator c = true) :
    step .full (upState e xs y) c = .ok st ↔ Fits y ∧ st =
      if c = ch '+' then revState e (xs ++ [y]) [] (closed dot xs ++ y) []
      else if c = ch '-' then relState e (xs ++ [y]) [] []
      else upState e (xs ++ [y]) [] := by
  have hok : ¬ (c ≠ ch '.' ∧ Parse.full ≠ .full) := fun h => h.2 rfl
  have hpos : ¬ ((upState e xs y).mode = .revision ∨
      (c = ch '-' ∧ (upState e xs y).mode = .release) ∨
      (c ≠ ch '-' ∧ (upState e xs y).mode = .epoch) ∨ (upState e xs y).comp = []) := by
    simp [upState, hy]
  have hmode : ¬ (upState e xs y).mode = .epoch := nofun
  have hsep : c = ch '+' ∨ c = ch '-' ∨ c = ch '.' := by
    simpa [isSeparator, or_assoc] using hc
  unfold step Scan.endComponent
  rw [if_pos hc, if_neg hok, if_neg hpos, if_neg hmode, bind_eq_ok]
  simp only [addComponent_up hxs]
  have hsw : ∀ st', st' = { upState e xs y with
      canonUpstream := canonOf (xs ++ [y]), upstream := joined dot (xs ++ [y]) } →
      st'.switch c = if c = ch '+' then revState e (xs ++ [y]) [] (closed dot xs ++ y) []
        else if c = ch '-' then relState e (xs ++ [y]) [] []
        else upState e (xs ++ [y]) [] := by
    rintro _ rfl
    unfold Scan.switch
    rcases hsep with rfl | rfl | rfl
    · rw [if_pos rfl, if_pos rfl]
      simp [revState, upState, canonOf, canonical, joined, trim]
    · rfl
    · show { upState e xs y with
        canonUpstream := canonOf (xs ++ [y]), upstream := joined dot (xs ++ [y]), comp := [],
        part := closed dot xs ++ y ++ [ch '.'] } = upState e (xs ++ [y]) []
      simp [upState]
  constructor
  · rintro ⟨st', ⟨hf, h⟩, h'⟩
    cases h'
    exact ⟨hf, hsw _ h⟩
  · rintro ⟨hf, rfl⟩
    exact ⟨_, ⟨hf, rfl⟩, congrArg _ (hsw _ rfl)⟩

theorem step_rel (hxs : ∀ x ∈ xs, IsWord x) (hy : y ≠ []) {c : UInt8}
    (hc : c = ch '+' ∨ c = ch '.') :
    step .full (relState e ups xs y) c = .ok st ↔ Fits y ∧ st =
      if c = ch '+' then revState e ups (xs ++ [y]) (closed dot xs ++ y) []
      else relState e ups (xs ++ [y]) [] := by
  have hok : ¬ (c ≠ ch '.' ∧ Parse.full ≠ .full) := fun h => h.2 rfl
  have hm : c ≠ ch '-' := by
    rcases hc with rfl | rfl <;> decide
  have hsep : isSeparator c = true := by
    rcases hc with rfl | rfl <;> decide
  have hpos : ¬ ((relState e ups xs y).mode = .revision ∨
      (c = ch '-' ∧ (relState e ups xs y).mode = .release) ∨
      (c ≠ ch '-' ∧ (relState e ups xs y).mode = .epoch) ∨ (relState e ups xs y).comp = []) := by
    simp [relState, hy, hm]
  have hmode : ¬ (relState e ups xs y).mode = .epoch := nofun
  unfold step Scan.endComponent
  rw [if_pos hsep, if_neg hok, if_neg hpos, if_neg hmode, bind_eq_ok]
  simp only [addComponent_rel hxs]
  have hsw : ∀ st', st' = { relState e ups xs y with
      canonRelease := canonOf (xs ++ [y]), release := joined dot (xs ++ [y]) } →
      st'.switch c = if c = ch '+' then revState e ups (xs ++ [y]) (closed dot xs ++ y) []
        else relState e ups (xs ++ [y]) [] := by
    rintro _ rfl
    unfold Scan.switch
    rcases hc with rfl | rfl
    · rw [if_pos rfl, if_pos rfl]
      simp [revState, relState]
    · show { relState e ups xs y with
        canonRelease := canonOf (xs ++ [y]), release := joined dot (xs ++ [y]), comp := [],
        part := closed dot xs ++ y ++ [ch '.'] } = relState e ups (xs ++ [y]) []
      simp [relState]
  constructor
  · rintro ⟨st', ⟨hf, h⟩, h'⟩
    cases h'
    exact ⟨hf, hsw _ h⟩
  · rintro ⟨hf, rfl⟩
    exact ⟨_, ⟨hf, rfl⟩, congrArg _ (hsw _ rfl)⟩

theorem foldlM_append_eq_ok {σ β : Type} {f : σ → β → Except Fault σ} {l l' : List β} {a c : σ} :
    (l ++ l').foldlM f a = .ok c ↔ ∃ b, l.foldlM f a = .ok b ∧ l'.foldlM f b = .ok c := by
  rw [List.foldlM_append, bind_eq_ok]

theorem scan_up_word {w : Bytes} (hw : ∀ b ∈ w, isAlnum b = true) :
    w.foldlM (step .full) (upState e xs y) = .ok (upState e xs (y ++ w)) := by
  rw [scan_word hw]
  simp [upState]

theorem scan_rel_word {w : Bytes} (hw : ∀ b ∈ w, isAlnum b = true) :
    w.foldlM (step .full) (relState e ups xs y) = .ok (relState e ups xs (y ++ w)) := by
  rw [scan_word hw]
  simp [relState]

theorem scan_rev_word {q w : Bytes} (hw : ∀ b ∈ w, isAlnum b = true) :
    w.foldlM (step .full) (revState e ups xs q y) = .ok (revState e ups xs q (y ++ w)) := by
  rw [scan_word hw]
  simp [revState]

/-- Components of the upstream part, each with its dot. -/
theorem scan_up_closed : ∀ {zs xs : List Bytes} {st : Scan}, (∀ x ∈ xs, IsWord x) →
    (∀ z ∈ zs, IsWord z) → ((closed dot zs).foldlM (step .full) (upState e xs []) = .ok st ↔
      (∀ z ∈ zs, Fits z) ∧ st = upState e (xs ++ zs) [])
  | [], xs, st, _, _ => by
    simp only [closed_nil, List.foldlM_nil, List.append_nil, List.not_mem_nil, false_imp_iff,
      implies_true, true_and]
    exact ⟨fun h => (Except.ok.inj h).symm, fun h => by rw [h]; rfl⟩
  | z :: zs, xs, st, hxs, hzs => by
    have hz := hzs z (by simp)
    have hxz : ∀ x ∈ xs ++ [z], IsWord x := by
      intro x hx
      rcases List.mem_append.mp hx with hx | hx
      · exact hxs x hx
      · rw [List.mem_singleton.mp hx]
        exact hz
    have ih : ∀ st, (closed dot zs).foldlM (step .full) (upState e (xs ++ [z]) []) = .ok st ↔
        (∀ z ∈ zs, Fits z) ∧ st = upState e (xs ++ [z] ++ zs) [] := fun st =>
      scan_up_closed hxz fun x hx => hzs x (List.mem_cons_of_mem _ hx)
    have hc : closed dot (z :: zs) = z ++ (dot :: closed dot zs) := by simp [closed]
    rw [hc, foldlM_append_eq_ok]
    simp only [scan_up_word hz.2, List.nil_append, Except.ok.injEq, exists_eq_left',
      List.foldlM_cons]
    rw [bind_eq_ok]
    simp only [step_up hxs hz.1 (show isSeparator dot = true by decide),
      show ¬ dot = ch '+' by decide, show ¬ dot = ch '-' by decide, if_false]
    constructor
    · rintro ⟨_, ⟨h1, rfl⟩, h2⟩
      obtain ⟨h3, rfl⟩ := (ih st).mp h2
      exact ⟨List.forall_mem_cons.mpr ⟨h1, h3⟩, by simp⟩
    · rintro ⟨h1, rfl⟩
      obtain ⟨h2, h3⟩ := List.forall_mem_cons.mp h1
      exact ⟨_, ⟨h2, rfl⟩, (ih _).mpr ⟨h3, by simp⟩⟩

theorem scan_rel_closed : ∀ {zs xs : List Bytes} {st : Scan}, (∀ x ∈ xs, IsWord x) →
    (∀ z ∈ zs, IsWord z) → ((closed dot zs).foldlM (step .full) (relState e ups xs []) = .ok st ↔
      (∀ z ∈ zs, Fits z) ∧ st = relState e ups (xs ++ zs) [])
  | [], xs, st, _, _ => by
    simp only [closed_nil, List.foldlM_nil, List.append_nil, List.not_mem_nil, false_imp_iff,
      implies_true, true_and]
    exact ⟨fun h => (Except.ok.inj h).symm, fun h => by rw [h]; rfl⟩
  | z :: zs, xs, st, hxs, hzs => by
    have hz := hzs z (by simp)
    have hxz : ∀ x ∈ xs ++ [z], IsWord x := by
      intro x hx
      rcases List.mem_append.mp hx with hx | hx
      · exact hxs x hx
      · rw [List.mem_singleton.mp hx]
        exact hz
    have ih : ∀ st, (closed dot zs).foldlM (step .full) (relState e ups (xs ++ [z]) []) = .ok st ↔
        (∀ z ∈ zs, Fits z) ∧ st = relState e ups (xs ++ [z] ++ zs) [] := fun st =>
      scan_rel_closed hxz fun x hx => hzs x (List.mem_cons_of_mem _ hx)
    have hc : closed dot (z :: zs) = z ++ (dot :: closed dot zs) := by simp [closed]
    rw [hc, foldlM_append_eq_ok]
    simp only [scan_rel_word hz.2, List.nil_append, Except.ok.injEq, exists_eq_left',
      List.foldlM_cons]
    rw [bind_eq_ok]
    simp only [step_rel hxs hz.1 (Or.inr rfl), show ¬ dot = ch '+' by decide, if_false]
    constructor
    · rintro ⟨_, ⟨h1, rfl⟩, h2⟩
      obtain ⟨h3, rfl⟩ := (ih st).mp h2
      exact ⟨List.forall_mem_cons.mpr ⟨h1, h3⟩, by simp⟩
    · rintro ⟨h1, rfl⟩
      obtain ⟨h2, h3⟩ := List.forall_mem_cons.mp h1
      exact ⟨_, ⟨h2, rfl⟩, (ih _).mpr ⟨h3, by simp⟩⟩

end

/-! ### The texts -/

/-- A version taken apart. -/
structure Text where
  epoch : Option Bytes
  upstream : List Bytes
  release : Option (List Bytes)
  /-- A dot at the end of the release part. -/
  trailing : Bool
  revision : Option Bytes

/-- A number that fits in sixteen bits. -/
def IsUint16 (n : Bytes) : Prop := Numeral n ∧ value n ≤ 65535

namespace Text

def epochText (x : Text) : Bytes := x.epoch.elim [] fun e => ch '+' :: (e ++ [ch '-'])

def releaseText (x : Text) : Bytes :=
  x.release.elim [] fun rs => ch '-' :: (joined dot rs ++ if x.trailing then [dot] else [])

def revisionText (x : Text) : Bytes := x.revision.elim [] fun r => ch '+' :: r

/-- The text. -/
def text (x : Text) : Bytes :=
  x.epochText ++ (joined dot x.upstream ++ (x.releaseText ++ x.revisionText))

/-- The grammar, the lengths of the components apart. -/
structure WellFormed (x : Text) : Prop where
  epoch : ∀ e ∈ x.epoch, IsUint16 e
  nonempty : x.upstream ≠ []
  upstream : ∀ u ∈ x.upstream, IsWord u
  release : ∀ rs ∈ x.release, ∀ r ∈ rs, IsWord r
  trailing : x.trailing = true → x.revision = none ∧ ∃ rs, x.release = some rs ∧ rs ≠ []
  earliest : x.release = some [] → x.revision = none
  revision : ∀ r ∈ x.revision, IsUint16 r

def canonicalRelease (x : Text) : Bytes := x.release.elim (str ['~']) canonical

def epochValue (x : Text) : ℕ :=
  x.epoch.elim (defaultEpoch (canonical x.upstream) (x.release.map (joined dot))) value

/-- The components are short enough and the version is not the empty one. -/
structure Valid (x : Text) : Prop extends x.WellFormed where
  fits : (∀ u ∈ x.upstream, Fits u) ∧ ∀ rs ∈ x.release, ∀ r ∈ rs, Fits r
  notEmpty : ¬ (x.epochValue = 0 ∧ canonical x.upstream = [] ∧ x.canonicalRelease = [])

/-- The revision, a zero one folded. -/
def revisionValue (x : Text) (fold : Bool) : Option ℕ :=
  x.revision.bind fun r => if value r ≠ 0 ∨ fold = false then some (value r) else none

/-- The version. -/
def version (x : Text) (fold : Bool) : Version where
  epoch := x.epochValue
  upstream := joined dot x.upstream
  release := x.release.map (joined dot)
  revision := x.revisionValue fold
  iteration := 0
  canonicalUpstream := canonical x.upstream
  canonicalRelease := x.canonicalRelease

end Text

/-! ### The end of the string -/

/-- What a state has at the end: the components of the parts. -/
structure Ends (st : Scan) (ep : Option ℕ) (ups : List Bytes) (rels : Option (List Bytes)) :
    Prop where
  ep : st.ep = ep
  canonUpstream : st.canonUpstream = canonOf ups
  upstream : st.upstream = joined dot ups
  canonRelease : st.canonRelease = canonOf (rels.getD [])
  release : st.release = joined dot (rels.getD [])
  some : rels = some [] → st.mode = .release
  none : rels = none → st.mode ≠ .release

theorem Ends.parts {st : Scan} {ep : Option ℕ} {ups : List Bytes} {rels : Option (List Bytes)}
    (h : Ends st ep ups rels) (hups : ∀ u ∈ ups, IsWord u) (hne : ups ≠ [])
    (hrels : ∀ rs ∈ rels, ∀ r ∈ rs, IsWord r) (rev : Option ℕ) :
    st.parts .full rev =
      { upstream := joined dot ups, release := rels.map (joined dot), revision := rev,
        canonicalUpstream := canonical ups,
        canonicalRelease := rels.elim (str ['~']) canonical } := by
  have h1 : (canonOf ups).text ≠ [] := (canonOf_text_ne_nil hups).mpr hne
  unfold Scan.parts
  simp only [h.canonUpstream, h.canonRelease, h.upstream, h.release, h1, canonOf_final, ne_eq,
    not_false_eq_true, reduceCtorEq, and_self, if_true, not_true, if_false]
  cases rels with
  | none =>
    have h2 : (canonOf []).text = [] := rfl
    simp [h2, h.none rfl]
  | some rs =>
    have h2 := canonOf_text_ne_nil (hrels rs rfl)
    by_cases h3 : rs = []
    · subst h3
      have h4 : (canonOf []).text = [] := rfl
      simp [h4, h.some rfl]
      exact ⟨rfl, rfl⟩
    · simp [h2.mpr h3]

/-- The version that the last step makes, unless it is the empty one. -/
theorem finish_eq_ok {st : Scan} {fold : Bool} {d : DataType} (h1 : st.mode ≠ .epoch)
    (h2 : st.comp ≠ [] ∨ st.mode = .release) :
    st.finish .full fold = .ok d ↔ ∃ st' rev, st.last fold = .ok (st', rev) ∧
      let p := st'.parts .full rev
      let ep := st'.ep.getD (defaultEpoch p.canonicalUpstream p.release)
      ¬ (ep = 0 ∧ p.canonicalUpstream = [] ∧ p.canonicalRelease = []) ∧
        d = { p with epoch := ep } := by
  have h3 : ¬ (st.mode = .epoch ∨
      (st.comp = [] ∧ st.mode ≠ .release ∧ Parse.full ≠ .upstream)) := by
    rintro (h | ⟨h, h', -⟩)
    · exact h1 h
    · exact h2.elim (fun h2 => h2 h) h'
  unfold Scan.finish
  rw [if_neg h3, bind_eq_ok]
  simp only [Prod.exists, if_true]
  refine exists_congr fun st' => exists_congr fun rev => and_congr_right fun _ => ?_
  by_cases h4 : st'.ep.getD (defaultEpoch (st'.parts .full rev).canonicalUpstream
      (st'.parts .full rev).release) = 0 ∧ (st'.parts .full rev).canonicalUpstream = [] ∧
      (st'.parts .full rev).canonicalRelease = []
  · rw [if_pos h4]
    refine ⟨fun h => ?_, fun h => absurd h4 h.1⟩
    split_ifs at h
    cases h
  · rw [if_neg h4]
    exact ⟨fun h => ⟨h4, (Except.ok.inj h).symm⟩, fun h => by rw [h.2]; rfl⟩

/-- What is made of the components, unless that is the empty version. -/
def Text.Made (x : Text) (fold : Bool) (d : DataType) : Prop :=
  ¬ (x.epochValue = 0 ∧ canonical x.upstream = [] ∧ x.canonicalRelease = []) ∧
    d = ⟨x.epochValue, joined dot x.upstream, x.release.map (joined dot), x.revisionValue fold,
      canonical x.upstream, x.canonicalRelease⟩

/-- **What is made of the components in the end**, if `C` lets the last one pass. -/
theorem finish_ends {x : Text} (hx : x.WellFormed) {fold : Bool} {d : DataType} {st st' : Scan}
    {C : Prop} (h1 : st.mode ≠ .epoch) (h2 : st.comp ≠ [] ∨ st.mode = .release)
    (hlast : ∀ y rev, st.last fold = .ok (y, rev) ↔ C ∧ y = st' ∧ rev = x.revisionValue fold)
    (hends : Ends st' (x.epoch.map value) x.upstream x.release) :
    st.finish .full fold = .ok d ↔ C ∧ x.Made fold d := by
  have hp := hends.parts hx.upstream hx.nonempty hx.release (x.revisionValue fold)
  have hep : st'.ep.getD (defaultEpoch (canonical x.upstream) (x.release.map (joined dot))) =
      x.epochValue := by
    rw [hends.ep]
    unfold Text.epochValue
    cases x.epoch <;> rfl
  rw [finish_eq_ok h1 h2]
  simp only [hlast]
  constructor
  · rintro ⟨_, _, ⟨hC, rfl, rfl⟩, h3, h4⟩
    simp only [hp, hep] at h3 h4
    exact ⟨hC, h3, h4⟩
  · rintro ⟨hC, h3, h4⟩
    refine ⟨_, _, ⟨hC, rfl, rfl⟩, ?_⟩
    simp only [hp, hep]
    exact ⟨h3, h4⟩

section

variable {e : Option ℕ} {ups xs : List Bytes} {y : Bytes} {fold : Bool}

theorem last_up (hxs : ∀ x ∈ xs, IsWord x) (hy : y ≠ []) {st : Scan} {rev : Option ℕ} :
    (upState e xs y).last fold = .ok (st, rev) ↔ Fits y ∧ st =
      { upState e xs y with
        canonUpstream := canonOf (xs ++ [y]), upstream := joined dot (xs ++ [y]) } ∧
      rev = none := by
  have hmode : ¬ (upState e xs y).mode = .revision := nofun
  unfold Scan.last
  rw [if_neg hmode, if_pos (show (upState e xs y).comp ≠ [] from hy), bind_eq_ok]
  simp only [addComponent_up hxs]
  constructor
  · rintro ⟨_, ⟨hf, rfl⟩, h⟩
    cases h
    exact ⟨hf, rfl, rfl⟩
  · rintro ⟨hf, rfl, rfl⟩
    exact ⟨_, ⟨hf, rfl⟩, rfl⟩

theorem last_rel (hxs : ∀ x ∈ xs, IsWord x) (hy : y ≠ []) {st : Scan} {rev : Option ℕ} :
    (relState e ups xs y).last fold = .ok (st, rev) ↔ Fits y ∧ st =
      { relState e ups xs y with
        canonRelease := canonOf (xs ++ [y]), release := joined dot (xs ++ [y]) } ∧ rev = none := by
  have hmode : ¬ (relState e ups xs y).mode = .revision := nofun
  unfold Scan.last
  rw [if_neg hmode, if_pos (show (relState e ups xs y).comp ≠ [] from hy), bind_eq_ok]
  simp only [addComponent_rel hxs]
  constructor
  · rintro ⟨_, ⟨hf, rfl⟩, h⟩
    cases h
    exact ⟨hf, rfl, rfl⟩
  · rintro ⟨hf, rfl, rfl⟩
    exact ⟨_, ⟨hf, rfl⟩, rfl⟩

theorem last_rel_nil {st : Scan} {rev : Option ℕ} :
    (relState e ups xs []).last fold = .ok (st, rev) ↔
      True ∧ st = relState e ups xs [] ∧ rev = none := by
  have h : (relState e ups xs []).last fold = .ok (relState e ups xs [], none) := rfl
  rw [h]
  simp [eq_comm]

theorem last_rev {q : Bytes} (hy : IsUint16 y) {st : Scan} {rev : Option ℕ} :
    (revState e ups xs q y).last fold = .ok (st, rev) ↔ True ∧ st = revState e ups xs q y ∧
      rev = if value y ≠ 0 ∨ fold = false then some (value y) else none := by
  have hnum : (revState e ups xs q y).numeric = true := List.all_eq_true.mpr hy.1.2
  have hu : uint16 y "revision" = .ok (value y) := if_pos hy.2
  unfold Scan.last
  rw [if_pos (show (revState e ups xs q y).mode = .revision from rfl), hnum, Bool.not_true,
    if_neg nofun, bind_eq_ok]
  change (∃ a, uint16 y "revision" = .ok a ∧ _) ↔ _
  rw [hu]
  simp only [Except.ok.injEq, exists_eq_left', true_and]
  exact ⟨fun h => by cases h; exact ⟨rfl, rfl⟩, fun h => by rw [h.1, h.2]; rfl⟩

end

/-! ### The whole string -/

/-- What can be said of the components but for their number and the empty version. -/
def Text.AllFit (x : Text) : Prop :=
  (∀ u ∈ x.upstream, Fits u) ∧ ∀ rs ∈ x.release, ∀ r ∈ rs, Fits r

theorem isAlnum_of_isUint16 {n : Bytes} (h : IsUint16 n) : ∀ b ∈ n, isAlnum b = true :=
  fun b hb => isAlnum_of_isDigit (h.1.2 b hb)

theorem forall_mem_snoc {p : Bytes → Prop} {xs : List Bytes} {x : Bytes} :
    (∀ y ∈ xs ++ [x], p y) ↔ (∀ y ∈ xs, p y) ∧ p x := by
  simp [or_imp, forall_and]

section

variable {e : Option ℕ} {ups us : List Bytes} {u t : Bytes} {st : Scan}

/-- The upstream part up to its last component. -/
theorem scan_up_joined (h : ∀ x ∈ us ++ [u], IsWord x) :
    (joined dot (us ++ [u]) ++ t).foldlM (step .full) (upState e [] []) = .ok st ↔
      (∀ x ∈ us, Fits x) ∧ t.foldlM (step .full) (upState e us u) = .ok st := by
  obtain ⟨h1, h2⟩ := forall_mem_snoc.mp h
  have hnil : ∀ x ∈ ([] : List Bytes), IsWord x := by simp
  rw [joined_snoc, List.append_assoc, foldlM_append_eq_ok]
  simp only [scan_up_closed hnil h1, List.nil_append]
  constructor
  · rintro ⟨_, ⟨hf, rfl⟩, h⟩
    obtain ⟨st', h3, h4⟩ := foldlM_append_eq_ok.mp h
    rw [scan_up_word h2.2] at h3
    cases h3
    exact ⟨hf, h4⟩
  · rintro ⟨hf, h⟩
    exact ⟨_, ⟨hf, rfl⟩, foldlM_append_eq_ok.mpr ⟨_, scan_up_word h2.2, h⟩⟩

theorem scan_rel_joined (h : ∀ x ∈ us ++ [u], IsWord x) :
    (joined dot (us ++ [u]) ++ t).foldlM (step .full) (relState e ups [] []) = .ok st ↔
      (∀ x ∈ us, Fits x) ∧ t.foldlM (step .full) (relState e ups us u) = .ok st := by
  obtain ⟨h1, h2⟩ := forall_mem_snoc.mp h
  have hnil : ∀ x ∈ ([] : List Bytes), IsWord x := by simp
  rw [joined_snoc, List.append_assoc, foldlM_append_eq_ok]
  simp only [scan_rel_closed hnil h1, List.nil_append]
  constructor
  · rintro ⟨_, ⟨hf, rfl⟩, h⟩
    obtain ⟨st', h3, h4⟩ := foldlM_append_eq_ok.mp h
    rw [scan_rel_word h2.2] at h3
    cases h3
    exact ⟨hf, h4⟩
  · rintro ⟨hf, h⟩
    exact ⟨_, ⟨hf, rfl⟩, foldlM_append_eq_ok.mpr ⟨_, scan_rel_word h2.2, h⟩⟩

theorem scan_up_sep (h : ∀ x ∈ us ++ [u], IsWord x) {c : UInt8} (hc : c = ch '+' ∨ c = ch '-') :
    (c :: t).foldlM (step .full) (upState e us u) = .ok st ↔ Fits u ∧
      t.foldlM (step .full) (if c = ch '+' then revState e (us ++ [u]) [] (closed dot us ++ u) []
        else relState e (us ++ [u]) [] []) = .ok st := by
  obtain ⟨h1, h2⟩ := forall_mem_snoc.mp h
  have hs : isSeparator c = true := by
    rcases hc with rfl | rfl <;> decide
  rw [List.foldlM_cons, bind_eq_ok]
  simp only [step_up h1 h2.1 hs]
  rw [show (if c = ch '-' then relState e (us ++ [u]) [] [] else upState e (us ++ [u]) []) =
    if c = ch '+' then upState e (us ++ [u]) [] else relState e (us ++ [u]) [] [] by
      rcases hc with rfl | rfl <;> rfl]
  constructor
  · rintro ⟨_, ⟨hf, rfl⟩, h⟩
    refine ⟨hf, ?_⟩
    rcases hc with rfl | rfl <;> exact h
  · rintro ⟨hf, h⟩
    refine ⟨_, ⟨hf, rfl⟩, ?_⟩
    rcases hc with rfl | rfl <;> exact h

theorem scan_rel_sep (h : ∀ x ∈ us ++ [u], IsWord x) :
    (ch '+' :: t).foldlM (step .full) (relState e ups us u) = .ok st ↔ Fits u ∧
      t.foldlM (step .full) (revState e ups (us ++ [u]) (closed dot us ++ u) []) = .ok st := by
  obtain ⟨h1, h2⟩ := forall_mem_snoc.mp h
  rw [List.foldlM_cons, bind_eq_ok]
  simp only [step_rel h1 h2.1 (Or.inl rfl), if_true]
  exact ⟨fun ⟨_, ⟨hf, hst⟩, h⟩ => ⟨hf, hst ▸ h⟩, fun ⟨hf, h⟩ => ⟨_, ⟨hf, rfl⟩, h⟩⟩

end

theorem closed_word {us : List Bytes} {u : Bytes} (h : ∀ y ∈ us ++ [u], IsWord y) :
    (∀ y ∈ us, IsWord y) ∧ u ≠ [] :=
  ⟨(forall_mem_snoc.mp h).1, (forall_mem_snoc.mp h).2.1⟩

theorem scan_noRelease {x : Text} (hx : x.WellFormed) {fold : Bool} {d : DataType} {us : List Bytes}
    {u : Bytes} (hu : x.upstream = us ++ [u]) (hrel : x.release = none) :
    (∃ st, x.revisionText.foldlM (step .full) (upState (x.epoch.map value) us u) = .ok st ∧
        st.finish .full fold = .ok d) ↔ Fits u ∧ x.Made fold d := by
  have hus : ∀ y ∈ us ++ [u], IsWord y := hu ▸ hx.upstream
  obtain ⟨h1, h2⟩ := closed_word hus
  cases hrev : x.revision with
  | none =>
    have ht : x.revisionText = [] := by rw [Text.revisionText, hrev]; rfl
    have hv : x.revisionValue fold = none := by rw [Text.revisionValue, hrev]; rfl
    rw [ht, List.foldlM_nil]
    refine Iff.trans ⟨fun ⟨_, h, h'⟩ => by cases h; exact h', fun h => ⟨_, rfl, h⟩⟩
      (finish_ends hx (by nofun) (Or.inl h2) (fun y rev => hv ▸ last_up h1 h2) ?_)
    exact ⟨rfl, congrArg canonOf hu.symm, congrArg (joined dot) hu.symm, by rw [hrel]; rfl,
      by rw [hrel]; rfl, by rw [hrel]; nofun, fun _ => nofun⟩
  | some r =>
    have hr := hx.revision r hrev
    have ht : x.revisionText = ch '+' :: r := by rw [Text.revisionText, hrev]; rfl
    have hv : x.revisionValue fold =
        if value r ≠ 0 ∨ fold = false then some (value r) else none := by
      rw [Text.revisionValue, hrev]
      rfl
    rw [ht]
    simp only [scan_up_sep hus (Or.inl rfl), if_true, scan_rev_word (isAlnum_of_isUint16 hr),
      List.nil_append, Except.ok.injEq, and_assoc, exists_and_left, exists_eq_left']
    refine and_congr_right fun _ => (finish_ends hx (by nofun) (Or.inl hr.1.1)
      (fun y rev => hv ▸ last_rev hr) ?_).trans (and_iff_right trivial)
    exact ⟨rfl, congrArg canonOf hu.symm, congrArg (joined dot) hu.symm, by rw [hrel]; rfl,
      by rw [hrel]; rfl, by rw [hrel]; nofun, fun _ => nofun⟩

theorem scan_release {x : Text} (hx : x.WellFormed) {fold : Bool} {d : DataType}
    {rs : List Bytes} (hrel : x.release = some rs) :
    (∃ st, (joined dot rs ++ ((if x.trailing then [dot] else []) ++ x.revisionText)).foldlM
        (step .full) (relState (x.epoch.map value) x.upstream [] []) = .ok st ∧
        st.finish .full fold = .ok d) ↔ (∀ r ∈ rs, Fits r) ∧ x.Made fold d := by
  have hrs := hx.release rs hrel
  have hends : ∀ {st}, st.ep = x.epoch.map value → st.canonUpstream = canonOf x.upstream →
      st.upstream = joined dot x.upstream → st.canonRelease = canonOf rs →
      st.release = joined dot rs → (rs = [] → st.mode = .release) →
      Ends st (x.epoch.map value) x.upstream x.release := by
    intro st h1 h2 h3 h4 h5 h6
    refine ⟨h1, h2, h3, by rw [hrel]; exact h4, by rw [hrel]; exact h5, fun h => h6 ?_, fun h => ?_⟩
    · rw [hrel] at h
      exact Option.some.inj h
    · rw [hrel] at h
      cases h
  by_cases hnil : rs = []
  · subst hnil
    have hrev := hx.earliest hrel
    have htr : x.trailing = false := by
      by_contra h
      obtain ⟨-, rs, h1, h2⟩ := hx.trailing (eq_true_of_ne_false h)
      rw [hrel] at h1
      exact h2 (Option.some.inj h1).symm
    have ht : x.revisionText = [] := by rw [Text.revisionText, hrev]; rfl
    have hv : x.revisionValue fold = none := by rw [Text.revisionValue, hrev]; rfl
    rw [ht, htr]
    refine Iff.trans ⟨fun ⟨_, h, h'⟩ => by cases h; exact h', fun h => ⟨_, rfl, h⟩⟩
      ((finish_ends hx (by nofun) (Or.inr rfl) (fun y rev => hv ▸ last_rel_nil) ?_).trans
        (and_congr_left fun _ => iff_of_true trivial nofun))
    exact hends rfl rfl rfl rfl rfl fun _ => rfl
  obtain ⟨us, u, rfl⟩ := (List.eq_nil_or_concat' rs).resolve_left hnil
  obtain ⟨h1, h2⟩ := closed_word hrs
  rw [forall_mem_snoc, and_assoc]
  simp only [scan_rel_joined hrs, and_assoc, exists_and_left]
  refine and_congr_right fun _ => ?_
  cases htr : x.trailing with
  | true =>
    obtain ⟨hrev, -⟩ := hx.trailing htr
    have ht : x.revisionText = [] := by rw [Text.revisionText, hrev]; rfl
    have hv : x.revisionValue fold = none := by rw [Text.revisionValue, hrev]; rfl
    have hstep : ∀ {st}, ([dot] ++ ([] : Bytes)).foldlM (step .full)
        (relState (x.epoch.map value) x.upstream us u) = .ok st ↔
        Fits u ∧ st = relState (x.epoch.map value) x.upstream (us ++ [u]) [] := by
      intro st
      rw [List.append_nil, List.foldlM_cons, bind_eq_ok]
      simp only [step_rel h1 h2 (Or.inr rfl), show ¬ dot = ch '+' by decide, if_false,
        List.foldlM_nil]
      exact ⟨fun ⟨_, ⟨hf, h⟩, h'⟩ => ⟨hf, by cases h'; exact h⟩,
        fun ⟨hf, h⟩ => ⟨_, ⟨hf, rfl⟩, h ▸ rfl⟩⟩
    rw [ht]
    simp only [if_true, hstep, and_assoc, exists_and_left, exists_eq_left]
    refine and_congr_right fun _ => (finish_ends hx (by nofun) (Or.inr rfl)
      (fun y rev => hv ▸ last_rel_nil) ?_).trans (and_iff_right trivial)
    exact hends rfl rfl rfl rfl rfl fun _ => rfl
  | false =>
    simp only [Bool.false_eq_true, if_false, List.nil_append]
    cases hrev : x.revision with
    | none =>
      have ht : x.revisionText = [] := by rw [Text.revisionText, hrev]; rfl
      have hv : x.revisionValue fold = none := by rw [Text.revisionValue, hrev]; rfl
      rw [ht, List.foldlM_nil]
      refine Iff.trans ⟨fun ⟨_, h, h'⟩ => by cases h; exact h', fun h => ⟨_, rfl, h⟩⟩
        (finish_ends hx (by nofun) (Or.inl h2) (fun y rev => hv ▸ last_rel h1 h2) ?_)
      exact hends rfl rfl rfl rfl rfl fun _ => rfl
    | some r =>
      have hr := hx.revision r hrev
      have ht : x.revisionText = ch '+' :: r := by rw [Text.revisionText, hrev]; rfl
      have hv : x.revisionValue fold =
          if value r ≠ 0 ∨ fold = false then some (value r) else none := by
        rw [Text.revisionValue, hrev]
        rfl
      rw [ht]
      simp only [scan_rel_sep hrs, scan_rev_word (isAlnum_of_isUint16 hr), List.nil_append,
        Except.ok.injEq, and_assoc, exists_and_left, exists_eq_left']
      refine and_congr_right fun _ => (finish_ends hx (by nofun) (Or.inl hr.1.1)
        (fun y rev => hv ▸ last_rev hr) ?_).trans (and_iff_right trivial)
      exact hends rfl rfl rfl rfl rfl fun h => absurd h hnil

/-- **The parts after the epoch.** -/
theorem scan_body {x : Text} (hx : x.WellFormed) {fold : Bool} {d : DataType} :
    (∃ st, (joined dot x.upstream ++ (x.releaseText ++ x.revisionText)).foldlM (step .full)
        (upState (x.epoch.map value) [] []) = .ok st ∧ st.finish .full fold = .ok d) ↔
      x.AllFit ∧ x.Made fold d := by
  obtain ⟨us, u, hu⟩ := (List.eq_nil_or_concat' x.upstream).resolve_left hx.nonempty
  have hus : ∀ y ∈ us ++ [u], IsWord y := hu ▸ hx.upstream
  unfold Text.AllFit
  rw [hu, forall_mem_snoc]
  simp only [scan_up_joined hus, and_assoc, exists_and_left]
  refine and_congr_right fun _ => ?_
  cases hrel : x.release with
  | none =>
    have hrt : x.releaseText = [] := by rw [Text.releaseText, hrel]; rfl
    rw [hrt, List.nil_append, scan_noRelease hx hu hrel]
    simp
  | some rs =>
    have hrt : x.releaseText ++ x.revisionText = ch '-' ::
        (joined dot rs ++ ((if x.trailing then [dot] else []) ++ x.revisionText)) := by
      rw [Text.releaseText, hrel]
      simp
    rw [hrt]
    simp only [scan_up_sep hus (Or.inr rfl), show ¬ ch '-' = ch '+' by decide, if_false, and_assoc,
      exists_and_left, ← hu, scan_release hx hrel]
    simp

/-- A character of a version. -/
def isVersionChar (b : UInt8) : Bool := isAlnum b || isSeparator b

theorem Text.WellFormed.chars {x : Text} (hx : x.WellFormed) :
    ∀ b ∈ x.text, isVersionChar b = true := by
  have hword : ∀ {w : Bytes}, (∀ b ∈ w, isAlnum b = true) → ∀ b ∈ w, isVersionChar b = true :=
    fun h b hb => by simp [isVersionChar, h b hb]
  have hjoined : ∀ {ws : List Bytes}, (∀ w ∈ ws, IsWord w) → ∀ b ∈ joined dot ws,
      isVersionChar b = true := by
    intro ws hws b hb
    rcases mem_joined hb with rfl | ⟨w, hw, hb⟩
    · decide
    · exact hword (hws w hw).2 b hb
  have hsep : ∀ {c}, c = ch '+' ∨ c = ch '-' ∨ c = dot → isVersionChar c = true := by
    rintro c (rfl | rfl | rfl) <;> decide
  intro b hb
  rcases List.mem_append.mp hb with hb | hb
  · unfold Text.epochText at hb
    cases he : x.epoch with
    | none =>
      rw [he] at hb
      cases hb
    | some e =>
      rw [he] at hb
      rcases List.mem_cons.mp hb with hb | hb
      · exact hsep (Or.inl hb)
      rcases List.mem_append.mp hb with hb | hb
      · exact hword (isAlnum_of_isUint16 (hx.epoch e he)) b hb
      · exact hsep (Or.inr (Or.inl (List.mem_singleton.mp hb)))
  rcases List.mem_append.mp hb with hb | hb
  · exact hjoined hx.upstream b hb
  rcases List.mem_append.mp hb with hb | hb
  · unfold Text.releaseText at hb
    cases hr : x.release with
    | none =>
      rw [hr] at hb
      cases hb
    | some rs =>
      rw [hr] at hb
      rcases List.mem_cons.mp hb with hb | hb
      · exact hsep (Or.inr (Or.inl hb))
      rcases List.mem_append.mp hb with hb | hb
      · exact hjoined (hx.release rs hr) b hb
      · split_ifs at hb
        · exact hsep (Or.inr (Or.inr (List.mem_singleton.mp hb)))
        · cases hb
  · unfold Text.revisionText at hb
    cases hr : x.revision with
    | none =>
      rw [hr] at hb
      cases hb
    | some r =>
      rw [hr] at hb
      rcases List.mem_cons.mp hb with hb | hb
      · exact hsep (Or.inl hb)
      · exact hword (isAlnum_of_isUint16 (hx.revision r hr)) b hb

theorem cString_of_chars {s : Bytes} (h : ∀ b ∈ s, isVersionChar b = true) : cString s = s := by
  unfold cString
  rw [List.takeWhile_eq_self_iff]
  intro b hb
  have h0 : b ≠ 0 := ne_of_class (h b hb) (by decide)
  simpa using h0

theorem isAlnum_hd_joined {ws : List Bytes} (h : ∀ w ∈ ws, IsWord w) (hne : ws ≠ []) (t : Bytes) :
    isAlnum (hd (joined dot ws ++ t)) = true := by
  obtain ⟨w, ws, rfl⟩ := List.exists_cons_of_ne_nil hne
  obtain ⟨hw, hal⟩ := h w (by simp)
  obtain ⟨b, w, rfl⟩ := List.exists_cons_of_ne_nil hw
  rw [joined_cons]
  exact hal b (by simp)

theorem scan_text {x : Text} (hx : x.WellFormed) {st : Scan} :
    (Scan.start .full x.text).2.foldlM (step .full) (Scan.start .full x.text).1 = .ok st ↔
      (joined dot x.upstream ++ (x.releaseText ++ x.revisionText)).foldlM (step .full)
        (upState (x.epoch.map value) [] []) = .ok st := by
  cases he : x.epoch with
  | none =>
    have ht : x.text = joined dot x.upstream ++ (x.releaseText ++ x.revisionText) := by
      rw [Text.text, Text.epochText, he]
      rfl
    have hp : hd x.text ≠ ch '+' := by
      rw [ht]
      exact ne_of_class (isAlnum_hd_joined hx.upstream hx.nonempty _) (by decide)
    rw [Scan.start, if_neg hp, ht]
    rfl
  | some e =>
    have hu := hx.epoch e he
    have ht : x.text = ch '+' ::
        (e ++ (ch '-' :: (joined dot x.upstream ++ (x.releaseText ++ x.revisionText)))) := by
      rw [Text.text, Text.epochText, he]
      simp
    have hstep : step .full { mode := .epoch, comp := e, part := e } (ch '-') =
        .ok (upState (some (value e)) [] []) := by
      have hnum : Scan.numeric { mode := .epoch, comp := e, part := e } = true :=
        List.all_eq_true.mpr hu.1.2
      have hv : uint16 e "epoch" = .ok (value e) := if_pos hu.2
      unfold step Scan.endComponent
      rw [if_pos (by decide), if_neg (by simp), if_neg (by simp [hu.1.1]), if_pos rfl, hnum,
        Bool.not_true, if_neg nofun, hv]
      rfl
    rw [ht, Scan.start, if_pos (hd_cons _ _), List.tail_cons, foldlM_append_eq_ok,
      scan_word (isAlnum_of_isUint16 hu)]
    simp only [List.nil_append, Except.ok.injEq, exists_eq_left', List.foldlM_cons, hstep,
      bind_eq_ok]
    rfl

/-- **What the parser makes of a text of the grammar.** -/
theorem ofString_text {x : Text} (hx : x.WellFormed) {fold : Bool} {v : Version} :
    ofString x.text fold = .ok v ↔ x.Valid ∧ v = x.version fold := by
  have hd : ∀ {d}, DataType.parse (some x.text) .full fold = .ok d ↔ x.AllFit ∧ x.Made fold d := by
    intro d
    rw [← scan_body hx, DataType.parse, if_neg (by simp)]
    simp only [bind_eq_ok, scan_text hx]
  unfold ofString
  rw [cString_of_chars hx.chars, bind_eq_ok]
  simp only [hd]
  constructor
  · rintro ⟨d, ⟨hf, hne, rfl⟩, h⟩
    cases h
    exact ⟨{ hx with fits := hf, notEmpty := hne }, rfl⟩
  · rintro ⟨hv, rfl⟩
    exact ⟨_, ⟨hv.fits, hv.notEmpty, rfl⟩, rfl⟩

end Build2.Libbpkg.Version
