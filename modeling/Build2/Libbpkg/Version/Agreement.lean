import Build2.Libbpkg.Version.Parts

/-! # The grammar and the two constructors

The strings the parser accepts are those of the documented grammar and, besides, those whose release
part ends with a dot and those that are cut at a NUL. The constructor from parts takes every version
that has been parsed, and what it makes itself is read back unless a part ends with a dot or has a
NUL, or the version is one that cannot be told from the empty one. -/

namespace Build2.Libbpkg.Version

open Build2.Lib.ByteString Build2.Lib.Decimal Build2.Lib.Joined Build2.Libbutl.ParseUint

/-- `[+<epoch>-]<upstream>[-<release>][+<revision>]`, other than the empty version. -/
def IsForm (s : Bytes) : Prop := ∃ x : Text, x.Valid ∧ x.trailing = false ∧ s = x.text

/-! ### The last character -/

/-- A part that was not completed. -/
def EndsWithDot (s : Bytes) : Prop := s.getLast? = some dot

instance (s : Bytes) : Decidable (EndsWithDot s) := inferInstanceAs (Decidable (_ = _))

section

variable {s t : Bytes} {xs : List Bytes} {y : Bytes}

theorem endsWithDot_append (ht : t ≠ []) : EndsWithDot (s ++ t) ↔ EndsWithDot t := by
  unfold EndsWithDot
  rw [List.getLast?_append_of_ne_nil s ht]

theorem not_endsWithDot_word (hy : IsWord y) : ¬ EndsWithDot y := by
  intro h
  exact absurd (hy.2 dot (List.mem_of_getLast? h)) (by decide)

theorem not_endsWithDot_joined (hxs : ∀ x ∈ xs, IsWord x) : ¬ EndsWithDot (joined dot xs) := by
  rcases List.eq_nil_or_concat' xs with rfl | ⟨xs, y, rfl⟩
  · nofun
  · have hy := hxs y (by simp)
    rw [joined_snoc, endsWithDot_append hy.1]
    exact not_endsWithDot_word hy

theorem IsUint16.isWord (h : IsUint16 y) : IsWord y := ⟨h.1.1, isAlnum_of_isUint16 h⟩

/-- **Only a release part that was not completed ends with a dot.** -/
theorem Text.WellFormed.endsWithDot {x : Text} (h : x.WellFormed) :
    EndsWithDot x.text ↔ x.trailing = true := by
  unfold Text.text
  cases hrev : x.revision with
  | some r =>
    have hr := (h.revision r hrev).isWord
    have htext : x.revisionText = [ch '+'] ++ r := by
      unfold Text.revisionText
      rw [hrev]
      rfl
    rw [htext, ← List.append_assoc, ← List.append_assoc, ← List.append_assoc,
      endsWithDot_append hr.1]
    refine iff_of_false (not_endsWithDot_word hr) fun ht => ?_
    rw [(h.trailing ht).1] at hrev
    cases hrev
  | none =>
    have htext : x.revisionText = [] := by
      unfold Text.revisionText
      rw [hrev]
      rfl
    rw [htext, List.append_nil]
    cases hrel : x.release with
    | none =>
      have hrtext : x.releaseText = [] := by
        unfold Text.releaseText
        rw [hrel]
        rfl
      rw [hrtext, List.append_nil, endsWithDot_append
        (joined_ne_nil (fun u hu => (h.upstream u hu).1) h.nonempty)]
      refine iff_of_false (not_endsWithDot_joined h.upstream) fun ht => ?_
      obtain ⟨-, rs, hrs, -⟩ := h.trailing ht
      rw [hrel] at hrs
      cases hrs
    | some rs =>
      have hrtext : x.releaseText =
          [ch '-'] ++ (joined dot rs ++ if x.trailing then [dot] else []) := by
        unfold Text.releaseText
        rw [hrel]
        rfl
      rw [hrtext, ← List.append_assoc, ← List.append_assoc]
      by_cases ht : x.trailing = true
      · rw [if_pos ht, ← List.append_assoc, endsWithDot_append (by simp)]
        exact iff_of_true rfl ht
      · rw [if_neg ht, List.append_nil]
        refine iff_of_false ?_ ht
        have hrs := h.release rs hrel
        by_cases hnil : rs = []
        · subst hnil
          rw [show joined dot [] = [] from rfl, List.append_nil, endsWithDot_append (by simp)]
          decide
        · rw [endsWithDot_append (joined_ne_nil (fun r hr => (hrs r hr).1) hnil)]
          exact not_endsWithDot_joined hrs

/-! ### The grammar -/

theorem cString_of_not_mem (h : 0 ∉ s) : cString s = s :=
  List.takeWhile_eq_self_iff.mpr fun _ hb => decide_eq_true fun he => h (he ▸ hb)

theorem Text.WellFormed.not_mem_text {x : Text} (h : x.WellFormed) : 0 ∉ x.text := by
  intro h0
  exact absurd (h.chars 0 h0) (by decide)

theorem accepted_iff {fold : Bool} :
    (∃ v, ofString s fold = .ok v) ↔ ∃ x : Text, x.Valid ∧ cString s = x.text := by
  constructor
  · rintro ⟨v, h⟩
    obtain ⟨x, hs, hx, -⟩ := exists_text h
    exact ⟨x, hx, hs⟩
  · rintro ⟨x, hx, hs⟩
    have h : ofString x.text fold = .ok _ := (ofString_text hx.toWellFormed).mpr ⟨hx, rfl⟩
    unfold ofString at h ⊢
    rw [cString_of_not_mem hx.toWellFormed.not_mem_text] at h
    exact ⟨_, by rw [hs]; exact h⟩

/-- **When the parser and the grammar agree on a string.** -/
theorem accepted_iff_isForm : ((∃ v, ofString s false = .ok v) ↔ IsForm s) ↔
    ¬ ∃ x : Text, x.Valid ∧ cString s = x.text ∧ (x.trailing = true ∨ 0 ∈ s) := by
  rw [accepted_iff]
  constructor
  · rintro h ⟨x, hx, hs, hbad⟩
    obtain ⟨z, hz, hz1, rfl⟩ := h.mp ⟨x, hx, hs⟩
    rcases hbad with ht | h0
    · rw [cString_of_not_mem hz.toWellFormed.not_mem_text] at hs
      have hdot := hx.toWellFormed.endsWithDot.mpr ht
      rw [← hs, hz.toWellFormed.endsWithDot, hz1] at hdot
      cases hdot
    · exact hz.toWellFormed.not_mem_text h0
  · intro h
    constructor
    · rintro ⟨x, hx, hs⟩
      have h0 : 0 ∉ s := fun h0 => h ⟨x, hx, hs, Or.inr h0⟩
      have ht : x.trailing = false := eq_false_of_ne_true fun ht => h ⟨x, hx, hs, Or.inl ht⟩
      exact ⟨x, hx, ht, by rw [← hs, cString_of_not_mem h0]⟩
    · rintro ⟨x, hx, -, rfl⟩
      exact ⟨x, hx, cString_of_not_mem hx.toWellFormed.not_mem_text⟩

/-! ### From the parser to the constructor from parts -/

theorem isPart_joined (hxs : ∀ x ∈ xs, IsWord x ∧ Fits x) :
    PartForm (joined dot xs) (canonical xs) := by
  have h0 : 0 ∉ joined dot xs := by
    intro h0
    rcases mem_joined h0 with h | ⟨x, hx, hb⟩
    · exact absurd h (by decide)
    · exact absurd ((hxs x hx).1.2 0 hb) (by decide)
  unfold PartForm
  rw [cString_of_not_mem h0]
  rcases List.eq_nil_or_concat' xs with rfl | ⟨xs, y, rfl⟩
  · exact ⟨[], [], ⟨rfl, by simp, by simp, fun _ => by simp⟩, rfl⟩
  · obtain ⟨hy, hf⟩ := hxs y (by simp)
    refine ⟨xs, y, ⟨joined_snoc y xs, fun x hx => hxs x (by simp [hx]), hy.2, hf⟩, ?_⟩
    rw [components, if_neg hy.1]

/-- **The constructor from parts makes the version that was parsed**, with any iteration. -/
theorem ofParts_of_ofString {v : Version} {fold : Bool} (h : ofString s fold = .ok v) {i : ℕ}
    (hi : v.release = some [] → i = 0) :
    ofParts v.epoch v.upstream v.release v.revision i = .ok { v with iteration := i } := by
  obtain ⟨x, -, hx, rfl⟩ := exists_text h
  have hne : joined dot x.upstream ≠ [] :=
    joined_ne_nil (fun u hu => (hx.upstream u hu).1) hx.nonempty
  refine ofParts_eq_ok.mpr ⟨?_, canonical x.upstream, x.canonicalRelease, ?_, ?_, rfl⟩
  · show MembersOk x.epochValue (joined dot x.upstream) _ _ i
    rw [MembersOk, if_neg hne]
    intro hl
    refine ⟨?_, hi hl⟩
    obtain ⟨rs, hrs, hnil⟩ := Option.map_eq_some_iff.mp hl
    rw [joined_eq_nil fun r hr => (hx.release rs hrs r hr).1] at hnil
    subst hnil
    show x.revisionValue fold = none
    rw [Text.revisionValue, hx.earliest hrs]
    rfl
  · exact isPart_joined fun u hu => ⟨hx.upstream u hu, hx.fits.1 u hu⟩
  · show ReleaseForm (x.release.map (joined dot)) x.canonicalRelease
    unfold Text.canonicalRelease
    cases hrel : x.release with
    | none => rfl
    | some rs => exact isPart_joined fun r hr => ⟨hx.release rs hrel r hr, hx.fits.2 rs hrel r hr⟩

/-! ### From the constructor from parts to the parser -/

/-- A part without a NUL that does not end with a dot. -/
def Complete (s : Bytes) : Prop := 0 ∉ s ∧ ¬ EndsWithDot s

/-- Components of zeros only. -/
def IsZeroPart (s : Bytes) : Prop := ∀ b ∈ s, b = ch '0' ∨ b = dot

/-- What the printed version has to meet to be read back. -/
def Readable (e : ℕ) (u : Bytes) (l : Option Bytes) : Prop :=
  Complete u ∧ (∀ l' ∈ l, Complete l') ∧ ¬ (e = 0 ∧ IsZeroPart u ∧ ∃ l' ∈ l, IsZeroPart l')

theorem complete_joined (hxs : ∀ x ∈ xs, IsWord x) : Complete (joined dot xs) := by
  refine ⟨fun h0 => ?_, not_endsWithDot_joined hxs⟩
  rcases mem_joined h0 with h | ⟨x, hx, hb⟩
  · exact absurd h (by decide)
  · exact absurd ((hxs x hx).2 0 hb) (by decide)

/-- A complete part has no empty component. -/
theorem PartForm.exists_joined {c : Bytes} (h : PartForm s c) (hs : Complete s) :
    ∃ xs, (∀ x ∈ xs, IsWord x ∧ Fits x) ∧ s = joined dot xs ∧ c = canonical xs := by
  obtain ⟨xs, y, hpart, rfl⟩ := h
  have htext := hpart.text
  rw [cString_of_not_mem hs.1] at htext
  by_cases hy : y = []
  · rw [components, if_pos hy]
    rw [hy, List.append_nil] at htext
    refine ⟨xs, hpart.words, ?_, rfl⟩
    by_cases hxs : xs = []
    · rw [htext, hxs]
      rfl
    · rw [closed_eq hxs] at htext
      rw [htext] at hs
      have hdot : EndsWithDot [dot] := rfl
      exact absurd ((endsWithDot_append (by simp)).mpr hdot) hs.2
  · rw [components, if_neg hy]
    exact ⟨xs ++ [y], forall_mem_snoc.mpr ⟨hpart.words, ⟨hy, hpart.alnum⟩, hpart.fits⟩,
      by rw [htext, joined_snoc], rfl⟩

theorem canonical_eq_nil (hxs : ∀ x ∈ xs, IsWord x) :
    canonical xs = [] ↔ IsZeroPart (joined dot xs) := by
  have hne : ∀ c ∈ trim (·.all isZero) (xs.map canonComp), c ≠ [] := by
    intro c hc
    obtain ⟨x, hx, rfl⟩ := List.mem_map.mp ((trim_initial _).subset hc)
    exact canonComp_ne_nil (hxs x hx).1
  unfold canonical
  rw [joined_eq_nil hne, trim_eq_nil]
  rw [List.forall_mem_map]
  simp only [all_isZero_canonComp, Bool.and_eq_true, List.all_eq_true]
  constructor
  · intro h b hb
    rcases mem_joined hb with hb | ⟨x, hx, hb⟩
    · exact Or.inr hb
    · exact Or.inl (of_decide_eq_true ((h x hx).2 b hb))
  · intro h x hx
    have hz : ∀ b ∈ x, isZero b = true := by
      intro b hb
      rcases h b (mem_joined_of_mem hx hb) with hb' | hb'
      · exact decide_eq_true hb'
      · have := (hxs x hx).2 b hb
        rw [hb'] at this
        exact absurd this (by decide)
    exact ⟨fun b hb => isDigit_of_isZero (hz b hb), hz⟩

/-- **When a version made from parts is read back.** -/
theorem reread_iff_readable {e : ℕ} {u : Bytes} {l : Option Bytes} {r : Option ℕ} {v : Version}
    (he : e ≤ 65535) (hr : ∀ n ∈ r, n ≤ 65535) (hu : u ≠ []) (h : ofParts e u l r 0 = .ok v) :
    (∃ t w, v.string false false = .ok t ∧ ofString t false = .ok w ∧ w.cmp v = .eq ∧
      w.epoch = e ∧ w.upstream = u ∧ w.release = l ∧ w.revision = r) ↔ Readable e u l := by
  obtain ⟨hm, cu, cl, hcu, hcl, rfl⟩ := ofParts_eq_ok.mp h
  constructor
  · rintro ⟨t, w, -, hw, hcmp, hw1, rfl, rfl, -⟩
    obtain ⟨z, -, hz, rfl⟩ := exists_text hw
    have hcu' : Complete (joined dot z.upstream) := complete_joined hz.upstream
    have hcl' : ∀ l' ∈ z.release.map (joined dot), Complete l' := by
      intro l' hl'
      obtain ⟨rs, hrs, rfl⟩ := Option.map_eq_some_iff.mp hl'
      exact complete_joined (hz.release rs hrs)
    refine ⟨hcu', hcl', ?_⟩
    rintro ⟨he0, hzu, l', hl', hzl⟩
    obtain ⟨rs, hrs, rfl⟩ := Option.map_eq_some_iff.mp hl'
    refine hz.notEmpty ⟨hw1.trans he0, (canonical_eq_nil hz.upstream).mpr hzu, ?_⟩
    rw [Text.canonicalRelease, hrs]
    exact (canonical_eq_nil (hz.release rs hrs)).mpr hzl
  · rintro ⟨hcu', hcl', hz⟩
    obtain ⟨ups, hups, rfl, rfl⟩ := hcu.exists_joined hcu'
    obtain ⟨rels, hrels, rfl, rfl⟩ : ∃ rels : Option (List Bytes),
        (∀ rs ∈ rels, ∀ x ∈ rs, IsWord x ∧ Fits x) ∧ l = rels.map (joined dot) ∧
          cl = rels.elim (str ['~']) canonical := by
      cases l with
      | none => exact ⟨none, nofun, rfl, hcl⟩
      | some l =>
        obtain ⟨rs, hrs, rfl, rfl⟩ := PartForm.exists_joined hcl (hcl' l rfl)
        exact ⟨some rs, fun _ h => by cases h; exact hrs, rfl, rfl⟩
    have hwf : Text.WellFormed ⟨some (decimal e), ups, rels, false, r.map decimal⟩ :=
      { epoch := fun _ h => by cases h; exact Text.isUint16_decimal he
        nonempty := fun hnil => hu (by rw [show ups = [] from hnil]; rfl)
        upstream := fun x hx => (hups x hx).1
        release := fun rs hrs x hx => (hrels rs hrs x hx).1
        trailing := nofun
        earliest := fun hrel => by
          rw [MembersOk, if_neg hu] at hm
          rw [(hm (by rw [show rels = some [] from hrel]; rfl)).1]
          rfl
        revision := fun d hd => by
          obtain ⟨n, hn, rfl⟩ := Option.map_eq_some_iff.mp hd
          exact Text.isUint16_decimal (hr n hn) }
    have hx : Text.Valid ⟨some (decimal e), ups, rels, false, r.map decimal⟩ :=
      { hwf with
        fits := ⟨fun x hx => (hups x hx).2, fun rs hrs x hx => (hrels rs hrs x hx).2⟩
        notEmpty := by
          rintro ⟨h1, h2, h3⟩
          have he0 : e = 0 := (value_decimal e).symm.trans h1
          refine hz ⟨he0, (canonical_eq_nil fun x hx => (hups x hx).1).mp h2, ?_⟩
          cases rels with
          | none => cases h3
          | some rs =>
            exact ⟨_, rfl, (canonical_eq_nil fun x hx => (hrels rs rfl x hx).1).mp h3⟩ }
    have hv : Text.version ⟨some (decimal e), ups, rels, false, r.map decimal⟩ false =
        ⟨e, joined dot ups, rels.map (joined dot), r, 0, canonical ups,
          rels.elim (str ['~']) canonical⟩ := by
      cases r <;>
        simp [Text.version, Text.epochValue, Text.revisionValue, Text.canonicalRelease,
          value_decimal]
    refine ⟨_, _, hv ▸ hwf.string_eq, (ofString_text hwf.normal).mpr ⟨hx.normal, rfl⟩, ?_⟩
    rw [Text.version_normal, hv]
    exact ⟨cmp_self _, rfl, rfl, rfl, rfl⟩

end

/-! ### The agreement -/

/-- **The grammar and the constructors.** The parser accepts the strings of the grammar alone if
and only if the release part does not end with a dot and there is no NUL; the constructor from parts
takes what has been parsed; and what it makes is read back if and only if it is readable. -/
theorem accepts_and_makes (s u : Bytes) (e i : ℕ) (l : Option Bytes) (r : Option ℕ)
    (v : Version) :
    (((∃ w, ofString s false = .ok w) ↔ IsForm s) ↔
      ¬ ∃ x : Text, x.Valid ∧ cString s = x.text ∧ (x.trailing = true ∨ 0 ∈ s)) ∧
    (ofString s false = .ok v → (v.release = some [] → i = 0) →
      ofParts v.epoch v.upstream v.release v.revision i = .ok { v with iteration := i }) ∧
    (e ≤ 65535 → (∀ n ∈ r, n ≤ 65535) → u ≠ [] → ofParts e u l r 0 = .ok v →
      ((∃ t w, v.string false false = .ok t ∧ ofString t false = .ok w ∧ w.cmp v = .eq ∧
        w.epoch = e ∧ w.upstream = u ∧ w.release = l ∧ w.revision = r) ↔ Readable e u l)) :=
  ⟨accepted_iff_isForm, fun h hi => ofParts_of_ofString h hi,
    fun he hr hu h => reread_iff_readable he hr hu h⟩

theorem accepts_and_makes_one :
    ofParts 1 (str ['1']) none none 7 = .ok
      ⟨1, str ['1'], none, none, 7, canonical [str ['1']], str ['~']⟩ ∧
    ((∃ t w, Version.string ⟨1, str ['1'], none, none, 0, canonical [str ['1']], str ['~']⟩
        false false = .ok t ∧ ofString t false = .ok w ∧
      w.cmp ⟨1, str ['1'], none, none, 0, canonical [str ['1']], str ['~']⟩ = .eq ∧
      w.epoch = 1 ∧ w.upstream = str ['1'] ∧ w.release = none ∧ w.revision = none) ↔
      Readable 1 (str ['1']) none) :=
  have h := accepts_and_makes (str ['1']) (str ['1']) 1 7 none none
    ⟨1, str ['1'], none, none, 0, canonical [str ['1']], str ['~']⟩
  ⟨h.2.1 (by rfl) nofun, h.2.2 (by decide) nofun (by decide) (by rfl)⟩

/-- `1-a.` is accepted, and it is not of the form: a component of its release part is empty. -/
theorem accepts_uncompleted_release :
    ¬ ((∃ v, ofString (str ['1', '-', 'a', '.']) false = .ok v) ↔
      IsForm (str ['1', '-', 'a', '.'])) := by
  intro h
  obtain ⟨x, hx, ht, hs⟩ := h.mp ⟨_, rfl⟩
  have hdot : EndsWithDot x.text := by
    rw [← hs]
    decide
  rw [hx.toWellFormed.endsWithDot, ht] at hdot
  cases hdot

end Build2.Libbpkg.Version
