import Build2.Libbpkg.Version.Grammar

/-! # What is accepted as a package version

Every string the parser accepts is a text of the grammar, and printing the version gives a string
that is accepted as the same version. -/

namespace Build2.Libbpkg.Version

open Build2.Lib.ByteString Build2.Lib.Decimal Build2.Lib.Joined Build2.Libbutl.ParseUint
open Build2.Lib.Stateful (bind_eq_ok)

/-! ### What has been read -/

/-- A text without a revision, and after it something may follow. -/
structure Text.Open (x : Text) : Prop extends x.WellFormed where
  noTrailing : x.trailing = false
  noRevision : x.revision = none

/-- What a state says about the characters that have been read. -/
def Consumed (st : Scan) (u : Bytes) : Prop :=
  (∀ b ∈ st.comp, isAlnum b = true) ∧
    match st.mode with
    | .epoch => u = ch '+' :: st.comp
    | .upstream => ∃ (e : Option Bytes) (xs : List Bytes), (∀ d ∈ e, IsUint16 d) ∧
        (∀ x ∈ xs, IsWord x) ∧
        u = (e.elim [] fun d => ch '+' :: (d ++ [ch '-'])) ++ (closed dot xs ++ st.comp)
    | .release => ∃ (x : Text) (xs : List Bytes), x.Open ∧ x.release = none ∧
        (∀ x ∈ xs, IsWord x) ∧ u = x.text ++ ch '-' :: (closed dot xs ++ st.comp)
    | .revision => ∃ x : Text, x.Open ∧ x.release ≠ some [] ∧ u = x.text ++ ch '+' :: st.comp

theorem open_upstream {e : Option Bytes} {xs : List Bytes} {y : Bytes} (he : ∀ d ∈ e, IsUint16 d)
    (hxs : ∀ x ∈ xs, IsWord x) (hy : IsWord y) : Text.Open ⟨e, xs ++ [y], none, false, none⟩ where
  epoch := he
  nonempty := by simp
  upstream := forall_mem_snoc.mpr ⟨hxs, hy⟩
  release := nofun
  trailing := nofun
  earliest := nofun
  revision := nofun
  noTrailing := rfl
  noRevision := rfl

theorem text_upstream (e : Option Bytes) (xs : List Bytes) (y : Bytes) :
    Text.text ⟨e, xs ++ [y], none, false, none⟩ =
      (e.elim [] fun d => ch '+' :: (d ++ [ch '-'])) ++ (closed dot xs ++ y) := by
  simp [Text.text, Text.epochText, Text.releaseText, Text.revisionText, joined_snoc]

theorem Text.Open.withRelease {x : Text} (h : x.Open) {rs : List Bytes} (hrs : ∀ r ∈ rs, IsWord r) :
    Text.Open { x with release := some rs } :=
  { h with
    release := fun _ h => by cases h; exact hrs
    trailing := fun ht => by
      have := h.noTrailing
      rw [this] at ht
      cases ht
    earliest := fun _ => h.noRevision }

theorem Text.Open.text_withRelease {x : Text} (h : x.Open) (hr : x.release = none)
    (rs : List Bytes) :
    Text.text { x with release := some rs } = x.text ++ ch '-' :: joined dot rs := by
  simp [Text.text, Text.epochText, Text.releaseText, Text.revisionText, h.noTrailing, h.noRevision,
    hr]

theorem endComponent_ok {st st' : Scan} (h : st.endComponent = .ok st') :
    st'.mode = st.mode ∧ st'.comp = st.comp ∧
      (st.mode = .epoch → st.numeric = true ∧ value st.comp ≤ 65535) := by
  unfold Scan.endComponent at h
  split_ifs at h with h1 h2
  · cases h
  · rw [bind_eq_ok] at h
    obtain ⟨n, hn, h⟩ := h
    cases h
    unfold uint16 at hn
    split_ifs at hn with h3
    · exact ⟨rfl, rfl, fun _ => ⟨by simpa using h2, h3⟩⟩
    · cases hn
  · unfold Scan.addComponent at h
    cases hm : st.mode with
    | upstream =>
      simp only [hm] at h
      obtain ⟨c, -, h⟩ := bind_eq_ok.mp h
      cases h
      exact ⟨rfl, rfl, nofun⟩
    | release =>
      simp only [hm] at h
      obtain ⟨c, -, h⟩ := bind_eq_ok.mp h
      cases h
      exact ⟨rfl, rfl, nofun⟩
    | epoch => exact absurd hm h1
    | revision =>
      simp only [hm] at h
      cases h

/-- **One character.** -/
theorem Consumed.step {st st' : Scan} {u : Bytes} {c : UInt8} (h : Consumed st u)
    (hs : Version.step .full st c = .ok st') : Consumed st' (u ++ [c]) := by
  obtain ⟨hal, h⟩ := h
  unfold Version.step at hs
  split_ifs at hs with hsep hfull hpos hcal
  · cases hs
  · cases hs
  · -- a separator after a component
    obtain ⟨st₁, h1, h2⟩ := bind_eq_ok.mp hs
    cases h2
    obtain ⟨hm, hc, hep⟩ := endComponent_ok h1
    simp only [not_or, not_and] at hpos
    obtain ⟨hp1, hp2, hp3, hp4⟩ := hpos
    have hword : IsWord st.comp := ⟨hp4, hal⟩
    unfold Scan.switch
    cases hmode : st.mode with
    | revision => exact absurd hmode hp1
    | epoch =>
      obtain rfl : c = ch '-' := by
        by_contra hne
        exact hp3 hne hmode
      obtain ⟨hnum, hle⟩ := hep hmode
      rw [hmode] at h hm
      rw [if_neg (by decide), if_pos rfl, if_pos hm]
      refine ⟨by simp, some st.comp, [], ?_, by simp, ?_⟩
      · rintro d hd
        cases hd
        exact ⟨⟨hp4, List.all_eq_true.mp hnum⟩, hle⟩
      · simp only at h
        rw [h]
        simp
    | upstream =>
      rw [hmode] at h hm
      obtain ⟨e, xs, he, hxs, rfl⟩ := h
      have hopen := open_upstream he hxs hword
      have htext := text_upstream e xs st.comp
      by_cases h1 : c = ch '+'
      · rw [if_pos h1]
        refine ⟨by simp, _, hopen, nofun, ?_⟩
        rw [htext, h1]
      by_cases h2 : c = ch '-'
      · rw [if_neg h1, if_pos h2, if_neg (by rw [hm]; nofun)]
        refine ⟨by simp, _, [], hopen, rfl, by simp, ?_⟩
        rw [htext, h2]
        simp
      · rw [if_neg h1, if_neg h2]
        have h3 : c = dot := by
          simpa [isSeparator, h1, h2] using hsep
        refine ⟨by simp, ?_⟩
        simp only [hm]
        refine ⟨e, xs ++ [st.comp], he, forall_mem_snoc.mpr ⟨hxs, hword⟩, ?_⟩
        rw [h3]
        simp
    | release =>
      rw [hmode] at h hm
      obtain ⟨x, xs, hx, hrel, hxs, rfl⟩ := h
      have hm' : c ≠ ch '-' := fun h => hp2 h hmode
      have hws := forall_mem_snoc.mpr ⟨hxs, hword⟩
      by_cases h1 : c = ch '+'
      · rw [if_pos h1]
        refine ⟨by simp, _, hx.withRelease hws, by simp, ?_⟩
        rw [hx.text_withRelease hrel, joined_snoc, h1]
      · rw [if_neg h1, if_neg hm']
        have h3 : c = dot := by
          simpa [isSeparator, h1, hm'] using hsep
        refine ⟨by simp, ?_⟩
        simp only [hm]
        refine ⟨x, xs ++ [st.comp], hx, hrel, hws, ?_⟩
        rw [h3]
        simp
  · cases hs
  · cases hs
    refine ⟨fun b hb => ?_, ?_⟩
    · rcases List.mem_append.mp hb with hb | hb
      · exact hal b hb
      · rw [List.mem_singleton.mp hb]
        simpa using hcal
    · cases hmode : st.mode <;> rw [hmode] at h <;> simp only at h ⊢
      · rw [h]
        rfl
      · obtain ⟨e, xs, he, hxs, rfl⟩ := h
        exact ⟨e, xs, he, hxs, by simp⟩
      · obtain ⟨x, xs, hx, hrel, hxs, rfl⟩ := h
        exact ⟨x, xs, hx, hrel, hxs, by simp⟩
      · obtain ⟨x, hx, hrel, rfl⟩ := h
        exact ⟨x, hx, hrel, by simp⟩

/-- **All characters**, by induction on those still to be read. -/
theorem Consumed.run : ∀ {s : Bytes} {st st' : Scan} {u : Bytes}, Consumed st u →
    s.foldlM (Version.step .full) st = .ok st' → Consumed st' (u ++ s)
  | [], st, st', u, h, hs => by
    cases hs
    rw [List.append_nil]
    exact h
  | c :: s, st, st', u, h, hs => by
    rw [List.foldlM_cons, bind_eq_ok] at hs
    obtain ⟨st₁, h1, h2⟩ := hs
    have := (h.step h1).run h2
    rwa [List.append_assoc, List.singleton_append] at this

/-! ### The text that has been read -/

theorem consumed_start (s : Bytes) :
    ∃ u, Consumed (Scan.start .full s).1 u ∧ u ++ (Scan.start .full s).2 = s := by
  unfold Scan.start
  by_cases hp : hd s = ch '+'
  · rw [if_pos hp]
    refine ⟨[ch '+'], ⟨by simp, rfl⟩, ?_⟩
    exact (eq_cons_of_hd hp (by decide)).symm
  · rw [if_neg hp]
    exact ⟨[], ⟨by simp, none, [], nofun, by simp, rfl⟩, rfl⟩

theorem Text.Open.withRevision {x : Text} (h : x.Open) (hr : x.release ≠ some []) {r : Bytes}
    (hu : IsUint16 r) : Text.WellFormed { x with revision := some r } :=
  { h with
    trailing := fun ht => by
      have := h.noTrailing
      rw [this] at ht
      cases ht
    earliest := fun he => absurd he hr
    revision := fun _ h => by cases h; exact hu }

theorem Text.Open.text_withRevision {x : Text} (h : x.Open) (r : Bytes) :
    Text.text { x with revision := some r } = x.text ++ ch '+' :: r := by
  simp [Text.text, Text.epochText, Text.releaseText, Text.revisionText, h.noRevision]

theorem Text.Open.withTrailing {x : Text} (h : x.Open) {rs : List Bytes}
    (hrs : ∀ r ∈ rs, IsWord r) (hne : rs ≠ []) :
    Text.WellFormed { x with release := some rs, trailing := true } :=
  { h with
    release := fun _ h => by cases h; exact hrs
    trailing := fun _ => ⟨h.noRevision, rs, rfl, hne⟩
    earliest := fun _ => h.noRevision }

theorem Text.Open.text_withTrailing {x : Text} (h : x.Open) (hr : x.release = none)
    {rs : List Bytes} (hne : rs ≠ []) :
    Text.text { x with release := some rs, trailing := true } =
      x.text ++ ch '-' :: closed dot rs := by
  simp [Text.text, Text.epochText, Text.releaseText, Text.revisionText, h.noTrailing, h.noRevision,
    hr, closed_eq hne]

/-- **The end of the string.** What has been read is a text of the grammar. -/
theorem Consumed.finish {st : Scan} {u : Bytes} {fold : Bool} {d : DataType} (h : Consumed st u)
    (hf : st.finish .full fold = .ok d) : ∃ x : Text, x.WellFormed ∧ u = x.text := by
  obtain ⟨hal, h⟩ := h
  unfold Scan.finish at hf
  by_cases hend : st.mode = .epoch ∨ (st.comp = [] ∧ st.mode ≠ .release ∧ Parse.full ≠ .upstream)
  · rw [if_pos hend] at hf
    cases hf
  rw [if_neg hend] at hf
  simp only [not_or, not_and] at hend
  obtain ⟨hep, hcomp⟩ := hend
  cases hmode : st.mode with
  | epoch => exact absurd hmode hep
  | upstream =>
    rw [hmode] at h
    obtain ⟨e, xs, he, hxs, rfl⟩ := h
    have hne : st.comp ≠ [] := fun h => hcomp h (by rw [hmode]; nofun) (by nofun)
    exact ⟨_, (open_upstream he hxs ⟨hne, hal⟩).toWellFormed, (text_upstream e xs st.comp).symm⟩
  | release =>
    rw [hmode] at h
    obtain ⟨x, xs, hx, hrel, hxs, rfl⟩ := h
    by_cases hc : st.comp = []
    · rw [hc, List.append_nil]
      by_cases hnil : xs = []
      · subst hnil
        exact ⟨_, (hx.withRelease hxs).toWellFormed, (hx.text_withRelease hrel []).symm⟩
      · exact ⟨_, hx.withTrailing hxs hnil, (hx.text_withTrailing hrel hnil).symm⟩
    · refine ⟨_, (hx.withRelease (forall_mem_snoc.mpr ⟨hxs, hc, hal⟩)).toWellFormed, ?_⟩
      rw [hx.text_withRelease hrel, joined_snoc]
  | revision =>
    rw [hmode] at h
    obtain ⟨x, hx, hrel, rfl⟩ := h
    have hne : st.comp ≠ [] := fun h => hcomp h (by rw [hmode]; nofun) (by nofun)
    obtain ⟨_, hlast, -⟩ := bind_eq_ok.mp hf
    unfold Scan.last at hlast
    rw [if_pos hmode] at hlast
    split_ifs at hlast with hnum
    · cases hlast
    obtain ⟨n, hn, -⟩ := bind_eq_ok.mp hlast
    unfold uint16 at hn
    split_ifs at hn with hle
    · have hu : IsUint16 st.comp :=
        ⟨⟨hne, List.all_eq_true.mp (by simpa [Scan.numeric] using hnum)⟩, hle⟩
      exact ⟨_, hx.withRevision hrel hu, (hx.text_withRevision _).symm⟩
    · cases hn

/-- **Every accepted string is a text of the grammar**, up to a NUL. -/
theorem exists_text {s : Bytes} {fold : Bool} {v : Version} (h : ofString s fold = .ok v) :
    ∃ x : Text, cString s = x.text ∧ x.Valid ∧ v = x.version fold := by
  obtain ⟨d, hd, -⟩ := bind_eq_ok.mp h
  have hparse : ∃ st, (Scan.start .full (cString s)).2.foldlM (step .full)
      (Scan.start .full (cString s)).1 = .ok st ∧ st.finish .full fold = .ok d := by
    unfold DataType.parse at hd
    rw [if_neg (by simp)] at hd
    exact bind_eq_ok.mp hd
  obtain ⟨st, hrun, hfin⟩ := hparse
  obtain ⟨u, hu, hus⟩ := consumed_start (cString s)
  obtain ⟨x, hx, htext⟩ := (hu.run hrun).finish hfin
  rw [hus] at htext
  have hc : cString (cString s) = cString s := by
    rw [htext, cString_of_chars hx.chars]
  have h' : ofString x.text fold = .ok v := by
    rw [← htext]
    unfold ofString at h ⊢
    rw [hc]
    exact h
  exact ⟨x, htext, (ofString_text hx).mp h'⟩

end Build2.Libbpkg.Version
