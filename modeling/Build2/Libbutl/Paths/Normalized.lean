import Build2.Libbutl.Paths.Walk

/-! # Normalized paths

`normalized`, which tells without normalizing a path whether it is normalized. It misses a separator
that is doubled at the end of a directory: `directory` takes one trailing slash off its text, so
that the directory of `x//y` is kept as `x/` with a trailing separator. For all other paths
`normalize` and `normalized` do what is said of them (`meaning_iff`). -/

namespace Build2.Libbutl.Paths

open Build2.Lib.ByteString Build2.Lib.Joined

/-- The loop of `path_traits::normalized` with the component that it is in. -/
def normalizedFrom (component : Bytes) : Bytes → Bool
  | [] => !(component = parent || component = current)
  | c :: s =>
    if c = sep then
      if s.head? = some sep then false
      else if component = parent ∨ component = current then false
      else normalizedFrom [] s
    else normalizedFrom (component ++ [c]) s

/-- Components without `.` and `..`, and none of them empty but the first and the last. -/
structure Tidy (xs : List Bytes) : Prop where
  named : ∀ c ∈ xs, c ≠ current ∧ c ≠ parent
  inner : ∀ c ∈ xs.tail.dropLast, c ≠ []

section

variable {c s : Bytes} {xs : List Bytes}

theorem tidy_cons {y : Bytes} {ys : List Bytes} :
    Tidy (c :: y :: ys) ↔
      (c ≠ current ∧ c ≠ parent) ∧ (y = [] → ys = []) ∧ Tidy (y :: ys) := by
  refine ⟨fun h => ⟨h.named c List.mem_cons_self, fun hy => ?_,
    fun x hx => h.named x (List.mem_cons_of_mem _ hx), fun x hx => ?_⟩, fun h => ⟨?_, ?_⟩⟩
  · by_contra hys
    obtain ⟨z, zs, rfl⟩ := List.exists_cons_of_ne_nil hys
    exact h.inner y (by simp) hy
  · obtain ⟨z, zs, rfl⟩ | rfl : (∃ z zs, ys = z :: zs) ∨ ys = [] := by
      cases ys with
      | nil => exact Or.inr rfl
      | cons z zs => exact Or.inl ⟨z, zs, rfl⟩
    · exact h.inner x (List.mem_cons_of_mem _ hx)
    · simp at hx
  · intro x hx
    rcases List.mem_cons.mp hx with rfl | hx
    · exact h.1
    · exact h.2.2.named x hx
  · intro x hx
    cases ys with
    | nil => simp at hx
    | cons z zs =>
      rw [List.tail_cons, List.dropLast_cons_cons] at hx
      rcases List.mem_cons.mp hx with rfl | hx
      · exact fun hy => absurd (h.2.1 hy) (by simp)
      · exact h.2.2.inner x hx

theorem head?_eq_sep {y : Bytes} {ys : List Bytes} (h : s.splitOn sep = y :: ys) :
    s.head? = some sep ↔ ¬(y = [] → ys = []) := by
  cases s with
  | nil =>
    rw [List.splitOn_nil] at h
    obtain ⟨rfl, rfl⟩ := List.cons.inj h
    simp
  | cons b s =>
    rw [List.splitOn_cons_eq_if_modifyHead] at h
    by_cases hb : b = sep
    · rw [if_pos (by simpa using hb)] at h
      obtain ⟨rfl, rfl⟩ := List.cons.inj h
      simp [hb, List.splitOn_ne_nil]
    · rw [if_neg (by simpa using hb)] at h
      obtain ⟨z, zs, hz⟩ := List.exists_cons_of_ne_nil (List.splitOn_ne_nil sep s)
      rw [hz, List.modifyHead_cons] at h
      obtain ⟨rfl, rfl⟩ := List.cons.inj h
      simp [hb]

/-- **`normalized` looks at the components.** -/
theorem normalizedFrom_iff (hc : sep ∉ c) :
    normalizedFrom c s = true ↔ Tidy ((c ++ s).splitOn sep) := by
  induction s generalizing c with
  | nil =>
    rw [List.append_nil, List.splitOn_eq_singleton hc]
    refine ⟨fun h => ⟨fun x hx => ?_, by simp⟩, fun h => ?_⟩
    · rw [List.mem_singleton.mp hx]
      simp only [normalizedFrom, Bool.not_eq_true', Bool.or_eq_false_iff,
        decide_eq_false_iff_not] at h
      exact ⟨h.2, h.1⟩
    · obtain ⟨h1, h2⟩ := h.named c (by simp)
      simp [normalizedFrom, h1, h2]
  | cons b s ih =>
    by_cases hb : b = sep
    · subst hb
      obtain ⟨y, ys, hy⟩ := List.exists_cons_of_ne_nil (List.splitOn_ne_nil sep s)
      have ih' := ih (c := []) List.not_mem_nil
      rw [List.nil_append, hy] at ih'
      rw [List.splitOn_append_cons_self_of_not_mem hc, hy, tidy_cons, normalizedFrom, if_pos rfl]
      by_cases h1 : s.head? = some sep
      · rw [if_pos h1]
        have := (head?_eq_sep hy).mp h1
        simp [this]
      rw [if_neg h1]
      rw [head?_eq_sep hy, not_not] at h1
      by_cases h2 : c = parent ∨ c = current
      · rw [if_pos h2]
        refine ⟨fun h => absurd h (by simp), fun h => ?_⟩
        rcases h2 with h2 | h2
        · exact absurd h2 h.1.2
        · exact absurd h2 h.1.1
      · rw [if_neg h2, ih']
        rw [not_or] at h2
        exact ⟨fun h => ⟨⟨h2.2, h2.1⟩, h1, h⟩, fun h => h.2.2⟩
    · rw [normalizedFrom, if_neg hb, ih (by simpa [hc] using Ne.symm hb), List.append_assoc,
        List.singleton_append]

end

namespace PathData

/-- `normalized`. On POSIX systems there is but one separator, so that it does not matter whether
the separators are to be canonical. -/
def normalized (d : PathData) : Bool := normalizedFrom [] d.path

variable {d : PathData} {abs : Bool} {w cs : List Bytes}

theorem normalized_iff : d.normalized = true ↔ Tidy (d.path.splitOn sep) :=
  normalizedFrom_iff List.not_mem_nil

/-- **A directory whose string has a separator at the end besides the one that is marked**, and
otherwise consists of names. -/
def Doubled (d : PathData) : Prop :=
  d.tsep = .slash ∧ ∃ cs, (∀ c ∈ cs, Plain c) ∧ d.path = text d.absolute (cs ++ [[]])

/-- The components of a normalized path are names, with an empty one at the end or not. -/
theorem text_of_normalized (hne : d.path ≠ []) (hn : d.normalized = true) :
    ∃ cs, (∀ c ∈ cs, Plain c) ∧
      (d.path = text d.absolute cs ∨ d.path = text d.absolute (cs ++ [[]])) := by
  rw [normalized_iff] at hn
  obtain ⟨c, xs, hxs, hc⟩ := splitOn_head hne
  have hpath : [sep].intercalate (d.path.splitOn sep) = d.path := List.intercalate_splitOn sep
  have hsplit : ∃ ys, d.path.splitOn sep = base d.absolute ++ ys ∧ ys ≠ [] ∧
      (∀ x ∈ ys, x ≠ current ∧ x ≠ parent ∧ sep ∉ x) ∧ ∀ x ∈ ys.dropLast, x ≠ [] := by
    have hmem : ∀ x ∈ c :: xs, x ≠ current ∧ x ≠ parent ∧ sep ∉ x := by
      intro x hx
      rw [← hxs] at hx
      exact ⟨(hn.named x hx).1, (hn.named x hx).2, not_mem_of_mem_splitOn hx⟩
    have hinner := hn.inner
    rw [hxs, List.tail_cons] at hinner
    by_cases ha : d.absolute = true
    · refine ⟨xs, ?_, ?_, fun x hx => hmem x (List.mem_cons_of_mem _ hx), hinner⟩
      · rw [hxs, hc.mpr ha, ha]
        rfl
      · rintro rfl
        rw [hxs, hc.mpr ha] at hpath
        exact hne (by simpa using hpath.symm)
    · refine ⟨c :: xs, ?_, by simp, hmem, fun x hx => ?_⟩
      · rw [hxs, (Bool.not_eq_true _).mp ha]
        rfl
      · cases xs with
        | nil => simp at hx
        | cons y ys =>
          rw [List.dropLast_cons_cons] at hx
          rcases List.mem_cons.mp hx with rfl | hx
          · exact fun h => ha (hc.mp h)
          · exact hinner x hx
  obtain ⟨ys, hys, hne', hmem, hinner⟩ := hsplit
  rw [hys] at hpath
  obtain ⟨zs, z, rfl⟩ := ys.eq_nil_or_concat.resolve_left hne'
  rw [List.concat_eq_append] at hpath hmem hinner
  rw [List.dropLast_concat] at hinner
  have hzs : ∀ x ∈ zs, Plain x := by
    intro x hx
    obtain ⟨h1, h2, h3⟩ := hmem x (by simp [hx])
    exact ⟨hinner x hx, h3, h1, h2⟩
  by_cases hz : z = []
  · exact ⟨zs, hzs, Or.inr (by rw [← hz]; exact hpath.symm)⟩
  · refine ⟨zs ++ [z], fun x hx => ?_, Or.inl hpath.symm⟩
    rcases List.mem_append.mp hx with hx | hx
    · exact hzs x hx
    · obtain rfl := List.mem_singleton.mp hx
      obtain ⟨h1, h2, h3⟩ := hmem x (by simp)
      exact ⟨hz, h3, h1, h2⟩

theorem walked_plain (h : ∀ c ∈ cs, Plain c) : Walked abs cs :=
  ⟨0, cs, by simp, h, fun _ => rfl⟩

theorem text_separator (hne : text abs (cs ++ [[]]) ≠ []) :
    (text abs (cs ++ [[]])).getLast? = some sep := by
  rw [text, ← List.append_assoc] at hne ⊢
  by_cases h : base abs ++ cs = []
  · rw [h] at hne
    exact absurd (by simp) hne
  · rw [intercalate_snoc [] h]
    simp

theorem normalize_empty (actual curEmpty : Bool) : empty.normalize actual curEmpty = .ok empty := by
  cases actual <;> cases curEmpty <;> decide

theorem normalize_root (actual curEmpty : Bool) :
    (PathData.mk [sep] .root).normalize actual curEmpty = .ok ⟨[sep], .root⟩ := by
  cases actual <;> cases curEmpty <;> decide

/-- A path that consists of names is left alone. -/
theorem normalize_text {actual curEmpty : Bool} (hv : d.Valid) (hne : d.path ≠ [])
    (ha : actual = true → d.absolute = true) (hcs : ∀ c ∈ cs, Plain c)
    (hd : d.path = text d.absolute cs) : d.normalize actual curEmpty = .ok d := by
  have hw : Walked d.absolute cs := walked_plain hcs
  have h0 : cs ≠ [] := by
    rintro rfl
    rw [text_nil] at hd
    exact hne hd
  have hts : ∃ b : Bool, d.tsep = if b then .slash else .absent := by
    cases ht : d.tsep with
    | root =>
      have hl := text_last d.absolute hw.not_mem
      rw [← hd, hv.ofRoot ht] at hl
      exact absurd rfl hl
    | absent => exact ⟨false, rfl⟩
    | slash => exact ⟨true, rfl⟩
  obtain ⟨b, hb⟩ := hts
  have heq : d = ⟨text d.absolute cs, if b then .slash else .absent⟩ := ext' hd hb
  have hlast : b = false → ∃ u c, cs = u ++ [c] ∧ Plain c := by
    intro _
    obtain ⟨u, c, hc⟩ := cs.eq_nil_or_concat.resolve_left h0
    rw [List.concat_eq_append] at hc
    exact ⟨u, c, hc, hcs c (by rw [hc]; simp)⟩
  have hwalk : d.walk = some cs := by
    rw [heq]
    exact walk_text hw h0
  have htrail : d.trailing = b := by
    rw [heq]
    exact trailing_text hw hlast
  rw [normalize_eq hv hne ha, hwalk, htrail]
  dsimp only
  rw [reassemble_eq hw fun h => absurd h h0, if_neg h0, ← heq]

/-- **A path for which `normalized` holds is left alone**, unless its last separator is doubled. -/
theorem normalize_of_normalized {actual curEmpty : Bool} (hv : d.Valid)
    (ha : actual = true → d.absolute = true) (hn : d.normalized = true) (hd : ¬d.Doubled) :
    d.normalize actual curEmpty = .ok d := by
  by_cases hne : d.path = []
  · have he : d = empty := ext' hne (hv.ofEmpty hne)
    rw [he]
    exact normalize_empty actual curEmpty
  obtain ⟨cs, hcs, h | h⟩ := text_of_normalized hne hn
  · exact normalize_text hv hne ha hcs h
  · have hl : d.path.getLast? = some sep := by
      rw [h] at hne ⊢
      exact text_separator hne
    cases ht : d.tsep with
    | root =>
      have hr : d = ⟨[sep], .root⟩ := ext' (hv.ofRoot ht) ht
      rw [hr]
      exact normalize_root actual curEmpty
    | absent => exact absurd hl (hv.ofAbsent ht)
    | slash => exact absurd ⟨ht, cs, hcs, h⟩ hd

/-- `normalized` holds for a path whose last separator is doubled, -/
theorem Doubled.normalized (h : d.Doubled) : d.normalized = true := by
  obtain ⟨-, cs, hcs, hd⟩ := h
  have hs : d.path.splitOn sep = base d.absolute ++ (cs ++ [[]]) := by
    rw [hd]
    refine splitOn_text _ (fun c hc => ?_) (by simp)
    rcases List.mem_append.mp hc with hc | hc
    · exact (hcs c hc).not_mem
    · rw [List.mem_singleton.mp hc]
      exact List.not_mem_nil
  rw [normalized_iff, hs]
  have hnil : ([] : Bytes) ≠ current ∧ ([] : Bytes) ≠ parent := by decide
  have hnamed : ∀ c ∈ cs ++ [[]], c ≠ current ∧ c ≠ parent := by
    intro c hc
    rcases List.mem_append.mp hc with hc | hc
    · exact ⟨(hcs c hc).ne_current, (hcs c hc).ne_parent⟩
    · rw [List.mem_singleton.mp hc]
      exact hnil
  cases d.absolute with
  | true =>
    refine ⟨fun c hc => ?_, fun c hc => ?_⟩
    · rcases List.mem_cons.mp hc with rfl | hc
      · exact hnil
      · exact hnamed c hc
    · simp only [base, if_true, List.singleton_append, List.tail_cons,
        List.dropLast_concat] at hc
      exact (hcs c hc).ne_nil
  | false =>
    refine ⟨hnamed, fun c hc => ?_⟩
    cases cs with
    | nil => simp [base] at hc
    | cons x cs =>
      simp only [base, Bool.false_eq_true, if_false, List.nil_append, List.cons_append,
        List.tail_cons, List.dropLast_concat] at hc
      exact (hcs c (List.mem_cons_of_mem _ hc)).ne_nil

/-- but `normalize` changes it. -/
theorem Doubled.normalize_ne {actual curEmpty : Bool} (h : d.Doubled) (hv : d.Valid)
    (ha : actual = true → d.absolute = true) : d.normalize actual curEmpty ≠ .ok d := by
  obtain ⟨ht, cs, -, hd⟩ := h
  intro hq
  have hne : d.path ≠ [] := fun h0 => by
    rw [hv.ofEmpty h0] at ht
    cases ht
  have hl : d.path.getLast? = some sep := by
    rw [hd] at hne ⊢
    exact text_separator hne
  rw [normalize_eq hv hne ha] at hq
  cases hw : d.walk with
  | none =>
    rw [hw] at hq
    cases hq
  | some w =>
    have hshape := walked_of_walk hw
    rw [hw] at hq
    dsimp only at hq
    rw [reassemble_eq hshape (by
      rintro rfl
      exact trailing_of_walk_nil hv hne hw), Except.ok.injEq] at hq
    split_ifs at hq with h1 h2 h3
    · rw [← hq] at ht
      cases ht
    · rw [← hq] at ht
      cases ht
    · rw [← hq] at hl
      exact absurd hl (by decide)
    · rw [← hq] at hl
      exact text_last _ hshape.not_mem hl
    · rw [← hq] at hl
      exact text_last _ hshape.not_mem hl

/-- **What is said of `normalize` and `normalized`** for a path. -/
structure Meaning (d : PathData) (actual curEmpty : Bool) : Prop where
  /-- "normalize() throws iff p is absolute and some '..' would pop the root." -/
  throws : d.normalize actual curEmpty = .error .invalidPath ↔ d.absolute = true ∧ d.walk = none
  result : ∀ w, d.walk = some w →
    ∃ q, d.normalize actual curEmpty = .ok q ∧ Result d q w curEmpty
  kept : d.normalized = true → d.normalize actual curEmpty = .ok d

theorem result_empty (curEmpty : Bool) : Result empty empty [] curEmpty :=
  ⟨⟨0, [], by simp, by simp, fun _ => rfl⟩, by decide, rfl, fun h => absurd h (by decide),
    fun h => absurd rfl h, fun h => absurd rfl h, fun actual _ => normalize_empty actual curEmpty⟩

end PathData

open PathData in
/-- **Normalization means what is said of it** for all paths but those whose last separator is
doubled. Only an absolute path can be actualized. -/
theorem meaning_iff (p : AnyPath) (actual curEmpty : Bool)
    (ha : actual = true → p.data.absolute = true) :
    Meaning p.data actual curEmpty ↔ ¬p.data.Doubled := by
  refine ⟨fun h hd => hd.normalize_ne p.valid ha (h.kept hd.normalized), fun hd =>
    ⟨?_, fun w hw => ?_, fun hn => normalize_of_normalized p.valid ha hn hd⟩⟩
  · by_cases hne : p.data.path = []
    · have he : p.data = PathData.empty := ext' hne (p.valid.ofEmpty hne)
      rw [he, normalize_empty]
      exact ⟨fun h => (by cases h), fun h => absurd h.1 (by decide)⟩
    · rw [normalize_eq p.valid hne ha]
      cases hw : p.data.walk with
      | none =>
        refine ⟨fun _ => ⟨?_, rfl⟩, fun _ => rfl⟩
        by_contra hf
        rw [Bool.not_eq_true] at hf
        rw [walk, hf] at hw
        exact walkFrom_relative_ne_none _ _ hw
      | some w => exact ⟨fun h => (by cases h), fun h => (by cases h.2)⟩
  · by_cases hne : p.data.path = []
    · have he : p.data = PathData.empty := ext' hne (p.valid.ofEmpty hne)
      rw [he] at hw ⊢
      obtain rfl : w = [] := (Option.some.inj hw).symm
      exact ⟨PathData.empty, normalize_empty actual curEmpty, result_empty curEmpty⟩
    · have heq : p.data.normalize actual curEmpty = _ := normalize_eq p.valid hne ha
      rw [hw] at heq
      exact ⟨_, heq, result_of_normalize p.valid hne ha hw heq⟩

open PathData in
/-- The actualization of `/a`, which is not a directory. -/
theorem meaning_iff_absolute :
    Meaning (AnyPath.ofString (str ['/', 'a'])).data true false ↔
      ¬(AnyPath.ofString (str ['/', 'a'])).data.Doubled :=
  meaning_iff (AnyPath.ofString (str ['/', 'a'])) true false fun _ => by decide

/-- The directory of `x//y` passes for normalized, but `normalize` changes it. -/
theorem directory_not_meaning :
    ¬PathData.Meaning (AnyPath.ofString (str ['x', '/', '/', 'y'])).directory.data false false := by
  intro h
  have hn : (AnyPath.ofString (str ['x', '/', '/', 'y'])).directory.data.normalized = true := by
    decide
  have hq : (AnyPath.ofString (str ['x', '/', '/', 'y'])).directory.data.normalize false ≠
      .ok (AnyPath.ofString (str ['x', '/', '/', 'y'])).directory.data := by
    decide +kernel
  exact hq (h.kept hn)

end Build2.Libbutl.Paths
