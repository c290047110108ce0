import Build2.Libbutl.Paths.Normalize

/-! # What normalization means

The walk of a path goes through its components: empty ones and `.` are ignored and `..` pops the
last component. `normalize` keeps the walk (`normalize_eq`) and returns a path whose components are
the walk, or the root or the current directory if there are none. -/

namespace Build2.Libbutl.Paths

open Build2.Lib.ByteString Build2.Lib.Joined

/-- The stack of components `r`, the last one first, after going through some more. Nothing, if the
root would be popped. -/
def walkFrom (abs : Bool) (r : List Bytes) : List Bytes → Option (List Bytes)
  | [] => some r.reverse
  | c :: cs =>
    if c = [] ∨ c = current then walkFrom abs r cs
    else if c = parent then
      if r = [] then if abs then none else walkFrom abs [parent] cs
      else if r.head? = some parent then walkFrom abs (parent :: r) cs
      else walkFrom abs r.tail cs
    else walkFrom abs (c :: r) cs

/-- **The shape of a walk**: components of which a relative path may have `..` in front. -/
def Walked (abs : Bool) (w : List Bytes) : Prop :=
  ∃ k cs, w = List.replicate k parent ++ cs ∧ (∀ c ∈ cs, PathData.Plain c) ∧ (abs = true → k = 0)

section

variable {abs : Bool} {r ps w cs : List Bytes} {c : Bytes}

open PathData

theorem plain_of_ne (h1 : ¬(c = [] ∨ c = current)) (h2 : c ≠ parent) (h3 : sep ∉ c) : Plain c :=
  ⟨fun h => h1 (Or.inl h), h3, fun h => h1 (Or.inr h), h2⟩

theorem walkFrom_relative_ne_none : ∀ (ps r : List Bytes), walkFrom false r ps ≠ none
  | [], r => by simp [walkFrom]
  | c :: ps, r => by
    rw [walkFrom]
    split_ifs with h1 h2 h3 h4 h5
    · exact walkFrom_relative_ne_none ps r
    · exact h4.elim
    · exact walkFrom_relative_ne_none ps _
    · exact walkFrom_relative_ne_none ps _
    · exact walkFrom_relative_ne_none ps _
    · exact walkFrom_relative_ne_none ps _

theorem Walked.snoc (h : Walked abs w) (hc : Plain c) : Walked abs (w ++ [c]) := by
  obtain ⟨k, cs, rfl, hcs, hk⟩ := h
  refine ⟨k, cs ++ [c], by rw [List.append_assoc], fun x hx => ?_, hk⟩
  rcases List.mem_append.mp hx with hx | hx
  · exact hcs x hx
  · rw [List.mem_singleton.mp hx]
    exact hc

/-- **A walk has its shape** at each step. -/
theorem walked_of_walkFrom (hr : Walked abs r.reverse) (hps : ∀ c ∈ ps, sep ∉ c)
    (h : walkFrom abs r ps = some w) : Walked abs w := by
  induction ps generalizing r with
  | nil =>
    obtain rfl : r.reverse = w := Option.some.inj h
    exact hr
  | cons c ps ih =>
    have hps' : ∀ c ∈ ps, sep ∉ c := fun x hx => hps x (List.mem_cons_of_mem _ hx)
    rw [walkFrom] at h
    split_ifs at h with h1 h2 h3 h4 h5
    · exact ih hr hps' h
    · refine ih ⟨1, [], by simp, by simp, fun ha => absurd ha h4⟩ hps' h
    · -- the stack consists of `..` only
      refine ih ?_ hps' h
      obtain ⟨k, cs, hw, hcs, hk⟩ := hr
      obtain rfl : cs = [] := by
        rcases cs.eq_nil_or_concat with h0 | ⟨cs, x, rfl⟩
        · exact h0
        have hx : r.head? = some x := by
          rw [← List.reverse_reverse r, hw, List.concat_eq_append, ← List.append_assoc]
          simp
        rw [hx] at h5
        exact absurd (Option.some.inj h5) (hcs x (by simp)).ne_parent
      have habs : ¬abs = true := by
        intro ha
        rw [hk ha] at hw
        exact h3 (by simpa using hw)
      refine ⟨k + 1, [], ?_, by simp, fun ha => absurd ha habs⟩
      rw [List.reverse_cons, hw, List.replicate_succ']
      simp
    · -- the last component is popped
      refine ih ?_ hps' h
      obtain ⟨x, r, rfl⟩ := List.exists_cons_of_ne_nil h3
      obtain ⟨k, cs, hw, hcs, hk⟩ := hr
      rw [List.reverse_cons] at hw
      rcases cs.eq_nil_or_concat with rfl | ⟨cs, y, rfl⟩
      · cases k with
        | zero => simp at hw
        | succ k =>
          rw [List.append_nil, List.replicate_succ'] at hw
          have hx : x = parent := by simpa using (List.append_inj' hw rfl).2
          exact absurd (by rw [hx]; rfl) h5
      · rw [List.concat_eq_append, ← List.append_assoc] at hw
        refine ⟨k, cs, (List.append_inj' hw rfl).1, fun z hz => hcs z ?_, hk⟩
        rw [List.concat_eq_append]
        exact List.mem_append_left _ hz
    · refine ih ?_ hps' h
      rw [List.reverse_cons]
      exact hr.snoc (plain_of_ne h1 h2 (hps c List.mem_cons_self))

theorem walkFrom_names (h : ∀ c ∈ cs, Plain c) : walkFrom abs r cs = some (r.reverse ++ cs) := by
  induction cs generalizing r with
  | nil => simp [walkFrom]
  | cons c cs ih =>
    have hc := h c List.mem_cons_self
    rw [walkFrom, if_neg (not_or.mpr ⟨hc.ne_nil, hc.ne_current⟩), if_neg hc.ne_parent,
      ih fun x hx => h x (List.mem_cons_of_mem _ hx)]
    simp

theorem walkFrom_parents (cs : List Bytes) (k j : ℕ) :
    walkFrom false (List.replicate j parent) (List.replicate k parent ++ cs) =
      walkFrom false (List.replicate (j + k) parent) cs := by
  induction k generalizing j with
  | zero => simp
  | succ k ih =>
    have hp : ¬(parent = [] ∨ parent = current) := by decide
    rw [List.replicate_succ, List.cons_append, walkFrom, if_neg hp, if_pos rfl]
    have hj := ih (j + 1)
    rw [List.replicate_succ] at hj
    rw [show j + (k + 1) = j + 1 + k by omega, ← hj]
    cases j with
    | zero => simp
    | succ j => simp [List.replicate_succ]

theorem Walked.walkFrom (h : Walked abs w) : walkFrom abs [] w = some w := by
  obtain ⟨k, cs, rfl, hcs, hk⟩ := h
  cases abs with
  | true =>
    obtain rfl : k = 0 := hk rfl
    have hw : Paths.walkFrom true [] cs = some ([].reverse ++ cs) := walkFrom_names hcs
    simpa using hw
  | false =>
    have hp := walkFrom_parents cs k 0
    rw [List.replicate_zero, Nat.zero_add] at hp
    rw [hp, walkFrom_names hcs, List.reverse_replicate]

theorem Walked.not_mem (h : Walked abs w) : ∀ c ∈ w, c ≠ [] ∧ sep ∉ c := by
  obtain ⟨k, cs, rfl, hcs, -⟩ := h
  intro c hc
  rcases List.mem_append.mp hc with hc | hc
  · rw [List.eq_of_mem_replicate hc]
    decide
  · exact ⟨(hcs c hc).ne_nil, (hcs c hc).not_mem⟩

theorem walkFrom_filter : walkFrom abs r (ps.filter (· ≠ [])) = walkFrom abs r ps := by
  induction ps generalizing r with
  | nil => rfl
  | cons c ps ih =>
    by_cases hc : c = []
    · subst hc
      rw [walkFrom, if_pos (Or.inl rfl), ← ih]
      rfl
    · rw [List.filter_cons_of_pos (by simpa using hc), walkFrom, walkFrom]
      simp only [ih]

theorem walkFrom_snoc (hc : Plain c) :
    walkFrom abs r (ps ++ [c]) = (walkFrom abs r ps).map (· ++ [c]) := by
  induction ps generalizing r with
  | nil =>
    have hcs : ∀ x ∈ [c], Plain x := by simpa using hc
    rw [List.nil_append, walkFrom_names hcs]
    rfl
  | cons d ps ih =>
    rw [List.cons_append, walkFrom, walkFrom]
    split_ifs
    all_goals first | exact ih | rfl

end

namespace PathData

/-- The walk of a path. -/
def walk (d : PathData) : Option (List Bytes) :=
  walkFrom d.absolute [] (d.path.splitOn sep)

/-- What normalization keeps in front of the walk: the empty component before the root. -/
def base (abs : Bool) : List Bytes := if abs then [[]] else []

section

variable {d : PathData} {abs : Bool} {r ps w : List Bytes}

/-- `normalize` collapses components as the walk does. -/
theorem collapse_eq (hps : ∀ c ∈ ps, c ≠ []) :
    collapse abs (r ++ base abs) ps = (walkFrom abs r ps).map (base abs ++ ·) := by
  induction ps generalizing r with
  | nil => cases abs <;> simp [collapse, walkFrom, base]
  | cons c ps ih =>
    have hc := hps c List.mem_cons_self
    have ih' : ∀ r, collapse abs (r ++ base abs) ps =
        (walkFrom abs r ps).map (base abs ++ ·) := fun r =>
      ih fun x hx => hps x (List.mem_cons_of_mem _ hx)
    have hpush : ∀ x, collapse abs (x :: (r ++ base abs)) ps =
        (walkFrom abs (x :: r) ps).map (base abs ++ ·) := fun x => ih' (x :: r)
    rw [collapse, walkFrom]
    by_cases h1 : c = current
    · rw [if_pos h1, if_pos (Or.inr h1), ih']
    rw [if_neg h1, if_neg (not_or.mpr ⟨hc, h1⟩)]
    by_cases h2 : c = parent
    · rw [if_pos h2]
      cases r with
      | nil =>
        cases abs with
        | true =>
          have hp : ¬parent = [] := by decide
          simp [base, h2, hp]
        | false =>
          have hp := hpush parent
          simp only [base, h2] at hp ⊢
          simpa using hp
      | cons x r =>
        have hp := hpush parent
        by_cases h3 : x = parent
        · rw [if_neg (by simp [h3]), if_neg (by simp), if_pos (by simp [h3]), h2]
          exact hp
        · rw [if_pos (by simp [h2, h3]), if_neg (by cases abs <;> simp [base]), if_neg (by simp),
            if_neg (by simpa using h3)]
          exact ih' r
    · rw [if_neg fun h => h2 h.1, if_neg h2]
      exact hpush c

theorem absolute_iff : d.absolute = true ↔ ∃ s, d.path = sep :: s := by
  refine ⟨fun h => ?_, fun ⟨s, hs⟩ => by simp [absolute, hs]⟩
  obtain ⟨b, s, hb⟩ := List.exists_cons_of_ne_nil (l := d.path) (by
    intro h0
    rw [absolute, h0] at h
    exact absurd h (by decide))
  exact ⟨s, by rw [hb, show b = sep by simpa [absolute, hb] using h]⟩

/-- The first component is empty just if the path is absolute or empty. -/
theorem splitOn_head (hne : d.path ≠ []) :
    ∃ c cs, d.path.splitOn sep = c :: cs ∧ (c = [] ↔ d.absolute = true) := by
  obtain ⟨b, s, hb⟩ := List.exists_cons_of_ne_nil hne
  rw [absolute_iff, hb, List.splitOn_cons_eq_if_modifyHead]
  by_cases hs : b = sep
  · exact ⟨[], s.splitOn sep, if_pos (by simpa using hs), by simp [hs]⟩
  · obtain ⟨y, ys, hys⟩ := List.exists_cons_of_ne_nil (List.splitOn_ne_nil sep s)
    refine ⟨b :: y, ys, ?_, ?_⟩
    · rw [if_neg (by simpa using hs), hys, List.modifyHead_cons]
    · simp [hs]

/-- The components are those of the string, without the empty ones behind the first. -/
theorem components_eq (hv : d.Valid) (hne : d.path ≠ []) :
    d.components = base d.absolute ++ (d.path.splitOn sep).filter (· ≠ []) := by
  have hstr : d.components = ((d.path.splitOn sep).take 1) ++
      ((d.path.splitOn sep).drop 1).filter (· ≠ []) := by
    by_cases ht : d.tsep = .root
    · rw [components, pure, if_pos ht, hv.ofRoot ht]
      decide
    · rw [components, pure, if_neg ht]
  obtain ⟨c, cs, hcs, hc⟩ := splitOn_head hne
  rw [hstr, hcs, List.take_one, List.head?_cons, Option.toList_some, List.drop_one, List.tail_cons]
  by_cases ha : d.absolute = true
  · rw [hc.mpr ha, ha]
    simp [base]
  · have hc' : c ≠ [] := fun h => ha (hc.mp h)
    rw [Bool.not_eq_true] at ha
    rw [ha, List.filter_cons_of_pos (by simpa using hc')]
    simp [base]

/-- **`normalize` puts the walk together again.** -/
theorem normalize_eq (hv : d.Valid) (hne : d.path ≠ []) {actual curEmpty : Bool}
    (ha : actual = true → d.absolute = true) :
    d.normalize actual curEmpty =
      match d.walk with
      | none => .error .invalidPath
      | some w => .ok (reassemble d.absolute d.trailing curEmpty (base d.absolute ++ w)) := by
  have hact : ¬(actual && !d.absolute) = true := by
    cases actual with
    | false => simp
    | true => simp [ha rfl]
  have hcol : collapse d.absolute [] d.components = (d.walk).map (base d.absolute ++ ·) := by
    have hmem : ∀ c ∈ (d.path.splitOn sep).filter (· ≠ []), c ≠ [] := fun c hc => by
      simpa using (List.mem_filter.mp hc).2
    have hfirst : ∀ ps, collapse d.absolute [] (base d.absolute ++ ps) =
        collapse d.absolute ([] ++ base d.absolute) ps := by
      intro ps
      cases d.absolute with
      | true =>
        rw [base, if_pos rfl, List.singleton_append, collapse, if_neg (by decide),
          if_neg (by simp), List.nil_append]
      | false => rfl
    rw [components_eq hv hne, hfirst, collapse_eq hmem, walkFrom_filter]
    rfl
  rw [normalize, if_neg hne, if_neg hact, hcol]
  cases d.walk with
  | none => rfl
  | some w => rfl

theorem walked_of_walk (h : d.walk = some w) : Walked d.absolute w :=
  walked_of_walkFrom ⟨0, [], by simp, by simp, fun _ => rfl⟩
    (fun _ hc => not_mem_of_mem_splitOn hc) h

/-! ### The text of a walk -/

/-- The text of a path with these components. -/
def text (abs : Bool) (w : List Bytes) : Bytes := [sep].intercalate (base abs ++ w)

theorem splitOn_text (abs : Bool) (hw : ∀ c ∈ w, sep ∉ c) (hne : w ≠ []) :
    (text abs w).splitOn sep = base abs ++ w := by
  refine List.splitOn_intercalate sep (fun c hc => ?_) (by simp [hne])
  rcases List.mem_append.mp hc with hc | hc
  · cases abs with
    | true =>
      rw [List.mem_singleton.mp hc]
      exact List.not_mem_nil
    | false => cases hc
  · exact hw c hc

theorem text_nil (abs : Bool) : text abs [] = [] := by cases abs <;> rfl

theorem text_head (abs : Bool) (hw : ∀ c ∈ w, c ≠ [] ∧ sep ∉ c) (hne : w ≠ []) :
    text abs w ≠ [] ∧ ∀ ts, (PathData.mk (text abs w) ts).absolute = abs := by
  obtain ⟨c, w, rfl⟩ := List.exists_cons_of_ne_nil hne
  have hc := hw c List.mem_cons_self
  cases abs with
  | true =>
    have ht : text true (c :: w) = sep :: text false (c :: w) := by
      simp [text, base, List.intercalate_cons_cons]
    rw [ht]
    exact ⟨by simp, fun ts => by simp [absolute]⟩
  | false =>
    obtain ⟨b, c, rfl⟩ := List.exists_cons_of_ne_nil hc.1
    have hb : b ≠ sep := fun h => hc.2 (by simp [h])
    have ht : ∃ u, text false ((b :: c) :: w) = b :: u := by
      cases w with
      | nil => exact ⟨c, by simp [text, base]⟩
      | cons x w => exact ⟨c ++ sep :: text false (x :: w), by
          simp [text, base, List.intercalate_cons_cons]⟩
    obtain ⟨u, hu⟩ := ht
    rw [hu]
    exact ⟨by simp, fun ts => by simp [absolute, hb]⟩

theorem text_snoc (abs : Bool) (w : List Bytes) (c : Bytes) :
    ∃ u, text abs (w ++ [c]) = u ++ c := by
  rw [text, ← List.append_assoc]
  by_cases h : base abs ++ w = []
  · exact ⟨[], by simp [h]⟩
  · exact ⟨[sep].intercalate (base abs ++ w) ++ [sep], by rw [intercalate_snoc c h]; simp⟩

theorem text_last (abs : Bool) (hw : ∀ c ∈ w, c ≠ [] ∧ sep ∉ c) :
    (text abs w).getLast? ≠ some sep := by
  rcases w.eq_nil_or_concat with rfl | ⟨w, c, rfl⟩
  · rw [text_nil]
    simp
  · rw [List.concat_eq_append] at hw ⊢
    obtain ⟨u, hu⟩ := text_snoc abs w c
    have hc := hw c (by simp)
    rw [hu, List.getLast?_append_of_ne_nil _ hc.1]
    exact getLast?_of_not_mem hc.2

/-! ### The result -/

/-- The components of a path behind the root. -/
def names (d : PathData) : List Bytes :=
  if d.absolute then (d.pure.splitOn sep).drop 1 else d.pure.splitOn sep

/-- "If the last component is "." or ".." then this is a directory", of the string. -/
def Trailing (d : PathData) : Prop :=
  d.tsep ≠ .absent ∨ (d.path.splitOn sep).getLast? = some current ∨
    (d.path.splitOn sep).getLast? = some parent

theorem getLast?_splitOn_ne_nil (hne : d.path ≠ []) (hl : d.path.getLast? ≠ some sep) :
    ∃ cs c, d.path.splitOn sep = cs ++ [c] ∧ c ≠ [] := by
  obtain ⟨cs, c, hcs⟩ := (d.path.splitOn sep).eq_nil_or_concat.resolve_left
    (List.splitOn_ne_nil sep d.path)
  rw [List.concat_eq_append] at hcs
  refine ⟨cs, c, hcs, ?_⟩
  rintro rfl
  have hp : [sep].intercalate (d.path.splitOn sep) = d.path := List.intercalate_splitOn sep
  rw [hcs] at hp
  by_cases h : cs = []
  · subst h
    exact hne (by simpa using hp.symm)
  · rw [intercalate_snoc [] h] at hp
    exact hl (by rw [← hp]; simp)

theorem trailing_iff (hv : d.Valid) (hne : d.path ≠ []) : d.trailing = true ↔ d.Trailing := by
  by_cases ht : d.tsep = .absent
  · obtain ⟨cs, c, hcs, hc⟩ := getLast?_splitOn_ne_nil hne (hv.ofAbsent ht)
    have hcomp : d.components.getLast? = some c := by
      rw [components_eq hv hne, hcs, List.filter_append,
        List.filter_cons_of_pos (by simpa using hc)]
      simp
    simp [trailing, Trailing, ht, hcomp, hcs]
  · simp [trailing, Trailing, ht]

theorem walk_last (hv : d.Valid) (hne : d.path ≠ []) (hw : d.walk = some w)
    (ht : d.trailing = false) : ∃ u c, w = u ++ [c] ∧ Plain c := by
  have ht' : ¬d.Trailing := by
    rw [← trailing_iff hv hne, ht]
    simp
  simp only [Trailing, not_or, ne_eq, Decidable.not_not] at ht'
  obtain ⟨cs, c, hcs, hc⟩ := getLast?_splitOn_ne_nil hne (hv.ofAbsent ht'.1)
  have hlast : (d.path.splitOn sep).getLast? = some c := by rw [hcs]; simp
  rw [hlast, Option.some_inj, Option.some_inj] at ht'
  have hmem : sep ∉ c := not_mem_of_mem_splitOn (s := d.path) (by rw [hcs]; simp)
  have hplain : Plain c := ⟨hc, hmem, ht'.2.1, ht'.2.2⟩
  rw [walk, hcs, walkFrom_snoc hplain, Option.map_eq_some_iff] at hw
  obtain ⟨u, -, hu⟩ := hw
  exact ⟨u, c, hu.symm, hplain⟩

/-- **A path with an empty walk is a directory.** -/
theorem trailing_of_walk_nil (hv : d.Valid) (hne : d.path ≠ []) (h : d.walk = some []) :
    d.trailing = true := by
  by_contra ht
  obtain ⟨u, c, hu, -⟩ := walk_last hv hne h (by simpa using ht)
  simp at hu

/-- What normalization makes of a walk. -/
theorem reassemble_eq {curEmpty tsep : Bool} (hw : Walked abs w) (ht : w = [] → tsep = true) :
    reassemble abs tsep curEmpty (base abs ++ w) =
      if w = [] then
        if abs then ⟨[sep], .root⟩ else if curEmpty then empty else ⟨current, .slash⟩
      else ⟨text abs w, if tsep then .slash else .absent⟩ := by
  have htext : [sep].intercalate (base abs ++ w) = text abs w := rfl
  rw [reassemble, htext]
  by_cases h0 : w = []
  · rw [h0, ht h0, text_nil]
    rfl
  · have hne : text abs w ≠ [] := (text_head _ hw.not_mem h0).1
    rw [if_neg hne, if_neg h0]
    cases tsep <;> rfl

/-- **What is said of the result of normalization**, where `w` is the walk of the path. -/
structure Result (d q : PathData) (w : List Bytes) (curEmpty : Bool) : Prop where
  shape : Walked d.absolute w
  walk : q.walk = some w
  absolute : q.absolute = d.absolute
  /-- The components are those of the walk. -/
  names : d.absolute = true ∨ w ≠ [] → q.names = w
  /-- "A relative path with empty walk becomes './' or, with cur_empty, empty." -/
  current : d.path ≠ [] → d.absolute = false → w = [] →
    q = if curEmpty then empty else ⟨Paths.current, .slash⟩
  directory : q.path ≠ [] → (q.tsep ≠ .absent ↔ d.Trailing)
  again : ∀ actual, (actual = true → q.absolute = true) → q.normalize actual curEmpty = .ok q

theorem walk_text {ts : Tsep} (hw : Walked abs w) (hne : w ≠ []) :
    (PathData.mk (text abs w) ts).walk = some w := by
  have hs : (text abs w).splitOn sep = base abs ++ w :=
    splitOn_text _ (fun c hc => (hw.not_mem c hc).2) hne
  rw [walk, (text_head _ hw.not_mem hne).2 ts, hs]
  cases abs with
  | true =>
    rw [base, if_pos rfl, List.singleton_append, walkFrom, if_pos (Or.inl rfl)]
    exact hw.walkFrom
  | false => exact hw.walkFrom

theorem names_text {ts : Tsep} (hts : ts ≠ .root) (hw : Walked abs w) (hne : w ≠ []) :
    (PathData.mk (text abs w) ts).names = w := by
  have hs : (text abs w).splitOn sep = base abs ++ w :=
    splitOn_text _ (fun c hc => (hw.not_mem c hc).2) hne
  rw [names, (text_head _ hw.not_mem hne).2 ts, pure, if_neg hts, hs]
  cases abs <;> rfl

/-- A path that is made of a walk is a directory if its separator or its last component says so. -/
theorem trailing_text {tsep : Bool} (hw : Walked abs w)
    (hl : tsep = false → ∃ u c, w = u ++ [c] ∧ Plain c) :
    (PathData.mk (text abs w) (if tsep then .slash else .absent)).trailing = tsep := by
  cases tsep with
  | true => exact trailing_of_tsep (by simp)
  | false =>
    obtain ⟨u, c, rfl, hc⟩ := hl rfl
    have hs : (text abs (u ++ [c])).splitOn sep = base abs ++ (u ++ [c]) :=
      splitOn_text _ (fun c hc => (hw.not_mem c hc).2) (by simp)
    have hlast : ((text abs (u ++ [c])).splitOn sep).getLast? = some c := by
      rw [hs, ← List.append_assoc]
      simp
    have hne : text abs (u ++ [c]) ≠ [] := (text_head _ hw.not_mem (by simp)).1
    rw [if_neg Bool.false_ne_true, Bool.eq_false_iff, ne_eq,
      trailing_iff (valid_plain (text_last _ hw.not_mem)) hne, Trailing, hlast]
    simp [hc.ne_current, hc.ne_parent]

theorem valid_text {tsep : Bool} (hw : Walked abs w) (hne : w ≠ []) :
    (PathData.mk (text abs w) (if tsep then .slash else .absent)).Valid := by
  cases tsep with
  | true => exact valid_slash (text_head _ hw.not_mem hne).1
  | false => exact valid_plain (text_last _ hw.not_mem)

/-- **The result of normalization.** -/
theorem result_of_normalize {curEmpty actual : Bool} {q : PathData} (hv : d.Valid)
    (hne : d.path ≠ []) (ha : actual = true → d.absolute = true) (hwalk : d.walk = some w)
    (h : d.normalize actual curEmpty = .ok q) : Result d q w curEmpty := by
  have hshape := walked_of_walk hwalk
  have htrail : w = [] → d.trailing = true := by
    rintro rfl
    exact trailing_of_walk_nil hv hne hwalk
  rw [normalize_eq hv hne ha, hwalk] at h
  dsimp only at h
  rw [reassemble_eq hshape htrail, Except.ok.injEq] at h
  subst h
  by_cases h0 : w = []
  · subst h0
    rw [if_pos rfl]
    have hd := (trailing_iff hv hne).mp (htrail rfl)
    have hnil : Walked d.absolute [] := ⟨0, [], by simp, by simp, fun _ => rfl⟩
    cases habs : d.absolute with
    | true =>
      rw [if_pos rfl]
      refine ⟨hnil, by decide, by rw [habs]; decide, fun _ => by decide,
        fun _ hf => by simp [habs] at hf, fun _ => by simpa using hd, fun actual _ => ?_⟩
      cases actual <;> cases curEmpty <;> decide
    | false =>
      rw [if_neg (by simp)]
      cases curEmpty with
      | true =>
        exact ⟨hnil, by decide, by rw [habs]; decide, fun hf => by simp [habs] at hf,
          fun _ _ _ => rfl, fun hf => absurd rfl hf, fun actual _ => by cases actual <;> decide⟩
      | false =>
        refine ⟨hnil, by decide, by rw [habs]; decide, fun hf => by simp [habs] at hf,
          fun _ _ _ => rfl, fun _ => by simpa using hd, fun actual hact => ?_⟩
        cases actual with
        | true => exact absurd (hact rfl) (by decide)
        | false => decide
  · rw [if_neg h0]
    have hhead : text d.absolute w ≠ [] ∧ ∀ ts, (PathData.mk _ ts).absolute = d.absolute :=
      text_head _ hshape.not_mem h0
    have hts : (if d.trailing then Tsep.slash else .absent) ≠ .root := by split_ifs <;> simp
    refine ⟨hshape, walk_text hshape h0, hhead.2 _, fun _ => names_text hts hshape h0,
      fun _ _ hf => absurd hf h0, fun _ => ?_, fun actual hact => ?_⟩
    · rw [← trailing_iff hv hne]
      cases d.trailing <;> simp
    · have htext := trailing_text hshape fun ht => walk_last hv hne hwalk ht
      rw [normalize_eq (valid_text hshape h0) hhead.1 hact, walk_text hshape h0]
      dsimp only
      rw [hhead.2, htext, reassemble_eq hshape fun hf => absurd hf h0, if_neg h0]

end

end PathData

end Build2.Libbutl.Paths
