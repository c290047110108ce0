import Build2.Libbutl.Paths.Walk

/-! # Paths under a directory and relative to it

`sub`, `leaf` with a directory, and `relative`. For paths that are their own normal form `sub` is
the order of prefixes on lists of components (`sub_iff`), a directory and the leaf under it give the
path back (`join_leafUnder`), and so do a directory and the path relative to it
(`join_relative`). -/

namespace Build2.Libbutl.Paths

open Build2.Lib.ByteString Build2.Lib.Joined

namespace PathData

/-- `sub`: "the second condition guards against the /foo-bar vs /foo case." -/
def sub (d p : PathData) : Bool :=
  p.path = [] ||
    (p.path.isPrefixOf d.path &&
      (p.path.getLast? = some sep || d.path.length = p.path.length ||
        d.path[p.path.length]? = some sep))

/-- `leaf (d)`. "If there is implied trailing slash, add it to count. Unless it is "matched" by the
implied slash on the other side." -/
def leafUnder (p d : PathData) : Except Fault PathData :=
  if d.path = [] then .ok p
  else if p.sub d then
    let dn := if d.tsep = .slash ∧ d.path.length < p.path.length then d.path.length + 1
      else d.path.length
    .ok (make (p.path.drop dn) p.tsep)
  else .error .invalidPath

/-- `operator/= (path)`. -/
def join (l r : PathData) : Except Fault PathData :=
  if r.absolute ∧ l.path ≠ [] then .error .invalidPath
  else if r.path = [] then .ok l
  else .ok (l.combine r.path r.tsep)

/-- `operator/= ("..")` of a directory. -/
def up (r : PathData) : PathData := (r.combine parent .absent).cast

/-- `operator==`: the trailing separators are not compared. -/
def same (p q : PathData) : Prop := p.path = q.path

/-- The loop of `begin ()` to `end ()` over the components, in one of them. -/
def iterateFrom (c : Bytes) : Bytes → List Bytes
  | [] => [c]
  | b :: s =>
    if b = sep then
      if s = [] then [c] else c :: iterateFrom [] s
    else iterateFrom (c ++ [b]) s

/-- The components from `begin ()` to `end ()`. -/
def iterate (d : PathData) : List Bytes := if d.path = [] then [] else iterateFrom [] d.path

theorem length_directory {d : PathData} (hne : d.path ≠ []) (hr : d.path ≠ [sep]) :
    d.directory.path.length < d.path.length := by
  have hpos : 0 < d.path.length := List.length_pos_iff.mpr hne
  have hpure : d.pure.length ≤ d.path.length := by
    unfold pure
    split_ifs <;> simp
  unfold directory
  split_ifs with hu
  · simpa [empty] using hpos
  obtain ⟨t, ht⟩ := exists_uptoSeparator hu
  have hle : (t ++ [sep]).length ≤ d.pure.length := by
    have hlen := congrArg List.length (uptoSeparator_append d.pure)
    rw [List.length_append] at hlen
    rw [← ht]
    omega
  rw [List.length_append, List.length_singleton] at hle
  rw [ht, ofString_snoc]
  split_ifs with h0
  · -- a single character other than a separator has no separator
    rw [List.length_singleton]
    by_contra hlt
    have h1 : d.path.length = 1 := by omega
    obtain ⟨b, hb⟩ := List.length_eq_one_iff.mp h1
    have hb' : b ≠ sep := fun h => hr (by rw [hb, h])
    have hp : d.pure = [] ∨ d.pure = [b] := by
      unfold pure
      rw [hb]
      split_ifs
      · exact Or.inl rfl
      · exact Or.inr rfl
    rcases hp with hp | hp
    · rw [hp] at hle
      exact absurd hle (by simp)
    · rw [hp, uptoSeparator, List.rdropWhile_singleton, if_pos (by simpa using hb')] at ht
      exact absurd ht (by simp)
  · show t.length < _
    omega

theorem path_ne_nil_of_not_sub {p d : PathData} (h : ¬p.sub d = true) : d.path ≠ [] := by
  intro h0
  exact h (by simp [sub, h0])

/-- The loop of `relative`: `r` leads from the directory it started with to `d`. -/
def relativeFrom (p r d : PathData) : Except Fault PathData :=
  if _h : p.sub d = true then (p.leafUnder d).bind (r.join ·)
  else if _hr : d.path = [sep] then .error .invalidPath
  else relativeFrom p r.up d.directory
  termination_by d.path.length
  decreasing_by exact length_directory (path_ne_nil_of_not_sub _h) _hr

/-- `relative`. -/
def relative (p d : PathData) : Except Fault PathData := relativeFrom p empty d

/-! ### Normal forms -/

/-- The components of a path that has some. -/
structure Named (d : PathData) (w : List Bytes) : Prop where
  ne_nil : w ≠ []
  mem : ∀ c ∈ w, c ≠ [] ∧ sep ∉ c
  path : d.path = text d.absolute w
  tsep : d.tsep ≠ .root
  plain : d.absolute = true → ∀ c ∈ w, Plain c

variable {p d : PathData} {w cs zs : List Bytes}

/-- **A path that is its own normal form** is empty, the root directory or made of components. -/
theorem normal_form (hv : d.Valid) (h : d.normalize false = .ok d) :
    d = empty ∨ d = ⟨[sep], .root⟩ ∨ ∃ w, d.Named w := by
  by_cases hne : d.path = []
  · exact Or.inl (ext' hne (hv.ofEmpty hne))
  rw [normalize_eq hv hne (by simp)] at h
  cases hw : d.walk with
  | none =>
    rw [hw] at h
    cases h
  | some w =>
    have hshape := walked_of_walk hw
    rw [hw] at h
    dsimp only at h
    rw [reassemble_eq hshape (by
      rintro rfl
      exact trailing_of_walk_nil hv hne hw), Except.ok.injEq] at h
    right
    by_cases h0 : w = []
    · rw [if_pos h0] at h
      by_cases ha : d.absolute = true
      · rw [if_pos ha] at h
        exact Or.inl h.symm
      · rw [if_neg ha, if_neg (by simp)] at h
        refine Or.inr ⟨[current], by simp, by decide, ?_, ?_, fun hf => absurd hf ha⟩
        · rw [← h]
          decide
        · rw [← h]
          decide
    · rw [if_neg h0] at h
      refine Or.inr ⟨w, h0, hshape.not_mem, by rw [← congrArg PathData.path h], ?_, fun ha => ?_⟩
      · rw [← h]
        split_ifs <;> simp
      · obtain ⟨k, cs, rfl, hcs, hk⟩ := hshape
        rw [hk ha]
        simpa using hcs

theorem iterateFrom_eq {c s : Bytes} (hc : sep ∉ c) (hs : (c ++ s).getLast? ≠ some sep) :
    iterateFrom c s = (c ++ s).splitOn sep := by
  induction s generalizing c with
  | nil => rw [iterateFrom, List.append_nil, List.splitOn_eq_singleton hc]
  | cons b s ih =>
    rw [iterateFrom]
    by_cases hb : b = sep
    · subst hb
      have hs0 : s ≠ [] := by
        rintro rfl
        simp at hs
      have hs' : ([] ++ s).getLast? ≠ some sep := by
        rwa [← List.singleton_append, ← List.append_assoc,
          List.getLast?_append_of_ne_nil _ hs0] at hs
      rw [if_pos rfl, if_neg hs0, List.splitOn_append_cons_self_of_not_mem hc,
        ih List.not_mem_nil hs', List.nil_append]
    · have hc' : sep ∉ c ++ [b] := by simpa [hc] using Ne.symm hb
      rw [if_neg hb, ih hc' (by simpa using hs)]
      simp

theorem iterate_root : iterate ⟨[sep], .root⟩ = [[]] := by decide

namespace Named

variable (h : d.Named w)

include h

theorem path_ne_nil : d.path ≠ [] := by
  rw [h.path]
  exact (text_head _ h.mem h.ne_nil).1

theorem getLast? : d.path.getLast? ≠ some sep := by
  rw [h.path]
  exact text_last _ h.mem

theorem iterate : d.iterate = base d.absolute ++ w := by
  rw [PathData.iterate, if_neg h.path_ne_nil, iterateFrom_eq List.not_mem_nil h.getLast?,
    List.nil_append]
  have hs := splitOn_text d.absolute (fun c hc => (h.mem c hc).2) h.ne_nil
  rwa [← h.path] at hs

theorem iterate_ne_nil : base d.absolute ++ w ≠ [] := by simp [h.ne_nil]

theorem not_mem_iterate : ∀ c ∈ base d.absolute ++ w, sep ∉ c := by
  intro c hc
  rcases List.mem_append.mp hc with hc | hc
  · cases ha : d.absolute with
    | true =>
      rw [ha] at hc
      rw [List.mem_singleton.mp hc]
      exact List.not_mem_nil
    | false =>
      rw [ha] at hc
      cases hc
  · exact (h.mem c hc).2

end Named

/-! ### Prefixes -/

theorem sub_of_empty (h : d.path = []) : p.sub d = true := by simp [sub, h]

/-- What `sub` compares if the directory has no separator at the end of its string. -/
theorem sub_eq (hne : d.path ≠ []) (hl : d.path.getLast? ≠ some sep) :
    p.sub d = true ↔ ∃ u, p.path = d.path ++ u ∧ (u = [] ∨ ∃ v, u = sep :: v) := by
  simp only [sub, hne, hl, decide_false, Bool.false_or, Bool.and_eq_true, Bool.or_eq_true,
    decide_eq_true_eq, List.isPrefixOf_iff_prefix]
  constructor
  · rintro ⟨⟨u, hu⟩, h | h⟩
    · refine ⟨u, hu.symm, Or.inl ?_⟩
      rw [← hu, List.length_append] at h
      exact List.length_eq_zero_iff.mp (by omega)
    · refine ⟨u, hu.symm, Or.inr ?_⟩
      rw [← hu, List.getElem?_append_right (Nat.le_refl _), Nat.sub_self] at h
      obtain ⟨b, v, rfl⟩ := List.exists_cons_of_ne_nil (l := u) (by
        rintro rfl
        simp at h)
      exact ⟨v, by rw [show b = sep by simpa using h]⟩
  · rintro ⟨u, hu, rfl | ⟨v, rfl⟩⟩
    · exact ⟨⟨[], hu.symm⟩, Or.inl (by rw [hu]; simp)⟩
    · refine ⟨⟨sep :: v, hu.symm⟩, Or.inr ?_⟩
      rw [hu, List.getElem?_append_right (Nat.le_refl _), Nat.sub_self]
      rfl

theorem sub_root : p.sub ⟨[sep], .root⟩ = true ↔ p.absolute = true := by
  rw [absolute_iff]
  simp only [sub, Bool.or_eq_true, Bool.and_eq_true, decide_eq_true_eq,
    List.isPrefixOf_iff_prefix, List.getLast?_singleton, true_or, and_true]
  constructor
  · rintro (h | ⟨u, hu⟩)
    · cases h
    · exact ⟨u, hu.symm⟩
  · rintro ⟨u, hu⟩
    exact Or.inr ⟨u, hu.symm⟩

/-- **`sub` is the order of prefixes** on the components of paths that are their own normal form. -/
theorem sub_iff (hpv : p.Valid) (hdv : d.Valid) (hp : p.normalize false = .ok p)
    (hd : d.normalize false = .ok d) : p.sub d = true ↔ d.iterate <+: p.iterate := by
  obtain rfl | rfl | ⟨ws, hws⟩ := normal_form hdv hd
  · exact ⟨fun _ => List.nil_prefix, fun _ => sub_of_empty rfl⟩
  · rw [sub_root, iterate_root]
    obtain rfl | rfl | ⟨w, hw⟩ := normal_form hpv hp
    · decide
    · decide
    · rw [hw.iterate]
      obtain ⟨c, w, rfl⟩ := List.exists_cons_of_ne_nil hw.ne_nil
      have hc := (hw.mem c List.mem_cons_self).1
      cases p.absolute <;> simp [base, hc.symm]
  · rw [sub_eq hws.path_ne_nil hws.getLast?, hws.iterate]
    obtain rfl | rfl | ⟨w, hw⟩ := normal_form hpv hp
    · refine iff_of_false ?_ fun h => ?_
      · rintro ⟨u, hu, -⟩
        exact hws.path_ne_nil (List.append_eq_nil_iff.mp hu.symm).1
      · exact hws.iterate_ne_nil (List.prefix_nil.mp h)
    · refine iff_of_false ?_ fun h => ?_
      · rintro ⟨u, hu, -⟩
        obtain ⟨b, s, hb⟩ := List.exists_cons_of_ne_nil hws.path_ne_nil
        rw [hb, List.cons_append, List.cons.injEq] at hu
        have hs := (List.append_eq_nil_iff.mp hu.2.symm).1
        refine hws.getLast? ?_
        rw [hb, hs, ← hu.1]
        rfl
      · rw [iterate_root] at h
        obtain ⟨c, ws, rfl⟩ := List.exists_cons_of_ne_nil hws.ne_nil
        have hc := (hws.mem c List.mem_cons_self).1
        generalize d.absolute = a at h
        cases a <;> simp [base, hc] at h
    · rw [hw.iterate, initial_iff hws.not_mem_iterate hw.not_mem_iterate hws.iterate_ne_nil
        hw.iterate_ne_nil, hw.path, hws.path]
      rfl

/-! ### The leaf under a directory -/

theorem text_true (hne : w ≠ []) : text true w = sep :: [sep].intercalate w := by
  obtain ⟨c, w, rfl⟩ := List.exists_cons_of_ne_nil hne
  simp [text, base, List.intercalate_cons_cons]

theorem Named.path_eq (h : d.Named w) : d.path = [sep].intercalate d.iterate := by
  rw [h.iterate]
  exact h.path

theorem Named.slash (h : d.Named w) (hd : d.path ≠ [] → d.tsep ≠ .absent) : d.tsep = .slash := by
  cases ht : d.tsep with
  | root => exact absurd ht h.tsep
  | absent => exact absurd ht (hd h.path_ne_nil)
  | slash => rfl

/-- The components behind the first ones have names. -/
theorem Named.mem_of_iterate {xs : List Bytes} (h : p.Named w) (hx : xs ≠ [])
    (hs : p.iterate = xs ++ zs) : ∀ c ∈ zs, c ≠ [] ∧ sep ∉ c := by
  obtain ⟨x, xs, rfl⟩ := List.exists_cons_of_ne_nil hx
  intro c hc
  refine h.mem c ?_
  rw [h.iterate] at hs
  cases ha : p.absolute with
  | true =>
    rw [ha, base, if_pos rfl, List.singleton_append, List.cons_append, List.cons.injEq] at hs
    rw [hs.2]
    exact List.mem_append_right _ hc
  | false =>
    rw [ha, base, if_neg (by simp), List.nil_append] at hs
    rw [hs]
    exact List.mem_append_right _ hc

/-- **The leaf under a directory** has the components behind those of the directory. -/
theorem leafUnder_eq (hpv : p.Valid) (hdv : d.Valid) (hp : p.normalize false = .ok p)
    (hd : d.normalize false = .ok d) (hdir : d.path ≠ [] → d.tsep ≠ .absent) (hne : d.path ≠ [])
    (hz : p.iterate = d.iterate ++ zs) :
    p.leafUnder d = .ok (make ([sep].intercalate zs) p.tsep) ∧ (∀ c ∈ zs, c ≠ [] ∧ sep ∉ c) ∧
      p.path = d.path ++
        if zs = [] then [] else if d.tsep = .slash then sep :: [sep].intercalate zs
          else [sep].intercalate zs := by
  have hsub : p.sub d = true := (sub_iff hpv hdv hp hd).mpr ⟨zs, hz.symm⟩
  rw [leafUnder, if_neg hne, if_pos hsub]
  obtain rfl | rfl | ⟨ws, hws⟩ := normal_form hdv hd
  · exact absurd rfl hne
  · rw [sub_root] at hsub
    obtain rfl | rfl | ⟨w, hw⟩ := normal_form hpv hp
    · cases hsub
    · obtain rfl : zs = [] := by simpa [iterate_root] using hz
      exact ⟨rfl, by simp, rfl⟩
    · have hzw : zs = w := by
        rw [iterate_root, hw.iterate, hsub, base, if_pos rfl] at hz
        exact (List.append_cancel_left hz).symm
      have hpath : p.path = sep :: [sep].intercalate w := by
        rw [hw.path, hsub, text_true hw.ne_nil]
      subst hzw
      refine ⟨?_, hw.mem, ?_⟩
      · simp [hpath]
      · simp [hpath, hw.ne_nil]
  · have hslash := hws.slash hdir
    have hi : d.iterate ≠ [] := by
      rw [hws.iterate]
      exact hws.iterate_ne_nil
    obtain rfl | rfl | ⟨w, hw⟩ := normal_form hpv hp
    · exact absurd (List.append_eq_nil_iff.mp hz.symm).1 hi
    · -- the root directory is under no other directory
      rw [sub_eq hws.path_ne_nil hws.getLast?] at hsub
      obtain ⟨u, hu, -⟩ := hsub
      obtain ⟨b, s, hb⟩ := List.exists_cons_of_ne_nil hws.path_ne_nil
      rw [hb, List.cons_append, List.cons.injEq] at hu
      have hs := (List.append_eq_nil_iff.mp hu.2.symm).1
      refine absurd ?_ hws.getLast?
      rw [hb, hs, ← hu.1]
      rfl
    · refine ⟨?_, hw.mem_of_iterate hi hz, ?_⟩
      · by_cases h0 : zs = []
        · have hpath : p.path = d.path := by
            rw [hw.path_eq, hz, h0, List.append_nil, ← hws.path_eq]
          simp [h0, hpath]
        · have hpath : p.path = d.path ++ sep :: [sep].intercalate zs := by
            rw [hw.path_eq, hz, intercalate_append hi h0, ← hws.path_eq]
          have hdrop : p.path.drop (d.path.length + 1) = [sep].intercalate zs := by
            rw [hpath, List.drop_append, List.drop_eq_nil_of_le (Nat.le_succ _)]
            simp
          rw [if_pos ⟨hslash, by rw [hpath]; simp⟩]
          dsimp only
          rw [hdrop]
      · by_cases h0 : zs = []
        · rw [hw.path_eq, hz, h0, List.append_nil, ← hws.path_eq]
          simp
        · rw [hw.path_eq, hz, intercalate_append hi h0, ← hws.path_eq, if_neg h0, if_pos hslash]

theorem join_nil {ts : Tsep} : d.join (make [] ts) = .ok d := by
  have h0 : ¬(0 : UInt8) = sep := by decide
  simp [join, make, absolute, hd, h0]

theorem join_names (d : PathData) (ts : Tsep) (hz : ∀ c ∈ zs, c ≠ [] ∧ sep ∉ c) (h0 : zs ≠ []) :
    d.join (make ([sep].intercalate zs) ts) = .ok (d.combine ([sep].intercalate zs) ts) := by
  obtain ⟨hn, ha⟩ : [sep].intercalate zs ≠ [] ∧
      ∀ ts, (PathData.mk ([sep].intercalate zs) ts).absolute = false :=
    text_head false hz h0
  rw [join, make, if_neg hn, ha, if_neg (by simp), if_neg hn]

/-- **A directory and the leaf under it** give the path back. -/
theorem join_leafUnder (hpv : p.Valid) (hdv : d.Valid) (hp : p.normalize false = .ok p)
    (hd : d.normalize false = .ok d) (hdir : d.path ≠ [] → d.tsep ≠ .absent)
    (hs : p.sub d = true) : ∃ l q, p.leafUnder d = .ok l ∧ d.join l = .ok q ∧ q.same p := by
  by_cases hne : d.path = []
  · have he : d = empty := ext' hne (hdv.ofEmpty hne)
    refine ⟨p, if p.path = [] then d else d.combine p.path p.tsep, if_pos hne, ?_, ?_⟩
    · rw [join, if_neg fun h => h.2 hne]
      split_ifs <;> rfl
    · rw [he]
      split_ifs with h0
      · exact h0.symm
      · simp [same, combine, empty]
  · obtain ⟨zs, hz⟩ := (sub_iff hpv hdv hp hd).mp hs
    obtain ⟨hl, hzs, hpath⟩ := leafUnder_eq hpv hdv hp hd hdir hne hz.symm
    by_cases h0 : zs = []
    · subst h0
      exact ⟨_, d, hl, join_nil, by simpa [same] using hpath.symm⟩
    · refine ⟨_, _, hl, join_names _ _ hzs h0, ?_⟩
      rw [if_neg h0] at hpath
      rw [same, hpath, combine]
      cases ht : d.tsep with
      | root => simp
      | absent => exact absurd ht (hdir hne)
      | slash => simp

/-! ### Relative paths -/

/-- The components of an absolute path are names. -/
theorem absolute_form (hv : d.Valid) (h : d.normalize false = .ok d) (ha : d.absolute = true) :
    ∃ ps, (∀ c ∈ ps, Plain c) ∧ d.path = (rooted ps).path ∧ d.iterate = [] :: ps := by
  obtain rfl | rfl | ⟨w, hw⟩ := normal_form hv h
  · cases ha
  · exact ⟨[], by simp, rfl, rfl⟩
  · refine ⟨w, hw.plain ha, ?_, ?_⟩
    · rw [hw.path, ha, rooted, if_neg hw.ne_nil]
      rfl
    · rw [hw.iterate, ha]
      rfl

theorem uptoSeparator_append_cons {t c : Bytes} (hc : sep ∉ c) :
    uptoSeparator (t ++ sep :: c) = t ++ [sep] := by
  induction c using List.reverseRecOn with
  | nil => exact List.rdropWhile_concat_neg _ _ _ (by simp)
  | append_singleton c b ih =>
    rw [List.mem_append, not_or] at hc
    have hb : b ≠ sep := fun h => hc.2 (by simp [h])
    rw [← List.cons_append, ← List.append_assoc, uptoSeparator,
      List.rdropWhile_concat_pos _ _ _ (by simpa using hb)]
    exact ih hc.1

theorem directory_rooted {c : Bytes} (hc : sep ∉ c) :
    (rooted (cs ++ [c])).directory = rooted cs := by
  have hp : (rooted (cs ++ [c])).pure = [sep].intercalate ([] :: cs) ++ sep :: c := by
    rw [rooted_pure, ← List.cons_append, intercalate_snoc c (List.cons_ne_nil _ _)]
  rw [directory, hp, uptoSeparator_append_cons hc, if_neg (by simp), ofString_snoc, rooted]
  by_cases h0 : cs = []
  · subst h0
    rfl
  · have hne : [sep].intercalate ([] :: cs) ≠ [] := by
      show [sep].intercalate ([[]] ++ cs) ≠ []
      rw [intercalate_append (by simp) h0]
      simp
    rw [if_neg hne, if_neg h0]

theorem rooted_ne_root {c : Bytes} (hcs : ∀ x ∈ cs ++ [c], Plain x) :
    (rooted (cs ++ [c])).path ≠ [sep] := by
  have hc := hcs c (by simp)
  intro h
  rw [rooted, if_neg (by simp), ← List.cons_append, intercalate_snoc c (List.cons_ne_nil _ _)] at h
  have hl := congrArg List.getLast? h
  rw [List.getLast?_append_of_ne_nil _ (List.cons_ne_nil _ _), ← List.singleton_append,
    List.getLast?_append_of_ne_nil _ hc.ne_nil] at hl
  exact getLast?_of_not_mem hc.not_mem hl

theorem named_rooted (hcs : ∀ c ∈ cs, Plain c) (h0 : cs ≠ []) : (rooted cs).Named cs := by
  refine ⟨h0, fun c hc => ⟨(hcs c hc).ne_nil, (hcs c hc).not_mem⟩, ?_, ?_, fun _ => hcs⟩
  · rw [rooted_absolute, rooted, if_neg h0]
    rfl
  · rw [rooted, if_neg h0]
    simp

theorem iterate_rooted (hcs : ∀ c ∈ cs, Plain c) : (rooted cs).iterate = [] :: cs := by
  by_cases h0 : cs = []
  · subst h0
    rfl
  · rw [(named_rooted hcs h0).iterate, rooted_absolute]
    rfl

theorem rooted_valid (cs : List Bytes) : (rooted cs).Valid := by
  by_cases h0 : cs = []
  · subst h0
    exact valid_root
  · have hne := rooted_path cs
    rw [rooted, if_neg h0] at hne ⊢
    exact valid_slash hne

theorem sub_rooted {ps ds : List Bytes} (hpv : p.Valid) (hp : p.normalize false = .ok p)
    (hpi : p.iterate = [] :: ps) (hds : ∀ c ∈ ds, Plain c) :
    p.sub (rooted ds) = true ↔ ds <+: ps := by
  rw [sub_iff hpv (rooted_valid ds) hp (normalize_rooted hds false), iterate_rooted hds, hpi,
    List.cons_prefix_cons]
  simp

/-- The directory that leads up a number of times. -/
def ups (k : ℕ) : PathData :=
  if k = 0 then empty else ⟨[sep].intercalate (List.replicate k parent), .slash⟩

theorem ups_path (k : ℕ) : (ups k).path = [sep].intercalate (List.replicate k parent) := by
  unfold ups
  split_ifs with h
  · subst h
    rfl
  · rfl

theorem up_ups (k : ℕ) : (ups k).up = ups (k + 1) := by
  by_cases h : k = 0
  · subst h
    decide
  · have hne : List.replicate k parent ≠ [] := by simpa using h
    rw [ups, ups, if_neg h, if_neg (Nat.succ_ne_zero k), List.replicate_succ',
      intercalate_snoc parent hne, up, combine]
    dsimp only
    rw [cast, if_pos ⟨by simp, rfl⟩]
    simp

/-- The loop of `relative` at a directory that the path is under, -/
theorem relativeFrom_sub {ds : List Bytes} (hpv : p.Valid) (hp : p.normalize false = .ok p)
    (hpi : p.iterate = [] :: (ds ++ zs)) (hds : ∀ c ∈ ds, Plain c) (r : PathData) :
    (∀ c ∈ zs, c ≠ [] ∧ sep ∉ c) ∧
      relativeFrom p r (rooted ds) = r.join (make ([sep].intercalate zs) p.tsep) := by
  have hz : p.iterate = (rooted ds).iterate ++ zs := by
    rw [hpi, iterate_rooted hds]
    rfl
  obtain ⟨hl, hzs, -⟩ := leafUnder_eq hpv (rooted_valid ds) hp (normalize_rooted hds false)
    (fun _ => rooted_tsep ds) (rooted_path ds) hz
  refine ⟨hzs, ?_⟩
  rw [relativeFrom, dif_pos ((sub_rooted hpv hp hpi hds).mpr ⟨zs, rfl⟩), hl]
  rfl

/-- and at any directory, `k` directories up from where it started. -/
theorem relativeFrom_rooted {ps ds : List Bytes} (hpv : p.Valid) (hp : p.normalize false = .ok p)
    (hpi : p.iterate = [] :: ps) (hds : ∀ c ∈ ds, Plain c) (k : ℕ) :
    ∃ cs rest zs, ds = cs ++ rest ∧ ps = cs ++ zs ∧ (∀ c ∈ zs, c ≠ [] ∧ sep ∉ c) ∧
      relativeFrom p (ups k) (rooted ds) =
        (ups (k + rest.length)).join (make ([sep].intercalate zs) p.tsep) := by
  induction ds using List.reverseRecOn generalizing k with
  | nil =>
    have hpi' : p.iterate = [] :: ([] ++ ps) := hpi
    obtain ⟨hzs, heq⟩ := relativeFrom_sub hpv hp hpi' hds (ups k)
    exact ⟨[], [], ps, rfl, rfl, hzs, heq⟩
  | append_singleton ds c ih =>
    by_cases hpre : ds ++ [c] <+: ps
    · obtain ⟨zs, rfl⟩ := hpre
      obtain ⟨hzs, heq⟩ := relativeFrom_sub hpv hp hpi hds (ups k)
      exact ⟨ds ++ [c], [], zs, (List.append_nil _).symm, rfl, hzs, heq⟩
    · have hns : ¬p.sub (rooted (ds ++ [c])) = true := fun h =>
        hpre ((sub_rooted hpv hp hpi hds).mp h)
      obtain ⟨cs, rest, zs, rfl, hps, hzs, heq⟩ :=
        ih (fun x hx => hds x (List.mem_append_left _ hx)) (k + 1)
      refine ⟨cs, rest ++ [c], zs, List.append_assoc _ _ _, hps, hzs, ?_⟩
      rw [relativeFrom, dif_neg hns, dif_neg (rooted_ne_root hds), up_ups,
        directory_rooted (hds c (by simp)).not_mem, heq, List.length_append, List.length_singleton]
      congr 2
      omega

/-- **A relative path** leads up from the directory and then down to the path. -/
theorem relative_eq {ps ds : List Bytes} (hpv : p.Valid) (hp : p.normalize false = .ok p)
    (hpi : p.iterate = [] :: ps) (hds : ∀ c ∈ ds, Plain c) :
    ∃ cs rest zs r, ds = cs ++ rest ∧ ps = cs ++ zs ∧ (∀ c ∈ zs, c ≠ [] ∧ sep ∉ c) ∧
      p.relative (rooted ds) = .ok r ∧ r.tsep ≠ .root ∧
        r.path = [sep].intercalate (List.replicate rest.length parent ++ zs) := by
  obtain ⟨cs, rest, zs, hd, hps, hzs, heq⟩ := relativeFrom_rooted hpv hp hpi hds 0
  rw [Nat.zero_add] at heq
  by_cases h0 : zs = []
  · subst h0
    refine ⟨cs, rest, [], ups rest.length, hd, hps, hzs, heq.trans join_nil, ?_, ?_⟩
    · unfold ups
      split_ifs <;> simp [empty]
    · rw [ups_path, List.append_nil]
  · refine ⟨cs, rest, zs, _, hd, hps, hzs, heq.trans (join_names _ _ hzs h0), ?_, ?_⟩
    · obtain rfl | rfl | ⟨w, hw⟩ := normal_form hpv hp
      · simp [combine, empty]
      · rw [iterate_root, hps] at hpi
        exact absurd hpi (by simp [h0])
      · exact hw.tsep
    · by_cases hk : rest.length = 0
      · simp [combine, ups, hk, empty]
      · have hne : List.replicate rest.length parent ≠ [] := by simpa using hk
        rw [intercalate_append hne h0, combine, ups, if_neg hk]
        simp

theorem walkFrom_append {abs : Bool} {r xs : List Bytes} (hcs : ∀ c ∈ cs, Plain c) :
    walkFrom abs r (cs ++ xs) = walkFrom abs (cs.reverse ++ r) xs := by
  induction cs generalizing r with
  | nil => rfl
  | cons c cs ih =>
    have hc := hcs c List.mem_cons_self
    rw [List.cons_append, walkFrom, if_neg (not_or.mpr ⟨hc.ne_nil, hc.ne_current⟩),
      if_neg hc.ne_parent, ih fun x hx => hcs x (List.mem_cons_of_mem _ hx)]
    simp

/-- Each `..` pops a name. -/
theorem walkFrom_pop (abs : Bool) (r xs : List Bytes) (hcs : ∀ c ∈ cs, Plain c) :
    walkFrom abs (cs ++ r) (List.replicate cs.length parent ++ xs) = walkFrom abs r xs := by
  induction cs with
  | nil => rfl
  | cons c cs ih =>
    have hc := hcs c List.mem_cons_self
    rw [List.length_cons, List.replicate_succ, List.cons_append, List.cons_append, walkFrom,
      if_neg (by decide), if_pos rfl, if_neg (by simp), List.head?_cons,
      if_neg (by simpa using hc.ne_parent), List.tail_cons]
    exact ih fun x hx => hcs x (List.mem_cons_of_mem _ hx)

theorem walkFrom_updown {rest : List Bytes} (hcs : ∀ c ∈ cs ++ rest, Plain c)
    (hzs : ∀ c ∈ zs, Plain c) :
    walkFrom true [] (cs ++ rest ++ (List.replicate rest.length parent ++ zs)) =
      some (cs ++ zs) := by
  have hrev : ∀ c ∈ rest.reverse, Plain c := fun c hc =>
    hcs c (List.mem_append_right _ (List.mem_reverse.mp hc))
  have hpop := walkFrom_pop true cs.reverse zs hrev
  rw [List.length_reverse] at hpop
  rw [walkFrom_append hcs, List.append_nil, List.reverse_append, hpop, walkFrom_names hzs,
    List.reverse_reverse]

theorem combine_rooted {ts : Tsep} {ds ys : List Bytes} (h0 : ys ≠ []) :
    (rooted ds).combine ([sep].intercalate ys) ts = ⟨text true (ds ++ ys), ts⟩ := by
  by_cases hd : ds = []
  · subst hd
    rw [List.nil_append, text_true h0]
    rfl
  · have hi : [sep].intercalate ([] :: ds ++ ys) =
        [sep].intercalate ([] :: ds) ++ sep :: [sep].intercalate ys :=
      intercalate_append (List.cons_ne_nil _ _) h0
    rw [rooted, if_neg hd, combine]
    show _ = PathData.mk ([sep].intercalate ([] :: ds ++ ys)) ts
    rw [hi]
    simp

/-- **The relative path leads back.** -/
theorem join_relative {ps ds : List Bytes} (hpv : p.Valid) (hp : p.normalize false = .ok p)
    (hpi : p.iterate = [] :: ps) (hps : ∀ c ∈ ps, Plain c) (hds : ∀ c ∈ ds, Plain c) :
    ∃ r q n, p.relative (rooted ds) = .ok r ∧ (rooted ds).join r = .ok q ∧
      q.normalize false = .ok n ∧ n.path = (rooted ps).path := by
  obtain ⟨cs, rest, zs, r, rfl, rfl, hzs, hr, hts, hpath⟩ := relative_eq hpv hp hpi hds
  have hwalk := walkFrom_updown hds fun c hc => hps c (List.mem_append_right _ hc)
  have hys : ∀ c ∈ List.replicate rest.length parent ++ zs, c ≠ [] ∧ sep ∉ c := by
    intro c hc
    rcases List.mem_append.mp hc with hc | hc
    · rw [List.eq_of_mem_replicate hc]
      decide
    · exact hzs c hc
  have hdirs : ∀ c ∈ cs ++ rest, c ≠ [] ∧ sep ∉ c := fun c hc =>
    ⟨(hds c hc).ne_nil, (hds c hc).not_mem⟩
  by_cases h0 : List.replicate rest.length parent ++ zs = []
  · -- the path is the directory
    have hr0 : r.path = [] := by rw [hpath, h0]; rfl
    rw [List.append_eq_nil_iff, List.replicate_eq_nil_iff, List.length_eq_zero_iff] at h0
    obtain ⟨rfl, rfl⟩ := h0
    have ha : r.absolute = false := by
      rw [absolute, hr0]
      decide
    refine ⟨r, _, _, hr, ?_, normalize_rooted hds false, rfl⟩
    rw [join, ha, if_neg (by simp), if_pos hr0]
  generalize List.replicate rest.length parent ++ zs = ys at hpath hys h0 hwalk
  generalize cs ++ rest = ds at hds hr hdirs hwalk
  generalize cs ++ zs = ps at hpi hps hwalk
  have hmem : ∀ c ∈ ds ++ ys, c ≠ [] ∧ sep ∉ c := List.forall_mem_append.mpr ⟨hdirs, hys⟩
  have hne : ds ++ ys ≠ [] := by simp [h0]
  obtain ⟨hqn, hqa⟩ := text_head true hmem hne
  have hmk : r = make ([sep].intercalate ys) r.tsep := by
    have hn : [sep].intercalate ys ≠ [] := (text_head false hys h0).1
    rw [make, if_neg hn, ← hpath]
  have hq := join_names (rooted ds) r.tsep hys h0
  rw [← hmk, combine_rooted h0] at hq
  have hqv : (PathData.mk (text true (ds ++ ys)) r.tsep).Valid :=
    ⟨fun h => absurd h hqn, fun h => absurd h hts, fun _ => text_last _ hmem⟩
  have hqw : (PathData.mk (text true (ds ++ ys)) r.tsep).walk = some ps := by
    rw [walk, hqa, splitOn_text _ (fun c hc => (hmem c hc).2) hne, base, if_pos rfl,
      List.singleton_append, walkFrom, if_pos (Or.inl rfl)]
    exact hwalk
  have hn : (PathData.mk (text true (ds ++ ys)) r.tsep).normalize false = _ :=
    normalize_eq hqv hqn (by simp)
  rw [hqw, hqa] at hn
  dsimp only at hn
  rw [reassemble_eq ⟨0, ps, by simp, hps, fun _ => rfl⟩ (by
    rintro rfl
    exact trailing_of_walk_nil hqv hqn hqw), if_pos rfl] at hn
  refine ⟨r, _, _, hr, hq, hn, ?_⟩
  rw [rooted]
  split_ifs <;> rfl

/-- **Relative paths lead back**, and so do the leaves under a directory. -/
structure LeadsBack (p d : PathData) : Prop where
  /-- "joining d with the result and normalizing gives p." -/
  relative : p.absolute = true → d.absolute = true →
    ∃ r q n, p.relative d = .ok r ∧ d.join r = .ok q ∧ q.normalize false = .ok n ∧ n.same p
  leaf : p.sub d = true → ∃ l q, p.leafUnder d = .ok l ∧ d.join l = .ok q ∧ q.same p
  sub : p.sub d = true ↔ d.iterate <+: p.iterate

end PathData

/-- A path is normalized if it is its own normal form. -/
theorem leads_back (p : AnyPath) (d : DirPath) (hp : p.data.normalize false = .ok p.data)
    (hd : d.data.normalize false = .ok d.data) : p.data.LeadsBack d.data := by
  refine ⟨fun hpa hda => ?_, PathData.join_leafUnder p.valid d.valid hp hd d.dir,
    PathData.sub_iff p.valid d.valid hp hd⟩
  obtain ⟨ps, hps, hpp, hpi⟩ := PathData.absolute_form p.valid hp hpa
  have hdn : d.data.path ≠ [] := by
    obtain ⟨s, hs⟩ := PathData.absolute_iff.mp hda
    rw [hs]
    simp
  obtain ⟨ds, hds, hdd⟩ := PathData.Normal.of_normalize d.valid (d.dir hdn) hda hd
  obtain ⟨r, q, n, hr, hq, hn, hnp⟩ := PathData.join_relative p.valid hp hpi hps hds
  rw [← hdd] at hr hq
  exact ⟨r, q, n, hr, hq, hn, hnp.trans hpp.symm⟩

/-- The path `/a` and the directory `/b/c`. -/
theorem leads_back_siblings :
    (AnyPath.ofString (str ['/', 'a'])).data.LeadsBack
      (DirPath.ofString (str ['/', 'b', '/', 'c'])).data :=
  leads_back (AnyPath.ofString (str ['/', 'a'])) (DirPath.ofString (str ['/', 'b', '/', 'c']))
    (by decide +kernel) (by decide +kernel)

end Build2.Libbutl.Paths
