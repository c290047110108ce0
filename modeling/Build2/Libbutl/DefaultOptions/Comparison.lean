import Build2.Libbutl.DefaultOptions.Loop

/-! # The result and the documented one

The documented search is a recursion over the traversed directories too (`documented_eq`). It is
compared with the loop one directory at a time: in front of the directory that has the extra one,
behind it, and there. The result is the documented one if and only if nothing goes wrong with the
extra directory (`loadDefaultOptions_iff`). -/

namespace Build2.Libbutl.DefaultOptions

open Build2.Lib.ByteString

variable {O : Type} {t : Tree O} {noDefaultOptions : O → Bool} {fs : List Bytes}
  {extra home : Option Dir} {c d e x : Dir} {ds : List Dir} {p : Place} {pending : Bool}
  {rest : Bool → List (Entry O)}

/-! ### The documented search, one directory at a time -/

section

variable (t noDefaultOptions fs extra)

/-- The places that are searched at a traversed directory. -/
def documentedPlaces (d : Dir) (pending : Bool) : List Place :=
  (if pending && hasExtra extra d then extraPlaces extra else []) ++ ownPlaces extra d

/-- The documented entries of these directories, and then those of the rest of the search. -/
def documentedEntries (rest : Bool → List (Entry O)) : List Dir → Bool → List (Entry O)
  | [], pending => rest pending
  | d :: ds, pending =>
    readThen t noDefaultOptions fs (ownRemote (t.git d || ds.any t.git))
      (documentedPlaces extra d pending) (documentedEntries rest ds (pending && !hasExtra extra d))

end

theorem sub_iff : x.sub d = true ↔ d <:+ x := List.isSuffixOf_iff_suffix

theorem suffix_of_mem_traversed (h : e ∈ traversed home d) : e <:+ d := by
  induction d with
  | nil => cases h
  | cons c d ih =>
    rw [traversed] at h
    split_ifs at h
    · cases h
    · rcases List.mem_cons.mp h with rfl | h
      · exact List.suffix_refl _
      · exact (ih h).trans (List.suffix_cons c d)

theorem pairwise_traversed : (traversed home d).Pairwise fun a b => b <:+ a ∧ b ≠ a := by
  induction d with
  | nil => exact List.Pairwise.nil
  | cons c d ih =>
    rw [traversed]
    split_ifs
    · exact List.Pairwise.nil
    · refine List.pairwise_cons.mpr ⟨fun b hb => ?_, ih⟩
      have hsuffix := suffix_of_mem_traversed hb
      refine ⟨hsuffix.trans (List.suffix_cons c d), fun h => ?_⟩
      have hlength := hsuffix.length_le
      rw [h, List.length_cons] at hlength
      omega

theorem any_git_eq {all inner : List Dir} (h : all.Pairwise fun a b => b <:+ a ∧ b ≠ a)
    (hall : all = inner ++ d :: ds) :
    (all.any fun e => d.sub e && t.git e) = (t.git d || ds.any t.git) := by
  rw [hall, List.pairwise_append, List.pairwise_cons] at h
  obtain ⟨-, ⟨hds, -⟩, hinner⟩ := h
  have hin : (inner.any fun e => d.sub e && t.git e) = false := by
    refine List.any_eq_false.mpr fun e he => ?_
    obtain ⟨hsuffix, hne⟩ := hinner e he d List.mem_cons_self
    have hnot : d.sub e ≠ true := fun hsub =>
      hne (hsuffix.eq_of_length_le (sub_iff.mp hsub).length_le)
    rw [Bool.eq_false_iff.mpr hnot, Bool.false_and]
    exact Bool.false_ne_true
  have hout : (ds.any fun e => d.sub e && t.git e) = ds.any t.git := by
    rw [Bool.eq_iff_iff, List.any_eq_true, List.any_eq_true]
    refine exists_congr fun e => and_congr_right fun he => ?_
    rw [sub_iff.mpr (hds e he).1, Bool.true_and]
  rw [hall, List.any_append, hin, List.any_cons, hout, sub_iff.mpr (List.suffix_refl d),
    Bool.true_and, Bool.false_or]

theorem mem_documentedPlaces (h : p ∈ documentedPlaces extra d pending) :
    p.owner = none ∨ p.owner = some d := by
  rcases List.mem_append.mp h with h | h
  · refine Or.inl ?_
    split_ifs at h
    · cases extra with
      | none => cases h
      | some x => rcases mem_withLocal.mp h with rfl | rfl <;> rfl
    · cases h
  · have h := (List.mem_filter.mp h).1
    rcases mem_withLocal.mp h with rfl | rfl <;> exact Or.inr rfl

theorem documentedEntries_eq {all inner : List Dir} {tail : Bool → List Place}
    (h : all.Pairwise fun a b => b <:+ a ∧ b ≠ a) (hall : all = inner ++ ds) :
    read t noDefaultOptions fs (isRemote t all)
        (traversedPlaces extra ds pending ++ tail (pending && !ds.any (hasExtra extra))) =
      documentedEntries t noDefaultOptions fs extra
        (fun b => read t noDefaultOptions fs (isRemote t all) (tail b)) ds pending := by
  induction ds generalizing inner pending with
  | nil => rw [documentedEntries, List.any_nil, Bool.not_false, Bool.and_true]; rfl
  | cons d ds ih =>
    have hmarks : read t noDefaultOptions fs (isRemote t all) (documentedPlaces extra d pending) =
        read t noDefaultOptions fs (ownRemote (t.git d || ds.any t.git))
          (documentedPlaces extra d pending) := by
      refine read_congr fun p hp => ?_
      unfold isRemote ownRemote
      rcases mem_documentedPlaces hp with ho | ho
      · rw [ho]; rfl
      · rw [ho]
        exact any_git_eq h hall
    have hpending : (pending && !(d :: ds).any (hasExtra extra)) =
        ((pending && !hasExtra extra d) && !ds.any (hasExtra extra)) := by
      rw [List.any_cons, Bool.not_or, Bool.and_assoc]
    have hall' : all = (inner ++ [d]) ++ ds := by simpa using hall
    rw [documentedEntries, readThen, ← hmarks, ← ih hall', traversedPlaces, ← documentedPlaces,
      List.append_assoc, read_append, hpending]

theorem mem_restPlaces {sys : Option Dir} (h : p ∈ restPlaces extra sys home pending) :
    p.owner = none := by
  have hlocal : ∀ {e : Dir}, p ∈ withLocal e none → p.owner = none := by
    intro e he
    rcases mem_withLocal.mp he with rfl | rfl <;> rfl
  rcases List.mem_append.mp h with h | h
  · split_ifs at h
    · cases extra with
      | none => cases h
      | some x => exact hlocal h
    · cases h
  · rcases List.mem_append.mp h with h | h
    · cases home with
      | none => cases h
      | some d => exact hlocal h
    · cases sys with
      | none => cases h
      | some d => exact hlocal h

/-- **The documented result**, the entries from the innermost directory outward. -/
theorem documented_eq (sys home start : Option Dir) :
    documented t noDefaultOptions fs extra sys home start =
      (documentedEntries t noDefaultOptions fs extra
        (fun b => read t noDefaultOptions fs (ownRemote false) (restPlaces extra sys home b))
        ((start.map (traversed home)).getD []) true).reverse := by
  have hpairwise : ((start.map (traversed home)).getD []).Pairwise fun a b => b <:+ a ∧ b ≠ a := by
    cases start with
    | none => exact List.Pairwise.nil
    | some d => exact pairwise_traversed
  unfold documented places
  dsimp only
  generalize (start.map (traversed home)).getD [] = ds at hpairwise ⊢
  have hrest : (fun b => read t noDefaultOptions fs (isRemote t ds) (restPlaces extra sys home b)) =
      fun b => read t noDefaultOptions fs (ownRemote false) (restPlaces extra sys home b) := by
    refine funext fun b => read_congr fun p hp => ?_
    rw [isRemote, ownRemote, mem_restPlaces hp]
    rfl
  rw [← hrest, ← documentedEntries_eq hpairwise (List.nil_append ds).symm, Bool.true_and]
  unfold restPlaces
  cases ds.any (hasExtra extra) <;> rfl

/-! ### The marks -/

/-- Where a place belongs to a traversed directory and is not the extra one, it is marked later if
its directory or an outer one has a `.git`. -/
theorem loopRemote_eq {b m go : Bool} (howner : p.owner.isSome = true) (hp : extra ≠ some p.dir) :
    loopRemote extra b (m && (go || !b)) p = ownRemote (b || m) p := by
  unfold loopRemote ownRemote
  rw [howner, decide_eq_true hp]
  cases b <;> cases m <;> cases go <;> rfl

theorem owner_of_mem_withLocal (h : p ∈ withLocal (build2 d) (some d)) : p.owner.isSome = true := by
  rcases mem_withLocal.mp h with rfl | rfl <;> rfl

theorem goesOn_withLocal {owner : Option Dir} :
    goesOn t noDefaultOptions fs (withLocal d owner) = true ↔
      stops t noDefaultOptions fs (localDir d) = false ∧ stops t noDefaultOptions fs d = false := by
  simp [withLocal, goesOn]

theorem goesOn_build2 : goesOn t noDefaultOptions fs (withLocal (build2 d) (some d)) = true ↔
    GoesPast t noDefaultOptions fs d := goesOn_withLocal

/-! ### Extra directories -/

theorem localDir_injective : Function.Injective localDir := fun _ _ h => (List.cons.inj h).2

theorem localDir_ne_build2 : localDir x ≠ build2 d := fun h =>
  absurd (List.cons.inj h).1 (by decide)

/-- The `.build2/` of a directory is extra if it is the extra directory, its `local/` also if this
is in the extra one. -/
theorem isExtra_build2 : IsExtra (some x) (build2 d) ↔ x = build2 d := by
  unfold IsExtra
  simp [localDir_ne_build2]

theorem isExtra_localDir :
    IsExtra (some x) (localDir (build2 d)) ↔ x = localDir (build2 d) ∨ x = build2 d := by
  unfold IsExtra
  simp [localDir_injective.eq_iff]

theorem not_isExtra (h : hasExtra extra d = false) (hp : p ∈ withLocal (build2 d) (some d)) :
    ¬ IsExtra extra p.dir := by
  cases extra with
  | none => rintro (h | h) <;> cases h
  | some x =>
    have hsub : ¬ d <:+ x := fun hd => by
      rw [hasExtra, Option.any_some, sub_iff.mpr hd] at h
      cases h
    have hbuild2 : x ≠ build2 d := fun hx => hsub (hx ▸ List.suffix_cons _ d)
    rcases mem_withLocal.mp hp with rfl | rfl
    · rw [isExtra_localDir]
      rintro (rfl | rfl)
      · exact hsub ((List.suffix_cons _ d).trans (List.suffix_cons _ (build2 d)))
      · exact hbuild2 rfl
    · rwa [isExtra_build2]

theorem ownPlaces_eq (h : hasExtra extra d = false) :
    ownPlaces extra d = withLocal (build2 d) (some d) :=
  List.filter_eq_self.mpr fun _ hp => decide_eq_true (not_isExtra h hp)

/-! ### A directory without the extra one -/

theorem ne_of_not_isExtra (h : ¬ IsExtra extra p.dir) : extra ≠ some p.dir :=
  fun he => h (Or.inl he)

theorem entries_eq_iff_inner {rest' : Bool → List (Entry O)} (h : hasExtra extra d = false) :
    loopEntries t noDefaultOptions fs extra rest (d :: ds) pending =
        documentedEntries t noDefaultOptions fs extra rest' (d :: ds) pending ↔
      (GoesPast t noDefaultOptions fs d →
        loopEntries t noDefaultOptions fs extra rest ds pending =
          documentedEntries t noDefaultOptions fs extra rest' ds pending) := by
  rw [loopEntries, documentedEntries, visitPlaces, documentedPlaces, h, Bool.and_false,
    if_neg Bool.false_ne_true, if_neg Bool.false_ne_true, List.nil_append, ownPlaces_eq h,
    Bool.not_false, Bool.and_true, readThen_eq_iff, ← goesOn_build2]
  refine and_iff_right fun p hp _ => ?_
  have hp := mem_of_searched hp
  exact loopRemote_eq (owner_of_mem_withLocal hp) (ne_of_not_isExtra (not_isExtra h hp))

/-! ### Behind the extra directory -/

theorem not_repeatedIn_nil : ¬ RepeatedIn t noDefaultOptions fs x [] := by
  rintro ⟨mid, d, outer, h, -⟩
  exact List.cons_ne_nil d outer (List.append_eq_nil_iff.mp h.symm).2

theorem repeatedIn_cons : RepeatedIn t noDefaultOptions fs x (d :: ds) ↔ ReadAgain t fs x d ∨
    GoesPast t noDefaultOptions fs d ∧ RepeatedIn t noDefaultOptions fs x ds := by
  constructor
  · rintro ⟨mid, e, outer, h, hmid, hagain⟩
    cases mid with
    | nil =>
      obtain ⟨rfl, rfl⟩ := List.cons.inj h
      exact Or.inl hagain
    | cons m mid =>
      obtain ⟨rfl, rfl⟩ := List.cons.inj h
      have hmid := List.forall_mem_cons.mp hmid
      exact Or.inr ⟨hmid.1, mid, e, outer, rfl, hmid.2, hagain⟩
  · rintro (hagain | ⟨hpast, mid, e, outer, rfl, hmid, hagain⟩)
    · exact ⟨[], d, ds, rfl, List.forall_mem_nil _, hagain⟩
    · exact ⟨d :: mid, e, outer, rfl, List.forall_mem_cons.mpr ⟨hpast, hmid⟩, hagain⟩

theorem spoiled_nil : ¬ Spoiled t noDefaultOptions fs extra [] := by
  rintro ⟨x, -, inner, c, outer, h, -⟩
  exact List.cons_ne_nil c outer (List.append_eq_nil_iff.mp h.symm).2

theorem spoiled_cons_of_sub (h : x.sub c = true) :
    Spoiled t noDefaultOptions fs (some x) (c :: ds) ↔ SpoiledAt t noDefaultOptions fs x c ds := by
  constructor
  · rintro ⟨y, hy, inner, e, outer, hds, hinner, hsub, hspoiled⟩
    obtain rfl := Option.some.inj hy
    cases inner with
    | nil =>
      obtain ⟨rfl, rfl⟩ := List.cons.inj hds
      exact hspoiled
    | cons m inner =>
      obtain ⟨rfl, rfl⟩ := List.cons.inj hds
      rw [(hinner c List.mem_cons_self).1] at h
      cases h
  · exact fun hspoiled => ⟨x, rfl, [], c, ds, rfl, List.forall_mem_nil _, h, hspoiled⟩

theorem spoiled_cons_of_not_sub (h : x.sub d = false) :
    Spoiled t noDefaultOptions fs (some x) (d :: ds) ↔
      GoesPast t noDefaultOptions fs d ∧ Spoiled t noDefaultOptions fs (some x) ds := by
  constructor
  · rintro ⟨y, hy, inner, e, outer, hds, hinner, hsub, hspoiled⟩
    obtain rfl := Option.some.inj hy
    cases inner with
    | nil =>
      obtain ⟨rfl, rfl⟩ := List.cons.inj hds
      rw [h] at hsub
      cases hsub
    | cons m inner =>
      obtain ⟨rfl, rfl⟩ := List.cons.inj hds
      have hinner := List.forall_mem_cons.mp hinner
      exact ⟨hinner.1.2, x, rfl, inner, e, outer, rfl, hinner.2, hsub, hspoiled⟩
  · rintro ⟨hpast, y, hy, inner, e, outer, rfl, hinner, hsub, hspoiled⟩
    obtain rfl := Option.some.inj hy
    exact ⟨x, rfl, d :: inner, e, outer, rfl,
      List.forall_mem_cons.mpr ⟨⟨h, hpast⟩, hinner⟩, hsub, hspoiled⟩

section

variable (hextra : goesOn t noDefaultOptions fs (extraPlaces (some x)) = true)

include hextra

theorem stops_of_isExtra (h : IsExtra (some x) e) : stops t noDefaultOptions fs e = false := by
  have hgo := goesOn_withLocal.mp hextra
  rcases h with h | h
  · rw [← Option.some.inj h]
    exact hgo.2
  · rw [← Option.some.inj h]
    exact hgo.1

theorem stops_of_left_out {ps : List Place} :
    ∀ p ∈ ps, decide (¬ IsExtra (some x) p.dir) = false →
      stops t noDefaultOptions fs p.dir = false :=
  fun _ _ h => stops_of_isExtra hextra (not_not.mp (of_decide_eq_false h))

/-- Nothing is read again if there are no files in the places that are left out. -/
theorem not_readAgain_iff :
    (∀ p ∈ searched t noDefaultOptions fs (withLocal (build2 d) (some d)),
        decide (¬ IsExtra (some x) p.dir) = false → found t fs p.dir = []) ↔
      ¬ ReadAgain t fs x d := by
  constructor
  · rintro h (⟨rfl, hfiles⟩ | ⟨rfl, hfiles⟩)
    · have hgo := goesOn_withLocal.mp hextra
      rw [withLocal, searched, List.forall_mem_cons, if_neg (by rw [hgo.1]; decide), searched,
        List.forall_mem_cons] at h
      rcases hfiles with hfiles | hfiles
      · exact hfiles (h.1 (decide_eq_false (not_not.mpr (isExtra_localDir.mpr (Or.inr rfl)))))
      · exact hfiles (h.2.1 (decide_eq_false (not_not.mpr (isExtra_build2.mpr rfl))))
    · rw [withLocal, searched, List.forall_mem_cons] at h
      exact hfiles (h.1 (decide_eq_false (not_not.mpr (isExtra_localDir.mpr (Or.inl rfl)))))
  · intro h p hp hq
    have hq := not_not.mp (of_decide_eq_false hq)
    by_contra hfiles
    rcases mem_withLocal.mp (mem_of_searched hp) with rfl | rfl
    · rcases isExtra_localDir.mp hq with rfl | rfl
      · exact h (Or.inr ⟨rfl, hfiles⟩)
      · exact h (Or.inl ⟨rfl, Or.inl hfiles⟩)
    · obtain rfl := isExtra_build2.mp hq
      exact h (Or.inl ⟨rfl, Or.inr hfiles⟩)

theorem length_documentedEntries_le :
    (documentedEntries t noDefaultOptions fs (some x) rest ds false).length ≤
      (loopEntries t noDefaultOptions fs (some x) rest ds false).length := by
  induction ds with
  | nil => exact Nat.le_refl _
  | cons d ds ih => exact length_readThen_filter_le (stops_of_left_out hextra) ih

/-- Behind the extra directory, the same is read if nothing is read again. -/
theorem entries_eq_iff_outer :
    loopEntries t noDefaultOptions fs (some x) rest (d :: ds) false =
        documentedEntries t noDefaultOptions fs (some x) rest (d :: ds) false ↔
      ¬ ReadAgain t fs x d ∧ (GoesPast t noDefaultOptions fs d →
        loopEntries t noDefaultOptions fs (some x) rest ds false =
          documentedEntries t noDefaultOptions fs (some x) rest ds false) := by
  rw [← not_readAgain_iff hextra, ← goesOn_build2]
  refine readThen_filter_iff (stops_of_left_out hextra) (fun p hp hq => ?_)
    (length_documentedEntries_le hextra)
  exact loopRemote_eq (owner_of_mem_withLocal hp) (ne_of_not_isExtra (of_decide_eq_true hq))

theorem entries_eq_iff_repeatedIn :
    loopEntries t noDefaultOptions fs (some x) rest ds false =
        documentedEntries t noDefaultOptions fs (some x) rest ds false ↔
      ¬ RepeatedIn t noDefaultOptions fs x ds := by
  induction ds with
  | nil => exact ⟨fun _ => not_repeatedIn_nil, fun _ => rfl⟩
  | cons d ds ih =>
    rw [entries_eq_iff_outer hextra, ih, repeatedIn_cons]
    tauto

end

/-! ### The directory that has the extra one -/

section

/-- What is read of a directory that has the extra one, after that. -/
def besideExtra (x c : Dir) : List Place :=
  (withLocal (build2 c) (some c)).filter fun p => some x ≠ some p.dir

theorem filter_besideExtra :
    (besideExtra x c).filter (fun p => ¬ IsExtra (some x) p.dir) = ownPlaces (some x) c := by
  unfold besideExtra ownPlaces
  rw [List.filter_filter]
  refine List.filter_congr fun p _ => ?_
  rw [Bool.and_eq_left_iff_imp, decide_eq_true_iff, decide_eq_true_iff]
  exact ne_of_not_isExtra

theorem visitPlaces_of_sub (h : x.sub c = true) :
    visitPlaces (some x) c true = extraPlaces (some x) ++ besideExtra x c := if_pos h

theorem documentedPlaces_of_sub (h : x.sub c = true) :
    documentedPlaces (some x) c true = extraPlaces (some x) ++ ownPlaces (some x) c := by
  rw [documentedPlaces, Bool.true_and, hasExtra, Option.any_some, if_pos h]

theorem localDir_ne : localDir x ≠ x := fun h => by
  have h := congrArg List.length h
  simp [localDir] at h

/-- Later marks are wrong where the `local/` of the extra directory has files. -/
theorem forall_extra_iff {b b' m : Bool} :
    (∀ p ∈ searched t noDefaultOptions fs (extraPlaces (some x)), found t fs p.dir ≠ [] →
        loopRemote (some x) b m p = ownRemote b' p) ↔
      ¬ (m = true ∧ found t fs (localDir x) ≠ []) := by
  constructor
  · rintro h ⟨rfl, hfiles⟩
    rw [extraPlaces, withLocal, searched, List.forall_mem_cons] at h
    have h := h.1 hfiles
    have hne : some x ≠ some (localDir x) := fun he => localDir_ne (Option.some.inj he).symm
    rw [loopRemote, Bool.true_and, decide_eq_true hne, Bool.or_true] at h
    cases h
  · intro h p hp hfiles
    rcases mem_withLocal.mp (mem_of_searched hp) with rfl | rfl
    · cases m with
      | true => exact absurd ⟨rfl, hfiles⟩ h
      | false => rfl
    · rw [loopRemote, decide_eq_false (not_not.mpr rfl), Bool.and_false]
      rfl

theorem goesOn_besideExtra (hextra : goesOn t noDefaultOptions fs (extraPlaces (some x)) = true) :
    goesOn t noDefaultOptions fs (besideExtra x c) = true ↔ GoesPast t noDefaultOptions fs c := by
  rw [← goesOn_build2, goesOn, goesOn, List.all_eq_true, List.all_eq_true]
  constructor
  · intro h p hp
    by_cases hne : some x = some p.dir
    · rw [stops_of_isExtra hextra (Or.inl hne)]
      rfl
    · exact h p (List.mem_filter.mpr ⟨hp, decide_eq_true hne⟩)
  · exact fun h p hp => h p (List.mem_filter.mp hp).1

theorem forall_besideExtra_iff
    (hextra : goesOn t noDefaultOptions fs (extraPlaces (some x)) = true) :
    (∀ p ∈ searched t noDefaultOptions fs (besideExtra x c),
        decide (¬ IsExtra (some x) p.dir) = false → found t fs p.dir = []) ↔
      ¬ (x = build2 c ∧ found t fs (localDir x) ≠ []) := by
  constructor
  · rintro h ⟨rfl, hfiles⟩
    have hne : some (build2 c) ≠ some (localDir (build2 c)) := fun he =>
      localDir_ne (Option.some.inj he).symm
    have hfirst : besideExtra (build2 c) c = ⟨localDir (build2 c), some c⟩ ::
        [⟨build2 c, some c⟩].filter fun p => some (build2 c) ≠ some p.dir :=
      List.filter_cons_of_pos (decide_eq_true hne)
    rw [hfirst, searched, List.forall_mem_cons] at h
    exact hfiles (h.1 (decide_eq_false (not_not.mpr (isExtra_localDir.mpr (Or.inr rfl)))))
  · intro h p hp hq
    have hq := not_not.mp (of_decide_eq_false hq)
    obtain ⟨hp, hne⟩ := List.mem_filter.mp (mem_of_searched hp)
    have hne := of_decide_eq_true hne
    by_contra hfiles
    rcases mem_withLocal.mp hp with rfl | rfl
    · rcases isExtra_localDir.mp hq with rfl | rfl
      · exact hne rfl
      · exact h ⟨rfl, hfiles⟩
    · exact hne (congrArg some (isExtra_build2.mp hq))

/-- After the extra directory, the same is read at the directory that has it and behind if nothing
is read again. -/
theorem entries_eq_iff_beside {b m go : Bool}
    (hextra : goesOn t noDefaultOptions fs (extraPlaces (some x)) = true) :
    readThen t noDefaultOptions fs (loopRemote (some x) b (m && (go || !b))) (besideExtra x c)
        (loopEntries t noDefaultOptions fs (some x) rest ds false) =
      readThen t noDefaultOptions fs (ownRemote (b || m)) (ownPlaces (some x) c)
        (documentedEntries t noDefaultOptions fs (some x) rest ds false) ↔
      ¬ (x = build2 c ∧ found t fs (localDir x) ≠ []) ∧
        (GoesPast t noDefaultOptions fs c → ¬ RepeatedIn t noDefaultOptions fs x ds) := by
  have hrepeated := @entries_eq_iff_repeatedIn _ _ _ _ _ ds rest hextra
  rw [← forall_besideExtra_iff hextra, ← goesOn_besideExtra hextra, ← hrepeated,
    ← filter_besideExtra]
  refine readThen_filter_iff (stops_of_left_out hextra) (fun p hp hq => ?_)
    (length_documentedEntries_le hextra)
  exact loopRemote_eq (owner_of_mem_withLocal (List.mem_filter.mp hp).1)
    (ne_of_not_isExtra (of_decide_eq_true hq))

/-- **The directory that has the extra one.** -/
theorem entries_eq_iff_at (h : x.sub c = true) :
    loopEntries t noDefaultOptions fs (some x) rest (c :: ds) true =
        documentedEntries t noDefaultOptions fs (some x) rest (c :: ds) true ↔
      ¬ SpoiledAt t noDefaultOptions fs x c ds := by
  have hhas : hasExtra (some x) c = true := h
  have hmarks : (ds.any t.git && (goesOn t noDefaultOptions fs
        (extraPlaces (some x) ++ besideExtra x c) || !t.git c)) = true ↔
      ds.any t.git = true ∧ ¬ (t.git c = true ∧ (stops t noDefaultOptions fs (localDir x) = true ∨
        stops t noDefaultOptions fs x = true ∨ ¬ GoesPast t noDefaultOptions fs c)) := by
    rw [goesOn_append]
    cases hgo : goesOn t noDefaultOptions fs (extraPlaces (some x)) with
    | true =>
      obtain ⟨h1, h2⟩ := goesOn_withLocal.mp hgo
      rw [Bool.true_and, h1, h2, ← goesOn_besideExtra hgo]
      cases t.git c <;> simp
    | false =>
      have hstops : stops t noDefaultOptions fs (localDir x) = true ∨
          stops t noDefaultOptions fs x = true := by
        by_contra hnot
        rw [not_or, Bool.not_eq_true, Bool.not_eq_true] at hnot
        have hgo' : goesOn t noDefaultOptions fs (extraPlaces (some x)) = true :=
          goesOn_withLocal.mpr hnot
        rw [hgo'] at hgo
        cases hgo
      cases t.git c with
      | true => simp only [Bool.not_true, Bool.false_and, Bool.or_self, Bool.and_false]; tauto
      | false => simp
  rw [loopEntries, documentedEntries, visitPlaces_of_sub h, documentedPlaces_of_sub h, hhas,
    Bool.not_true, Bool.and_false, readThen_append, readThen_append, readThen_eq_iff,
    forall_extra_iff, hmarks]
  rw [imp_congr_right fun hgo => entries_eq_iff_beside hgo, extraPlaces, goesOn_withLocal]
  unfold SpoiledAt
  rw [not_or]
  refine and_congr (not_congr and_comm) ?_
  refine Iff.trans (imp_congr_right fun _ => ?_) (not_and.symm.trans (not_congr and_assoc))
  exact (and_congr_right' not_and.symm).trans not_or.symm

end

/-! ### The whole search -/

theorem entries_eq_iff_spoiled :
    loopEntries t noDefaultOptions fs (some x) rest ds true =
        documentedEntries t noDefaultOptions fs (some x) rest ds true ↔
      ¬ Spoiled t noDefaultOptions fs (some x) ds := by
  induction ds with
  | nil => exact ⟨fun _ => spoiled_nil, fun _ => rfl⟩
  | cons d ds ih =>
    cases h : x.sub d with
    | true => rw [entries_eq_iff_at h, spoiled_cons_of_sub h]
    | false =>
      have hhas : hasExtra (some x) d = false := h
      rw [entries_eq_iff_inner hhas, spoiled_cons_of_not_sub h, ih]
      tauto

theorem entries_eq_of_none :
    loopEntries t noDefaultOptions fs none rest ds pending =
      documentedEntries t noDefaultOptions fs none rest ds pending := by
  induction ds with
  | nil => rfl
  | cons d ds ih => exact (entries_eq_iff_inner rfl).mpr fun _ => ih

/-- An extra directory without files need not be searched. -/
theorem documentedEntries_of_found (h : ∀ p ∈ extraPlaces extra, found t fs p.dir = [])
    (hrest : rest true = rest false) :
    documentedEntries t noDefaultOptions fs extra rest ds true =
      documentedEntries t noDefaultOptions fs extra rest ds false := by
  induction ds with
  | nil => exact hrest
  | cons d ds ih =>
    rw [documentedEntries, documentedEntries, documentedPlaces, documentedPlaces, Bool.true_and,
      Bool.false_and, Bool.false_and, Bool.true_and, if_neg Bool.false_ne_true, List.nil_append]
    cases hasExtra extra d with
    | false => rw [if_neg Bool.false_ne_true, List.nil_append, Bool.not_false, ih]
    | true =>
      rw [if_pos rfl, readThen_append, Bool.not_true, readThen, read_of_found h, goesOn_of_found h]
      rfl

theorem restPlaces_of_found {sys : Option Dir}
    (h : ∀ p ∈ extraPlaces extra, found t fs p.dir = []) :
    read t noDefaultOptions fs (ownRemote false) (restPlaces extra sys home true) =
      read t noDefaultOptions fs (ownRemote false) (restPlaces extra sys home false) := by
  unfold restPlaces
  rw [if_pos rfl, if_neg Bool.false_ne_true, read_append, read_of_found h, goesOn_of_found h]
  rfl

theorem not_repeatedIn_of_found (h : ∀ p ∈ extraPlaces (some x), found t fs p.dir = []) :
    ¬ RepeatedIn t noDefaultOptions fs x ds := by
  have hfound : found t fs (localDir x) = [] ∧ found t fs x = [] := by
    simpa [extraPlaces, withLocal] using h
  rintro ⟨mid, d, outer, -, -, ⟨-, hfiles | hfiles⟩ | ⟨-, hfiles⟩⟩
  · exact hfiles hfound.1
  · exact hfiles hfound.2
  · exact hfiles hfound.2

theorem not_spoiled_of_found (h : ∀ p ∈ extraPlaces (some x), found t fs p.dir = []) :
    ¬ Spoiled t noDefaultOptions fs (some x) ds := by
  have hfound : found t fs (localDir x) = [] := h ⟨localDir x, none⟩ List.mem_cons_self
  rintro ⟨y, hy, inner, c, outer, -, -, -, hspoiled⟩
  obtain rfl := Option.some.inj hy
  rcases hspoiled with ⟨hfiles, -⟩ | ⟨-, -, ⟨-, hfiles⟩ | ⟨-, hagain⟩⟩
  · exact hfiles hfound
  · exact hfiles hfound
  · exact not_repeatedIn_of_found h hagain

/-- **`load_default_options` does the documented search if and only if nothing goes wrong with the
extra directory.** -/
theorem loadDefaultOptions_iff (t : Tree O) (noDefaultOptions : O → Bool) (fs : List Bytes)
    (sys home extra start : Option Dir) :
    loadDefaultOptions t noDefaultOptions fs sys home extra start =
        documented t noDefaultOptions fs extra sys home start ↔
      ¬ Spoiled t noDefaultOptions fs extra ((start.map (traversed home)).getD []) := by
  rw [loadDefaultOptions_eq, documented_eq, List.reverse_inj]
  generalize (start.map (traversed home)).getD [] = ds
  cases extra with
  | none =>
    have hno : ∀ p ∈ extraPlaces none, found t fs p.dir = [] := List.forall_mem_nil _
    rw [documentedEntries_of_found hno (restPlaces_of_found hno), Option.any_none]
    refine ⟨fun _ => ?_, fun _ => entries_eq_of_none⟩
    rintro ⟨x, hx, -⟩
    cases hx
  | some x =>
    rw [Option.any_some]
    cases hexists : t.dirExists x with
    | true => exact entries_eq_iff_spoiled
    | false =>
      have hno : ∀ p ∈ extraPlaces (some x), found t fs p.dir = [] :=
        found_withLocal_of_not_exists hexists
      rw [documentedEntries_of_found hno (restPlaces_of_found hno),
        entries_eq_iff_repeatedIn (goesOn_of_found hno)]
      exact iff_of_true (not_repeatedIn_of_found hno) (not_spoiled_of_found hno)

/-- The directories `p/q/x/local` and those it is in, with an options file in the innermost one and
a `.git` in `p`. -/
def sampleTree : Tree Unit where
  dirExists d := d.isSuffixOf (localDir [[120], [113], [112]])
  file d f := if d = localDir [[120], [113], [112]] ∧ f = [102] then some () else none
  git d := d = [[112]]
  outer c d h := by
    rw [List.isSuffixOf_iff_suffix] at h ⊢
    exact (List.suffix_cons c d).trans h
  inside d f h := by
    split_ifs at h with hd
    · rw [hd.1]
      exact List.isSuffixOf_iff_suffix.mpr List.suffix_rfl
    · cases h

/-- The extra directory `p/q/x` is in the start directory `p/q`: the file in its `local/` is
marked. -/
theorem loadDefaultOptions_iff_local :
    (loadDefaultOptions sampleTree (fun _ => false) [[102]] none none (some [[120], [113], [112]])
        (some [[113], [112]])).map Entry.remote = [true] ∧
      Spoiled sampleTree (fun _ => false) [[102]] (some [[120], [113], [112]])
        [[[113], [112]], [[112]]] := by
  refine ⟨by decide, ?_⟩
  by_contra h
  have heq := (loadDefaultOptions_iff sampleTree (fun _ => false) [[102]] none none
    (some [[120], [113], [112]]) (some [[113], [112]])).mpr h
  exact absurd heq (by decide)

end Build2.Libbutl.DefaultOptions
