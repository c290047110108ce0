import Build2.Libbutl.DefaultOptions.Search

/-! # The loop

The loop over the traversed directories reads their places one after the other and marks what it has
read so far when it comes to a `.git`. Its entries are those of a recursion over the traversed
directories in which the marks are known when a file is read (`traverse_eq`). -/

namespace Build2.Libbutl.DefaultOptions

open Build2.Lib.ByteString

variable {O : Type} {t : Tree O} {noDefaultOptions : O → Bool} {fs : List Bytes}
  {extra : Option Dir} {d : Dir} {p : Place}

/-! ### Marking -/

variable (extra) in
/-- The entries, marked if `m` is set. -/
def marked (m : Bool) (l : List (Entry O)) : List (Entry O) :=
  if m then l.map (markRemote extra) else l

theorem marked_append {m : Bool} {l l' : List (Entry O)} :
    marked extra m (l ++ l') = marked extra m l ++ marked extra m l' := by
  cases m with
  | true => exact List.map_append
  | false => rfl

theorem marked_marked {m m' : Bool} {l : List (Entry O)} :
    marked extra m (marked extra m' l) = marked extra (m' || m) l := by
  cases m with
  | true =>
    cases m' with
    | true => exact map_markRemote_twice l
    | false => rfl
  | false => rw [Bool.or_false]; rfl

/-- A place of a traversed directory is marked as `b` says. -/
def ownRemote (b : Bool) (p : Place) : Bool := p.owner.isSome && b

/-- A place that is read at a directory with a `.git` if `b` is set, is marked later if `m` is. -/
def loopRemote (extra : Option Dir) (b m : Bool) (p : Place) : Bool :=
  ownRemote b p || (m && decide (extra ≠ some p.dir))

theorem marked_read {b m : Bool} {ps : List Place} :
    marked extra m (read t noDefaultOptions fs (ownRemote b) ps) =
      read t noDefaultOptions fs (loopRemote extra b m) ps := by
  cases m with
  | true =>
    rw [marked, if_pos rfl, map_markRemote_read]
    exact read_congr fun p _ => by rw [loopRemote, Bool.true_and]
  | false => exact read_congr fun p _ => by rw [loopRemote, Bool.false_and, Bool.or_false]

/-! ### A round -/

theorem loadAll_eq (b : Bool) (s : State O) : s.loadAll t noDefaultOptions fs d =
    ⟨s.entries ++ read t noDefaultOptions fs (ownRemote b) (withLocal d none),
      goesOn t noDefaultOptions fs (withLocal d none), s.loadExtra⟩ := by
  have h : loadDefaultOptionsFiles t noDefaultOptions fs d false s.entries true true =
      (s.entries ++ read t noDefaultOptions fs (ownRemote b) (withLocal d none),
        goesOn t noDefaultOptions fs (withLocal d none)) :=
    @loadDefaultOptionsFiles_eq _ _ _ _ _ (ownRemote b) none _ _ _ rfl rfl s.entries
  unfold State.loadAll
  rw [h]

/-- The `.build2/` of a traversed directory is read if it exists. -/
theorem loadBuild2_eq {s : State O} (hs : s.load = true) (b loadSub loadDir : Bool) :
    (if s.load && t.dirExists (build2 d) then
      let (r, load) := loadDefaultOptionsFiles t noDefaultOptions fs (build2 d) b s.entries
        loadSub loadDir
      { s with entries := r, load := load }
    else s) =
    ⟨s.entries ++ read t noDefaultOptions fs (ownRemote b)
        (placesOf (build2 d) (some d) loadSub loadDir),
      goesOn t noDefaultOptions fs (placesOf (build2 d) (some d) loadSub loadDir),
      s.loadExtra⟩ := by
  rw [hs, Bool.true_and]
  cases he : t.dirExists (build2 d) with
  | true =>
    have hread : loadDefaultOptionsFiles t noDefaultOptions fs (build2 d) b s.entries loadSub
        loadDir =
        (s.entries ++ read t noDefaultOptions fs (ownRemote b)
          (placesOf (build2 d) (some d) loadSub loadDir),
          goesOn t noDefaultOptions fs (placesOf (build2 d) (some d) loadSub loadDir)) :=
      loadDefaultOptionsFiles_eq (Bool.true_and b) (Bool.true_and b) s.entries
    rw [if_pos rfl, hread]
  | false =>
    have hfound : ∀ p ∈ placesOf (build2 d) (some d) loadSub loadDir, found t fs p.dir = [] := by
      intro p hp
      unfold placesOf at hp
      rcases List.mem_append.mp hp with hp | hp
      · split_ifs at hp
        · rw [List.mem_singleton.mp hp]
          exact found_localDir_of_not_exists he
        · cases hp
      · split_ifs at hp
        · rw [List.mem_singleton.mp hp]
          exact found_of_not_exists he
        · cases hp
    rw [if_neg Bool.false_ne_true, read_of_found hfound, goesOn_of_found hfound, List.append_nil,
      ← hs]

variable (extra) in
/-- The places that are read at a traversed directory. -/
def visitPlaces (d : Dir) (pending : Bool) : List Place :=
  if pending && hasExtra extra d then
    extraPlaces extra ++ (withLocal (build2 d) (some d)).filter fun p => extra ≠ some p.dir
  else withLocal (build2 d) (some d)

/-- **A round of the loop**, as long as the search goes on. -/
theorem visit_eq {s : State O} (hs : s.load = true) : visit t noDefaultOptions fs extra d s =
    ⟨marked extra (t.git d) s.entries ++
        read t noDefaultOptions fs (ownRemote (t.git d)) (visitPlaces extra d s.loadExtra),
      goesOn t noDefaultOptions fs (visitPlaces extra d s.loadExtra),
      s.loadExtra && !hasExtra extra d⟩ := by
  obtain ⟨entries, load, pending⟩ := s
  obtain rfl : load = true := hs
  have hstate : (if t.git d then (⟨entries.map (markRemote extra), true, pending⟩ : State O)
      else ⟨entries, true, pending⟩) =
      ⟨marked extra (t.git d) entries, true, pending⟩ := by
    unfold marked
    split_ifs <;> rfl
  unfold visit
  dsimp only
  rw [hstate]
  generalize marked extra (t.git d) entries = l
  rw [if_pos rfl]
  dsimp only
  have hplain : (extra.filter fun x => pending && x.sub d) = none →
      (pending && hasExtra extra d) = false := by
    cases extra with
    | none => exact fun _ => Bool.and_false pending
    | some x => simp [hasExtra, Option.filter]
  cases hfilter : extra.filter fun x => pending && x.sub d with
  | none =>
    have hno := hplain hfilter
    have hpending : (pending && !hasExtra extra d) = pending := by
      cases pending <;> simp_all
    have hload := @loadBuild2_eq O t noDefaultOptions fs d ⟨l, true, pending⟩ rfl (t.git d)
      true true
    dsimp only at hload ⊢
    rw [Bool.true_and] at hload
    rw [hload, visitPlaces, hno, hpending]
    rfl
  | some x =>
    obtain ⟨rfl, hx⟩ := Option.filter_eq_some_iff.mp hfilter
    have hhas : (pending && hasExtra (some x) d) = true := hx
    obtain ⟨rfl, hsub⟩ : pending = true ∧ hasExtra (some x) d = true := by simpa using hhas
    dsimp only
    rw [visitPlaces, if_pos hhas, hsub, read_append, goesOn_append, State.loadExtraDir,
      loadAll_eq (t.git d)]
    dsimp only
    cases hgo : goesOn t noDefaultOptions fs (withLocal x none) with
    | false =>
      have hgo' : goesOn t noDefaultOptions fs (extraPlaces (some x)) = false := hgo
      rw [hgo']
      simp [extraPlaces]
    | true =>
      have hgo' : goesOn t noDefaultOptions fs (extraPlaces (some x)) = true := hgo
      have hload := @loadBuild2_eq O t noDefaultOptions fs d
        ⟨l ++ read t noDefaultOptions fs (ownRemote (t.git d)) (withLocal x none), true, false⟩ rfl
        (t.git d) (x ≠ localDir (build2 d)) (x ≠ build2 d)
      have hplaces : placesOf (build2 d) (some d) (x ≠ localDir (build2 d)) (x ≠ build2 d) =
          (withLocal (build2 d) (some d)).filter fun p => some x ≠ some p.dir := by
        unfold placesOf withLocal
        by_cases h1 : x = localDir (build2 d) <;> by_cases h2 : x = build2 d <;>
          simp [h1, h2, List.filter_cons]
      rw [hplaces] at hload
      dsimp only at hload ⊢
      rw [hload, hgo']
      simp [extraPlaces]

/-! ### All rounds -/

section

variable (t noDefaultOptions fs extra)

/-- The entries of the loop over these directories, and then those of the rest of the search. -/
def loopEntries (rest : Bool → List (Entry O)) : List Dir → Bool → List (Entry O)
  | [], pending => rest pending
  | d :: ds, pending =>
    let ps := visitPlaces extra d pending
    let go := goesOn t noDefaultOptions fs ps
    -- After the search stopped, the loop goes on to the next `.git` only.
    readThen t noDefaultOptions fs
      (loopRemote extra (t.git d) (ds.any t.git && (go || !t.git d))) ps
      (loopEntries rest ds (pending && !hasExtra extra d))

end

theorem visit_stopped {s : State O} (hs : s.load = false) :
    visit t noDefaultOptions fs extra d s =
      ⟨marked extra (t.git d) s.entries, false, s.loadExtra⟩ := by
  obtain ⟨entries, load, pending⟩ := s
  obtain rfl : load = false := hs
  unfold visit marked
  cases t.git d with
  | true => rfl
  | false => rfl

/-- After the search stopped, the entries are only marked. -/
theorem traverse_stopped {home : Option Dir} {s : State O} (hs : s.load = false) :
    (traverse t noDefaultOptions fs extra home d s).entries =
        marked extra ((traversed home d).any t.git) s.entries ∧
      (traverse t noDefaultOptions fs extra home d s).load = false := by
  induction d generalizing s with
  | nil => exact ⟨rfl, hs⟩
  | cons c d ih =>
    rw [traverse, traversed]
    by_cases hhome : home = some (c :: d)
    · rw [if_pos hhome, if_pos hhome]
      exact ⟨rfl, hs⟩
    · rw [if_neg hhome, if_neg hhome, visit_stopped hs, List.any_cons]
      dsimp only
      cases hgit : t.git (c :: d) with
      | true => exact ⟨rfl, rfl⟩
      | false => exact ih (s := ⟨marked extra false s.entries, false, s.loadExtra⟩) rfl

/-- **The loop and the rest of the search**, which reads `rest` if the loop did not stop. -/
theorem traverse_eq {home : Option Dir} {s : State O} (hs : s.load = true)
    (rest : Bool → List (Entry O)) {finish : State O → List (Entry O)}
    (hfinish : ∀ s, finish s = s.entries ++ if s.load then rest s.loadExtra else []) :
    finish (traverse t noDefaultOptions fs extra home d s) =
      marked extra ((traversed home d).any t.git) s.entries ++
        loopEntries t noDefaultOptions fs extra rest (traversed home d) s.loadExtra := by
  induction d generalizing s with
  | nil =>
    rw [hfinish, traverse, hs]
    rfl
  | cons c d ih =>
    rw [traverse, traversed]
    by_cases hhome : home = some (c :: d)
    · rw [if_pos hhome, if_pos hhome, hfinish, hs]
      rfl
    · rw [if_neg hhome, if_neg hhome, visit_eq hs, loopEntries, List.any_cons]
      unfold readThen
      rw [← marked_read]
      dsimp only
      cases hgo : goesOn t noDefaultOptions fs (visitPlaces extra (c :: d) s.loadExtra) with
      | true =>
        rw [Bool.not_true, Bool.false_and, if_neg Bool.false_ne_true, if_pos rfl, ih rfl,
          marked_append, marked_marked, List.append_assoc, Bool.true_or, Bool.and_true]
      | false =>
        rw [if_neg Bool.false_ne_true, List.append_nil]
        cases hgit : t.git (c :: d) with
        | true =>
          rw [Bool.not_false, Bool.and_true, if_pos rfl, hfinish, if_neg Bool.false_ne_true,
            List.append_nil, Bool.not_true, Bool.or_false, Bool.and_false, Bool.true_or]
          rfl
        | false =>
          rw [Bool.and_false, if_neg Bool.false_ne_true, hfinish, (traverse_stopped rfl).1,
            (traverse_stopped rfl).2, if_neg Bool.false_ne_true, List.append_nil, marked_append,
            marked_marked, Bool.not_false, Bool.or_true, Bool.and_true]

/-! ### The rest of the search -/

variable (extra) in
/-- The places after those of the traversed directories. -/
def restPlaces (sys home : Option Dir) (pending : Bool) : List Place :=
  (if pending then extraPlaces extra else []) ++
    ((home.map fun d => withLocal (build2 d) none).getD [] ++
      (sys.map fun d => withLocal d none).getD [])

variable (t noDefaultOptions fs) in
/-- The places are read if the search did not stop before. -/
structure Reads (ps : List Place) (s s' : State O) : Prop where
  entries : s'.entries = s.entries ++
    if s.load then read t noDefaultOptions fs (ownRemote false) ps else []
  load : s'.load = (s.load && goesOn t noDefaultOptions fs ps)

theorem Reads.refl (s : State O) : Reads t noDefaultOptions fs [] s s :=
  ⟨by simp [read, searched], by simp [goesOn]⟩

theorem Reads.trans {ps qs : List Place} {s s' s'' : State O}
    (h : Reads t noDefaultOptions fs ps s s') (h' : Reads t noDefaultOptions fs qs s' s'') :
    Reads t noDefaultOptions fs (ps ++ qs) s s'' := by
  refine ⟨?_, by rw [h'.load, h.load, goesOn_append, Bool.and_assoc]⟩
  rw [h'.entries, h.entries, h.load, read_append]
  cases s.load with
  | true => simp
  | false => simp

theorem Reads.of_found {ps : List Place} (h : ∀ p ∈ ps, found t fs p.dir = []) (s : State O) :
    Reads t noDefaultOptions fs ps s s :=
  ⟨by simp [read_of_found h], by simp [goesOn_of_found h]⟩

theorem mem_withLocal {owner : Option Dir} :
    p ∈ withLocal d owner ↔ p = ⟨localDir d, owner⟩ ∨ p = ⟨d, owner⟩ := by
  simp [withLocal]

theorem found_withLocal_of_not_exists {owner : Option Dir} (h : t.dirExists d = false) :
    ∀ p ∈ withLocal d owner, found t fs p.dir = [] := by
  intro p hp
  rcases mem_withLocal.mp hp with rfl | rfl
  · exact found_localDir_of_not_exists h
  · exact found_of_not_exists h

theorem reads_withLocal (s : State O) : Reads t noDefaultOptions fs (withLocal d none) s
    (if s.load && t.dirExists d then s.loadAll t noDefaultOptions fs d else s) := by
  cases hd : t.dirExists d with
  | false =>
    rw [Bool.and_false, if_neg Bool.false_ne_true]
    exact Reads.of_found (found_withLocal_of_not_exists hd) s
  | true =>
    rw [Bool.and_true, loadAll_eq false]
    cases hload : s.load with
    | true => exact ⟨by simp [hload], by simp [hload]⟩
    | false => exact ⟨by simp [hload], by simp [hload]⟩

theorem reads_loadRest (sys home : Option Dir) (s : State O) :
    Reads t noDefaultOptions fs (restPlaces extra sys home s.loadExtra) s
      (s.loadRest t noDefaultOptions fs extra sys home) := by
  have hextra : Reads t noDefaultOptions fs (if s.loadExtra then extraPlaces extra else []) s
      (s.loadOptional (fun x s =>
        if s.load && s.loadExtra then s.loadExtraDir t noDefaultOptions fs x else s) extra) := by
    cases extra with
    | none =>
      rw [extraPlaces, ite_self]
      exact Reads.refl s
    | some x =>
      rw [State.loadOptional, State.loadExtraDir, loadAll_eq false]
      cases hpending : s.loadExtra with
      | false =>
        rw [Bool.and_false]
        exact Reads.refl s
      | true =>
        cases hload : s.load with
        | true => exact ⟨by simp [hload, extraPlaces], by simp [hload, extraPlaces]⟩
        | false => exact ⟨by simp [hload], by simp [hload]⟩
  have hhome : ∀ s : State O, Reads t noDefaultOptions fs
      ((home.map fun d => withLocal (build2 d) none).getD []) s
      (s.loadOptional (fun d s => if s.load && t.dirExists (build2 d) then
        s.loadAll t noDefaultOptions fs (build2 d) else s) home) := by
    intro s
    cases home with
    | none => exact Reads.refl s
    | some d => exact reads_withLocal s
  have hsys : ∀ s : State O, Reads t noDefaultOptions fs
      ((sys.map fun d => withLocal d none).getD []) s
      (s.loadOptional (fun d s =>
        if s.load && t.dirExists d then s.loadAll t noDefaultOptions fs d else s) sys) := by
    intro s
    cases sys with
    | none => exact Reads.refl s
    | some d => exact reads_withLocal s
  exact hextra.trans ((hhome _).trans (hsys _))

/-- **The result of `load_default_options`**, the entries from the innermost directory outward. -/
theorem loadDefaultOptions_eq (sys home start : Option Dir) :
    loadDefaultOptions t noDefaultOptions fs sys home extra start =
      (loopEntries t noDefaultOptions fs extra
        (fun pending => read t noDefaultOptions fs (ownRemote false)
          (restPlaces extra sys home pending))
        ((start.map (traversed home)).getD []) (extra.any t.dirExists)).reverse := by
  have hrest : ∀ s : State O, (s.loadRest t noDefaultOptions fs extra sys home).entries =
      s.entries ++ if s.load then read t noDefaultOptions fs (ownRemote false)
        (restPlaces extra sys home s.loadExtra) else [] :=
    fun s => (reads_loadRest sys home s).entries
  unfold loadDefaultOptions
  cases start with
  | none => exact congrArg List.reverse (hrest _)
  | some d =>
    have hloop := @traverse_eq O t noDefaultOptions fs extra d home
      ⟨[], true, extra.any t.dirExists⟩ rfl
      (fun pending => read t noDefaultOptions fs (ownRemote false)
        (restPlaces extra sys home pending)) _ hrest
    refine congrArg List.reverse (hloop.trans ?_)
    unfold marked
    split_ifs <;> rfl

end Build2.Libbutl.DefaultOptions
