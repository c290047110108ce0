import Build2.Libbutl.DefaultOptions.Documented

/-! # What the search reads

The files that `load_default_options_files` reads are those of its places up to the one where the
search stops (`loadDefaultOptionsFiles_eq`). -/

namespace Build2.Libbutl.DefaultOptions

open Build2.Lib.ByteString

variable {O : Type} {t : Tree O} {noDefaultOptions : O → Bool} {fs : List Bytes}
  {extra : Option Dir} {d x : Dir} {ps qs : List Place} {p : Place} {f g : Place → Bool}

/-! ### Reading places -/

variable (t noDefaultOptions fs) in
/-- The search goes on after these places. -/
def goesOn (ps : List Place) : Bool := ps.all fun p => !stops t noDefaultOptions fs p.dir

@[simp]
theorem goesOn_cons : goesOn t noDefaultOptions fs (p :: ps) =
    (!stops t noDefaultOptions fs p.dir && goesOn t noDefaultOptions fs ps) := List.all_cons

theorem searched_append : searched t noDefaultOptions fs (ps ++ qs) =
    searched t noDefaultOptions fs ps ++
      if goesOn t noDefaultOptions fs ps then searched t noDefaultOptions fs qs else [] := by
  induction ps with
  | nil => rfl
  | cons p ps ih =>
    rw [List.cons_append, searched, searched, goesOn, List.all_cons, ← goesOn, ih]
    cases stops t noDefaultOptions fs p.dir with
    | true => rfl
    | false => rfl

theorem read_append : read t noDefaultOptions fs f (ps ++ qs) = read t noDefaultOptions fs f ps ++
    if goesOn t noDefaultOptions fs ps then read t noDefaultOptions fs f qs else [] := by
  rw [read, searched_append, List.flatMap_append]
  split_ifs <;> rfl

theorem goesOn_append : goesOn t noDefaultOptions fs (ps ++ qs) =
    (goesOn t noDefaultOptions fs ps && goesOn t noDefaultOptions fs qs) := List.all_append

theorem mem_of_searched (h : p ∈ searched t noDefaultOptions fs ps) : p ∈ ps := by
  induction ps with
  | nil => exact h
  | cons q ps ih =>
    rw [searched, List.mem_cons] at h
    rcases h with rfl | h
    · exact List.mem_cons_self
    · split_ifs at h with hs
      · cases h
      · exact List.mem_cons_of_mem q (ih h)

theorem length_entriesAt : (entriesAt t fs f p).length = (found t fs p.dir).length :=
  List.length_map _

theorem length_read_congr :
    (read t noDefaultOptions fs f ps).length = (read t noDefaultOptions fs g ps).length := by
  unfold read
  rw [List.length_flatMap, List.length_flatMap]
  exact congrArg List.sum (List.map_congr_left fun p _ =>
    length_entriesAt.trans length_entriesAt.symm)

theorem entriesAt_eq_iff :
    entriesAt t fs f p = entriesAt t fs g p ↔ (found t fs p.dir ≠ [] → f p = g p) := by
  constructor
  · intro h hne
    obtain ⟨y, ys, hy⟩ := List.exists_cons_of_ne_nil hne
    rw [entriesAt, entriesAt, hy, List.map_cons, List.map_cons, List.cons.injEq] at h
    exact congrArg Entry.remote h.1
  · intro h
    by_cases hne : found t fs p.dir = []
    · rw [entriesAt, entriesAt, hne]
      rfl
    · rw [entriesAt, entriesAt, h hne]

/-- What is read with other marks is the same if and only if the marks are, where there are
files. -/
theorem read_eq_iff : read t noDefaultOptions fs f ps = read t noDefaultOptions fs g ps ↔
    ∀ p ∈ searched t noDefaultOptions fs ps, found t fs p.dir ≠ [] → f p = g p := by
  unfold read
  induction searched t noDefaultOptions fs ps with
  | nil => simp
  | cons p l ih =>
    rw [List.flatMap_cons, List.flatMap_cons, List.forall_mem_cons, ← ih, ← entriesAt_eq_iff]
    constructor
    · exact fun h => List.append_inj h (length_entriesAt.trans length_entriesAt.symm)
    · exact fun h => by rw [h.1, h.2]

theorem read_congr (h : ∀ p ∈ ps, f p = g p) :
    read t noDefaultOptions fs f ps = read t noDefaultOptions fs g ps :=
  read_eq_iff.mpr fun p hp _ => h p (mem_of_searched hp)

variable (t noDefaultOptions fs) in
/-- What is read in the places, and then this if the search goes on. -/
def readThen (f : Place → Bool) (ps : List Place) (l : List (Entry O)) : List (Entry O) :=
  read t noDefaultOptions fs f ps ++ if goesOn t noDefaultOptions fs ps then l else []

section

variable {l l' : List (Entry O)}

theorem readThen_cons : readThen t noDefaultOptions fs f (p :: ps) l = entriesAt t fs f p ++
    if stops t noDefaultOptions fs p.dir then [] else readThen t noDefaultOptions fs f ps l := by
  unfold readThen
  rw [read, searched, goesOn_cons]
  cases stops t noDefaultOptions fs p.dir with
  | true => simp
  | false => simp [read]

theorem readThen_append : readThen t noDefaultOptions fs f (ps ++ qs) l =
    readThen t noDefaultOptions fs f ps (readThen t noDefaultOptions fs f qs l) := by
  unfold readThen
  rw [read_append, goesOn_append]
  cases goesOn t noDefaultOptions fs ps with
  | true => simp
  | false => simp

theorem readThen_eq_iff : readThen t noDefaultOptions fs f ps l =
    readThen t noDefaultOptions fs g ps l' ↔
      (∀ p ∈ searched t noDefaultOptions fs ps, found t fs p.dir ≠ [] → f p = g p) ∧
        (goesOn t noDefaultOptions fs ps = true → l = l') := by
  rw [← read_eq_iff]
  unfold readThen
  constructor
  · intro h
    obtain ⟨hread, hrest⟩ := List.append_inj h length_read_congr
    refine ⟨hread, fun hgo => ?_⟩
    rwa [if_pos hgo, if_pos hgo] at hrest
  · rintro ⟨hread, hrest⟩
    rw [hread]
    split_ifs with hgo
    · rw [hrest hgo]
    · rfl

theorem length_readThen_filter_le {q : Place → Bool}
    (hstop : ∀ p ∈ ps, q p = false → stops t noDefaultOptions fs p.dir = false)
    (hl : l'.length ≤ l.length) :
    (readThen t noDefaultOptions fs g (ps.filter q) l').length ≤
      (readThen t noDefaultOptions fs f ps l).length := by
  induction ps with
  | nil => exact hl
  | cons p ps ih =>
    have ih := ih fun r hr => hstop r (List.mem_cons_of_mem p hr)
    rw [readThen_cons, List.length_append]
    cases hq : q p with
    | false =>
      rw [List.filter_cons_of_neg (by simp [hq]), hstop p List.mem_cons_self hq,
        if_neg Bool.false_ne_true]
      omega
    | true =>
      rw [List.filter_cons_of_pos hq, readThen_cons, List.length_append, length_entriesAt,
        length_entriesAt]
      split_ifs
      · exact Nat.le_refl _
      · omega

/-- If places that do not stop the search are left out, then the same is read if and only if there
are no files in them. -/
theorem readThen_filter_iff {q : Place → Bool}
    (hstop : ∀ p ∈ ps, q p = false → stops t noDefaultOptions fs p.dir = false)
    (hfg : ∀ p ∈ ps, q p = true → f p = g p) (hl : l'.length ≤ l.length) :
    readThen t noDefaultOptions fs f ps l = readThen t noDefaultOptions fs g (ps.filter q) l' ↔
      (∀ p ∈ searched t noDefaultOptions fs ps, q p = false → found t fs p.dir = []) ∧
        (goesOn t noDefaultOptions fs ps = true → l = l') := by
  induction ps with
  | nil => simp [readThen, read, searched, goesOn]
  | cons p ps ih =>
    have hstop' := fun r hr => hstop r (List.mem_cons_of_mem p hr)
    have ih := ih hstop' fun r hr => hfg r (List.mem_cons_of_mem p hr)
    rw [readThen_cons, searched, List.forall_mem_cons, goesOn_cons]
    cases hq : q p with
    | false =>
      have hlength := length_readThen_filter_le (f := f) (g := g) hstop' hl
      rw [List.filter_cons_of_neg (by simp [hq]), hstop p List.mem_cons_self hq,
        if_neg Bool.false_ne_true, if_neg Bool.false_ne_true, Bool.not_false, Bool.true_and,
        and_assoc, ← ih]
      constructor
      · intro h
        have hnil : found t fs p.dir = [] := by
          rw [← List.length_eq_zero_iff, ← length_entriesAt (f := f)]
          have h := congrArg List.length h
          rw [List.length_append] at h
          omega
        refine ⟨fun _ => hnil, ?_⟩
        rwa [entriesAt, hnil] at h
      · rintro ⟨hnil, h⟩
        rw [entriesAt, hnil rfl]
        exact h
    | true =>
      rw [List.filter_cons_of_pos hq, readThen_cons,
        entriesAt_eq_iff.mpr fun _ => hfg p List.mem_cons_self hq, List.append_cancel_left_eq]
      cases stops t noDefaultOptions fs p.dir with
      | true => simp
      | false => simpa using ih

end

theorem markRemote_eq (e : Entry O) : markRemote extra e =
    { e with remote := e.remote || decide (extra ≠ some e.dir) } := by
  obtain ⟨dir, name, options, remote⟩ := e
  unfold markRemote
  cases remote with
  | true => rfl
  | false =>
    by_cases h : extra ≠ some dir
    · simp [h]
    · simp [not_not.mp h]

theorem markRemote_markRemote (e : Entry O) :
    markRemote extra (markRemote extra e) = markRemote extra e := by
  rw [markRemote_eq, markRemote_eq, Bool.or_assoc, Bool.or_self]

theorem map_markRemote_twice (l : List (Entry O)) :
    (l.map (markRemote extra)).map (markRemote extra) = l.map (markRemote extra) := by
  rw [List.map_map]
  exact List.map_congr_left fun e _ => markRemote_markRemote e

theorem map_markRemote_read : (read t noDefaultOptions fs f ps).map (markRemote extra) =
    read t noDefaultOptions fs (fun p => f p || decide (extra ≠ some p.dir)) ps := by
  unfold read entriesAt
  rw [List.map_flatMap]
  refine List.flatMap_congr fun p _ => ?_
  rw [List.map_map]
  exact List.map_congr_left fun y _ => markRemote_eq _

/-! ### Loading files -/

theorem loadFrom_eq (remote : Bool) (s : List (Entry O) × Bool) :
    loadFrom t noDefaultOptions fs d remote s =
      (s.1 ++ (found t fs d).map (fun x => ⟨d, x.1, x.2, remote⟩),
        s.2 && !stops t noDefaultOptions fs d) := by
  unfold loadFrom stops found
  generalize fs.reverse = l
  induction l generalizing s with
  | nil => simp
  | cons f l ih =>
    rw [List.foldl_cons, ih]
    cases h : t.file d f with
    | none => simp [h]
    | some o => cases ho : noDefaultOptions o <;> simp [h, ho]

theorem found_of_not_exists (h : t.dirExists d = false) : found t fs d = [] := by
  refine List.filterMap_eq_nil_iff.mpr fun f _ => ?_
  cases hf : t.file d f with
  | none => rfl
  | some o =>
    have hd := t.inside d f (by rw [hf]; rfl)
    rw [h] at hd
    cases hd

theorem found_localDir_of_not_exists (h : t.dirExists d = false) :
    found t fs (localDir d) = [] := by
  refine found_of_not_exists (Bool.eq_false_iff.mpr fun hl => ?_)
  rw [t.outer _ _ hl] at h
  cases h

theorem stops_of_found (h : found t fs d = []) : stops t noDefaultOptions fs d = false := by
  rw [stops, h]
  rfl

theorem read_singleton {owner : Option Dir} : read t noDefaultOptions fs f [⟨d, owner⟩] =
    entriesAt t fs f ⟨d, owner⟩ := by
  rw [read, searched]
  split_ifs <;> exact List.append_nil _

theorem read_of_found (h : ∀ p ∈ ps, found t fs p.dir = []) :
    read t noDefaultOptions fs f ps = [] := by
  refine List.flatMap_eq_nil_iff.mpr fun p hp => ?_
  rw [entriesAt, h p (mem_of_searched hp)]
  rfl

theorem goesOn_of_found (h : ∀ p ∈ ps, found t fs p.dir = []) :
    goesOn t noDefaultOptions fs ps = true :=
  List.all_eq_true.mpr fun p hp => by rw [stops_of_found (h p hp)]; rfl

/-- The places of a call of `load_default_options_files`. -/
def placesOf (d : Dir) (owner : Option Dir) (loadSub loadDir : Bool) : List Place :=
  (if loadSub then [⟨localDir d, owner⟩] else []) ++ if loadDir then [⟨d, owner⟩] else []

/-- **`load_default_options_files` reads its places.** -/
theorem loadDefaultOptionsFiles_eq {owner : Option Dir} {remote loadSub loadDir : Bool}
    (hf : f ⟨d, owner⟩ = remote) (hl : f ⟨localDir d, owner⟩ = remote) (ops : List (Entry O)) :
    loadDefaultOptionsFiles t noDefaultOptions fs d remote ops loadSub loadDir =
      (ops ++ read t noDefaultOptions fs f (placesOf d owner loadSub loadDir),
        goesOn t noDefaultOptions fs (placesOf d owner loadSub loadDir)) := by
  have hsub : (if loadSub && t.dirExists (localDir d) then
        loadFrom t noDefaultOptions fs (localDir d) remote (ops, true) else (ops, true)) =
      (ops ++ read t noDefaultOptions fs f (if loadSub then [⟨localDir d, owner⟩] else []),
        goesOn t noDefaultOptions fs (if loadSub then [⟨localDir d, owner⟩] else [])) := by
    cases loadSub with
    | false => simp [read, searched, goesOn]
    | true =>
      cases he : t.dirExists (localDir d) with
      | false =>
        have hfound : found t fs (localDir d) = [] := found_of_not_exists he
        simp [read_singleton, entriesAt, goesOn, hfound, stops_of_found]
      | true =>
        simp only [Bool.and_self, if_true, loadFrom_eq, read_singleton, entriesAt, hl]
        simp [goesOn]
  unfold loadDefaultOptionsFiles placesOf
  dsimp only
  rw [hsub, read_append, goesOn_append]
  cases hg : goesOn t noDefaultOptions fs (if loadSub then [⟨localDir d, owner⟩] else []) with
  | false => simp
  | true =>
    cases loadDir with
    | false => simp [read, searched, goesOn]
    | true =>
      simp only [Bool.and_self, if_true, loadFrom_eq, read_singleton, entriesAt, hf, Bool.true_and]
      simp [goesOn]

end Build2.Libbutl.DefaultOptions
