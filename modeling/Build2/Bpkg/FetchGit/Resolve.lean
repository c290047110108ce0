import Build2.Bpkg.FetchGit.Fetch

/-! # What is found among the references

The loops of `search_names` and `find_commit` against what is meant by them:
a name finds the references that it matches (`searchNames_ok`), and a commit that is advertised is
found unless it is ambiguous (`findCommit_ne_none`). -/

namespace Build2.Bpkg.FetchGit

open Build2.Lib.ByteString Build2.Lib.Stateful

variable {refs : List Ref} {r : Ref} {c n : Bytes}

/-! ### Commits -/

theorem findCommitLoop_eq {x : Option (Ref × ℕ)} {rfs : SearchResult} {y : Option (Ref × ℕ)}
    (h : findCommitLoop c x rfs = .ok y) :
    y = x.or (rfs.find? fun rf => rf.1.commit.take c.length = c) := by
  induction rfs generalizing x with
  | nil =>
    cases h
    rw [List.find?_nil, Option.or_none]
  | cons rf rfs ih =>
    rw [findCommitLoop.eq_def] at h
    dsimp only at h
    split_ifs at h with hc
    · rw [List.find?_cons_of_pos (by simpa using hc)]
      cases x with
      | none => exact ih h
      | some z =>
        dsimp only at h
        split_ifs at h
        exact ih h
    · rw [List.find?_cons_of_neg (by simpa using hc)]
      exact ih h

theorem map_find_zipIdx (p : Ref → Bool) (refs : List Ref) :
    (refs.zipIdx.find? fun x => p x.1).map Prod.fst = refs.find? p := by
  have hmap := List.zipIdx_map_fst 0 refs
  have hfind := List.find?_map (p := p) (f := Prod.fst) (l := refs.zipIdx)
  rw [hmap] at hfind
  exact hfind.symm

theorem fst_mem_of_mem_zipIdx {x : Ref × ℕ} (h : x ∈ refs.zipIdx) : x.1 ∈ refs := by
  rw [← List.zipIdx_map_fst 0 refs]
  exact List.mem_map_of_mem h

theorem findCommit_eq {x : Option (Ref × ℕ)} (h : findCommit refs c = .ok x) :
    x.map Prod.fst = refs.find? fun rf => rf.commit.take c.length = c := by
  rw [findCommitLoop_eq h, Option.none_or]
  exact map_find_zipIdx (fun rf => rf.commit.take c.length = c) refs

/-- A commit that is advertised is found unless it is ambiguous. -/
theorem findCommit_ne_none (hr : r ∈ refs) : findCommit refs r.commit ≠ .ok none := by
  intro h
  have hnone := List.find?_eq_none.mp (findCommit_eq h).symm r hr
  simp at hnone

theorem findCommit_fails {e : Fault} (h : findCommit refs c = .error e) : e = .ambiguous c := by
  have hloop : ∀ (rfs : SearchResult) (x : Option (Ref × ℕ)),
      findCommitLoop c x rfs = .error e → e = .ambiguous c := by
    intro rfs
    induction rfs with
    | nil => nofun
    | cons rf rfs ih =>
      intro x h
      rw [findCommitLoop.eq_def] at h
      dsimp only at h
      split_ifs at h
      · cases x with
        | none => exact ih _ h
        | some z =>
          dsimp only at h
          split_ifs at h
          · cases h
            rfl
          · exact ih _ h
      · exact ih _ h
  exact hloop _ _ h

theorem peel_mem (hr : r ∈ refs) : peel refs r ∈ refs := by
  unfold peel
  split_ifs
  · cases hf : refs.find? fun i => i.peeled && i.name = r.name with
    | none => exact hr
    | some i => exact List.mem_of_find?_eq_some hf
  · exact hr

/-! ### Names -/

section

variable {pathMatch : Bytes → Bytes → Bool}

/-- What the search for a name adds. -/
def Found (pathMatch : Bytes → Bytes → Bool) (refs : List Ref) (pattern : Bool) (e : Bytes)
    (x : Ref × ℕ) : Prop :=
  if pattern then x ∈ refs.zipIdx ∧ x.1.peeled = false ∧ pathMatch x.1.name e = true
  else refs.zipIdx.find? (fun i => !i.1.peeled && i.1.name = e) = some x

theorem Found.mem {pattern : Bool} {e : Bytes} {x : Ref × ℕ}
    (h : Found pathMatch refs pattern e x) : x ∈ refs.zipIdx := by
  unfold Found at h
  split_ifs at h
  · exact h.1
  · exact List.mem_of_find?_eq_some h

theorem eq_of_position {x y : Ref × ℕ} (hx : x ∈ refs.zipIdx) (hy : y ∈ refs.zipIdx)
    (h : x.2 = y.2) : x = y := by
  rw [List.mem_zipIdx_iff_getElem?] at hx hy
  rw [h, hy] at hx
  exact Prod.ext (Option.some.inj hx).symm h

theorem mem_search {pattern : Bool} {rs : SearchResult} (hrs : ∀ x ∈ rs, x ∈ refs.zipIdx)
    (e : Bytes) (x : Ref × ℕ) :
    x ∈ search pathMatch refs pattern rs e ↔ x ∈ rs ∨ Found pathMatch refs pattern e x := by
  unfold search Found
  cases pattern with
  | false =>
    simp only [Bool.false_eq_true, if_false]
    cases refs.zipIdx.find? fun i => !i.1.peeled && i.1.name = e with
    | none => simp
    | some i => simp [eq_comm]
  | true =>
    simp only [if_true]
    have hfold : ∀ (l : SearchResult), (∀ x ∈ l, x ∈ refs.zipIdx) → ∀ rs : SearchResult,
        (∀ x ∈ rs, x ∈ refs.zipIdx) →
        (x ∈ l.foldl (fun r rf =>
            if !rf.1.peeled && pathMatch rf.1.name e && r.all (fun x => x.2 ≠ rf.2) then r ++ [rf]
            else r) rs ↔
          x ∈ rs ∨ x ∈ l ∧ x.1.peeled = false ∧ pathMatch x.1.name e = true) := by
      intro l
      induction l with
      | nil => simp
      | cons y l ih =>
        intro hl rs hrs
        obtain ⟨hy, hl⟩ := List.forall_mem_cons.mp hl
        rw [List.foldl_cons]
        by_cases hadd : (!y.1.peeled && pathMatch y.1.name e && rs.all fun x => x.2 ≠ y.2) = true
        · have hnew : ∀ x ∈ rs ++ [y], x ∈ refs.zipIdx := fun x hx =>
            (List.mem_append.mp hx).elim (hrs x) fun hx => List.mem_singleton.mp hx ▸ hy
          rw [if_pos hadd, ih hl _ hnew]
          simp only [Bool.and_eq_true, Bool.not_eq_true'] at hadd
          obtain ⟨⟨hpeeled, hmatch⟩, -⟩ := hadd
          simp only [List.mem_append, List.mem_cons]
          grind
        · rw [if_neg hadd, ih hl _ hrs]
          -- an entry that matches and is not added is there already
          have hthere : y.1.peeled = false → pathMatch y.1.name e = true → y ∈ rs := by
            intro hpeeled hmatch
            simp only [hpeeled, hmatch, Bool.not_false, Bool.true_and, List.all_eq_true,
              decide_eq_true_eq, not_forall, not_not] at hadd
            obtain ⟨z, hz, hzy⟩ := hadd
            exact eq_of_position (hrs z hz) hy (by simpa using hzy) ▸ hz
          simp only [List.mem_cons]
          grind
    exact hfold _ (fun _ h => h) rs hrs

theorem mem_foldl_search {pattern : Bool} (es : List Bytes) {rs : SearchResult}
    (hrs : ∀ x ∈ rs, x ∈ refs.zipIdx) (x : Ref × ℕ) :
    x ∈ es.foldl (search pathMatch refs pattern) rs ↔
      x ∈ rs ∨ ∃ e ∈ es, Found pathMatch refs pattern e x := by
  induction es generalizing rs with
  | nil => simp
  | cons e es ih =>
    have hnew : ∀ x ∈ search pathMatch refs pattern rs e, x ∈ refs.zipIdx := fun x hx =>
      ((mem_search hrs e x).mp hx).elim (hrs x) Found.mem
    rw [List.foldl_cons, ih hnew, mem_search hrs]
    simp only [List.mem_cons, exists_eq_or_imp, or_assoc]

theorem found_iff {pattern : Bool} (e : Bytes) : (∃ x, Found pathMatch refs pattern e x ∧ x.1 = r) ↔
    if pattern then r ∈ refs ∧ r.peeled = false ∧ pathMatch r.name e = true
    else refs.find? (fun i => !i.peeled && i.name = e) = some r := by
  unfold Found
  cases pattern with
  | true =>
    simp only [if_true]
    constructor
    · rintro ⟨x, ⟨hx, hmatch⟩, rfl⟩
      exact ⟨fst_mem_of_mem_zipIdx hx, hmatch⟩
    · rintro ⟨hr, hmatch⟩
      rw [← List.zipIdx_map_fst 0 refs] at hr
      obtain ⟨x, hx, rfl⟩ := List.mem_map.mp hr
      exact ⟨x, ⟨hx, hmatch⟩, rfl⟩
  | false =>
    simp only [Bool.false_eq_true, if_false]
    rw [← map_find_zipIdx, Option.map_eq_some_iff]

theorem exists_found {pattern : Bool} (es : List Bytes) :
    (∃ x ∈ es.foldl (search pathMatch refs pattern) [], x.1 = r) ↔
      ∃ e ∈ es, if pattern then r ∈ refs ∧ r.peeled = false ∧ pathMatch r.name e = true
        else refs.find? (fun i => !i.peeled && i.name = e) = some r := by
  have hnil : ∀ x ∈ ([] : SearchResult), x ∈ refs.zipIdx := by simp
  simp only [mem_foldl_search es hnil, List.not_mem_nil, false_or, ← found_iff]
  constructor
  · rintro ⟨x, ⟨e, he, hx⟩, hr⟩
    exact ⟨e, he, x, hx, hr⟩
  · rintro ⟨e, he, x, hx, hr⟩
    exact ⟨x, ⟨e, he, hx⟩, hr⟩

theorem foldl_search_mem {pattern : Bool} (es : List Bytes) :
    ∀ x ∈ es.foldl (search pathMatch refs pattern) [], x.1 ∈ refs := by
  intro x hx
  have hnil : ∀ x ∈ ([] : SearchResult), x ∈ refs.zipIdx := by simp
  obtain ⟨e, -, hx⟩ := ((mem_foldl_search es hnil x).mp hx).resolve_left List.not_mem_nil
  exact fst_mem_of_mem_zipIdx hx.mem

theorem searchNames_cases {abbrCommit pattern : Bool} {rs : SearchResult}
    (hp : pathPattern ((if hd n ≠ ch '/' then n else n.tail).takeWhile (· ≠ 0)) = pattern)
    (h : searchNames pathMatch refs n abbrCommit = .ok rs) :
    (rs = (refnames n).foldl (search pathMatch refs pattern) [] ∧ (pattern = false → rs ≠ [])) ∨
      (pattern = false ∧ 7 ≤ n.length ∧ (refnames n).foldl (search pathMatch refs false) [] = [] ∧
        ∃ x, findCommit refs n = .ok (some x) ∧ rs = [x]) := by
  unfold searchNames at h
  dsimp only at h
  rw [hp] at h
  by_cases hnil : (refnames n).foldl (search pathMatch refs pattern) [] = []
  · rw [hnil] at h ⊢
    by_cases habbr : abbrCommit = true ∧ pattern = false ∧ 7 ≤ n.length
    · obtain ⟨rfl, rfl, hlen⟩ := habbr
      rw [if_pos (by simpa using hlen)] at h
      cases hf : findCommit refs n with
      | error e =>
        rw [hf] at h
        cases h
      | ok x =>
        rw [hf] at h
        cases x with
        | none => cases h
        | some x =>
          obtain rfl : [x] = rs := Except.ok.inj h
          exact .inr ⟨rfl, hlen, hnil, x, rfl, rfl⟩
    · rw [if_neg (by
        rintro ⟨-, ha, hp, hlen⟩
        exact habbr ⟨ha, by simpa using hp, hlen⟩)] at h
      dsimp only [pure, Except.pure, bind, Except.bind] at h
      split_ifs at h with hfail
      cases h
      exact .inl ⟨rfl, fun hfalse => absurd ⟨rfl, by simp [hfalse]⟩ hfail⟩
  · rw [if_neg (fun hc => hnil hc.1)] at h
    dsimp only [pure, Except.pure, bind, Except.bind] at h
    rw [if_neg (fun hc => hnil hc.1)] at h
    obtain rfl := Except.ok.inj h
    exact .inl ⟨rfl, fun _ => hnil⟩

theorem searchNames_fails (n : Bytes) (abbrCommit : Bool) :
    Fails (· ≠ .assertion) (searchNames pathMatch refs n abbrCommit) := by
  refine fails_bind (fails_ite (fun _ => ?_) fun _ => fails_ok _) fun rs _ =>
    fails_ite (fun _ => fails_error nofun) fun _ => fails_ok rs
  refine fails_bind (fun e he => ?_) fun x _ => fails_ok _
  rw [findCommit_fails he]
  nofun

variable (n) in
theorem exists_find_iff : (∃ e ∈ refnames n, ∃ r,
      refs.find? (fun i => !i.peeled && i.name = e) = some r) ↔
    ¬ ∀ e ∈ refnames n, ∀ i ∈ refs, i.peeled = false → i.name ≠ e := by
  simp only [← Option.isSome_iff_exists, List.find?_isSome, Bool.and_eq_true, Bool.not_eq_true',
    decide_eq_true_eq, not_forall, not_not, exists_prop]

/-- **What a name finds** are the references that it matches. -/
theorem searchNames_ok {abbrCommit : Bool} {rs : SearchResult}
    (h : searchNames pathMatch refs n abbrCommit = .ok rs) :
    (∀ x ∈ rs, x.1 ∈ refs) ∧ ∀ r, (∃ x ∈ rs, x.1 = r) ↔ Matches pathMatch refs n r := by
  unfold Matches
  generalize hp : pathPattern ((if hd n ≠ ch '/' then n else n.tail).takeWhile (· ≠ 0)) = pattern
  rcases searchNames_cases hp h with ⟨rfl, hne⟩ | ⟨rfl, hlen, hnil, x, hx, rfl⟩
  · refine ⟨foldl_search_mem _, fun r => ?_⟩
    rw [exists_found]
    cases pattern with
    | true =>
      simp only [if_true]
      exact ⟨fun ⟨e, he, hr, hpeeled, hmatch⟩ => ⟨hr, hpeeled, e, he, hmatch⟩,
        fun ⟨hr, hpeeled, e, he, hmatch⟩ => ⟨e, he, hr, hpeeled, hmatch⟩⟩
    | false =>
      simp only [Bool.false_eq_true, if_false]
      refine ⟨.inl, fun hr => hr.resolve_right fun ⟨_, hnone, _⟩ => ?_⟩
      -- something has been found for one of the names
      obtain ⟨x, hx⟩ := List.exists_mem_of_ne_nil _ (hne rfl)
      obtain ⟨e, he, hf⟩ := (exists_found (refnames n)).mp ⟨x, hx, rfl⟩
      rw [if_neg Bool.false_ne_true] at hf
      exact (exists_find_iff n).mp ⟨e, he, x.1, hf⟩ hnone
  · have hfind := findCommit_eq hx
    rw [Option.map_some] at hfind
    refine ⟨fun y hy => ?_, fun r => ?_⟩
    · rw [List.mem_singleton.mp hy]
      exact List.mem_of_find?_eq_some hfind.symm
    · have hnone : ∀ e ∈ refnames n, ∀ i ∈ refs, i.peeled = false → i.name ≠ e := by
        by_contra hsome
        obtain ⟨e, he, r, hr⟩ := (exists_find_iff n).mpr hsome
        obtain ⟨x, hx, -⟩ : ∃ x ∈ (refnames n).foldl (search pathMatch refs false) [], x.1 = r :=
          (exists_found (refnames n)).mpr ⟨e, he, by rw [if_neg Bool.false_ne_true]; exact hr⟩
        rw [hnil] at hx
        cases hx
      have hleft : ¬ ∃ e ∈ refnames n, refs.find? (fun i => !i.peeled && i.name = e) = some r :=
        fun ⟨e, he, hr⟩ => (exists_find_iff n).mp ⟨e, he, r, hr⟩ hnone
      simp only [Bool.false_eq_true, if_false, List.mem_singleton, exists_eq_left]
      rw [or_iff_right hleft, ← hfind]
      exact ⟨fun hr => ⟨hlen, hnone, congrArg some hr⟩, fun hr => Option.some.inj hr.2.2⟩

end

end Build2.Bpkg.FetchGit
