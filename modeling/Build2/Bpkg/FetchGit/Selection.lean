import Build2.Bpkg.FetchGit.Defaults
import Build2.Bpkg.FetchGit.Resolve

/-! # What is selected and fetched

The fetch specifications stand for a set of commits (`Holds`): each of them once, with refspecs that
fetch it unless it is there already (`Sound`). A filter adds commits to the set or removes them
(`applyFilter_passes`), and all commits that are not there are covered by the refspecs
(`covered_refspecLists`). No assertion fails on the way (`fetch_passes`). -/

namespace Build2.Bpkg.FetchGit

open Build2.Lib.ByteString Build2.Lib.Stateful Build2.Libbutl

variable {σ : Type} {pathMatch : Bytes → Bytes → Bool} {git : Git σ} {dir : σ}
  {rfs : List RefFilter} {rf : RefFilter} {c : Bytes} {fs : List FetchSpec} {S : Set Bytes}

/-- A fetch that does not fail with an assertion and whose result is in a set. -/
abbrev Passes {α : Type} (Q : α → Prop) (x : Except Fault α) : Prop := Ends (· ≠ .assertion) Q x

theorem passes_of {α : Type} {Q : α → Prop} {x : Except Fault α} (hE : Fails (· ≠ .assertion) x)
    (hQ : ∀ a, x = .ok a → Q a) : Passes Q x := by
  cases x with
  | error e => exact hE e rfl
  | ok a => exact hQ a rfl

/-! ### Specifications -/

/-- A commit id that can be fetched: the server takes any, or it is advertised. -/
def Known (git : Git σ) (c : Bytes) : Prop :=
  git.caps = some .unadv ∨ ∃ refs, git.refs = some refs ∧ findCommit refs c ≠ .ok none

/-- The refspecs of a filter that names the commit. -/
def Named (pathMatch : Bytes → Bytes → Bool) (git : Git σ) (rfs : List RefFilter) (c : Bytes)
    (rs : List Bytes) : Prop :=
  ∃ rf ∈ rfs, rf.exclusion = false ∧ rf.commit = some c ∧ ∃ n, rf.name = some n ∧
    ∃ refs, git.refs = some refs ∧ ∃ l, searchNames pathMatch refs n false = .ok l ∧ l ≠ [] ∧
      rs = l.map fun x => x.1.commit

/-- The refspecs of a commit: it is not fetched yet, and they are those for the whole history, the
commit itself or the references of a filter that names it. -/
structure Sound (pathMatch : Bytes → Bytes → Bool) (git : Git σ) (dir : σ) (rfs : List RefFilter)
    (c : Bytes) (rs : Option (List Bytes)) (sh : Bool) : Prop where
  isSome : rs.isSome = !git.fetched dir c
  known : ∀ l, rs = some l → ∀ s ∈ l, Known git s
  refspecs : ∀ l, rs = some l →
    l = [] ∨ l = [c] ∨ (sh = false ∧ Named pathMatch git rfs c l)

/-- The specifications stand for the commits of a set. -/
structure Holds (pathMatch : Bytes → Bytes → Bool) (git : Git σ) (dir : σ) (rfs : List RefFilter)
    (S : Set Bytes) (fs : List FetchSpec) : Prop where
  nodup : (fs.map FetchSpec.commit).Nodup
  mem : ∀ c, c ∈ fs.map FetchSpec.commit ↔ c ∈ S
  sound : ∀ i ∈ fs, Sound pathMatch git dir rfs i.commit i.refspecs i.shallow

theorem upgrade_commit (i : FetchSpec) (rs : Option (List Bytes)) (sh : Bool) (n : Bytes) :
    (i.upgrade rs sh n).commit = i.commit := by
  unfold FetchSpec.upgrade
  split
  · split_ifs <;> rfl
  · split_ifs <;> rfl

theorem upgrade_cases (i : FetchSpec) (rs : Option (List Bytes)) (sh : Bool) (n : Bytes) :
    ((i.upgrade rs sh n).refspecs = rs ∧ (i.upgrade rs sh n).shallow = sh) ∨
      ((i.upgrade rs sh n).refspecs = i.refspecs ∧ (i.upgrade rs sh n).shallow = i.shallow) := by
  unfold FetchSpec.upgrade
  split
  · split_ifs
    · exact .inl ⟨rfl, rfl⟩
    · exact .inl ⟨rfl, rfl⟩
    · exact .inr ⟨rfl, rfl⟩
    · exact .inr ⟨rfl, rfl⟩
  · split_ifs
    · exact .inr ⟨rfl, rfl⟩
    · exact .inr ⟨rfl, rfl⟩

/-- The assertion of `add_spec` holds, and the commit is there once. -/
theorem addSpec_ok {rs : Option (List Bytes)} {sh : Bool} (n : Bytes)
    (hnew : Sound pathMatch git dir rfs c rs sh)
    (hfs : ∀ i ∈ fs, Sound pathMatch git dir rfs i.commit i.refspecs i.shallow) :
    ∃ fs', addSpec c rs sh n fs = .ok fs' ∧
      fs'.map FetchSpec.commit = (if c ∈ fs.map FetchSpec.commit then fs.map FetchSpec.commit
        else fs.map FetchSpec.commit ++ [c]) ∧
      ∀ i ∈ fs', Sound pathMatch git dir rfs i.commit i.refspecs i.shallow := by
  induction fs with
  | nil => exact ⟨_, rfl, rfl, fun i hi => List.mem_singleton.mp hi ▸ hnew⟩
  | cons i fs ih =>
    obtain ⟨hi, hfs⟩ := List.forall_mem_cons.mp hfs
    rw [addSpec]
    by_cases hc : i.commit = c
    · have hsome : rs.isSome = i.refspecs.isSome := by rw [hnew.isSome, hi.isSome, hc]
      have hmem : c ∈ (i :: fs).map FetchSpec.commit := List.mem_map.mpr ⟨i, by simp, hc⟩
      rw [if_pos hc, if_neg (not_not.mpr hsome), if_pos hmem]
      refine ⟨_, rfl, ?_, List.forall_mem_cons.mpr ⟨?_, hfs⟩⟩
      · rw [List.map_cons, List.map_cons, upgrade_commit]
      · rw [upgrade_commit]
        rcases upgrade_cases i rs sh n with ⟨hrs, hsh⟩ | ⟨hrs, hsh⟩
        · rw [hrs, hsh, hc]
          exact hnew
        · rw [hrs, hsh]
          exact hi
    · obtain ⟨fs', hok, hmap, hsound⟩ := ih hfs
      have hmem : c ∈ (i :: fs).map FetchSpec.commit ↔ c ∈ fs.map FetchSpec.commit := by
        rw [List.map_cons, List.mem_cons]
        exact or_iff_right (Ne.symm hc)
      rw [if_neg hc, hok]
      refine ⟨i :: fs', rfl, ?_, List.forall_mem_cons.mpr ⟨hi, hsound⟩⟩
      simp only [hmem]
      rw [List.map_cons, hmap]
      split_ifs
      · rfl
      · rfl

/-- **A commit is added** to the set. -/
theorem addSpec_passes {rs : Option (List Bytes)} {sh : Bool} (n : Bytes)
    (hnew : Sound pathMatch git dir rfs c rs sh) (h : Holds pathMatch git dir rfs S fs) :
    Passes (Holds pathMatch git dir rfs (S ∪ {c})) (addSpec c rs sh n fs) := by
  obtain ⟨fs', hok, hmap, hsound⟩ := addSpec_ok n hnew h.sound
  rw [hok]
  have hmem := h.mem c
  have hnodup := h.nodup
  refine ⟨?_, fun d => ?_, hsound⟩
  · rw [hmap]
    split_ifs with hc
    · exact hnodup
    · refine List.nodup_append.mpr ⟨hnodup, List.nodup_singleton c, fun a ha b hb => ?_⟩
      rintro rfl
      exact hc (List.mem_singleton.mp hb ▸ ha)
  · rw [hmap, Set.mem_union, Set.mem_singleton_iff]
    split_ifs with hc
    · rw [h.mem d]
      exact ⟨.inl, fun hd => hd.elim id fun hd => hd ▸ hmem.mp hc⟩
    · rw [List.mem_append, List.mem_singleton, h.mem d]

/-- **A commit is removed** from the set. -/
theorem holds_removeSpec (h : Holds pathMatch git dir rfs S fs) :
    Holds pathMatch git dir rfs (S \ {c}) (removeSpec c fs) := by
  have hmap : (removeSpec c fs).map FetchSpec.commit = (fs.map FetchSpec.commit).erase c := by
    have hp : (fun i : FetchSpec => decide (i.commit = c)) = (· == c) ∘ FetchSpec.commit := by
      funext i
      grind
    rw [List.erase_eq_eraseP', List.eraseP_map, ← hp]
    rfl
  have hnodup := h.nodup
  refine ⟨?_, fun d => ?_, fun i hi => h.sound i (List.mem_of_mem_eraseP hi)⟩
  · rw [hmap]
    exact hnodup.erase c
  · rw [hmap, hnodup.mem_erase_iff, h.mem d, Set.mem_sdiff, Set.mem_singleton_iff, and_comm]

/-! ### Filters -/

theorem senseCapabilities_passes :
    Passes (fun cap => git.caps = some cap) (senseCapabilities git) := by
  unfold senseCapabilities
  cases git.caps with
  | none => exact nofun
  | some cap => rfl

theorem loadRefs_passes : Passes (fun refs => git.refs = some refs) (loadRefs git) := by
  unfold loadRefs
  cases git.refs with
  | none => exact nofun
  | some refs => rfl

theorem findCommit_passes (refs : List Ref) (c : Bytes) :
    Passes (fun x => findCommit refs c = .ok x) (findCommit refs c) := by
  refine passes_of (fun e he => ?_) fun x hx => hx
  rw [findCommit_fails he]
  nofun

theorem commitAdvertized_passes (c : Bytes) :
    Passes (fun a => a = true → Known git c) (commitAdvertized git c) := by
  refine loadRefs_passes.bind fun refs hrefs => (findCommit_passes refs c).bind fun x hx => ?_
  intro ha
  refine .inr ⟨refs, hrefs, fun hnone => ?_⟩
  rw [hx] at hnone
  cases hnone
  cases ha

/-- Where the shallow fetch is possible, the commit can be fetched by itself. -/
theorem shallowFetch_passes (rf : RefFilter) :
    Passes (fun sh => sh = true → ∀ c, rf.commit = some c → Known git c) (shallowFetch git rf) := by
  refine senseCapabilities_passes.bind fun cap hcap => ?_
  cases cap with
  | dumb => exact nofun
  | smart =>
    dsimp only
    cases hc : rf.commit with
    | none => exact nofun
    | some c =>
      refine (commitAdvertized_passes c).mono (fun _ h => h) fun a ha hsh d hd => ?_
      exact Option.some.inj hd ▸ ha hsh
  | unadv => exact fun _ _ _ => .inl hcap

/-- **The references of a filter** are those that it matches. -/
theorem filterReferences_passes (k : ℕ) (hc : rf.commit = none) :
    Passes (fun rs => ∃ refs, git.refs = some refs ∧ (∀ x ∈ rs, x.1 ∈ refs) ∧
        ∀ c, (∃ x ∈ rs, (peel refs x.1).commit = c) ↔
          c ∈ rf.commits pathMatch refs (defaultCommits refs (seen (git.errno k) refs)))
      (filterReferences pathMatch git k rf) := by
  refine senseCapabilities_passes.bind fun _ _ => loadRefs_passes.bind fun refs hrefs => ?_
  have hcommits : ∀ (rs : SearchResult) (P : Ref → Prop), (∀ r, (∃ x ∈ rs, x.1 = r) ↔ P r) →
      ∀ c, (∃ x ∈ rs, (peel refs x.1).commit = c) ↔ ∃ r, P r ∧ c = (peel refs r).commit := by
    intro rs P hP c
    constructor
    · rintro ⟨x, hx, rfl⟩
      exact ⟨x.1, (hP x.1).mp ⟨x, hx, rfl⟩, rfl⟩
    · rintro ⟨r, hr, rfl⟩
      obtain ⟨x, hx, rfl⟩ := (hP r).mpr hr
      exact ⟨x, hx, rfl⟩
  unfold RefFilter.commits
  rw [hc]
  cases rf.name with
  | none =>
    obtain ⟨rs, hok, hmem, hdefault⟩ := defaultReferences_ok refs (git.errno k)
    dsimp only
    rw [hok]
    exact ⟨refs, hrefs, hmem, hcommits rs _ hdefault⟩
  | some n =>
    refine passes_of (searchNames_fails n true) fun rs hok => ?_
    obtain ⟨hmem, hmatches⟩ := searchNames_ok hok
    exact ⟨refs, hrefs, hmem, hcommits rs _ hmatches⟩

/-- **A reference of a filter** adds its peeled commit or removes it. -/
theorem applyReference_passes {refs : List Ref} (hrefs : git.refs = some refs) {x : Ref × ℕ}
    (hx : x.1 ∈ refs) (h : Holds pathMatch git dir rfs S fs) :
    Passes (Holds pathMatch git dir rfs
        (if rf.exclusion then S \ {(peel refs x.1).commit} else S ∪ {(peel refs x.1).commit}))
      (applyReference git dir rf x fs) := by
  refine loadRefs_passes.bind fun refs' hrefs' => ?_
  obtain rfl := Option.some.inj (hrefs.symm.trans hrefs')
  cases rf.exclusion with
  | true => exact holds_removeSpec h
  | false =>
    simp only [Bool.not_false, if_true, Bool.false_eq_true, if_false]
    split_ifs with hfetched
    · refine addSpec_passes _ ⟨?_, nofun, nofun⟩ h
      rw [hfetched]
      rfl
    · have hknown : Known git (peel refs x.1).commit :=
        .inr ⟨refs, hrefs, findCommit_ne_none (peel_mem hx)⟩
      refine (shallowFetch_passes rf).bind fun sh _ => addSpec_passes _ ⟨?_, ?_, ?_⟩ h
      · rw [Bool.eq_false_iff.mpr hfetched]
        rfl
      · rintro l hl s hs
        obtain rfl := Option.some.inj hl
        exact List.mem_singleton.mp hs ▸ hknown
      · rintro l hl
        exact .inr (.inl (Option.some.inj hl).symm)

theorem applyReferences_passes {refs : List Ref} (hrefs : git.refs = some refs) {rs : SearchResult}
    (hrs : ∀ x ∈ rs, x.1 ∈ refs) {C : Set Bytes}
    (hC : ∀ c, (∃ x ∈ rs, (peel refs x.1).commit = c) ↔ c ∈ C)
    (h : Holds pathMatch git dir rfs S fs) :
    Passes (Holds pathMatch git dir rfs (if rf.exclusion then S \ C else S ∪ C))
      (applyReferences git dir rf rs fs) := by
  induction rs generalizing S fs C with
  | nil =>
    have hC : C = ∅ := Set.eq_empty_iff_forall_notMem.mpr fun c hc => by simpa using (hC c).mpr hc
    have hS : (if rf.exclusion then S \ C else S ∪ C) = S := by
      rw [hC]
      split_ifs
      · exact Set.sdiff_empty
      · exact Set.union_empty S
    rw [hS]
    exact h
  | cons x rs ih =>
    obtain ⟨hx, hrs⟩ := List.forall_mem_cons.mp hrs
    let D : Set Bytes := {c | ∃ y ∈ rs, (peel refs y.1).commit = c}
    have hD : ∀ c, (∃ y ∈ rs, (peel refs y.1).commit = c) ↔ c ∈ D := fun c => Iff.rfl
    refine (applyReference_passes hrefs hx h).bind fun fs' h' => ?_
    refine (ih hrs hD h').mono (fun _ he => he) fun fs'' h'' => ?_
    have hset : ∀ c, c ∈ C ↔ (peel refs x.1).commit = c ∨ c ∈ D := by
      intro c
      rw [← hC c, ← hD c]
      simp
    refine ⟨h''.nodup, fun c => (h''.mem c).trans ?_, h''.sound⟩
    cases rf.exclusion with
    | true =>
      simp only [if_true, Set.mem_sdiff, Set.mem_singleton_iff, hset]
      grind
    | false =>
      simp only [Bool.false_eq_true, if_false, Set.mem_union, Set.mem_singleton_iff, hset]
      grind

/-- The commit of a filter is added if it is not fetched yet. -/
theorem addCommit_passes (hrf : rf ∈ rfs) (hex : rf.exclusion = false) (hc : rf.commit = some c)
    (hfetched : git.fetched dir c = false) (h : Holds pathMatch git dir rfs S fs) :
    Passes (Holds pathMatch git dir rfs (S ∪ {c})) (addCommit pathMatch git rf c fs) := by
  have hsome : ∀ l : List Bytes, (some l).isSome = !git.fetched dir c := by
    intro l
    rw [hfetched]
    rfl
  have hsingle : ∀ {P : Prop}, (P → Known git c) → P → ∀ l, some [c] = some l →
      ∀ s ∈ l, Known git s := by
    intro P hP hp l hl s hs
    obtain rfl := Option.some.inj hl
    exact List.mem_singleton.mp hs ▸ hP hp
  refine (shallowFetch_passes rf).bind fun sh hsh => ?_
  cases sh with
  | true =>
    refine addSpec_passes _ ⟨hsome _, hsingle (fun h => hsh h c hc) rfl, fun l hl => ?_⟩ h
    exact .inr (.inl (Option.some.inj hl).symm)
  | false =>
    rw [if_neg Bool.false_ne_true]
    cases hn : rf.name with
    | some n =>
      refine senseCapabilities_passes.bind fun _ _ => loadRefs_passes.bind fun refs hrefs => ?_
      refine (passes_of (searchNames_fails n false) fun rs hok => hok).bind fun rs hok => ?_
      split_ifs with hnil
      · exact nofun
      · refine addSpec_passes _ ⟨hsome _, ?_, ?_⟩ h
        · rintro l hl s hs
          obtain rfl := Option.some.inj hl
          obtain ⟨x, hx, rfl⟩ := List.mem_map.mp hs
          exact .inr ⟨refs, hrefs, findCommit_ne_none ((searchNames_ok hok).1 x hx)⟩
        · rintro l hl
          exact .inr (.inr ⟨rfl, rf, hrf, hex, hc, n, hn, refs, hrefs, rs, hok, hnil,
            (Option.some.inj hl).symm⟩)
    | none =>
      refine (commitAdvertized_passes c).bind fun a ha => ?_
      cases a with
      | true =>
        refine addSpec_passes _ ⟨hsome _, hsingle ha rfl, fun l hl => ?_⟩ h
        exact .inr (.inl (Option.some.inj hl).symm)
      | false =>
        refine addSpec_passes _ ⟨hsome _, fun l hl s hs => ?_, fun l hl => ?_⟩ h
        · obtain rfl := Option.some.inj hl
          cases hs
        · exact .inl (Option.some.inj hl).symm

/-- The default set when a filter is reached, of the tags that can be seen with the value of
`errno`. -/
def defaultsAt (git : Git σ) (k : ℕ) : Set Bytes :=
  defaultCommits (git.refs.getD []) (seen (git.errno k) (git.refs.getD []))

/-- **A filter** adds its commits to the set or removes them. -/
theorem applyFilter_passes (hrf : rf ∈ rfs) (k : ℕ) (h : Holds pathMatch git dir rfs S fs) :
    Passes (Holds pathMatch git dir rfs
        (if rf.exclusion then S \ rf.commits pathMatch (git.refs.getD []) (defaultsAt git k)
          else S ∪ rf.commits pathMatch (git.refs.getD []) (defaultsAt git k)))
      (applyFilter pathMatch git dir k rf fs) := by
  unfold applyFilter
  cases hc : rf.commit with
  | none =>
    refine (filterReferences_passes k hc).bind fun rs ⟨refs, hrefs, hmem, hcommits⟩ => ?_
    have hget : git.refs.getD [] = refs := by rw [hrefs, Option.getD_some]
    unfold defaultsAt
    rw [hget]
    exact applyReferences_passes hrefs hmem hcommits h
  | some c =>
    have hcommits : rf.commits pathMatch (git.refs.getD []) (defaultsAt git k) = {c} := by
      unfold RefFilter.commits
      rw [hc]
    rw [hcommits]
    dsimp only
    cases hex : rf.exclusion with
    | true => exact holds_removeSpec h
    | false =>
      simp only [Bool.false_eq_true, if_false]
      split_ifs with hfetched
      · refine addSpec_passes _ ⟨?_, nofun, nofun⟩ h
        rw [hfetched]
        rfl
      · exact addCommit_passes hrf hex hc (Bool.eq_false_iff.mpr hfetched) h

theorem applyFilters_passes {l : List RefFilter} (hl : ∀ rf ∈ l, rf ∈ rfs) (k : ℕ)
    (h : Holds pathMatch git dir rfs S fs) :
    Passes (Holds pathMatch git dir rfs
        (select pathMatch (git.refs.getD []) (defaultsAt git) k S l))
      (applyFilters pathMatch git dir k l fs) := by
  induction l generalizing k S fs with
  | nil => exact h
  | cons rf l ih =>
    obtain ⟨hrf, hl⟩ := List.forall_mem_cons.mp hl
    exact (applyFilter_passes hrf k h).bind fun fs' h' => ih hl (k + 1) h'

/-! ### Refspecs -/

/-- The refspecs of the specifications that have been looked at. -/
structure Collected (x : Refspecs) (fs : List FetchSpec) : Prop where
  kept : ∀ i ∈ fs, ∀ rs, i.refspecs = some rs → x.fetchRepo = false →
    rs ≠ [] ∧ ∀ s ∈ rs, s ∈ if i.shallow then x.scs else x.dcs
  from_specs : ∀ s, s ∈ x.scs ∨ s ∈ x.dcs → ∃ i ∈ fs, ∃ rs, i.refspecs = some rs ∧ s ∈ rs

theorem Collected.collect {x : Refspecs} (h : Collected x fs) (i : FetchSpec) :
    Collected (collect x i) (fs ++ [i]) := by
  have hold : ∀ s, s ∈ x.scs ∨ s ∈ x.dcs →
      ∃ j ∈ fs ++ [i], ∃ rs, j.refspecs = some rs ∧ s ∈ rs := by
    intro s hs
    obtain ⟨j, hj, hrs⟩ := h.from_specs s hs
    exact ⟨j, List.mem_append_left _ hj, hrs⟩
  have hlast : ∀ {P : FetchSpec → Prop}, (∀ j ∈ fs, P j) → P i → ∀ j ∈ fs ++ [i], P j := by
    intro P hfs hi j hj
    exact (List.mem_append.mp hj).elim (hfs j) fun hj => List.mem_singleton.mp hj ▸ hi
  unfold FetchGit.collect
  cases hrs : i.refspecs with
  | none => exact ⟨hlast h.kept (by rw [hrs]; nofun), hold⟩
  | some rs =>
    dsimp only
    have hnew : ∀ s ∈ rs, ∃ j ∈ fs ++ [i], ∃ rs, j.refspecs = some rs ∧ s ∈ rs := fun s hs =>
      ⟨i, by simp, rs, hrs, hs⟩
    split_ifs with hnil hrepo hsh
    · exact ⟨fun _ _ _ _ hfalse => absurd hfalse nofun, hold⟩
    · refine ⟨hlast (fun j hj l hl hfalse => ?_) ?_, ?_⟩
      · obtain ⟨hne, hmem⟩ := h.kept j hj l hl hfalse
        refine ⟨hne, fun s hs => ?_⟩
        have := hmem s hs
        split_ifs at this ⊢
        · exact List.mem_append_left _ this
        · exact this
      · rw [hrs]
        rintro l hl -
        obtain rfl := Option.some.inj hl
        exact ⟨hnil, fun s hs => by rw [if_pos hsh]; exact List.mem_append_right _ hs⟩
      · rintro s (hs | hs)
        · exact (List.mem_append.mp hs).elim (fun hs => hold s (.inl hs)) (hnew s)
        · exact hold s (.inr hs)
    · refine ⟨hlast (fun j hj l hl hfalse => ?_) ?_, ?_⟩
      · obtain ⟨hne, hmem⟩ := h.kept j hj l hl hfalse
        refine ⟨hne, fun s hs => ?_⟩
        have := hmem s hs
        split_ifs at this ⊢
        · exact this
        · exact List.mem_append_left _ this
      · rw [hrs]
        rintro l hl -
        obtain rfl := Option.some.inj hl
        exact ⟨hnil, fun s hs => by rw [if_neg hsh]; exact List.mem_append_right _ hs⟩
      · rintro s (hs | hs)
        · exact hold s (.inl hs)
        · exact (List.mem_append.mp hs).elim (fun hs => hold s (.inr hs)) (hnew s)
    · have htrue : x.fetchRepo = true := by simpa using hrepo
      exact ⟨fun _ _ _ _ hfalse => absurd (htrue.symm.trans hfalse) nofun, hold⟩

theorem collected_refspecLists (fs : List FetchSpec) : Collected (refspecLists fs) fs := by
  induction fs using List.reverseRecOn with
  | nil => exact ⟨nofun, fun s hs => by simp [refspecLists] at hs⟩
  | append_singleton fs i ih =>
    have hfold : refspecLists (fs ++ [i]) = collect (refspecLists fs) i := by simp [refspecLists]
    rw [hfold]
    exact ih.collect i

/-- **Every commit that is not there is covered** by the refspecs. -/
theorem covered_refspecLists (h : Holds pathMatch git dir rfs S fs) (hc : c ∈ S)
    (hfetched : git.fetched dir c = false) :
    Covered pathMatch (git.refs.getD []) rfs (refspecLists fs) c := by
  obtain ⟨i, hi, rfl⟩ := List.mem_map.mp ((h.mem c).mpr hc)
  have hsound := h.sound i hi
  obtain ⟨rs, hrs⟩ : ∃ rs, i.refspecs = some rs := by
    rw [← Option.isSome_iff_exists, hsound.isSome, hfetched]
    rfl
  by_cases hrepo : (refspecLists fs).fetchRepo = true
  · exact .inr (.inr (.inl hrepo))
  · obtain ⟨hne, hmem⟩ :=
      (collected_refspecLists fs).kept i hi rs hrs (Bool.eq_false_iff.mpr hrepo)
    rcases hsound.refspecs rs hrs with hnil | rfl | ⟨hsh, rf, hrf, hex, hcommit, n, hn, refs, hrefs,
      l, hl, hlne, rfl⟩
    · exact absurd hnil hne
    · have hself := hmem i.commit List.mem_cons_self
      split_ifs at hself
      · exact .inl hself
      · exact .inr (.inl hself)
    · have hget : git.refs.getD [] = refs := by rw [hrefs, Option.getD_some]
      obtain ⟨-, hmatches⟩ := searchNames_ok hl
      rw [hsh, if_neg Bool.false_ne_true] at hmem
      rw [hget]
      refine .inr (.inr (.inr ⟨rf, hrf, hex, hcommit, n, hn, ?_, fun r hr => ?_⟩))
      · obtain ⟨x, hx⟩ := List.exists_mem_of_ne_nil l hlne
        exact ⟨x.1, (hmatches x.1).mp ⟨x, hx, rfl⟩⟩
      · obtain ⟨x, hx, rfl⟩ := (hmatches r).mpr hr
        exact hmem _ (List.mem_map.mpr ⟨x, hx, rfl⟩)

theorem known_refspecLists (h : Holds pathMatch git dir rfs S fs) {s : Bytes}
    (hs : s ∈ (refspecLists fs).scs ∨ s ∈ (refspecLists fs).dcs) : Known git s := by
  obtain ⟨i, hi, rs, hrs, hmem⟩ := (collected_refspecLists fs).from_specs s hs
  exact (h.sound i hi).known rs hrs s hmem

/-! ### Running git -/

theorem remap_passes {refs : List Ref} {cs : List Bytes}
    (h : ∀ c ∈ cs, findCommit refs c ≠ .ok none) : Passes (fun _ => True) (remap refs cs) := by
  induction cs with
  | nil => exact trivial
  | cons c cs ih =>
    obtain ⟨hc, hcs⟩ := List.forall_mem_cons.mp h
    refine (findCommit_passes refs c).bind fun x hx => ?_
    cases x with
    | none => exact absurd hx hc
    | some x => exact (ih hcs).bind fun _ _ => trivial

theorem runFetch_passes {refspecs : List Bytes} {sh : Bool} (d : σ)
    (hne : refspecs = [] → sh = false) (hknown : ∀ s ∈ refspecs, Known git s) :
    Passes (fun _ => True) (runFetch git d refspecs sh) := by
  unfold runFetch
  have hassert : ¬ (refspecs = [] ∧ sh = true) := fun ⟨hnil, htrue⟩ =>
    absurd ((hne hnil).symm.trans htrue) nofun
  rw [if_neg hassert]
  refine Ends.bind (Q := fun _ => True) ?_ fun specs _ => ?_
  · split_ifs
    · exact trivial
    · refine senseCapabilities_passes.bind fun cap hcap => ?_
      split_ifs with hunadv
      · exact trivial
      · refine loadRefs_passes.bind fun refs hrefs => remap_passes fun s hs => ?_
        rcases hknown s hs with hcaps | ⟨refs', hrefs', hfind⟩
        · exact absurd (Option.some.inj (hcap.symm.trans hcaps)) hunadv
        · obtain rfl := Option.some.inj (hrefs.symm.trans hrefs')
          exact hfind
  · cases git.fetch d specs sh with
    | none => exact nofun
    | some d' => exact trivial

theorem fetchRefspecs_passes {x : Refspecs} (hknown : ∀ s, s ∈ x.scs ∨ s ∈ x.dcs → Known git s) :
    Passes (fun _ => True) (fetchRefspecs git dir x) := by
  unfold fetchRefspecs
  refine Ends.bind (Q := fun _ => True) ?_ fun d _ => ?_
  · split_ifs
    · exact runFetch_passes _ (fun _ => rfl) nofun
    · exact runFetch_passes _ (fun _ => rfl) fun s hs => hknown s (.inr hs)
    · exact trivial
  · dsimp only
    split_ifs with hdeep hne hne
    · exact runFetch_passes _ (fun hnil => absurd hnil hne) fun s hs =>
        hknown s (.inl (List.mem_of_mem_filter hs))
    · exact trivial
    · exact runFetch_passes _ (fun hnil => absurd hnil hne) fun s hs => hknown s (.inl hs)
    · exact trivial

theorem setTimestamps_passes (d : σ) (frs : List Fragment) :
    Passes (fun frs' => frs'.map Fragment.commit = frs.map Fragment.commit)
      (setTimestamps git d frs) := by
  induction frs with
  | nil => rfl
  | cons fr frs ih =>
    rw [setTimestamps]
    cases git.timestamp d fr.commit with
    | none => exact nofun
    | some t => exact ih.bind fun frs' h => congrArg (fr.commit :: ·) h

theorem sortFragments_passes (d : σ) (frs : List Fragment) :
    Passes (fun frs' => (frs'.map Fragment.commit).Perm (frs.map Fragment.commit))
      (sortFragments git d frs) := by
  refine (setTimestamps_passes d frs).bind fun frs' h => ?_
  have hperm := (List.mergeSort_perm frs' fun x y => x.timestamp ≤ y.timestamp).map Fragment.commit
  rw [h] at hperm
  exact hperm

/-- What a fetch that succeeds returns, and what it has been fetched with. -/
structure Fetched (pathMatch : Bytes → Bytes → Bool) (git : Git σ) (dir : σ)
    (rfs : List RefFilter) (r : List Fragment) (fs : List FetchSpec) : Prop where
  specs : applyFilters pathMatch git dir 0 rfs [] = .ok fs
  nodup : (r.map Fragment.commit).Nodup
  mem : ∀ c, c ∈ r.map Fragment.commit ↔
    c ∈ select pathMatch (git.refs.getD []) (defaultsAt git) 0 ∅ rfs
  covered : ∀ c ∈ r.map Fragment.commit, git.fetched dir c = false →
    Covered pathMatch (git.refs.getD []) rfs (refspecLists fs) c

theorem fetch_passes (hne : rfs ≠ []) :
    Passes (fun r => ∃ fs, Fetched pathMatch git dir rfs r.1 fs) (fetch pathMatch git dir rfs) := by
  unfold fetch
  rw [if_neg hne]
  have hempty : Holds pathMatch git dir rfs ∅ [] := ⟨List.nodup_nil, by simp, nofun⟩
  have hfilters := applyFilters_passes (l := rfs) (fun _ h => h) 0 hempty
  have hspecs : Passes (fun fs => applyFilters pathMatch git dir 0 rfs [] = .ok fs ∧
      Holds pathMatch git dir rfs
        (select pathMatch (git.refs.getD []) (defaultsAt git) 0 ∅ rfs) fs)
      (applyFilters pathMatch git dir 0 rfs []) := by
    cases happly : applyFilters pathMatch git dir 0 rfs [] with
    | error e => rw [happly] at hfilters; exact hfilters
    | ok fs => rw [happly] at hfilters; exact ⟨rfl, hfilters⟩
  refine hspecs.bind fun fs ⟨happly, h⟩ => ?_
  have hmap : (fs.map FetchSpec.fragment).map Fragment.commit = fs.map FetchSpec.commit := by
    rw [List.map_map]
    rfl
  have hsorted : ∀ d d' : σ, Passes (fun r => ∃ fs, Fetched pathMatch git dir rfs r.1 fs)
      (do
        let r ← sortFragments git d (fs.map FetchSpec.fragment)
        pure (r, d')) := by
    intro d d'
    refine (sortFragments_passes d _).bind fun r hperm => ?_
    rw [hmap] at hperm
    have hmem : ∀ c, c ∈ r.map Fragment.commit ↔
        c ∈ select pathMatch (git.refs.getD []) (defaultsAt git) 0 ∅ rfs := fun c =>
      hperm.mem_iff.trans (h.mem c)
    exact ⟨fs, happly, hperm.nodup_iff.mpr h.nodup, hmem, fun c hc hfetched =>
      covered_refspecLists h ((hmem c).mp hc) hfetched⟩
  dsimp only
  split_ifs
  · exact hsorted dir dir
  · refine (fetchRefspecs_passes fun s hs => known_refspecLists h hs).bind fun d _ => ?_
    split
    · exact nofun
    · exact hsorted d d

end Build2.Bpkg.FetchGit
