import Build2.Bpkg.FetchGit.Selection

/-! # Reference filters

Which commits a fetch returns, and how they are fetched (`Meets`). The default set is wrong for some
lists of references: `errno` is not reset before the version of a tag is parsed, so that the tags
after one with a number that does not fit are not seen (`fetch_iff`). -/

namespace Build2.Bpkg.FetchGit

open Build2.Lib.ByteString Build2.Lib.Stateful Build2.Libbutl
open Build2.Libbutl.ParseUint (Errno)

variable {σ : Type} {pathMatch : Bytes → Bytes → Bool} {git : Git σ} {dir : σ} {refs : List Ref}
  {rfs : List RefFilter} {fs : List FetchSpec} {S : Set Bytes}

/-- **What a fetch promises**: no assertion fails, and if it succeeds, then it returns each of the
selected commits once, and those that were not fetched yet are covered by the refspecs. -/
structure Meets (pathMatch : Bytes → Bytes → Bool) (git : Git σ) (dir : σ) (rfs : List RefFilter) :
    Prop where
  noAssertion : fetch pathMatch git dir rfs ≠ .error .assertion
  fragments : ∀ r d, fetch pathMatch git dir rfs = .ok (r, d) →
    (r.map Fragment.commit).Nodup ∧
    (∀ c, c ∈ r.map Fragment.commit ↔ c ∈ selected pathMatch (git.refs.getD []) rfs) ∧
    ∃ fs, applyFilters pathMatch git dir 0 rfs [] = .ok fs ∧
      ∀ c ∈ r.map Fragment.commit, git.fetched dir c = false →
        Covered pathMatch (git.refs.getD []) rfs (refspecLists fs) c

/-- The tags that are seen with a value of `errno` give the commits of the default set. -/
def Unspoilt (refs : List Ref) (errno : Errno) : Prop :=
  defaultCommits refs (seen errno refs) = defaultCommits refs refs

/-! ### If the default set is right -/

theorem select_congr {D D' : ℕ → Set Bytes} {l : List RefFilter} {k : ℕ}
    (h : ∀ i rf, l[i]? = some rf → rf.defaultRefs = true → D (k + i) = D' (k + i)) :
    select pathMatch refs D k S l = select pathMatch refs D' k S l := by
  induction l generalizing k S with
  | nil => rfl
  | cons rf l ih =>
    have hcommits : rf.commits pathMatch refs (D k) = rf.commits pathMatch refs (D' k) := by
      have h0 := h 0 rf rfl
      unfold RefFilter.commits
      cases hc : rf.commit with
      | some c => rfl
      | none =>
        cases hn : rf.name with
        | some n => rfl
        | none => exact h0 (by simp [RefFilter.defaultRefs, hc, hn])
    have hrest : ∀ i rf', l[i]? = some rf' → rf'.defaultRefs = true →
        D (k + 1 + i) = D' (k + 1 + i) := by
      intro i rf' hi hdef
      have hnext := h (i + 1) rf' hi hdef
      rwa [← Nat.add_assoc, Nat.add_right_comm] at hnext
    rw [select, select, hcommits]
    exact ih hrest

theorem meets_of_unspoilt (hne : rfs ≠ [])
    (h : ∀ k rf, rfs[k]? = some rf → rf.defaultRefs = true →
      Unspoilt (git.refs.getD []) (git.errno k)) : Meets pathMatch git dir rfs := by
  have hfetch : Passes _ (fetch pathMatch git dir rfs) := fetch_passes hne
  have hselect : select pathMatch (git.refs.getD []) (defaultsAt git) 0 ∅ rfs
      = selected pathMatch (git.refs.getD []) rfs := by
    refine select_congr fun k rf hk hdef => ?_
    rw [Nat.zero_add]
    exact h k rf hk hdef
  refine ⟨fun hassert => ?_, fun r d hok => ?_⟩
  · rw [hassert] at hfetch
    exact hfetch rfl
  · rw [hok] at hfetch
    obtain ⟨fs, hfetched⟩ := hfetch
    refine ⟨hfetched.nodup, fun c => ?_, fs, hfetched.specs, hfetched.covered⟩
    rw [hfetched.mem c, hselect]

/-! ### The default set alone -/

/-- A repository where everything is fetched already. -/
def fetchedGit (refs : List Ref) (errno : ℕ → Errno) : Git Unit where
  caps := some .unadv
  refs := some refs
  fetched := fun _ _ => true
  fetch := fun _ _ _ => some ()
  timestamp := fun _ _ => some 0
  errno := errno

/-- The default reference set. -/
def defaultFilter : RefFilter := ⟨none, none, false⟩

/-- The exclusion of a commit. -/
def exclusionFilter : RefFilter := ⟨none, some [], true⟩

theorem applyReferences_fetched {errno : ℕ → Errno} (rs : SearchResult) (hrs : ∀ x ∈ rs, x.1 ∈ refs)
    (h : Holds pathMatch (fetchedGit refs errno) () rfs S fs) :
    ∃ fs', applyReferences (fetchedGit refs errno) () defaultFilter rs fs = .ok fs' := by
  induction rs generalizing fs S with
  | nil => exact ⟨fs, rfl⟩
  | cons x rs ih =>
    obtain ⟨hx, hrs⟩ := List.forall_mem_cons.mp hrs
    have hpass : Passes _ (applyReference (fetchedGit refs errno) () defaultFilter x fs) :=
      applyReference_passes rfl hx h
    have hnew : Sound pathMatch (fetchedGit refs errno) () rfs (peel refs x.1).commit none false :=
      ⟨rfl, nofun, nofun⟩
    obtain ⟨fs', hok, -⟩ := addSpec_ok (friendlyName x.1.name) hnew h.sound
    have happly : applyReference (fetchedGit refs errno) () defaultFilter x fs = .ok fs' := hok
    rw [happly] at hpass
    rw [applyReferences, happly]
    exact ih hrs hpass

theorem applyFilters_exclusions {errno : ℕ → Errno} (n k : ℕ) (l : List RefFilter) :
    applyFilters pathMatch (fetchedGit refs errno) () k
        (List.replicate n exclusionFilter ++ l) []
      = applyFilters pathMatch (fetchedGit refs errno) () (k + n) l [] := by
  induction n generalizing k with
  | zero => rfl
  | succ n ih =>
    rw [List.replicate_succ, List.cons_append, Nat.add_succ, ← Nat.succ_add]
    exact ih (k + 1)

theorem select_exclusions (D : ℕ → Set Bytes) (n k : ℕ) :
    select pathMatch refs D k ∅ (List.replicate n exclusionFilter ++ [defaultFilter])
      = D (k + n) := by
  induction n generalizing k with
  | zero => exact Set.empty_union _
  | succ n ih =>
    rw [List.replicate_succ, List.cons_append, select]
    have hempty : (if exclusionFilter.exclusion = true then
        (∅ : Set Bytes) \ exclusionFilter.commits pathMatch refs (D k)
        else ∅ ∪ exclusionFilter.commits pathMatch refs (D k)) = ∅ := Set.empty_sdiff _
    rw [hempty, ih, Nat.add_right_comm, Nat.add_assoc]

theorem refspecLists_none (h : ∀ i ∈ fs, i.refspecs = none) :
    refspecLists fs = ⟨[], [], false⟩ := by
  have hfold : ∀ x, fs.foldl collect x = x := by
    induction fs with
    | nil => exact fun _ => rfl
    | cons i fs ih =>
      obtain ⟨hi, hfs⟩ := List.forall_mem_cons.mp h
      intro x
      rw [List.foldl_cons, collect, hi]
      exact ih hfs x
  exact hfold _

theorem setTimestamps_fetched (refs : List Ref) (errno : ℕ → Errno) (frs : List Fragment) :
    ∃ frs', setTimestamps (fetchedGit refs errno) () frs = .ok frs' := by
  induction frs with
  | nil => exact ⟨[], rfl⟩
  | cons fr frs ih =>
    obtain ⟨frs', hok⟩ := ih
    refine ⟨{ fr with timestamp := 0 } :: frs', ?_⟩
    rw [setTimestamps, hok]
    rfl

/-- **The default set is what is fetched** where it is the only filter that adds commits. -/
theorem fetch_default (pathMatch : Bytes → Bytes → Bool) (refs : List Ref) (errno : ℕ → Errno)
    (n : ℕ) : ∃ r, fetch pathMatch (fetchedGit refs errno) ()
        (List.replicate n exclusionFilter ++ [defaultFilter]) = .ok (r, ()) ∧
      ∀ c, c ∈ r.map Fragment.commit ↔ c ∈ defaultCommits refs (seen (errno n) refs) := by
  generalize hrfs : List.replicate n exclusionFilter ++ [defaultFilter] = rfs
  have hne : rfs ≠ [] := by
    rw [← hrfs]
    simp
  have hempty : Holds pathMatch (fetchedGit refs errno) () rfs ∅ [] :=
    ⟨List.nodup_nil, by simp, nofun⟩
  obtain ⟨rs, hrs, hmem, -⟩ := defaultReferences_ok refs (errno n)
  obtain ⟨fs, hfs⟩ := applyReferences_fetched rs hmem hempty
  have hspecs : applyFilters pathMatch (fetchedGit refs errno) () 0 rfs [] = .ok fs := by
    rw [← hrfs, applyFilters_exclusions, Nat.zero_add]
    have hfilter : filterReferences pathMatch (fetchedGit refs errno) n defaultFilter = .ok rs :=
      hrs
    have happly : applyFilter pathMatch (fetchedGit refs errno) () n defaultFilter [] = .ok fs := by
      unfold applyFilter
      change (filterReferences pathMatch (fetchedGit refs errno) n defaultFilter >>= _) = _
      rw [hfilter]
      exact hfs
    rw [applyFilters, happly]
    rfl
  have hholds : Passes _ (applyFilters pathMatch (fetchedGit refs errno) () 0 rfs []) :=
    applyFilters_passes (fun _ h => h) 0 hempty
  rw [hspecs] at hholds
  have hnone : ∀ i ∈ fs, i.refspecs = none := fun i hi =>
    Option.isSome_eq_false_iff.mp (hholds.sound i hi).isSome |> Option.isNone_iff_eq_none.mp
  have hlists := refspecLists_none hnone
  obtain ⟨frs, hfrs⟩ := setTimestamps_fetched refs errno (fs.map FetchSpec.fragment)
  have hfetch : fetch pathMatch (fetchedGit refs errno) () rfs
      = .ok (frs.mergeSort fun x y => x.timestamp ≤ y.timestamp, ()) := by
    unfold fetch sortFragments
    rw [if_neg hne, hspecs]
    change (if _ then _ else _) = _
    rw [hlists]
    simp only [Bool.not_false, and_self, if_true, hfrs]
    rfl
  refine ⟨_, hfetch, fun c => ?_⟩
  have hpass : Passes _ (fetch pathMatch (fetchedGit refs errno) () rfs) := fetch_passes hne
  rw [hfetch] at hpass
  obtain ⟨fs', hfetched⟩ := hpass
  rw [hfetched.mem c, ← hrfs, select_exclusions, Nat.zero_add]
  exact Iff.rfl

/-- **When a fetch does what it promises.** It does if the default set, wherever it is among the
filters, is made up of the right tags; and for a list of references it does whatever the filters,
the commits that are there and the capabilities if and only if the tags that are seen, those in
front of the first one whose version has a number that does not fit in 64 bits, give the commits of
the default set. -/
theorem fetch_iff (pathMatch : Bytes → Bytes → Bool) :
    (∀ {σ : Type} (git : Git σ) (dir : σ) (rfs : List RefFilter), rfs ≠ [] →
      (∀ k rf, rfs[k]? = some rf → rf.defaultRefs = true →
        Unspoilt (git.refs.getD []) (git.errno k)) → Meets pathMatch git dir rfs) ∧
    ∀ (refs : List Ref) (errno : ℕ → Errno),
      (∀ {σ : Type} (git : Git σ) (dir : σ) (rfs : List RefFilter), git.refs = some refs →
        git.errno = errno → rfs ≠ [] → Meets pathMatch git dir rfs) ↔
        ∀ k, Unspoilt refs (errno k) := by
  refine ⟨fun git dir rfs hne h => meets_of_unspoilt hne h, fun refs errno => ⟨fun h k => ?_, ?_⟩⟩
  · obtain ⟨r, hok, hmem⟩ := fetch_default pathMatch refs errno k
    have hmeets := h (fetchedGit refs errno) ()
      (List.replicate k exclusionFilter ++ [defaultFilter]) rfl rfl (by simp)
    obtain ⟨-, hselected, -⟩ := hmeets.fragments r () hok
    refine Set.ext fun c => ?_
    rw [← hmem c, hselected c, selected, select_exclusions]
    exact Iff.rfl
  · intro h σ git dir rfs hrefs herrno hne
    refine meets_of_unspoilt hne fun k rf _ _ => ?_
    rw [hrefs, herrno]
    exact h k

/-- The default set of the tags `v1.2.3` and `v1.2.3+1`. -/
theorem fetch_iff_revision :
    Meets (fun _ _ => false) (fetchedGit
        [⟨str "refs/tags/v1.2.3".toList, str ['a'], false⟩,
          ⟨str "refs/tags/v1.2.3+1".toList, str ['b'], false⟩] fun _ => .zero) ()
      [defaultFilter] := by
  refine (fetch_iff fun _ _ => false).1 _ _ _ (by simp) fun k rf _ _ => ?_
  have hseen : seen .zero [⟨str "refs/tags/v1.2.3".toList, str ['a'], false⟩,
      ⟨str "refs/tags/v1.2.3+1".toList, str ['b'], false⟩]
      = [⟨str "refs/tags/v1.2.3".toList, str ['a'], false⟩,
        ⟨str "refs/tags/v1.2.3+1".toList, str ['b'], false⟩] := by decide
  exact congrArg (defaultCommits _) hseen

/-- The tags `v99999999999999999999.0.0` and `v1.2.3`. -/
def oversized : List Ref :=
  [⟨str "refs/tags/v99999999999999999999.0.0".toList, str ['a'], false⟩,
    ⟨str "refs/tags/v1.2.3".toList, str ['b'], false⟩]

/-- **The tag `v1.2.3` is not in the default set** after a tag with a number that does not fit. -/
theorem not_meets_oversized :
    ¬ Meets (fun _ _ => false) (fetchedGit oversized fun _ => .zero) () [defaultFilter] := by
  intro h
  obtain ⟨r, hok, hmem⟩ := fetch_default (fun _ _ => false) oversized (fun _ => .zero) 0
  obtain ⟨-, hselected, -⟩ := h.fragments r () hok
  have hdefault : IsDefault oversized ⟨str "refs/tags/v1.2.3".toList, str ['b'], false⟩ := by
    refine ⟨[_], [], ⟨1, 100002000030000, 0, [], 0⟩, rfl, by decide, fun r' hr' v' hv' => ?_, nofun⟩
    obtain rfl := List.mem_singleton.mp hr'
    have hnone : version? ⟨str "refs/tags/v99999999999999999999.0.0".toList, str ['a'], false⟩
        = none := by decide
    rw [hnone] at hv'
    cases hv'
  have hin : str ['b'] ∈ selected (fun _ _ => false) oversized [defaultFilter] :=
    .inr ⟨_, hdefault, by decide⟩
  obtain ⟨r', ⟨pre, suf, v, hsplit, -⟩, -⟩ := (hmem _).mp ((hselected _).mpr hin)
  have hseen : seen .zero oversized = [] := by decide
  rw [hseen] at hsplit
  simp at hsplit

end Build2.Bpkg.FetchGit
