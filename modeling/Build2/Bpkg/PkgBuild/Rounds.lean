import Build2.Bpkg.PkgBuild.Postponed

/-! # The rounds come to an end

A round that leaves the weight of the map as it is does not make any entry complete (`Frozen`), so
that the packages it postpones are postponed in the next one as well. So the postponed packages do
not change for ever (`no_endless_progress`). -/

namespace Build2.Bpkg.PkgBuild

open Relation Build2.Lib.Stateful Build2.Libbpkg BuildPackages Collection

/-- A set of available packages, with all that dependencies are built from, in which the name and
the version determine the dependencies. -/
structure Environment.Coherent (env : Environment) (U : Set AvailablePackage) : Prop where
  candidates : ∀ n ap, env.CandidateFor n ap → ap ∈ U
  determined : ∀ ap ∈ U, ∀ ap' ∈ U, ap.name = ap'.name →
    sameVersion ap.version ap'.version = true → ap.dependencies = ap'.dependencies

/-- The builds in the map are made of the selected packages and of available packages of the set. -/
def Collection.Within (s : Collection) (env : Environment) (U : Set AvailablePackage) : Prop :=
  ∀ n p, s.package n = some p → p.action = some .build →
    p.selected = env.selected n ∧ ∃ ap ∈ U, p.available = some ap ∧ ap.name = n

/-- A package as it is collected for a dependent. -/
def Gathered (env : Environment) (cands : Finset AvailablePackage) (pkg : BuildPackage) : Prop :=
  ∃ ap ∈ cands, pkg.available = some ap ∧ pkg.selected = env.selected ap.name ∧
    pkg.userSelection = false

/-- No entry becomes a build or complete. -/
structure Frozen (s s' : Collection) : Prop where
  built : ∀ n, s'.Built n → s.Built n
  complete : ∀ n, s'.Complete n → s.Complete n

section

variable {env : Environment} {U : Set AvailablePackage} {cands : Finset AvailablePackage}
  {s s' s1 : Collection} {n : PackageName} {p pkg bp : BuildPackage} {b : Bool}
  {x y : List PackageName × Collection}

theorem Gathered.from (h : Gathered env cands pkg) : From cands pkg := by
  obtain ⟨ap, hmem, hap, -⟩ := h
  intro ap' hap'
  obtain rfl := Option.some.inj (hap.symm.trans hap')
  exact hmem

theorem supplies_gathered (hn : env.Named) (hc : ∀ ap, env.Candidate ap → ap ∈ cands) :
    Supplies env (Gathered env cands) := by
  intro s entry ap recursively da dp r h
  obtain ⟨hcand, hsel⟩ := candidateFor_next h
  refine ⟨r.available, hc _ ⟨_, hcand⟩, rfl, ?_, ?_⟩
  · exact hsel.trans (congrArg env.selected (hn _ _ hcand).symm)
  · refine decide_eq_false fun hmem => ap.named ?_
    exact (List.mem_singleton.mp hmem).symm

theorem Frozen.trans (h : Frozen s s1) (h' : Frozen s1 s') : Frozen s s' :=
  ⟨fun n hn => h.built n (h'.built n hn), fun n hn => h.complete n (h'.complete n hn)⟩

theorem dependencies_eq (hU : env.Coherent U) {ap ap' : AvailablePackage} (hap : ap ∈ U)
    (hap' : ap' ∈ U) (hname : ap.name = ap'.name) {v w : Version}
    (hp : p.available = some ap) (hbp : bp.available = some ap') (hs : p.system = false)
    (hs' : bp.system = false) (hv : p.availableVersion = .ok v) (hw : bp.availableVersion = .ok w)
    (hk : v.key = w.key) : ap.dependencies = ap'.dependencies := by
  unfold BuildPackage.availableVersion at hv hw
  rw [hp, hs] at hv
  rw [hbp, hs'] at hw
  simp only [Bool.false_eq_true, if_false] at hv hw
  split_ifs at hv hw
  cases hv
  cases hw
  exact hU.determined ap hap ap' hap' hname (sameVersion_iff.mpr hk)

/-- A build that replaces one of its own version is looked into if that one was. -/
theorem not_pruned_of_replaced (hsel : p.selected = bp.selected) (hs : p.system = false)
    {v w : Version} (hv : bp.availableVersion = .ok v) (hw : p.availableVersion = .ok w)
    (hk : v.key = w.key) (h : ¬ bp.Pruned) : ¬ p.Pruned := by
  rintro (hy | hy)
  · rw [hs] at hy
    cases hy
  · refine h (Or.inr ?_)
    unfold sameConfigured at hy ⊢
    rw [← hsel]
    cases hsp : p.selected with
    | none =>
      rw [hsp] at hy
      cases hy
    | some sp =>
      rw [hsp] at hy
      simp only at hy ⊢
      split_ifs at hy ⊢
      · rw [hw] at hy
        rw [hv]
        have hsame := Except.ok.inj hy
        refine congrArg Except.ok (sameVersion_iff.mpr ?_)
        exact (sameVersion_iff.mp hsame).trans hk.symm
      · cases hy

theorem Frozen.of_same (h : ∀ n, s.Same s' n) : Frozen s s' := by
  have hb : ∀ n, s'.Built n → s.Built n := fun n ⟨p, hp, ha⟩ => by
    obtain ⟨q, hq, hk⟩ := Collection.Same.cases (h n).symm hp
    exact ⟨q, hq, (congrArg Prod.fst hk).symm.trans ha⟩
  exact ⟨hb, fun n hn => hn.of_same (h n).symm hb⟩

theorem put_within (hc : ∀ ap ∈ cands, ap ∈ U) (hs : s.Within env U) (hp : Gathered env cands pkg)
    (h : s.put pkg = .ok (b, s')) : s'.Within env U := by
  obtain ⟨ap, p, hap, -, ho, rfl⟩ := Collection.put_cases h
  obtain ⟨ap', hmem, hap', hsel, -⟩ := hp
  obtain rfl := Option.some.inj (hap.symm.trans hap')
  intro m q hq ha
  rw [Collection.package_store] at hq
  split_ifs at hq with hm
  · cases hq
    subst hm
    cases b with
    | true =>
      have hk := ho.put_kind
      have hs1 : p.selected = pkg.selected := congrArg (·.2.1) hk
      have ha1 : p.available = pkg.available := congrArg (·.2.2.1) hk
      exact ⟨hs1.trans hsel, ap, hc ap hmem, ha1.trans hap, rfl⟩
    | false =>
      obtain ⟨bp, hbp, hk⟩ := ho.kept_kind
      have hact : bp.action = p.action := congrArg Prod.fst hk
      have hs1 : bp.selected = p.selected := congrArg (·.2.1) hk
      have ha1 : bp.available = p.available := congrArg (·.2.2.1) hk
      rw [← hs1, ← ha1]
      exact hs ap.name bp hbp (hact.trans ha)
  · exact hs m q hq ha

/-- **A put that leaves the weight as it is** makes no entry complete. -/
theorem put_frozen (hU : env.Coherent U) (hc : ∀ ap ∈ cands, ap ∈ U) (hs : s.Within env U)
    (hp : Gathered env cands pkg) (h : s.put pkg = .ok (b, s'))
    (hw : mapWeight cands s ≤ mapWeight cands s') : Frozen s s' := by
  obtain ⟨ap, p, hap, -, ho, hs'⟩ := Collection.put_cases h
  obtain ⟨-, hne, -, hsame⟩ := put_kind hap h
  cases b with
  | false =>
    refine .of_same fun m => ?_
    by_cases hm : m = ap.name
    · exact hm ▸ hsame rfl
    · unfold Collection.Same
      rw [hne m hm]
  | true =>
    -- it met a build of its own version
    obtain ⟨ap', bp, v, w, hap', hbp, hb, hv, hw, hk⟩ :=
      ((put_weight hp.from h).2 rfl).resolve_left hw.not_gt
    obtain rfl := Option.some.inj (hap.symm.trans hap')
    obtain ⟨ap', hmem, hap', hsel, hu⟩ := hp
    obtain rfl := Option.some.inj (hap.symm.trans hap')
    have hp' : s'.package ap.name = some p := by
      rw [hs', Collection.package_store, if_pos rfl]
    have hkind := ho.put_kind
    have hbuilt : ∀ m, s'.Built m → s.Built m := fun m hm => by
      by_cases he : m = ap.name
      · exact ⟨bp, he ▸ hbp, hb⟩
      · obtain ⟨q, hq⟩ := hm
        exact ⟨q, by rw [← hne m he]; exact hq.1, hq.2⟩
    refine ⟨hbuilt, fun m hm => ?_⟩
    by_cases he : m = ap.name
    swap
    · refine hm.of_same ?_ hbuilt
      unfold Collection.Same
      rw [hne m he]
    subst he
    obtain ⟨q, hq, hqa, hd⟩ := hm
    obtain rfl := Option.some.inj (hp'.symm.trans hq)
    refine ⟨bp, hbp, hb, ?_⟩
    by_cases hpr : bp.Pruned
    · exact Or.inl hpr
    have hbs : bp.system = false := Bool.eq_false_iff.mpr fun h => hpr (Or.inl h)
    obtain ⟨hbsel, ap0, hmem0, hap0, hname0⟩ := hs ap.name bp hbp hb
    have hps : p.system = false := by
      rw [show p.system = pkg.system from congrArg (·.2.2.2) hkind]
      rw [hbp] at ho
      cases ho with
      | merged ha => exact absurd hb ha
      | replaced _ hr _ =>
        obtain ⟨v', w', hv', hw', ⟨-, ht⟩ | ⟨hne', -⟩⟩ := BuildPackage.replaces_cases hr
        · rw [hu, Bool.false_or] at ht
          simpa using (Bool.and_eq_true_iff.mp ht.symm).2
        · obtain rfl := Except.ok.inj (hv.symm.trans hv')
          obtain rfl := Except.ok.inj (hw.symm.trans hw')
          exact absurd (sameVersion_iff.mp hk) hne'
    have hav : p.available = some ap :=
      (show p.available = pkg.available from congrArg (·.2.2.1) hkind).trans hap
    have hpv : p.availableVersion = .ok w := by
      rw [← hw]
      unfold BuildPackage.availableVersion
      rw [show p.available = pkg.available from congrArg (·.2.2.1) hkind,
        show p.system = pkg.system from congrArg (·.2.2.2) hkind]
    have hpsel : p.selected = bp.selected :=
      (show p.selected = pkg.selected from congrArg (·.2.1) hkind).trans (hsel.trans hbsel.symm)
    have hkey := sameVersion_iff.mp hk
    obtain ⟨ap', hap', hall⟩ := hd.resolve_left
      (not_pruned_of_replaced hpsel hps hv hpv hkey hpr)
    obtain rfl := Option.some.inj (hav.symm.trans hap')
    have hdeps : ap.dependencies = ap0.dependencies := dependencies_eq hU (hc ap hmem) hmem0
      hname0.symm hav hap0 hps hbs hpv hv hkey.symm
    exact Or.inr ⟨ap0, hap0, fun da hda => (hall da (hdeps ▸ hda)).mono hbuilt⟩

/-- **Any number of steps.** -/
theorem steps_frozen (hU : env.Coherent U) (hc : ∀ ap ∈ cands, ap ∈ U) (hs : s.Within env U)
    (h : Steps (Gathered env cands) s s') : s'.Within env U ∧
      mapWeight cands s' ≤ mapWeight cands s ∧
        (mapWeight cands s ≤ mapWeight cands s' → Frozen s s') := by
  induction h with
  | refl => exact ⟨hs, le_rfl, fun _ => .of_same fun n => rfl⟩
  | tail _ hst ih =>
    obtain ⟨hin, hle, hfr⟩ := ih
    cases hst with
    | put hp h =>
      have hle' := (put_weight hp.from h).1
      refine ⟨put_within hc hin hp h, hle'.trans hle, fun hw => ?_⟩
      exact (hfr (hw.trans hle')).trans (put_frozen hU hc hin hp h (hle.trans hw))
    | postponed l =>
      exact ⟨hin, hle, fun hw => (hfr hw).trans (.of_same fun n => rfl)⟩

end

/-! ### Rounds -/

section

variable {env : Environment} {U : Set AvailablePackage} {cands : Finset AvailablePackage}
  {x y z : List PackageName × Collection} (hn : env.Named) (hU : env.Coherent U)
  (hcands : ∀ ap, env.Candidate ap ↔ ap ∈ cands)

include hn hU hcands

/-- **A round that leaves the weight as it is** postpones packages that are not complete. -/
theorem Round.frozen (hr : Round env x y) (hx : x.2.Within env U) : y.2.Within env U ∧
    mapWeight cands y.2 ≤ mapWeight cands x.2 ∧
      (mapWeight cands x.2 ≤ mapWeight cands y.2 →
        Frozen x.2 y.2 ∧ ∀ n ∈ y.1, y.2.Built n ∧ ¬ y.2.Complete n) := by
  have hc : ∀ ap ∈ cands, ap ∈ U := fun ap hap =>
    have ⟨n, h⟩ := (hcands ap).mpr hap
    hU.candidates n ap h
  obtain ⟨k, -, h, hy⟩ := hr
  obtain ⟨hadv, -⟩ := collectRound_advances hn
    (supplies_gathered hn fun ap hap => (hcands ap).mp hap) h
  have hs0 : Collection.Within { x.2 with postponed := [] } env U := hx
  obtain ⟨hin, hle, hfr⟩ := steps_frozen hU hc hs0 hadv.steps
  refine ⟨hin, hle, fun hw => ⟨?_, fun n hmem => ?_⟩⟩
  · obtain ⟨h1, h2⟩ := hfr hw
    exact ⟨h1, h2⟩
  · rw [hy] at hmem
    obtain ⟨hb, s1, h1, h2, hno⟩ := (hadv.pending n hmem).resolve_left List.not_mem_nil
    obtain ⟨hin1, hle1, -⟩ := steps_frozen hU hc hs0 h1
    obtain ⟨-, -, hfr2⟩ := steps_frozen hU hc hin1 h2
    exact ⟨hb, fun hcomp => hno ((hfr2 (hle1.trans hw)).complete n hcomp)⟩

/-- Two such rounds: what the first one postpones is postponed by the second one. -/
theorem Round.subset (hr : Round env x y) (hr' : Round env y z) (hx : x.2.Within env U)
    (hw : mapWeight cands x.2 ≤ mapWeight cands z.2) : y.1 ⊆ z.1 := by
  obtain ⟨hy, hle, hfr⟩ := Round.frozen hn hU hcands hr hx
  obtain ⟨-, hle', hfr'⟩ := Round.frozen hn hU hcands hr' hy
  obtain ⟨-, hwait⟩ := hfr (hw.trans hle')
  obtain ⟨hfr, -⟩ := hfr' (hle.trans hw)
  intro n hmem
  obtain ⟨k, -, h, hz⟩ := hr'
  rcases (collectRound_advances hn supplies_all h).2 n hmem with hp | hc
  · exact hz ▸ hp
  · exact absurd (hfr.complete n hc) (hwait n hmem).2

/-- **The postponed packages do not change for ever.** -/
theorem no_endless_progress {f : ℕ → List PackageName × Collection}
    (hf : ∀ i, Round env (f i) (f (i + 1))) (h0 : (f 0).2.Within env U) :
    ∃ i, (f (i + 1)).1.toFinset = (f i).1.toFinset := by
  by_contra hne
  rw [not_exists] at hne
  have hin : ∀ i, (f i).2.Within env U := fun i => by
    induction i with
    | zero => exact h0
    | succ i ih => exact (Round.frozen hn hU hcands (hf i) ih).1
  have hanti : Antitone fun i => mapWeight cands (f i).2 :=
    antitone_nat_of_succ_le fun i => (Round.frozen hn hU hcands (hf i) (hin i)).2.1
  obtain ⟨_, ⟨N, rfl⟩, hmin⟩ := Nat.lt_wfRel.wf.has_min
    (Set.range fun i => mapWeight cands (f i).2) ⟨_, 0, rfl⟩
  have hw : ∀ i j, N ≤ i → mapWeight cands (f i).2 ≤ mapWeight cands (f j).2 := fun i j hi =>
    (hanti hi).trans (not_lt.mp (hmin _ ⟨j, rfl⟩))
  -- from there on all that is postponed was a build then
  have hbuilt : ∀ i n, (f (N + i)).2.Built n → (f N).2.Built n := fun i n => by
    induction i with
    | zero => exact id
    | succ i ih =>
      intro hb
      have hle := hw (N + i) (N + (i + 1)) (Nat.le_add_right N i)
      exact ih (((Round.frozen hn hU hcands (hf (N + i)) (hin _)).2.2 hle).1.built n hb)
  have hsub : ∀ i, (f (N + (i + 1))).1.toFinset ⊆ (f N).2.packages.map.keys.toFinset := by
    intro i n hmem
    have hle := hw (N + i) (N + (i + 1)) (Nat.le_add_right N i)
    obtain ⟨hb, -⟩ := ((Round.frozen hn hU hcands (hf (N + i)) (hin _)).2.2 hle).2 n
      (List.mem_toFinset.mp hmem)
    obtain ⟨p, hp, -⟩ := hbuilt (i + 1) n hb
    obtain ⟨e, he, -⟩ := Option.map_eq_some_iff.mp hp
    rw [List.mem_toFinset, ← AList.mem_keys, ← AList.lookup_isSome, he]
    rfl
  -- there are more of them after each round
  have hcard : ∀ i, i ≤ (f (N + (i + 1))).1.toFinset.card := fun i => by
    induction i with
    | zero => exact Nat.zero_le _
    | succ i ih =>
      have hle := hw (N + i) (N + (i + 1) + 1) (Nat.le_add_right N i)
      have hss := Round.subset hn hU hcands (hf (N + i)) (hf (N + (i + 1))) (hin _) hle
      have hlt : (f (N + (i + 1))).1.toFinset ⊂ (f (N + (i + 1) + 1)).1.toFinset :=
        Finset.ssubset_iff_subset_ne.mpr
          ⟨fun n hmem => List.mem_toFinset.mpr (hss (List.mem_toFinset.mp hmem)), Ne.symm (hne _)⟩
      exact Nat.succ_le_of_lt (ih.trans_lt (Finset.card_lt_card hlt))
  have := (hcard ((f N).2.packages.map.keys.toFinset.card + 1)).trans (Finset.card_le_card (hsub _))
  omega

end

/-! ### The function -/

section

variable {env : Environment} {s : Collection} {pkgs : List PackageName} {k k' rounds rounds' : ℕ}
  {prog recursively : Bool} {entry name : PackageName} {l : List DependencyAlternatives}
  {collect : BuildPackage → Collection → Except Fault (Bool × Collection)}

theorem settled_collectPrerequisites (hc : ∀ pkg s, Settled (collect pkg s)) :
    Settled (collectPrerequisites env collect entry recursively s) := by
  have hl : ∀ name l s, Settled (collectDependencies env collect entry name recursively l s) := by
    intro name l
    induction l with
    | nil => exact fun s => settled_ok _
    | cons da l ih =>
      intro s
      refine settled_bind (settled_bind (settled_next recursively da) fun a _ => ?_) fun x _ =>
        settled_ite (fun _ => ih _) fun _ => settled_ok _
      cases a with
      | nothing => exact settled_ok _
      | postpone => exact settled_ok _
      | collect dp r =>
        exact settled_bind (hc _ s) fun _ _ =>
          settled_ite (fun _ => settled_error Fault.noConfusion) fun _ => settled_ok _
  unfold collectPrerequisites
  split
  · exact settled_error Fault.noConfusion
  refine settled_ite (fun _ => settled_error Fault.noConfusion) fun _ => settled_ite
    (fun _ => settled_ok _) fun _ => ?_
  split
  · exact settled_error Fault.noConfusion
  · exact settled_bind (settled_of_ordinary ordinary_sameConfigured) fun _ _ => settled_ite
      (fun _ => settled_ok _) fun _ => hl _ _ _

theorem settled_last : Settled (collectRound env (k + 1) false pkgs s) := by
  have hb : ∀ pkg s, Settled (collectBuild env false (k + 1) pkg s) := fun pkg s =>
    settled_bind (settled_of_ordinary ordinary_put) fun x _ => settled_ite
      (fun h => absurd h (by simp)) fun _ => settled_ok _
  unfold collectRound
  induction pkgs generalizing s with
  | nil => exact settled_ok _
  | cons n pkgs ih =>
    rw [List.foldlM_cons]
    exact settled_bind (settled_collectPrerequisites hb) fun s1 _ => ih

/-- Greater bounds change nothing. -/
theorem collectPostponed_agrees (hk : k ≤ k') (hr : rounds ≤ rounds')
    (h : Settled (collectPostponed env k rounds prog pkgs s)) :
    collectPostponed env k' rounds' prog pkgs s = collectPostponed env k rounds prog pkgs s := by
  induction rounds generalizing rounds' prog pkgs s with
  | zero => exact absurd rfl h
  | succ rounds ih =>
    obtain ⟨rounds', rfl⟩ : ∃ m, rounds' = m + 1 := Nat.exists_eq_succ_of_ne_zero (by omega)
    unfold collectPostponed at h ⊢
    split_ifs at h ⊢
    · rfl
    · exact bind_eq_of_settled (collectRound_agrees hk) (fun s1 h1 => ih (by omega) h1) h
    · exact bind_eq_of_settled (collectRound_agrees hk) (fun s1 _ => rfl) h

/-- **The rounds come to an end** if each of them does. -/
theorem collectPostponed_settles {U : Set AvailablePackage} (hn : env.Named) (hU : env.Coherent U)
    (hfin : {ap | env.Candidate ap}.Finite) (hs : s.Within env U)
    (hend : ∀ y, ReflTransGen (Round env) (pkgs, s) y →
      ∃ k, Settled (collectRound env k true y.1 { y.2 with postponed := [] })) :
    ∃ k, Settled (collectPostponed env k k true pkgs s) := by
  have hmem : ∀ ap, env.Candidate ap ↔ ap ∈ hfin.toFinset := fun ap => hfin.mem_toFinset.symm
  -- the relation between states of which the second one follows and has other postponed packages
  let r : List PackageName × Collection → List PackageName × Collection → Prop := fun y x =>
    Round env x y ∧ y.1.toFinset ≠ x.1.toFinset
  have hacc : Acc r (pkgs, s) := by
    by_contra hno
    obtain ⟨f, hf0, hf⟩ := not_acc_iff_exists_descending_chain.mp hno
    obtain ⟨i, hi⟩ := no_endless_progress hn hU hmem (fun i => (hf i).1) (hf0 ▸ hs)
    exact (hf i).2 hi
  have hall : ∀ x, Acc r x → ReflTransGen (Round env) (pkgs, s) x →
      ∃ k, Settled (collectPostponed env k k true x.1 x.2) := by
    intro x hx
    induction hx with
    | intro x _ ih =>
      intro hreach
      by_cases hne : x.1 = []
      · refine ⟨1, ?_⟩
        unfold collectPostponed
        exact settled_ite (fun _ => settled_ok _) fun h => absurd hne h
      obtain ⟨k, hk⟩ := hend x hreach
      cases h1 : collectRound env k true x.1 { x.2 with postponed := [] } with
      | error e =>
        refine ⟨k + 1, ?_⟩
        unfold collectPostponed
        rw [if_neg hne, collectRound_agrees (Nat.le_succ k) hk, h1]
        exact fun he => hk (h1.trans (congrArg _ (Except.error.inj he)))
      | ok s1 =>
        have hr : Round env x (s1.postponed, s1) := ⟨k, hne, h1, rfl⟩
        by_cases hsame : s1.postponed.toFinset = x.1.toFinset
        · refine ⟨k + 2, ?_⟩
          unfold collectPostponed
          rw [if_neg hne, collectRound_agrees (Nat.le_add_right k 2) hk, h1]
          refine settled_bind (settled_ok s1) fun a ha => ?_
          obtain rfl := Except.ok.inj ha
          rw [if_pos rfl, decide_eq_false (not_not.mpr hsame)]
          -- the next round is the last one
          unfold collectPostponed
          refine settled_ite (fun _ => settled_ok _) fun _ => ?_
          exact settled_bind settled_last fun _ _ => settled_ite
            (fun h => absurd h (by simp)) fun _ => settled_error Fault.noConfusion
        · obtain ⟨k', hk'⟩ := ih (s1.postponed, s1) ⟨hr, hsame⟩ (hreach.tail hr)
          refine ⟨max k k' + 1, ?_⟩
          have hagree : collectRound env (max k k' + 1) true x.1 { x.2 with postponed := [] } =
              collectRound env k true x.1 { x.2 with postponed := [] } :=
            collectRound_agrees (by omega) hk
          have hagree' : collectPostponed env (max k k' + 1) (max k k') true s1.postponed s1 =
              collectPostponed env k' k' true s1.postponed s1 :=
            collectPostponed_agrees (by omega) (le_max_right k k') hk'
          unfold collectPostponed
          rw [if_neg hne, hagree, h1]
          refine settled_bind (settled_ok s1) fun a ha => ?_
          obtain rfl := Except.ok.inj ha
          rw [if_pos rfl, decide_eq_true hsame, hagree']
          exact hk'
  exact hall _ hacc .refl

end

/-- **What `collect_build_postponed` does.** It comes to an end if its rounds do. When it returns,
the packages of all rounds are complete, as is every other entry unless it is of the kind it was
before and was not complete then. A dependency is unknown because a round gets to it in a state in
which the user does not constrain it, or after a round that left the postponed packages what they
were. -/
theorem postponed_collected (env : Environment) (hn : env.Named)
    (hfin : {ap | env.Candidate ap}.Finite) (pkgs : List PackageName) (s : Collection) :
    (∀ U, env.Coherent U → s.Within env U →
      (∀ y, ReflTransGen (Round env) (pkgs, s) y →
        ∃ k, collectRound env k true y.1 { y.2 with postponed := [] } ≠ .error .tooDeep) →
      ∃ k, collectPostponed env k k true pkgs s ≠ .error .tooDeep) ∧
    (∀ k rounds s', collectPostponed env k rounds true pkgs s = .ok s' →
      (∀ y, ReflTransGen (Round env) (pkgs, s) y → ∀ n ∈ y.1, s'.Complete n) ∧
      ∀ n, s'.Complete n ∨ s.Same s' n ∧ ¬ s.Complete n ∧ n ∉ pkgs) ∧
    ∀ k rounds d n, collectPostponed env k rounds true pkgs s = .error (.unknownDependency d n) →
      ∃ y, ReflTransGen (Round env) (pkgs, s) y ∧
        (UnknownIn env k y.1 { y.2 with postponed := [] } d n ∨
          ∃ z, ReflTransGen (Round env) (pkgs, s) z ∧ Round env z y ∧
            z.1.toFinset = y.1.toFinset) := by
  refine ⟨fun U hU hs hend => collectPostponed_settles hn hU hfin hs hend,
    fun k rounds s' h => complete_of_ok hn h, fun k rounds d n h => ?_⟩
  obtain ⟨y, hy, hc⟩ := rounds_of_error Fault.noConfusion .refl Bool.noConfusion h
  exact ⟨y, hy, hc.imp_left round_unknown⟩

/-! The program needs version 2 of the library, which the user asks for and which only the
application has in its repository. -/

/-- The program, with more dependencies, is in a repository with version 1 of the library. -/
def sharedDatabase (l : List DependencyAlternatives) : Database where
  selected := []
  available := [(.one sampleExe sampleExe_ne (dependsOn sampleLib ++ l), [[65]]),
    (.one sampleLib sampleLib_ne [], [[65]]), (.two sampleLib sampleLib_ne [], [[66]]),
    (.one sampleApp sampleApp_ne (dependsOn sampleLib), [[66]])]
  repositories := ⟨fun f => if f = [] then [[65], [66]] else [], fun _ => [],
    fun r => [r].filter fun r => r = [65] ∨ r = [66]⟩
  fragments := [[65], [66]]
  closed := mem_sampleFragments
  imaginaryStubs := []

def sharedEnvironment (l : List DependencyAlternatives) : Environment :=
  (sharedDatabase l).environment (fun _ => none) (fun _ => true) (fun _ => true) fun _ => 0

/-- The calls for both programs with `?lib/2`, up to the postponed packages. -/
def sharedCalls (l : List DependencyAlternatives) : List Call :=
  [.enter sampleLib ⟨none, none, none, none, some false, some true, [⟨[], exactly versionTwo⟩],
      false, false, [], [.empty], {}⟩,
    .collectBuild ⟨some .build, none,
      some (.one sampleExe sampleExe_ne (dependsOn sampleLib ++ l)), some [65], some true, none, [],
      false, false, [], [.empty], {}⟩ false,
    .collectBuild ⟨some .build, none, some (.one sampleApp sampleApp_ne (dependsOn sampleLib)),
      some [66], some true, none, [], false, false, [], [.empty], {}⟩ false,
    .collectPrerequisites sampleExe, .collectPrerequisites sampleApp]

theorem postponed_collected_exe : ∃ s s', runCalls (sharedEnvironment []) 4 (sharedCalls []) =
      .ok s ∧ s.postponed = [sampleExe] ∧
    collectPostponed (sharedEnvironment []) 4 4 true [sampleExe] s = .ok s' ∧
      s'.Complete sampleExe := by
  obtain ⟨s, hs, h⟩ := okAnd_iff.mp (show okAnd (fun s => s.postponed = [sampleExe] &&
    okAnd (fun _ => true) (collectPostponed (sharedEnvironment []) 4 4 true [sampleExe] s))
      (runCalls (sharedEnvironment []) 4 (sharedCalls [])) = true by decide +kernel)
  rw [Bool.and_eq_true, decide_eq_true_eq] at h
  obtain ⟨s', hs', -⟩ := okAnd_iff.mp h.2
  have hall := (postponed_collected (sharedEnvironment [])
    (Database.named fun _ _ _ h => (by cases h)) Database.finite_candidates [sampleExe] s).2.1
      4 4 s' hs'
  exact ⟨s, s', hs, h.1, hs', hall.1 _ .refl sampleExe List.mem_cons_self⟩

/-- The program also depends on the application, which its repository does not have. This is unknown
in the first round, before any round is complete. -/
theorem unknown_at_once : ∃ s, runCalls (sharedEnvironment (dependsOn sampleApp)) 4
      (sharedCalls (dependsOn sampleApp)) = .ok s ∧ s.postponed = [sampleExe] ∧
    collectPostponed (sharedEnvironment (dependsOn sampleApp)) 4 4 true [sampleExe] s =
      .error (.unknownDependency sampleApp sampleExe) ∧
    ¬ ∃ y, Round (sharedEnvironment (dependsOn sampleApp)) ([sampleExe], s) y := by
  obtain ⟨s, hs, h⟩ := okAnd_iff.mp (show okAnd (fun s => s.postponed = [sampleExe] &&
    (failure (collectPostponed (sharedEnvironment (dependsOn sampleApp)) 4 4 true [sampleExe] s) =
        some (.unknownDependency sampleApp sampleExe) &&
      failure (collectRound (sharedEnvironment (dependsOn sampleApp)) 4 true [sampleExe]
        { s with postponed := [] }) = some (.unknownDependency sampleApp sampleExe)))
      (runCalls (sharedEnvironment (dependsOn sampleApp)) 4 (sharedCalls (dependsOn sampleApp))) =
        true by decide +kernel)
  simp only [Bool.and_eq_true, decide_eq_true_eq, failure_eq_some] at h
  refine ⟨s, hs, h.1, h.2.1, ?_⟩
  rintro ⟨y, k, -, hy, -⟩
  have h4 := collectRound_agrees (le_max_left 4 k) (h.2.2 ▸ settled_error Fault.noConfusion)
  have hk := collectRound_agrees (le_max_right 4 k) (hy ▸ settled_ok y.2)
  rw [hk, hy, h.2.2] at h4
  cases h4

end Build2.Bpkg.PkgBuild
