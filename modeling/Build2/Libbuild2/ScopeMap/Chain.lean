import Build2.Libbuild2.ScopeMap.Basic

/-! # The chain of scopes

In the forest of the directories, the parent of a scope is the nearest scope above it and its root
the nearest root scope at or above it. An insertion keeps it so whichever scopes there are already:
the first scope below the new one has had the parent of the new one so far, and a scope below takes
the new one for its parent or its root exactly when it has had that of the new one. -/

namespace Build2.Libbuild2.ScopeMap

open Build2.Lib.Forest Build2.Libbutl Build2.Libbutl.PathMap PathTraits

variable {C : Type} [PathTraits C]

/-- A directory in the forest of the directories. -/
def branch (k : Path C) : Branch C := terminated k

theorem global_le {k : Path C} (hk : Tidy k) : branch [] ≤ branch k := by
  change terminated [] <+: canonical k ++ [separator]
  rw [terminated_nil]
  rcases hk.anchored with h | h
  · rw [h]
    exact List.prefix_rfl
  · obtain ⟨t, ht⟩ := List.head?_eq_some_iff.mp h
    rw [ht]
    exact ⟨t ++ [separator], rfl⟩

/-- The directories of the scopes. -/
def members (m : ScopeMapBase C) : Set (Branch C) := {b | ∃ e ∈ m, branch e.1 = b}

/-- A pointer to one of the scopes or the null pointer. -/
def Refers (m : ScopeMapBase C) (p : Option (Path C)) : Prop := ∀ q, p = some q → ∃ e ∈ m, e.1 = q

/-- The scopes with their parents and their roots, where `R` are the root scopes. -/
structure Chained (m : ScopeMapBase C) (R : Set (Branch C)) : Prop where
  ordered : Ordered m
  proper : ∀ e ∈ m, e.1 ≠ [separator]
  global : ∃ e ∈ m, e.1 = []
  rooted : R ⊆ members m
  parent : ∀ e ∈ m, Greatest (members m ∩ Set.Iio (branch e.1)) (e.2.parent.map branch)
  parent_refers : ∀ e ∈ m, Refers m e.2.parent
  root : ∀ e ∈ m, Greatest (R ∩ Set.Iic (branch e.1)) (e.2.root.map branch)
  root_refers : ∀ e ∈ m, Refers m e.2.root

/-! ### Pointers -/

section

variable {m : ScopeMapBase C} (hm : Ordered m)
include hm

theorem eq_of_key {a b : Path C × Scope C} (ha : a ∈ m) (hb : b ∈ m) (h : a.1 = b.1) : a = b :=
  hm.eq_of_terminated ha hb (congrArg terminated h)

theorem deref_of_mem {e : Path C × Scope C} (he : e ∈ m) : deref m e.1 = some e.2 := by
  cases hf : m.find? (fun e' => e'.1 = e.1) with
  | none => simpa using List.find?_eq_none.mp hf e he
  | some e' =>
    have hk : e'.1 = e.1 := by simpa using List.find?_some hf
    rw [deref, hf, eq_of_key hm (List.mem_of_find?_eq_some hf) he hk]
    rfl

end

/-- An update of the scopes by their keys. -/
def updated (m : ScopeMapBase C) (f : Path C → Scope C → Scope C) : ScopeMapBase C :=
  m.map fun e => (e.1, f e.1 e.2)

section

variable {m : ScopeMapBase C} {f : Path C → Scope C → Scope C}

theorem ordered_updated (hm : Ordered m) : Ordered (updated m f) where
  sorted := List.pairwise_map.mpr hm.sorted
  tidy e he := by
    obtain ⟨e', he', rfl⟩ := List.mem_map.mp he
    exact hm.tidy e' he'

omit [PathTraits C] in
theorem updated_updated {g : Path C → Scope C → Scope C} :
    updated (updated m f) g = updated m fun x s => g x (f x s) := by
  simp [updated, Function.comp_def]

omit [PathTraits C] in
theorem updated_congr {g : Path C → Scope C → Scope C} (h : ∀ e ∈ m, f e.1 e.2 = g e.1 e.2) :
    updated m f = updated m g :=
  List.map_congr_left fun e he => by rw [h e he]

omit [PathTraits C] in
theorem updated_self (h : ∀ e ∈ m, f e.1 e.2 = e.2) : updated m f = m := by
  rw [updated, List.map_congr_left (g := id) fun e he => by rw [h e he]; rfl, List.map_id]

theorem assign_eq (p : Path C) (s : Scope C) :
    assign m p s = updated m fun x c => if x = p then s else c := by
  refine List.map_congr_left fun e _ => ?_
  by_cases h : e.1 = p <;> simp [h]

theorem deref_updated (p : Path C) : deref (updated m f) p = (deref m p).map (f p) := by
  induction m with
  | nil => rfl
  | cons e m ih =>
    by_cases h : e.1 = p
    · subst h
      simp [deref, updated]
    · have hne : ∀ s : Scope C, ((e.1, s) :: updated m f).find? (fun e => e.1 = p) =
          (updated m f).find? fun e => e.1 = p := fun s => by simp [h]
      rw [show deref (e :: m) p = deref m p by simp [deref, h], ← ih, deref, deref]
      exact congrArg _ (hne _)

end

/-! ### The loops -/

/-- What the loop over the scopes below `k` makes of one of them, where `p` is the parent of `k` and
`r` the root of `p`. -/
def adopted (k : Path C) (root : Bool) (r : Option (Path C)) (p : Path C)
    (c : Scope C) : Scope C where
  parent := if some p = c.parent then some k else c.parent
  root := if root = true ∧ c.root = r then some k else c.root

theorem rerooted_eq {m : ScopeMapBase C} (k : Path C) (root : Bool) {r : Option (Path C)}
    {p : Path C} (c : Scope C) (hp : rootOf m (some p) = some r) :
    (rerooted m k root (some p) c).map (reparented k (some p)) =
      some (adopted k root r p c) := by
  have hcomm : some p = c.parent ↔ c.parent = some p := eq_comm
  cases root
  · by_cases h : c.parent = some p <;> simp [rerooted, reparented, adopted, hcomm, h]
  · by_cases h : c.parent = some p <;> by_cases hr : c.root = r <;>
      simp [rerooted, reparented, adopted, hcomm, h, hr, hp]

theorem adopt_eq {m : ScopeMapBase C} (hm : Ordered m) {k p : Path C} {root : Bool}
    {r : Option (Path C)} {xs : List (Path C)} (hp : rootOf m (some p) = some r) (hpx : p ∉ xs)
    (hxs : ∀ x ∈ xs, ∃ e ∈ m, e.1 = x) (hnodup : xs.Nodup) :
    adopt k root xs m (some p) =
      some (updated m fun x c => if x ∈ xs then adopted k root r p c else c, some p) := by
  induction xs generalizing m with
  | nil =>
    rw [adopt, updated_self]
    simp
  | cons x xs ih =>
    obtain ⟨e, he, rfl⟩ := hxs x List.mem_cons_self
    rw [List.nodup_cons] at hnodup
    obtain ⟨c', hc', hck⟩ := Option.map_eq_some_iff.mp (rerooted_eq k root e.2 hp)
    have hpe : p ≠ e.1 := fun h => hpx (h ▸ List.mem_cons_self)
    have hp' : rootOf (assign m e.1 (adopted k root r p e.2)) (some p) = some r := by
      rw [assign_eq, rootOf, Option.bind_some, deref_updated]
      simpa [hpe, rootOf] using hp
    have hxs' : ∀ x ∈ xs, ∃ e' ∈ assign m e.1 (adopted k root r p e.2), e'.1 = x := fun x hx => by
      obtain ⟨e', he', rfl⟩ := hxs x (List.mem_cons_of_mem _ hx)
      rw [assign_eq]
      exact ⟨_, List.mem_map_of_mem he', rfl⟩
    have hm' : Ordered (assign m e.1 (adopted k root r p e.2)) := by
      rw [assign_eq]
      exact ordered_updated hm
    have hstep : adopt k root (e.1 :: xs) m (some p) =
        adopt k root xs (assign m e.1 (adopted k root r p e.2)) (some p) := by
      simp only [adopt, deref_of_mem hm he, Option.bind_eq_bind, Option.bind_some, Option.some_or,
        hc', hck]
    rw [hstep, ih hm' hp' (fun h => hpx (List.mem_cons_of_mem _ h)) hxs' hnodup.2, assign_eq,
      updated_updated]
    refine congrArg (fun m => some (m, some p)) (updated_congr fun e' he' => ?_)
    by_cases hk : e'.1 = e.1
    · obtain rfl := eq_of_key hm he' he hk
      simp [hnodup.1]
    · simp [hk]

/-- The loop takes the parent of the first scope for that of the new one. -/
theorem adopt_none {m : ScopeMapBase C} (hm : Ordered m) {k p : Path C} {root : Bool}
    {e : Path C × Scope C} (he : e ∈ m) (hp : e.2.parent = some p) (xs : List (Path C)) :
    adopt k root (e.1 :: xs) m none = adopt k root (e.1 :: xs) m (some p) := by
  simp only [adopt, deref_of_mem hm he, Option.bind_eq_bind, Option.bind_some, Option.none_or, hp,
    Option.some_or]

theorem upgrade_eq {m : ScopeMapBase C} (hm : Ordered m) {k : Path C} {r : Option (Path C)}
    {xs : List (Path C)} (hxs : ∀ x ∈ xs, ∃ e ∈ m, e.1 = x) (hnodup : xs.Nodup) :
    upgrade k r xs m = some (updated m fun x c =>
      if x ∈ xs ∧ c.root = r then { c with root := some k } else c) := by
  induction xs generalizing m with
  | nil =>
    rw [upgrade, updated_self]
    simp
  | cons x xs ih =>
    obtain ⟨e, he, rfl⟩ := hxs x List.mem_cons_self
    rw [List.nodup_cons] at hnodup
    set m' := if e.2.root = r then assign m e.1 { e.2 with root := some k } else m with hm'
    have hup : m' = updated m fun x c =>
        if x = e.1 ∧ e.2.root = r then { e.2 with root := some k } else c := by
      rw [hm']
      split_ifs with h
      · rw [assign_eq]
        simp [h]
      · rw [updated_self]
        simp [h]
    have hstep : upgrade k r (e.1 :: xs) m = upgrade k r xs m' := by
      simp only [upgrade, deref_of_mem hm he, Option.bind_eq_bind, Option.bind_some, hm']
    have hxs' : ∀ x ∈ xs, ∃ e' ∈ m', e'.1 = x := fun x hx => by
      obtain ⟨e', he', rfl⟩ := hxs x (List.mem_cons_of_mem _ hx)
      rw [hup]
      exact ⟨_, List.mem_map_of_mem he', rfl⟩
    rw [hstep, ih (hup ▸ ordered_updated hm) hxs' hnodup.2, hup, updated_updated]
    refine congrArg some (updated_congr fun e' he' => ?_)
    by_cases hk : e'.1 = e.1
    · obtain rfl := eq_of_key hm he' he hk
      simp [hnodup.1]
    · simp [hk]

/-! ### The scopes below -/

/-- The range of a scope starts with the scope itself and goes on with the scopes below it. -/
theorem below_spec {m : ScopeMapBase C} (hm : Ordered m) {k : Path C} (hk : Tidy k)
    {s : Path C × Scope C} (hs : s ∈ m) (hsk : branch s.1 = branch k) :
    (below m k).Pairwise (fun x y => terminated x < terminated y) ∧
      ∀ x, x ∈ below m k ↔ ∃ e ∈ m, e.1 = x ∧ branch k < branch e.1 := by
  have hsub : findSub m k = m.filter fun e => pathPrefix.isPrefix k e.1 := findSub_eq hm hk
  have hmem : ∀ e, e ∈ findSub m k ↔ e ∈ m ∧ branch k ≤ branch e.1 := fun e => by
    rw [hsub, List.mem_filter]
    exact and_congr_right fun he => isPrefix_iff (hm.tidy e he)
  have hsorted : (findSub m k).Pairwise fun a b => terminated a.1 < terminated b.1 := by
    rw [hsub]
    exact hm.sorted.sublist List.filter_sublist
  have hsmem : s ∈ findSub m k := (hmem s).mpr ⟨hs, hsk.ge⟩
  rw [below]
  cases hl : findSub m k with
  | nil => simp [hl] at hsmem
  | cons d l =>
    rw [hl] at hsorted hsmem hmem
    obtain ⟨hlt, htail⟩ := List.pairwise_cons.mp hsorted
    have hd : d = s := by
      rcases List.mem_cons.mp hsmem with h | h
      · exact h.symm
      · have hle : branch k ≤ branch d.1 := ((hmem d).mp List.mem_cons_self).2
        rw [← hsk] at hle
        exact absurd (hlt s h) (not_lt_of_isPrefix hle)
    subst hd
    refine ⟨List.pairwise_map.mpr htail, fun x => ?_⟩
    rw [List.tail_cons, List.mem_map]
    constructor
    · rintro ⟨e, he, rfl⟩
      obtain ⟨hem, hle⟩ := (hmem e).mp (List.mem_cons_of_mem _ he)
      refine ⟨e, hem, rfl, lt_of_le_of_ne hle fun heq => ?_⟩
      rw [← hsk] at heq
      exact (hlt e he).ne heq
    · rintro ⟨e, he, rfl, hlt'⟩
      refine ⟨e, (List.mem_cons.mp ((hmem e).mpr ⟨he, hlt'.le⟩)).resolve_left ?_, rfl⟩
      rintro rfl
      exact hlt'.ne hsk.symm

/-! ### A new scope -/

section

variable {m m' : ScopeMapBase C} {R : Set (Branch C)} (h : Chained m R) {k : Path C}
  (hk : IsDirectory k) (hm' : Ordered m') (hmem : ∀ e, e ∈ m' ↔ e = (k, {}) ∨ e ∈ m)
  (hnew : branch k ∉ members m)
include h hk hm' hmem hnew

theorem insertBelow_spec (root : Bool) :
    ∃ p ∈ m, IsGreatest (members m ∩ Set.Iio (branch k)) (branch p.1) ∧
      insertBelow m' k root = some (updated m' fun x c =>
        if x ∈ below m' k then adopted k root p.2.root p.1 c else c, some p.1) := by
  have hself : (k, {}) ∈ m' := (hmem _).mpr (.inl rfl)
  obtain ⟨hpair, hbelow⟩ := below_spec hm' hk.tidy hself rfl
  obtain ⟨g, hg, hgk⟩ := h.global
  have hgm : g ∈ m' := (hmem g).mpr (.inr hg)
  have hroot : k ≠ [separator] := by
    rintro rfl
    exact hnew ⟨g, hg, by rw [hgk, branch, branch, terminated_nil, terminated_root]⟩
  have hlen : 1 < m'.length := by
    by_contra hle
    have hpos := List.length_pos_of_mem hself
    obtain ⟨a, ha⟩ := List.length_eq_one_iff.mp (show m'.length = 1 by omega)
    rw [ha, List.mem_singleton] at hself hgm
    exact hnew ⟨g, hg, by rw [hgm, ← hself]⟩
  -- once the parent is known
  have hrun : ∀ p ∈ m, IsGreatest (members m ∩ Set.Iio (branch k)) (branch p.1) →
      adopt k root (below m' k) m' (some p.1) = some (updated m' fun x c =>
        if x ∈ below m' k then adopted k root p.2.root p.1 c else c, some p.1) := by
    intro p hp hgr
    refine adopt_eq hm' ?_ ?_ ?_ ?_
    · simp [rootOf, deref_of_mem hm' ((hmem p).mpr (.inr hp))]
    · intro hpb
      obtain ⟨e, -, he, hlt⟩ := (hbelow _).mp hpb
      exact absurd hgr.1.2 (not_lt_of_gt (he ▸ hlt))
    · intro x hx
      obtain ⟨e, he, hex, -⟩ := (hbelow _).mp hx
      exact ⟨e, he, hex⟩
    · exact hpair.imp fun hlt heq => hlt.ne (congrArg terminated heq)
  -- the scopes below other than the new one are old ones
  have hold : ∀ e ∈ m', branch k < branch e.1 → e ∈ m := fun e he hlt => by
    refine ((hmem e).mp he).resolve_left ?_
    rintro rfl
    exact lt_irrefl _ hlt
  cases hb : below m' k with
  | nil =>
    obtain ⟨e, he, hnear⟩ := nearest_findSup hm' ⟨g, hgm, by rw [hgk, terminated_nil]⟩
      (isDirectory_directory hk hroot)
    obtain ⟨hd, hdne, hdgr⟩ := terminated_directory hk hroot
    have hlt : branch e.1 < branch k := by
      refine lt_of_le_of_ne (hnear.above.trans hd) fun heq => hdne ?_
      exact hd.eq_of_length_le ((congrArg List.length heq).ge.trans hnear.above.length_le)
    have hem : e ∈ m := by
      refine ((hmem e).mp hnear.mem).resolve_left ?_
      rintro rfl
      exact lt_irrefl _ hlt
    refine ⟨e, hem, ⟨⟨⟨e, hem, rfl⟩, hlt⟩, ?_⟩, ?_⟩
    · rintro _ ⟨⟨e', he', rfl⟩, hlt'⟩
      have hlt' : branch e'.1 < branch k := hlt'
      exact hnear.greatest e' ((hmem e').mpr (.inr he')) (hdgr _ hlt'.le hlt'.ne)
    · rw [insertBelow, if_pos hlen, hb, updated_self (by simp)]
      simp [adopt, find, (isDirectory_directory hk hroot).normalized, he]
  | cons x xs =>
    rw [hb] at hpair
    obtain ⟨e, he', rfl, hlt⟩ := (hbelow x).mp (hb ▸ List.mem_cons_self)
    have he := hold e he' hlt
    have hpar := h.parent e he
    cases hq : e.2.parent with
    | none =>
      rw [hq] at hpar
      have hgb : branch g.1 ∈ members m ∩ Set.Iio (branch e.1) :=
        ⟨⟨g, hg, rfl⟩, hgk ▸ (global_le hk.tidy).trans_lt hlt⟩
      rw [show members m ∩ Set.Iio (branch e.1) = ∅ from hpar] at hgb
      exact hgb.elim
    | some q =>
      rw [hq] at hpar
      obtain ⟨p, hp, rfl⟩ := h.parent_refers e he q hq
      have hgr : IsGreatest (members m ∩ Set.Iio (branch k)) (branch p.1) := by
        refine greatest_of_first hlt hpar ?_ isForest_branch
        rintro _ ⟨e', he'', rfl⟩ hle hlt'
        have hkb : e'.1 ∈ below m' k :=
          (hbelow _).mpr ⟨e', (hmem e').mpr (.inr he''), rfl,
            lt_of_le_of_ne hle fun heq => hnew ⟨e', he'', heq.symm⟩⟩
        rw [hb, List.mem_cons] at hkb
        rcases hkb with heq | hx
        · exact hlt'.ne (congrArg branch heq)
        · exact not_lt_of_isPrefix hlt'.le ((List.pairwise_cons.mp hpair).1 _ hx)
      refine ⟨p, hp, hgr, ?_⟩
      have hrun' := hrun p hp hgr
      rw [hb] at hrun'
      rw [insertBelow, if_pos hlen, hb, adopt_none hm' he' hq, hrun']
      rfl

theorem insert_new (root : Bool) (hem : emplace m k {} = (m', k, true)) :
    ∃ p ∈ m, IsGreatest (members m ∩ Set.Iio (branch k)) (branch p.1) ∧
      insert m k root = some (updated m' fun x c =>
        if x = k then { parent := some p.1, root := if root then some k else p.2.root }
        else if x ∈ below m' k then adopted k root p.2.root p.1 c else c) := by
  obtain ⟨p, hp, hgr, hins⟩ := insertBelow_spec h hk hm' hmem hnew root
  have hself : (k, {}) ∈ m' := (hmem _).mpr (.inl rfl)
  obtain ⟨-, hbelow⟩ := below_spec hm' hk.tidy hself rfl
  have hpb : p.1 ∉ below m' k := fun hpb => by
    obtain ⟨e, -, he, hlt⟩ := (hbelow _).mp hpb
    exact absurd hgr.1.2 (not_lt_of_gt (he ▸ hlt))
  refine ⟨p, hp, hgr, ?_⟩
  have hr : rootOf (updated m' fun x c =>
      if x ∈ below m' k then adopted k root p.2.root p.1 c else c) (some p.1) = some p.2.root := by
    rw [rootOf, Option.bind_some, deref_updated, deref_of_mem hm' ((hmem p).mpr (.inr hp))]
    simp [hpb]
  have hroot : newRoot (updated m' fun x c =>
      if x ∈ below m' k then adopted k root p.2.root p.1 c else c) k root (some p.1) =
        some (if root then some k else p.2.root) := by
    rw [newRoot, hr]
    cases root <;> simp
  rw [insert, hem]
  simp only [hins, Option.bind_eq_bind, Option.bind_some, hroot, assign_eq, updated_updated]

end

/-! ### The chain -/

section

variable {m : ScopeMapBase C} {R : Set (Branch C)} (h : Chained m R)
include h

theorem map_branch_eq_iff {p q : Option (Path C)} (hp : Refers m p) (hq : Refers m q) :
    p.map branch = q.map branch ↔ p = q := by
  refine ⟨fun he => ?_, fun he => by rw [he]⟩
  cases p with
  | none => simpa [eq_comm] using he
  | some p =>
    cases q with
    | none => simp at he
    | some q =>
      obtain ⟨a, ha, rfl⟩ := hp _ rfl
      obtain ⟨b, hb, rfl⟩ := hq _ rfl
      exact congrArg some (eq_of_terminated (h.proper a ha) (h.proper b hb)
        (Option.some.inj he))

/-- The root after `k` became a root, where `r` is the root of `k` so far. -/
theorem greatest_upgraded {k : Path C} {r : Option (Path C)} (hkR : branch k ∉ R)
    (hr : Refers m r) (hrk : Greatest (R ∩ Set.Iic (branch k)) (r.map branch))
    {e : Path C × Scope C} (he : e ∈ m) (hlt : branch k < branch e.1) :
    Greatest (Insert.insert (branch k) R ∩ Set.Iic (branch e.1))
      ((if e.2.root = r then some k else e.2.root).map branch) := by
  classical
  have hg := greatest_insert_root isForest_branch hkR hrk hlt (h.root e he)
  have hiff := map_branch_eq_iff h (h.root_refers e he) hr
  by_cases heq : e.2.root = r
  · rw [if_pos (hiff.mpr heq)] at hg
    rwa [if_pos heq]
  · rw [if_neg (mt hiff.mp heq)] at hg
    rwa [if_neg heq]

/-- What is not below a new root keeps its root. -/
theorem greatest_kept {k : Path C} {e : Path C × Scope C} (he : e ∈ m)
    (hle : ¬branch k ≤ branch e.1) :
    Greatest (Insert.insert (branch k) R ∩ Set.Iic (branch e.1)) (e.2.root.map branch) := by
  rw [Set.insert_inter_of_notMem (by exact hle)]
  exact h.root e he

/-- The parent that the loop over the scopes below a new one leaves. -/
theorem greatest_adopted {k : Path C} (hnew : branch k ∉ members m) {p e : Path C × Scope C}
    (hp : p ∈ m) (hgr : IsGreatest (members m ∩ Set.Iio (branch k)) (branch p.1)) (he : e ∈ m)
    (hlt : branch k < branch e.1) (root : Bool) (r : Option (Path C)) :
    Greatest (Insert.insert (branch k) (members m) ∩ Set.Iio (branch e.1))
      ((adopted k root r p.1 e.2).parent.map branch) := by
  classical
  have hpar := h.parent e he
  have hiff := map_branch_eq_iff h (p := some p.1) (q := e.2.parent)
    (fun x hx => ⟨p, hp, Option.some.inj hx⟩) (h.parent_refers e he)
  cases hq : e.2.parent with
  | none =>
    rw [hq] at hpar
    have hpm : branch p.1 ∈ members m ∩ Set.Iio (branch e.1) := ⟨hgr.1.1, lt_trans hgr.1.2 hlt⟩
    rw [show members m ∩ Set.Iio (branch e.1) = ∅ from hpar] at hpm
    exact hpm.elim
  | some q =>
    rw [hq] at hpar hiff
    have hg := greatest_insert_parent isForest_branch hnew hgr hlt hpar
    by_cases heq : some p.1 = some q
    · rw [if_pos (Option.some.inj (hiff.mpr heq)).symm] at hg
      simpa [adopted, hq, heq, Greatest] using hg
    · rw [if_neg fun hb => heq (hiff.mp (congrArg some hb.symm))] at hg
      simpa [adopted, hq, heq, Greatest] using hg

end

/-- The root scopes after an insertion. -/
def rootsAfter (R : Set (Branch C)) (k : Path C) (root : Bool) : Set (Branch C) :=
  if root then Insert.insert (branch k) R else R

theorem members_eq {m m' : ScopeMapBase C} {k : Path C} {f : Path C → Scope C → Scope C}
    (hmem : ∀ e, e ∈ m' ↔ e = (k, {}) ∨ e ∈ m) :
    members (updated m' f) = Insert.insert (branch k) (members m) := by
  ext b
  constructor
  · rintro ⟨_, he, rfl⟩
    obtain ⟨e, he', rfl⟩ := List.mem_map.mp he
    rcases (hmem e).mp he' with rfl | he'
    · exact .inl rfl
    · exact .inr ⟨e, he', rfl⟩
  · rintro (rfl | ⟨e, he, rfl⟩)
    · exact ⟨_, List.mem_map_of_mem ((hmem _).mpr (.inl rfl)), rfl⟩
    · exact ⟨_, List.mem_map_of_mem ((hmem e).mpr (.inr he)), rfl⟩

theorem chained_new {m : ScopeMapBase C} {R : Set (Branch C)} (h : Chained m R) {k : Path C}
    (hk : IsDirectory k) (root : Bool) (hf : PathMap.find m k = none) :
    ∃ m', insert m k root = some m' ∧ Chained m' (rootsAfter R k root) ∧
      members m' = Insert.insert (branch k) (members m) := by
  classical
  have hnew : branch k ∉ members m := by
    have hs := find_spec h.ordered hk.tidy
    rw [hf] at hs
    rintro ⟨e, he, hek⟩
    exact hs e he hek
  obtain ⟨m₁, hem, hm₁, hmem⟩ := emplace_new h.ordered hk.tidy (v := {}) hf
  obtain ⟨p, hp, hgr, hins⟩ := insert_new h hk hm₁ hmem hnew root hem
  have hbelow := (below_spec hm₁ hk.tidy ((hmem _).mpr (.inl rfl)) rfl).2
  have hkR : branch k ∉ R := fun hkR => hnew (h.rooted hkR)
  have hrk := greatest_of_parent h.rooted hkR hgr (h.root p hp)
  refine ⟨_, hins, ?_, members_eq hmem⟩
  set f : Path C → Scope C → Scope C := fun x c =>
    if x = k then { parent := some p.1, root := if root then some k else p.2.root }
    else if x ∈ below m₁ k then adopted k root p.2.root p.1 c else c with hfdef
  have hfk : f k {} = { parent := some p.1, root := if root then some k else p.2.root } := by
    simp [hfdef]
  have hne : ∀ e ∈ m, e.1 ≠ k := fun e he hek => hnew ⟨e, he, congrArg branch hek⟩
  have hfin : ∀ e ∈ m, branch k < branch e.1 → f e.1 e.2 = adopted k root p.2.root p.1 e.2 :=
    fun e he hlt => by
      have hb : e.1 ∈ below m₁ k := (hbelow _).mpr ⟨e, (hmem e).mpr (.inr he), rfl, hlt⟩
      simp [hfdef, hne e he, hb]
  have hfout : ∀ e ∈ m, ¬branch k < branch e.1 → f e.1 e.2 = e.2 := fun e he hlt => by
    have hb : e.1 ∉ below m₁ k := fun hb => by
      obtain ⟨e', -, hee, hlt'⟩ := (hbelow _).mp hb
      exact hlt (hee ▸ hlt')
    simp [hfdef, hne e he, hb]
  have hcases : ∀ e ∈ updated m₁ f, e = (k, f k {}) ∨ ∃ e' ∈ m, e = (e'.1, f e'.1 e'.2) :=
    fun e he => by
      obtain ⟨e', he', rfl⟩ := List.mem_map.mp he
      rcases (hmem e').mp he' with rfl | he'
      · exact .inl rfl
      · exact .inr ⟨e', he', rfl⟩
  have hrefk : ∃ e ∈ updated m₁ f, e.1 = k :=
    ⟨_, List.mem_map_of_mem ((hmem _).mpr (.inl rfl)), rfl⟩
  have href : ∀ e ∈ m, ∃ e' ∈ updated m₁ f, e'.1 = e.1 := fun e he =>
    ⟨_, List.mem_map_of_mem ((hmem e).mpr (.inr he)), rfl⟩
  have hrefold : ∀ q, Refers m q → Refers (updated m₁ f) q := fun q hq x hx => by
    obtain ⟨e, he, rfl⟩ := hq x hx
    exact href e he
  exact {
    ordered := ordered_updated hm₁
    proper := fun e he => by
      rcases hcases e he with rfl | ⟨e', he', rfl⟩
      · rintro rfl
        obtain ⟨g, hg, hgk⟩ := h.global
        exact hnew ⟨g, hg, by rw [hgk, branch, branch, terminated_nil, terminated_root]⟩
      · exact h.proper e' he'
    global := by
      obtain ⟨g, hg, hgk⟩ := h.global
      obtain ⟨e, he, hek⟩ := href g hg
      exact ⟨e, he, hek.trans hgk⟩
    rooted := by
      rw [members_eq hmem, rootsAfter]
      split_ifs
      · exact Set.insert_subset_insert h.rooted
      · exact h.rooted.trans (Set.subset_insert _ _)
    parent := fun e he => by
      rw [members_eq hmem]
      rcases hcases e he with rfl | ⟨e', he', rfl⟩
      · rw [hfk, Set.insert_inter_of_notMem (by simp)]
        exact hgr
      · by_cases hlt : branch k < branch e'.1
        · rw [hfin e' he' hlt]
          exact greatest_adopted h hnew hp hgr he' hlt root _
        · rw [hfout e' he' hlt, Set.insert_inter_of_notMem (by exact hlt)]
          exact h.parent e' he'
    parent_refers := fun e he => by
      rcases hcases e he with rfl | ⟨e', he', rfl⟩
      · rw [hfk]
        exact hrefold _ fun x hx => ⟨p, hp, Option.some.inj hx⟩
      · by_cases hlt : branch k < branch e'.1
        · rw [hfin e' he' hlt]
          intro x hx
          simp only [adopted] at hx
          split_ifs at hx
          · exact Option.some.inj hx ▸ hrefk
          · exact hrefold _ (h.parent_refers e' he') x hx
        · rw [hfout e' he' hlt]
          exact hrefold _ (h.parent_refers e' he')
    root := fun e he => by
      rcases hcases e he with rfl | ⟨e', he', rfl⟩
      · rw [hfk]
        cases root
        · exact hrk
        · exact greatest_insert_self
      · by_cases hlt : branch k < branch e'.1
        · rw [hfin e' he' hlt]
          cases root
          · simpa [rootsAfter, adopted] using h.root e' he'
          · have hup := greatest_upgraded h hkR (h.root_refers p hp) hrk he' hlt
            simpa [rootsAfter, adopted] using hup
        · rw [hfout e' he' hlt]
          cases root
          · exact h.root e' he'
          · refine greatest_kept h he' fun hle => hlt (lt_of_le_of_ne hle ?_)
            exact fun heq => hnew ⟨e', he', heq.symm⟩
    root_refers := fun e he => by
      rcases hcases e he with rfl | ⟨e', he', rfl⟩
      · rw [hfk]
        intro x hx
        cases root
        · exact hrefold _ (h.root_refers p hp) x hx
        · exact Option.some.inj hx ▸ hrefk
      · by_cases hlt : branch k < branch e'.1
        · rw [hfin e' he' hlt]
          intro x hx
          simp only [adopted] at hx
          split_ifs at hx
          · exact Option.some.inj hx ▸ hrefk
          · exact hrefold _ (h.root_refers e' he') x hx
        · rw [hfout e' he' hlt]
          exact hrefold _ (h.root_refers e' he') }

/-! ### An existing scope -/

theorem members_updated {m : ScopeMapBase C} {f : Path C → Scope C → Scope C} :
    members (updated m f) = members m := by
  ext b
  constructor
  · rintro ⟨_, he, rfl⟩
    obtain ⟨e, hem, rfl⟩ := List.mem_map.mp he
    exact ⟨e, hem, rfl⟩
  · rintro ⟨e, he, rfl⟩
    exact ⟨_, List.mem_map_of_mem he, rfl⟩

theorem chained_updated {m : ScopeMapBase C} {R R' : Set (Branch C)} (h : Chained m R)
    (hR : R' ⊆ members m) {f : Path C → Scope C → Scope C}
    (hparent : ∀ e ∈ m, (f e.1 e.2).parent = e.2.parent)
    (hroot : ∀ e ∈ m, Greatest (R' ∩ Set.Iic (branch e.1)) ((f e.1 e.2).root.map branch))
    (hrefers : ∀ e ∈ m, Refers m (f e.1 e.2).root) : Chained (updated m f) R' := by
  have href : ∀ q, Refers m q → Refers (updated m f) q := fun q hq x hx => by
    obtain ⟨e, he, rfl⟩ := hq x hx
    exact ⟨_, List.mem_map_of_mem he, rfl⟩
  have hcases : ∀ e ∈ updated m f, ∃ e' ∈ m, (e'.1, f e'.1 e'.2) = e := fun e he =>
    List.mem_map.mp he
  exact {
    ordered := ordered_updated h.ordered
    proper := fun _ he => by
      obtain ⟨e, hem, rfl⟩ := hcases _ he
      exact h.proper e hem
    global := by
      obtain ⟨g, hg, hgk⟩ := h.global
      exact ⟨_, List.mem_map_of_mem hg, hgk⟩
    rooted := by rwa [members_updated]
    parent := fun _ he => by
      obtain ⟨e, hem, rfl⟩ := hcases _ he
      rw [members_updated, hparent e hem]
      exact h.parent e hem
    parent_refers := fun _ he => by
      obtain ⟨e, hem, rfl⟩ := hcases _ he
      rw [hparent e hem]
      exact href _ (h.parent_refers e hem)
    root := fun _ he => by
      obtain ⟨e, hem, rfl⟩ := hcases _ he
      exact hroot e hem
    root_refers := fun _ he => by
      obtain ⟨e, hem, rfl⟩ := hcases _ he
      exact href _ (hrefers e hem) }

theorem chained_upgrade {m : ScopeMapBase C} {R : Set (Branch C)} (h : Chained m R) {k : Path C}
    (hk : Tidy k) {s : Path C × Scope C} (hs : s ∈ m) (hsk : branch s.1 = branch k)
    (hsR : branch s.1 ∉ R) :
    ∃ m', ((upgrade s.1 s.2.root (below m k) m).map fun m =>
        assign m s.1 { s.2 with root := some s.1 }) = some m' ∧
      Chained m' (Insert.insert (branch s.1) R) ∧ members m' = members m := by
  obtain ⟨hpair, hbelow⟩ := below_spec h.ordered hk hs hsk
  rw [upgrade_eq h.ordered
    (fun x hx => by
      obtain ⟨e, he, hex, -⟩ := (hbelow x).mp hx
      exact ⟨e, he, hex⟩)
    (hpair.imp fun hlt heq => hlt.ne (congrArg terminated heq)),
    Option.map_some, assign_eq, updated_updated]
  refine ⟨_, rfl, chained_updated h (Set.insert_subset ⟨s, hs, rfl⟩ h.rooted) ?_ ?_ ?_,
    members_updated⟩
  · intro e he
    by_cases hes : e.1 = s.1
    · obtain rfl := eq_of_key h.ordered he hs hes
      simp
    · rw [if_neg hes]
      split_ifs <;> rfl
  · intro e he
    by_cases hes : e.1 = s.1
    · rw [if_pos hes, hes]
      exact greatest_insert_self
    · rw [if_neg hes]
      by_cases hlt : branch s.1 < branch e.1
      · have hb : e.1 ∈ below m k := (hbelow _).mpr ⟨e, he, rfl, hsk ▸ hlt⟩
        have hup := greatest_upgraded h hsR (h.root_refers s hs) (h.root s hs) he hlt
        by_cases hr : e.2.root = s.2.root
        · simpa [hb, hr] using hup
        · simpa [hb, hr] using hup
      · have hb : e.1 ∉ below m k := fun hb => by
          obtain ⟨e', -, hee, hlt'⟩ := (hbelow _).mp hb
          exact hlt (hee ▸ hsk ▸ hlt')
        rw [if_neg fun hbr => hb hbr.1]
        refine greatest_kept h he fun hle => hlt (lt_of_le_of_ne hle fun heq => hes ?_)
        exact congrArg Prod.fst (h.ordered.eq_of_terminated he hs heq.symm)
  · intro e he x hx
    by_cases hes : e.1 = s.1
    · rw [if_pos hes] at hx
      exact ⟨s, hs, Option.some.inj hx⟩
    · rw [if_neg hes] at hx
      split_ifs at hx
      · exact ⟨s, hs, Option.some.inj hx⟩
      · exact h.root_refers e he x hx

theorem chained_old {m : ScopeMapBase C} {R : Set (Branch C)} (h : Chained m R) {k : Path C}
    (hk : IsDirectory k) (root : Bool) {s : Path C × Scope C} (hf : PathMap.find m k = some s) :
    ∃ m', insert m k root = some m' ∧ Chained m' (rootsAfter R k root) ∧
      members m' = Insert.insert (branch k) (members m) := by
  obtain ⟨hs, hsk⟩ : s ∈ m ∧ branch s.1 = branch k := by
    have hspec := find_spec h.ordered hk.tidy
    rwa [hf] at hspec
  have hself : s.2.root = some s.1 ↔ branch k ∈ R := by
    have hroot := h.root s hs
    constructor
    · intro hr
      rw [hr] at hroot
      exact hsk ▸ hroot.1.1
    · intro hkR
      have hgr : Greatest (R ∩ Set.Iic (branch s.1)) ((some s.1).map branch) :=
        ⟨⟨hsk ▸ hkR, Set.mem_Iic.mpr le_rfl⟩, fun _ hy => hy.2⟩
      exact (map_branch_eq_iff h (h.root_refers s hs) fun x hx => ⟨s, hs, Option.some.inj hx⟩).mp
        (hroot.unique hgr)
  have hmem : Insert.insert (branch k) (members m) = members m :=
    Set.insert_eq_of_mem ⟨s, hs, hsk⟩
  rw [hmem, insert, emplace_old hf]
  simp only [deref_of_mem h.ordered hs, Option.bind_eq_bind, Option.bind_some]
  by_cases hup : (root && s.2.root ≠ some s.1) = true
  · rw [if_pos hup]
    simp only [Bool.and_eq_true, decide_eq_true_eq] at hup
    obtain ⟨m', hm', hch, hmem'⟩ := chained_upgrade h hk.tidy hs hsk
      (fun hR => hup.2 (hself.mpr (hsk ▸ hR)))
    refine ⟨m', hm', ?_, hmem'⟩
    rw [rootsAfter, if_pos hup.1, ← hsk]
    exact hch
  · rw [if_neg hup]
    refine ⟨m, rfl, ?_, rfl⟩
    rw [rootsAfter]
    split_ifs with hr
    · have hkR : branch k ∈ R := hself.mp (by simpa [hr] using hup)
      rwa [Set.insert_eq_of_mem hkR]
    · exact h

theorem chained_insert {m : ScopeMapBase C} {R : Set (Branch C)} (h : Chained m R) {k : Path C}
    (hk : IsDirectory k) (root : Bool) :
    ∃ m', insert m k root = some m' ∧ Chained m' (rootsAfter R k root) ∧
      members m' = Insert.insert (branch k) (members m) := by
  cases hf : PathMap.find m k with
  | none => exact chained_new h hk root hf
  | some s => exact chained_old h hk root hf

theorem chained_global (root : Bool) :
    ∃ m', insert (C := C) [] [] root = some m' ∧ Chained m' (rootsAfter ∅ [] root) ∧
      members m' = {branch []} := by
  have hmem : members [(([] : Path C), ({ root := if root then some [] else none } : Scope C))] =
      {branch []} := by
    ext b
    simp [members, eq_comm]
  refine ⟨_, ?_, ?_, hmem⟩
  · cases root <;> simp [insert, emplace, lowerBound, insertBelow, newRoot, assign]
  · exact {
      ordered := ⟨List.pairwise_singleton _ _, fun e he => by
        rw [List.mem_singleton.mp he]
        exact ⟨by simp [canonical, PathMap.root, Bare], .inl (by simp [canonical, PathMap.root])⟩⟩
      proper := by simp
      global := by simp
      rooted := by
        rw [hmem, rootsAfter]
        split_ifs <;> simp
      parent := fun e he => by
        rw [hmem, List.mem_singleton.mp he]
        simp [Greatest]
      parent_refers := fun e he => by
        rw [List.mem_singleton.mp he]
        simp [Refers]
      root := fun e he => by
        rw [List.mem_singleton.mp he]
        cases root
        · simp [Greatest, rootsAfter]
        · exact greatest_insert_self
      root_refers := fun e he => by
        rw [List.mem_singleton.mp he]
        cases root <;> simp [Refers] }

/-! ### Sequences of insertions -/

/-- The keys of one directory. -/
def Same (p k : Path C) : Prop := terminated p = terminated k

/-- The directory is a prefix of the other one or the same. -/
def AtOrAbove (p k : Path C) : Prop := terminated p <+: terminated k

/-- The directory is a proper prefix of the other one. -/
def Above (p k : Path C) : Prop := AtOrAbove p k ∧ ¬Same p k

/-- The longest of the keys with a property, the null pointer if there are none. -/
def Longest (P : Path C → Prop) : Option (Path C) → Prop
  | none => ∀ q, ¬P q
  | some p => P p ∧ ∀ q, P q → q.length ≤ p.length

/-- A scope with the key. -/
def HasScope (m : ScopeMapBase C) (q : Path C) : Prop := ∃ e ∈ m, e.1 = q

/-- The parent of a scope is the scope with the longest key that is a proper prefix of its own, and
its root is the innermost of the root scopes at or above it. -/
structure Chain (m : ScopeMapBase C) (rooted : Path C → Prop) : Prop where
  parent : ∀ e ∈ m, Longest (fun q => HasScope m q ∧ Above q e.1) e.2.parent
  root : ∀ e ∈ m, Longest (fun q => HasScope m q ∧ AtOrAbove q e.1 ∧ rooted q) e.2.root

theorem longest_of_greatest {m : ScopeMapBase C} {R : Set (Branch C)} (h : Chained m R)
    {S : Set (Branch C)} {p : Option (Path C)} (hp : Refers m p)
    (hg : Greatest S (p.map branch)) :
    Longest (fun q => HasScope m q ∧ branch q ∈ S) p := by
  cases p with
  | none =>
    rintro q ⟨-, hq⟩
    rw [show S = ∅ from hg] at hq
    exact hq
  | some p =>
    refine ⟨⟨hp p rfl, hg.1⟩, ?_⟩
    rintro q ⟨⟨e, he, rfl⟩, hq⟩
    obtain ⟨e', he', rfl⟩ := hp p rfl
    have hlen : ∀ e ∈ m, (terminated e.1).length = e.1.length + 1 := fun e he => by
      have hr : PathMap.root e.1 = false := by
        rw [Bool.eq_false_iff, Ne, root_iff]
        exact h.proper e he
      rw [terminated, canonical_of_not_root hr, List.length_append, List.length_singleton]
    have hle : (terminated e.1).length ≤ (terminated e'.1).length :=
      List.IsPrefix.length_le (hg.2 hq)
    rw [hlen e he, hlen e' he'] at hle
    omega

omit [PathTraits C] in
theorem Longest.congr {P Q : Path C → Prop} (hPQ : ∀ q, P q ↔ Q q) {p : Option (Path C)}
    (h : Longest P p) : Longest Q p := by
  rwa [show Q = P from funext fun q => propext (hPQ q).symm]

theorem chain_of_chained {m : ScopeMapBase C} {R : Set (Branch C)} (h : Chained m R)
    {rooted : Path C → Prop} (hR : ∀ q, branch q ∈ R ↔ rooted q) : Chain m rooted where
  parent e he := by
    refine (longest_of_greatest h (h.parent_refers e he) (h.parent e he)).congr fun q => ?_
    refine and_congr_right fun hq => ⟨fun hm => ?_, fun ha => ?_⟩
    · have hlt : branch q < branch e.1 := hm.2
      exact ⟨hlt.le, hlt.ne⟩
    · obtain ⟨d, hd, rfl⟩ := hq
      have hlt : branch d.1 < branch e.1 := lt_of_le_of_ne ha.1 ha.2
      exact ⟨⟨d, hd, rfl⟩, hlt⟩
  root e he := by
    refine (longest_of_greatest h (h.root_refers e he) (h.root e he)).congr fun q => ?_
    exact and_congr_right fun _ => (and_congr_left fun _ => hR q).trans and_comm

/-- The directories that the calls make root scopes. -/
def rootsOf (R : Set (Branch C)) (calls : List (Path C × Bool)) : Set (Branch C) :=
  calls.foldl (fun R c => rootsAfter R c.1 c.2) R

theorem mem_rootsOf {R : Set (Branch C)} {calls : List (Path C × Bool)} {b : Branch C} :
    b ∈ rootsOf R calls ↔ b ∈ R ∨ ∃ c ∈ calls, c.2 = true ∧ branch c.1 = b := by
  induction calls generalizing R with
  | nil => simp [rootsOf]
  | cons c calls ih =>
    rw [show rootsOf R (c :: calls) = rootsOf (rootsAfter R c.1 c.2) calls from rfl, ih,
      List.exists_mem_cons_iff, ← or_assoc]
    refine or_congr_left ?_
    cases c.2
    · simp [rootsAfter]
    · simp [rootsAfter, or_comm, @eq_comm _ b]

theorem chained_insertAll {m : ScopeMapBase C} {R : Set (Branch C)} (h : Chained m R)
    {calls : List (Path C × Bool)} (hcalls : ∀ c ∈ calls, IsDirectory c.1) :
    ∃ m', insertAll m calls = some m' ∧ Chained m' (rootsOf R calls) ∧
      ∀ b, b ∈ members m' ↔ b ∈ members m ∨ ∃ c ∈ calls, branch c.1 = b := by
  induction calls generalizing m R with
  | nil => exact ⟨m, rfl, h, by simp⟩
  | cons c calls ih =>
    obtain ⟨m₁, h₁, hch, hmem⟩ := chained_insert h (hcalls c List.mem_cons_self) c.2
    obtain ⟨m', h', hch', hmem'⟩ := ih hch fun d hd => hcalls d (List.mem_cons_of_mem _ hd)
    refine ⟨m', by simpa [insertAll, h₁] using h', hch', fun b => ?_⟩
    rw [hmem', hmem, List.exists_mem_cons_iff, ← or_assoc, Set.mem_insert_iff, @eq_comm _ b,
      or_comm (a := branch c.1 = b)]

/-- After any sequence of insertions that starts with the global scope the scopes form a chain,
whichever were there before those above them and whichever became root scopes later. -/
theorem chain_insertAll (root : Bool) (calls : List ({k : Path C // IsDirectory k} × Bool)) :
    ∃ m, insertAll [] (([], root) :: calls.map fun c => (c.1.1, c.2)) = some m ∧
      (∀ k, (∃ q, HasScope m q ∧ Same q k) ↔ Same [] k ∨ ∃ c ∈ calls, Same c.1.1 k) ∧
      Chain m fun q => (root = true ∧ Same [] q) ∨ ∃ c ∈ calls, c.2 = true ∧ Same c.1.1 q := by
  obtain ⟨m₁, h₁, hch, hmem⟩ := chained_global (C := C) root
  have hdir : ∀ c ∈ calls.map fun c => (c.1.1, c.2), IsDirectory c.1 := fun d hd => by
    obtain ⟨c, -, rfl⟩ := List.mem_map.mp hd
    exact c.1.2
  have hex : ∀ P : Path C × Bool → Prop,
      (∃ d ∈ calls.map fun c => (c.1.1, c.2), P d) ↔ ∃ c ∈ calls, P (c.1.1, c.2) := fun P =>
    ⟨fun ⟨_, hd, hP⟩ => by
      obtain ⟨c, hc, rfl⟩ := List.mem_map.mp hd
      exact ⟨c, hc, hP⟩, fun ⟨c, hc, hP⟩ => ⟨_, List.mem_map_of_mem hc, hP⟩⟩
  obtain ⟨m, h, hch', hmem'⟩ := chained_insertAll hch hdir
  refine ⟨m, by simpa [insertAll, h₁] using h, fun k => ?_, chain_of_chained hch' fun q => ?_⟩
  · have hm : (∃ q, HasScope m q ∧ Same q k) ↔ branch k ∈ members m := by
      constructor
      · rintro ⟨_, ⟨e, he, rfl⟩, hs⟩
        exact ⟨e, he, hs⟩
      · rintro ⟨e, he, hs⟩
        exact ⟨e.1, ⟨e, he, rfl⟩, hs⟩
    rw [hm, hmem', hmem, Set.mem_singleton_iff, hex, @eq_comm _ (branch k)]
    rfl
  · rw [mem_rootsOf, hex]
    refine or_congr_left ?_
    cases root
    · simp [rootsAfter]
    · rw [rootsAfter, if_pos rfl, LawfulSingleton.insert_empty_eq, Set.mem_singleton_iff, eq_comm]
      exact (and_iff_right rfl).symm

end Build2.Libbuild2.ScopeMap
