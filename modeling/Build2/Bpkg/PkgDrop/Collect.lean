import Build2.Bpkg.LifeCycle.Runs
import Build2.Bpkg.PkgDrop.Basic
import Build2.Lib.Marking

/-! # What is collected

A recursion of `collect_dependents` or `collect_prerequisites` marks what it leads to in the map
(`collectFrom_spec`), and the loop over the map, into which it inserts, comes to everything that was
there before (`forEach_spec`): in the end, the map has what is reachable. -/

namespace Build2.Bpkg.PkgDrop

open Relation Build2.Lib Build2.Lib.ByteString Build2.Lib.Linked Build2.Lib.Marking
open PkgBuild (PackageName PackageState)
open LifeCycle (SelectedPackage Database Consistent)

/-! ### Configurations -/

/-- A package has another one as a prerequisite. -/
def Requires (db : Database) (n d : PackageName) : Prop :=
  ∃ p, db.find n = some p ∧ d ∈ p.prerequisites

/-- Only configured packages have prerequisites, which are configured and form no cycle. -/
structure Sound (db : Database) : Prop where
  named : ∀ n p, db.find n = some p → p.name = n
  unconfigured : ∀ n p, db.find n = some p → p.state ≠ .configured → p.prerequisites = ∅
  configured : ∀ n d, Requires db n d → ∃ q, db.find d = some q ∧ q.state = .configured
  acyclic : ∀ n, ¬ TransGen (Requires db) n n

/-- What the operations on packages keep consistent is sound, but for cycles. -/
theorem sound_of_consistent {c : LifeCycle.Configuration} (h : Consistent c)
    (ha : ∀ n, ¬ TransGen (Requires c.packages) n n) : Sound c.packages where
  named := h.named
  unconfigured n p hp hs := (h.coherent n p hp).prerequisites hs
  configured := by
    rintro n d ⟨p, hp, hd⟩
    obtain ⟨k, hk⟩ := Option.isSome_iff_exists.mp (AList.lookup_isSome.mpr hd)
    obtain ⟨q, hq, hs, -⟩ := h.met n p hp d k hk
    exact ⟨q, hq, hs⟩
  acyclic := ha

theorem nameRank_injective : Function.Injective nameRank := by
  rintro ⟨x, hx⟩ ⟨y, hy⟩ h
  have hxy : x = y := List.map_injective_iff.mpr (fun _ _ => UInt8.toNat_inj.mp) h
  subst hxy
  rfl

section

variable {db : Database} {n d : PackageName} {p q : SelectedPackage}

theorem mem_keys_of_find (h : db.find n = some p) : n ∈ db.keys :=
  AList.mem_keys.mp (AList.lookup_isSome.mp (Option.isSome_iff_exists.mpr ⟨p, h⟩))

theorem mem_dependents : n ∈ (db.dependents d).map Prod.fst ↔ Requires db n d := by
  unfold Database.dependents Requires
  simp only [List.mem_map, List.mem_filterMap, Option.map_eq_some_iff]
  constructor
  · rintro ⟨_, ⟨⟨m, p⟩, hp, c, hc, rfl⟩, rfl⟩
    exact ⟨p, AList.mem_lookup_iff.mpr hp,
      AList.lookup_isSome.mp (Option.isSome_iff_exists.mpr ⟨c, hc⟩)⟩
  · rintro ⟨p, hp, hd⟩
    obtain ⟨c, hc⟩ := Option.isSome_iff_exists.mp (AList.lookup_isSome.mpr hd)
    exact ⟨(n, c), ⟨⟨n, p⟩, AList.mem_lookup_iff.mp hp, c, hc, rfl⟩, rfl⟩

theorem Sound.state_of_requires (hdb : Sound db) (h : Requires db n d) (hp : db.find n = some p) :
    p.state = .configured := by
  by_contra hs
  obtain ⟨q, hq, hd⟩ := h
  obtain rfl : p = q := Option.some.inj (hp.symm.trans hq)
  rw [hdb.unconfigured n p hp hs] at hd
  exact AList.notMem_empty d hd

end

/-! ### The recursion -/

namespace DropPackages

/-- The names in the map. -/
def marked (s : DropPackages) : Set PackageName := {n | (s.map.find n).isSome}

/-- The names that are not in the map. -/
def unmarked (db : Database) (s : DropPackages) : List PackageName :=
  db.keys.filter fun n => (s.map.find n).isNone

variable {db : Database} {s t : DropPackages} {n : PackageName} {p q : SelectedPackage}
  {d : Data} {r : DropReason} {x x' y : DropPackages × List DependentName}

theorem mem_marked : n ∈ s.marked ↔ ∃ d, s.map.find n = some d := Option.isSome_iff_exists

theorem not_mem_marked : n ∉ s.marked ↔ s.map.find n = none := by
  rw [mem_marked, not_exists, Option.eq_none_iff_forall_ne_some]

theorem mem_entries {e : PackageName × Data} :
    e ∈ s.map.entries ↔ s.map.find e.1 = some e.2 :=
  (OrderedMap.find_eq_some nameRank_injective).symm

theorem mem_keys : n ∈ s.map.keys ↔ n ∈ s.marked := (OrderedMap.isSome_find nameRank_injective).symm

theorem find_collect (hn : n ∉ s.marked) (hq : q.name = n) (m : PackageName) :
    (s.collect q r).1.map.find m = if m = n then some ⟨none, q, r⟩ else s.map.find m := by
  subst hq
  rw [collect, OrderedMap.find_emplace nameRank_injective]
  split_ifs with h
  · rw [h, not_mem_marked.mp hn]
    rfl
  · rfl

theorem marked_collect (hn : n ∉ s.marked) (hq : q.name = n) :
    (s.collect q r).1.marked = insert n s.marked := by
  ext m
  rw [Set.mem_insert_iff, marked, Set.mem_ofPred_eq, find_collect hn hq]
  split_ifs with h
  · simp [h]
  · simp [h, marked]

theorem length_unmarked_le (h : s.marked ⊆ t.marked) :
    (unmarked db t).length ≤ (unmarked db s).length := by
  refine (List.monotone_filter_right _ fun n hn => ?_).length_le
  rw [Option.isNone_iff_eq_none, ← not_mem_marked] at hn ⊢
  exact fun hs => hn (h hs)

theorem length_unmarked_lt (hdb : n ∈ db.keys) (hn : n ∉ s.marked)
    (h : insert n s.marked ⊆ t.marked) :
    (unmarked db t).length < (unmarked db s).length := by
  have hsub : unmarked db t = (unmarked db s).filter fun m => (t.map.find m).isNone := by
    rw [unmarked, unmarked, List.filter_filter]
    refine List.filter_congr fun m _ => ?_
    by_cases hm : m ∈ t.marked
    · simp [Option.isSome_iff_ne_none.mp hm]
    · have hs : m ∉ s.marked := fun hs => hm (h (Set.mem_insert_of_mem n hs))
      rw [not_mem_marked.mp hm, not_mem_marked.mp hs]
      rfl
  rw [hsub]
  refine List.length_filter_lt_length_iff_exists.mpr ⟨n, ?_, ?_⟩
  · exact List.mem_filter.mpr ⟨hdb, by rw [not_mem_marked.mp hn]; rfl⟩
  · have hnt : n ∈ t.marked := h (Set.mem_insert n s.marked)
    obtain ⟨d, hd⟩ := mem_marked.mp hnt
    simp [hd]

/-- The map has packages of the database, not ordered yet, and those collected for the reason `r`
are listed once. -/
structure Gathered (db : Database) (r : DropReason) (x : DropPackages × List DependentName) :
    Prop where
  loaded : ∀ n d, x.1.map.find n = some d → db.find n = some d.package.package ∧ d.position = none
  nodup : (x.2.map DependentName.name).Nodup
  names : ∀ n, n ∈ x.2.map DependentName.name ↔
    ∃ d, x.1.map.find n = some d ∧ d.package.reason = r

/-- What collecting for the reason `r` does, by steps of `go` from the packages `R`. -/
structure Grown (go : PackageName → PackageName → Prop) (r : DropReason) (R : Set PackageName)
    (x y : DropPackages × List DependentName) : Prop where
  marks : Marks go R x.1.marked y.1.marked
  list : y.1.list = x.1.list
  kept : ∀ n d, x.1.map.find n = some d → y.1.map.find n = some d
  reason : ∀ n d, y.1.map.find n = some d → x.1.map.find n = some d ∨ d.package.reason = r

variable {go : PackageName → PackageName → Prop} {R R' : Set PackageName}

theorem Grown.refl : Grown go r R x x := ⟨Marks.refl go R _, rfl, fun _ _ h => h, fun _ _ => Or.inl⟩

theorem Grown.trans (h : Grown go r R x y) (h' : Grown go r R y x') : Grown go r R x x' where
  marks := h.marks.trans h'.marks
  list := h'.list.trans h.list
  kept n d hd := h'.kept n d (h.kept n d hd)
  reason n d hd := (h'.reason n d hd).elim (h.reason n d) Or.inr

theorem Grown.mono (h : Grown go r R x y) (hR : R ⊆ R') : Grown go r R' x y :=
  ⟨h.marks.mono hR, h.list, h.kept, h.reason⟩

theorem Gathered.collect (h : Gathered db r x) (hn : n ∉ x.1.marked) (hq : db.find n = some q)
    (hname : q.name = n) (m : PackageName) :
    Gathered db r ((x.1.collect q r).1, x.2 ++ [⟨n, m⟩]) where
  loaded a d hd := by
    rw [find_collect hn hname] at hd
    split_ifs at hd with ha
    · obtain rfl := Option.some.inj hd
      exact ⟨ha ▸ hq, rfl⟩
    · exact h.loaded a d hd
  nodup := by
    rw [List.map_append]
    refine List.nodup_append'.mpr ⟨h.nodup, List.nodup_singleton n, ?_⟩
    refine List.disjoint_singleton.mpr fun hmem => ?_
    obtain ⟨d, hd, -⟩ := (h.names n).mp hmem
    exact hn (mem_marked.mpr ⟨d, hd⟩)
  names a := by
    rw [List.map_append, List.mem_append, h.names a, find_collect hn hname]
    split_ifs with ha
    · subst ha
      simp [not_mem_marked.mp hn]
    · simp [ha]

/-- The package is loaded, leads to the next one, and this is not pruned. -/
def Goes (db : Database) (next : SelectedPackage → List PackageName)
    (pruned : SelectedPackage → Bool) (n d : PackageName) : Prop :=
  ∃ p q, db.find n = some p ∧ d ∈ next p ∧ db.find d = some q ∧ pruned q = false

section

variable {next : SelectedPackage → List PackageName} {pruned : SelectedPackage → Bool}

/-- What `go` leads to from a package is collected by going on from it. -/
def GoesOn (db : Database) (r : DropReason) (go : PackageName → PackageName → Prop)
    (n : PackageName) (x : DropPackages × List DependentName)
    (z : Except Fault (DropPackages × List DependentName)) : Prop :=
  ∃ y, z = .ok y ∧ Gathered db r y ∧ Grown go r {n} x y ∧ ∀ d, go n d → d ∈ y.1.marked

variable {goOn : SelectedPackage → DropPackages × List DependentName →
    Except Fault (DropPackages × List DependentName)}

variable (pruned goOn) in
/-- **A round** collects the next package unless it is pruned. -/
theorem collectNext_spec (hdb : ∀ n p, db.find n = some p → p.name = n) {d : PackageName}
    (hp : db.find p.name = some p) (hd : d ∈ next p) (hq : db.find d = some q)
    (hx : Gathered db r x)
    (hgo : d ∉ x.1.marked → GoesOn db r (Goes db next pruned) d
      ((x.1.collect q r).1, x.2 ++ [⟨d, p.name⟩])
      (goOn q ((x.1.collect q r).1, x.2 ++ [⟨d, p.name⟩]))) :
    ∃ y, collectNext db pruned r goOn p x d = .ok y ∧ Gathered db r y ∧
      Grown (Goes db next pruned) r {p.name} x y ∧
      (Goes db next pruned p.name d → d ∈ y.1.marked) := by
  unfold collectNext
  by_cases hmarked : d ∈ x.1.marked
  · exact ⟨x, if_pos hmarked, hx, Grown.refl, fun _ => hmarked⟩
  have hqn := hdb d q hq
  have hsome : ¬ (x.1.map.find d).isSome = true := hmarked
  rw [if_neg hsome, hq]
  dsimp only
  cases hprune : pruned q with
  | true =>
    refine ⟨x, rfl, hx, Grown.refl, fun ⟨_, q', _, _, hq', hnot⟩ => ?_⟩
    rw [← Option.some.inj (hq.symm.trans hq'), hprune] at hnot
    cases hnot
  | false =>
    obtain ⟨y, hy, hg, hgrown, hall⟩ := hgo hmarked
    have hmarks := hgrown.marks
    rw [marked_collect hmarked hqn] at hmarks
    have hstep : Goes db next pruned p.name d := ⟨p, q, hp, hd, hq, hprune⟩
    refine ⟨y, hy, hg, ⟨Marks.visit rfl hstep hmarks hall, hgrown.list, fun a e he => ?_,
      fun a e he => ?_⟩, fun _ => hmarks.subset (Set.mem_insert d _)⟩
    · refine hgrown.kept a e ?_
      rw [find_collect hmarked hqn, if_neg]
      · exact he
      · exact fun ha => hmarked (mem_marked.mpr ⟨e, ha ▸ he⟩)
    · refine (hgrown.reason a e he).elim (fun he => ?_) Or.inr
      rw [find_collect hmarked hqn] at he
      split_ifs at he with ha
      · obtain rfl := Option.some.inj he
        exact Or.inr rfl
      · exact Or.inl he

variable (pruned) in
/-- **What a recursion collects**: it gets to the end and collects what the package leads to. -/
theorem collectFrom_spec (hdb : ∀ n p, db.find n = some p → p.name = n)
    (hload : ∀ n p d, db.find n = some p → d ∈ next p → ∃ q, db.find d = some q) :
    ∀ (k : ℕ) (p : SelectedPackage) (x : DropPackages × List DependentName),
      db.find p.name = some p → Gathered db r x → (unmarked db x.1).length < k →
      GoesOn db r (Goes db next pruned) p.name x (collectFrom db next pruned r k p x) := by
  intro k
  induction k with
  | zero => exact fun _ _ _ _ h => absurd h (Nat.not_lt_zero _)
  | succ k ih =>
    intro p x hp hx hk
    rw [collectFrom]
    -- the loop, by induction on what is left of it
    suffices hloop : ∀ (l : List PackageName) (x : DropPackages × List DependentName),
        l ⊆ next p → Gathered db r x → (unmarked db x.1).length < k + 1 →
        ∃ y, l.foldlM (collectNext db pruned r (collectFrom db next pruned r k) p) x = .ok y ∧
          Gathered db r y ∧ Grown (Goes db next pruned) r {p.name} x y ∧
          ∀ d ∈ l, Goes db next pruned p.name d → d ∈ y.1.marked by
      obtain ⟨y, hy, hg, hgrown, hall⟩ := hloop (next p) x (List.Subset.refl _) hx hk
      refine ⟨y, hy, hg, hgrown, fun d hd => hall d ?_ hd⟩
      obtain ⟨p', q, hp', hd, -⟩ := hd
      rwa [Option.some.inj (hp.symm.trans hp')]
    intro l
    induction l with
    | nil => exact fun x _ hx _ => ⟨x, rfl, hx, Grown.refl, fun _ h => by cases h⟩
    | cons n l ihl =>
      intro x hl hx hk
      have hnl := List.cons_subset.mp hl
      obtain ⟨q, hq⟩ := hload _ p n hp hnl.1
      have hqn := hdb n q hq
      obtain ⟨y, hy, hg, hgrown, hn⟩ := collectNext_spec pruned
        (collectFrom db next pruned r k) hdb hp hnl.1 hq hx fun hmarked => by
          have hgo := ih q _ (hqn ▸ hq) (hx.collect hmarked hq hqn p.name)
            (Nat.lt_of_lt_of_le (length_unmarked_lt (mem_keys_of_find hq) hmarked
              (marked_collect hmarked hqn).ge) (Nat.le_of_lt_succ hk))
          rwa [hqn] at hgo
      obtain ⟨z, hz, hgz, hgrown', hall⟩ := ihl y hnl.2 hg
        ((length_unmarked_le hgrown.marks.subset).trans_lt hk)
      refine ⟨z, ?_, hgz, hgrown.trans hgrown', ?_⟩
      · rw [List.foldlM_cons, hy]
        exact hz
      · exact List.forall_mem_cons.mpr ⟨fun h => hgrown'.marks.subset (hn h), hall⟩

variable (next pruned) in
/-- **What a loop over the map collects**, if going on from the packages it passes by leads nowhere:
all that the packages in the map lead to. -/
theorem forEach_collect (cond : Data → Prop) [DecidablePred cond]
    (hdb : ∀ n p, db.find n = some p → p.name = n)
    (hload : ∀ n p d, db.find n = some p → d ∈ next p → ∃ q, db.find d = some q)
    (hcond : ∀ d, cond d → d.package.reason ≠ r)
    (hskip : ∀ n d m, db.find n = some d.package.package → d.package.reason ≠ r → ¬ cond d →
      ¬ Goes db next pruned n m) (hs : Gathered db r (s, [])) :
    ∃ y, OrderedMap.forEach (fun x : DropPackages × List DependentName => x.1.map) (fun d x =>
        if cond d then collectFrom db next pruned r (bound db) d.package.package x else .ok x)
        .tooDeep (bound db) none (s, []) = .ok y ∧
      Gathered db r y ∧ Grown (Goes db next pruned) r s.marked (s, []) y ∧
      y.1.marked = {n | ∃ a ∈ s.marked, ReflTransGen (Goes db next pruned) a n} := by
  have hreason : ∀ n d, s.map.find n = some d → d.package.reason ≠ r := by
    intro n d hd heq
    have hmem := (hs.names n).mpr ⟨d, hd, heq⟩
    cases hmem
  have hspec := OrderedMap.forEach_spec (fun x : DropPackages × List DependentName => x.1.map)
    (fun d x =>
      if cond d then collectFrom db next pruned r (bound db) d.package.package x else .ok x)
    Fault.tooDeep (I := fun x => Gathered db r x ∧ Grown (Goes db next pruned) r s.marked (s, []) x)
    (D := fun n x => ∀ m, Goes db next pruned n m → m ∈ x.1.marked) db.keys
    (fun x hx n hn => by
      obtain ⟨d, hd⟩ := mem_marked.mp (mem_keys.mp hn)
      exact mem_keys_of_find (hx.1.loaded n d hd).1)
    (fun x e hx he => by
      have hfind := mem_entries.mp he
      obtain ⟨hload', -⟩ := hx.1.loaded e.1 e.2 hfind
      by_cases hc : cond e.2
      · -- a package that was in the map before the loop
        have hmem : e.1 ∈ s.marked :=
          mem_marked.mpr ⟨e.2, (hx.2.reason e.1 e.2 hfind).resolve_right (hcond _ hc)⟩
        have hname := hdb _ _ hload'
        obtain ⟨y, hy, hg, hgrown, hall⟩ := collectFrom_spec pruned hdb hload (bound db)
          e.2.package.package x (hname ▸ hload') hx.1
          (Nat.lt_succ_of_le (List.length_filter_le _ _))
        rw [hname] at hgrown hall
        refine ⟨y, by rw [if_pos hc]; exact hy, ⟨hg, hx.2.trans (hgrown.mono ?_)⟩, hall, ?_, ?_⟩
        · exact Set.singleton_subset_iff.mpr hmem
        · exact fun n hn m hm => hgrown.marks.subset (hn m hm)
        · intro n hn
          exact (hgrown.marks.closed n (mem_keys.mp hn)).imp_left mem_keys.mpr
      · refine ⟨x, if_neg hc, hx, ?_, fun n hn => hn, fun n hn => Or.inl hn⟩
        intro m hm
        by_cases hr : e.2.package.reason = r
        · -- a package that the loop collected
          refine (hx.2.marks.closed e.1 (mem_marked.mpr ⟨e.2, hfind⟩)).elim (fun hmem => ?_)
            fun hall => hall m hm
          obtain ⟨d, hd⟩ := mem_marked.mp hmem
          obtain rfl := Option.some.inj ((hx.2.kept e.1 d hd).symm.trans hfind)
          exact absurd hr (hreason e.1 _ hd)
        · exact absurd hm (hskip e.1 e.2 m hload' hr hc))
    (bound db) none (s, []) ⟨hs, Grown.refl⟩ (Nat.lt_succ_of_le (List.length_filter_le _ _))
    (fun _ _ _ h => by cases h)
  obtain ⟨y, hy, ⟨hg, hgrown⟩, hall⟩ := hspec
  refine ⟨y, hy, hg, hgrown, hgrown.marks.eq_reachable fun a ha m hm => ?_⟩
  exact hall a (mem_keys.mpr (hgrown.marks.subset ha)) m hm

end

end DropPackages

/-! ### The phases -/

open DropPackages

/-- The user selection and all that depends on it. -/
def Removed (db : Database) (args : List PackageName) : Set PackageName :=
  {n | ∃ a ∈ args, ReflTransGen (Requires db) n a}

/-- The package has another one, which is not held, as a prerequisite. -/
def RequiresUnheld (db : Database) (n d : PackageName) : Prop :=
  Requires db n d ∧ ∃ q, db.find d = some q ∧ q.holdPackage = false

/-- The prerequisites that are not held and are reached through packages that are not held. -/
def Candidates (db : Database) (args : List PackageName) : Set PackageName :=
  {n | n ∉ Removed db args ∧ ∃ a ∈ Removed db args, TransGen (RequiresUnheld db) a n}

variable {db : Database} {args : List PackageName} {s : DropPackages}

/-- The user selection is in the map, not ordered. -/
structure Selected (db : Database) (args : List PackageName) (x : DropPackages × List PackageName) :
    Prop where
  list : x.1.list = .nil
  marked : x.1.marked = {n | n ∈ args}
  entries : ∀ n d, x.1.map.find n = some d →
    db.find n = some d.package.package ∧ d.position = none ∧ d.package.reason = .user
  names : ∀ n, n ∈ x.2 ↔ n ∈ args

theorem selectNext_spec (hdb : Sound db) {x : DropPackages × List PackageName} {n : PackageName}
    (hx : Selected db args x) (hn : ∃ p, db.find n = some p ∧ p.state ≠ .broken) :
    ∃ y, selectNext db x n = .ok y ∧ Selected db (args ++ [n]) y := by
  obtain ⟨p, hp, hs⟩ := hn
  have hname := hdb.named n p hp
  refine ⟨((x.1.collect p .user).1, if (x.1.collect p .user).2 then x.2 ++ [n] else x.2), ?_, ?_⟩
  · rw [selectNext, hp]
    exact if_neg hs
  have hfind : ∀ m, (x.1.collect p .user).1.map.find m =
      if m = n then (x.1.map.find m).or (some ⟨none, p, .user⟩) else x.1.map.find m := by
    intro m
    rw [collect, OrderedMap.find_emplace nameRank_injective, hname]
  refine ⟨hx.list, ?_, fun m d hd => ?_, fun m => ?_⟩
  · ext m
    have hm : m ∈ x.1.marked ↔ m ∈ args := by rw [hx.marked]; rfl
    change ((x.1.collect p .user).1.map.find m).isSome ↔ m ∈ args ++ [n]
    rw [hfind, List.mem_append, List.mem_singleton, ← hm, DropPackages.marked]
    split_ifs with h
    · simp [h]
    · simp [h]
  · change (x.1.collect p .user).1.map.find m = some d at hd
    rw [hfind] at hd
    split_ifs at hd with h
    · subst h
      rcases Option.or_eq_some_iff.mp hd with hd | ⟨-, hd⟩
      · exact hx.entries m d hd
      · obtain rfl := Option.some.inj hd
        exact ⟨hp, rfl, rfl⟩
    · exact hx.entries m d hd
  · change m ∈ (if (x.1.map.find p.name).isNone then x.2 ++ [n] else x.2) ↔ m ∈ args ++ [n]
    rw [hname, List.mem_append, List.mem_singleton, ← hx.names]
    split_ifs with h
    · rw [List.mem_append, List.mem_singleton]
    · refine (or_iff_left_of_imp ?_).symm
      rintro rfl
      have hmem : m ∈ x.1.marked := by
        by_contra hnot
        exact h (by rw [not_mem_marked.mp hnot]; rfl)
      rw [hx.marked] at hmem
      exact (hx.names m).mpr hmem

theorem select_spec (hdb : Sound db)
    (hargs : ∀ n ∈ args, ∃ p, db.find n = some p ∧ p.state ≠ .broken) :
    ∃ y, select db args = .ok y ∧ Selected db args y := by
  suffices h : ∀ (l : List PackageName) (done : List PackageName)
      (x : DropPackages × List PackageName), Selected db done x →
      (∀ n ∈ l, ∃ p, db.find n = some p ∧ p.state ≠ .broken) →
      ∃ y, l.foldlM (selectNext db) x = .ok y ∧ Selected db (done ++ l) y by
    refine h args [] _ ⟨rfl, ?_, fun n d hd => (by cases hd), fun n => Iff.rfl⟩ hargs
    ext n
    exact ⟨fun hn => (by cases hn), fun hn => (by cases hn)⟩
  intro l
  induction l with
  | nil => exact fun done x hx _ => ⟨x, rfl, by rwa [List.append_nil]⟩
  | cons n l ih =>
    intro done x hx hl
    have hnl := List.forall_mem_cons.mp hl
    obtain ⟨y, hy, hy'⟩ := selectNext_spec hdb hx hnl.1
    obtain ⟨z, hz, hz'⟩ := ih (done ++ [n]) y hy' hnl.2
    rw [List.append_assoc] at hz'
    exact ⟨z, by rw [List.foldlM_cons, hy]; exact hz, hz'⟩

theorem goes_dependents (hdb : Sound db) {n d : PackageName} :
    Goes db (fun p => (Database.dependents db p.name).map Prod.fst) (fun _ => false) n d ↔
      Requires db d n := by
  constructor
  · rintro ⟨p, q, hp, hd, -, -⟩
    dsimp only at hd
    rw [hdb.named n p hp] at hd
    exact mem_dependents.mp hd
  · intro h
    obtain ⟨p, hp, -⟩ := hdb.configured d n h
    obtain ⟨q, hq, -⟩ := id h
    refine ⟨p, q, hp, ?_, hq, rfl⟩
    dsimp only
    rw [hdb.named n p hp]
    exact mem_dependents.mpr h

theorem goes_prerequisites {n d : PackageName} :
    Goes db (fun p => p.prerequisites.keys) (fun p => p.holdPackage) n d ↔
      RequiresUnheld db n d := by
  constructor
  · rintro ⟨p, q, hp, hd, hq, hh⟩
    exact ⟨⟨p, hp, AList.mem_keys.mpr hd⟩, q, hq, hh⟩
  · rintro ⟨⟨p, hp, hd⟩, q, hq, hh⟩
    exact ⟨p, q, hp, AList.mem_keys.mp hd, hq, hh⟩

/-- The user selection and its dependents are in the map, not ordered. -/
structure WithDependents (db : Database) (args names : List PackageName)
    (x : DropPackages × List DependentName) : Prop where
  list : x.1.list = .nil
  marked : x.1.marked = Removed db args
  loaded : ∀ n d, x.1.map.find n = some d → db.find n = some d.package.package ∧ d.position = none
  reason : ∀ n d, x.1.map.find n = some d → d.package.reason ≠ .prerequisite
  names : ∀ n, n ∈ names ++ x.2.map DependentName.name ↔ n ∈ Removed db args

/-- **Collecting the dependents** gets to the end with all of them. -/
theorem collectDependents_spec (hdb : Sound db) {x : DropPackages × List PackageName}
    (hx : Selected db args x) :
    ∃ y, x.1.collectDependents db = .ok y ∧ WithDependents db args x.2 y := by
  have hg : Gathered db .dependent (x.1, []) := by
    refine ⟨fun n d hd => ⟨(hx.entries n d hd).1, (hx.entries n d hd).2.1⟩, List.nodup_nil, ?_⟩
    intro n
    refine ⟨fun h => (by cases h), fun ⟨d, hd, hr⟩ => ?_⟩
    rw [(hx.entries n d hd).2.2] at hr
    cases hr
  obtain ⟨y, hy, hgy, hgrown, hmarked⟩ := forEach_collect (r := .dependent)
    (fun p => (Database.dependents db p.name).map Prod.fst) (fun _ => false)
    (fun d => d.package.reason ≠ .dependent ∧ d.package.package.state = .configured)
    hdb.named
    (fun n p d hp hd => by
      rw [hdb.named n p hp] at hd
      obtain ⟨q, hq, -⟩ := mem_dependents.mp hd
      exact ⟨q, hq⟩)
    (fun d h => h.1)
    (fun n d m hd hr hc hgo => by
      obtain ⟨q, hq, hs⟩ := hdb.configured m n ((goes_dependents hdb).mp hgo)
      obtain rfl := Option.some.inj (hd.symm.trans hq)
      exact hc ⟨hr, hs⟩)
    hg
  have hremoved : y.1.marked = Removed db args := by
    have hgo : Goes db (fun p => (Database.dependents db p.name).map Prod.fst) (fun _ => false) =
        Function.swap (Requires db) := by
      funext n d
      exact propext (goes_dependents hdb)
    rw [hmarked, hgo, hx.marked]
    ext n
    exact exists_congr fun a => and_congr_right fun _ => reflTransGen_swap
  refine ⟨y, hy, hgrown.list.trans hx.list, hremoved, hgy.loaded, fun n d hd => ?_, fun n => ?_⟩
  · rcases hgrown.reason n d hd with hd | hr
    · rw [(hx.entries n d hd).2.2]
      decide
    · rw [hr]
      decide
  · rw [List.mem_append, hx.names, hgy.names, ← hremoved, mem_marked]
    constructor
    · rintro (hn | ⟨d, hd, -⟩)
      · have hmem : n ∈ x.1.marked := by
          rw [hx.marked]
          exact hn
        exact mem_marked.mp (hgrown.marks.subset hmem)
      · exact ⟨d, hd⟩
    · rintro ⟨d, hd⟩
      refine (hgrown.reason n d hd).imp (fun hd => ?_) fun hr => ⟨d, hd, hr⟩
      have hmem : n ∈ x.1.marked := mem_marked.mpr ⟨d, hd⟩
      rw [hx.marked] at hmem
      exact hmem

/-- Everything that may be dropped is in the map, not ordered. -/
structure WithPrerequisites (db : Database) (args : List PackageName)
    (s : DropPackages) : Prop where
  list : s.list = .nil
  marked : s.marked = Removed db args ∪ Candidates db args
  loaded : ∀ n d, s.map.find n = some d → db.find n = some d.package.package ∧ d.position = none
  reason : ∀ n d, s.map.find n = some d →
    (d.package.reason = .prerequisite ↔ n ∉ Removed db args)

/-- **Collecting the prerequisites** gets to the end with all that may be dropped. -/
theorem collectPrerequisites_spec (hdb : Sound db) {names : List PackageName}
    {x : DropPackages × List DependentName} (hx : WithDependents db args names x) :
    ∃ y, x.1.collectPrerequisites db = .ok y ∧ WithPrerequisites db args y.1 := by
  have hg : Gathered db .prerequisite (x.1, []) := by
    refine ⟨hx.loaded, List.nodup_nil, fun n => ⟨fun h => (by cases h), ?_⟩⟩
    rintro ⟨d, hd, hr⟩
    exact absurd hr (hx.reason n d hd)
  obtain ⟨y, hy, hgy, hgrown, hmarked⟩ := forEach_collect (r := .prerequisite)
    (fun p => p.prerequisites.keys) (fun p => p.holdPackage)
    (fun d => (d.package.reason = .user ∨ d.package.reason = .dependent) ∧
      d.package.package.state = .configured)
    hdb.named
    (fun n p d hp hd => by
      obtain ⟨q, hq, -⟩ := hdb.configured n d ⟨p, hp, AList.mem_keys.mpr hd⟩
      exact ⟨q, hq⟩)
    (fun d h hr => by
      rw [hr] at h
      rcases h.1 with h | h <;> cases h)
    (fun n d m hd hr hc hgo => by
      have hreq := (goes_prerequisites.mp hgo).1
      refine hc ⟨?_, hdb.state_of_requires hreq hd⟩
      cases hreason : d.package.reason with
      | user => exact Or.inl rfl
      | dependent => exact Or.inr rfl
      | prerequisite => exact absurd hreason hr)
    hg
  have hgo : Goes db (fun p => p.prerequisites.keys) (fun p => p.holdPackage) =
      RequiresUnheld db := by
    funext n d
    exact propext goes_prerequisites
  refine ⟨(y.1, !y.2.isEmpty), ?_, hgrown.list.trans hx.list, ?_, hgy.loaded, fun n d hd => ?_⟩
  · rw [collectPrerequisites]
    exact congrArg (Except.map _) hy
  · rw [hmarked, hgo, hx.marked]
    ext n
    constructor
    · rintro ⟨a, ha, han⟩
      by_cases hn : n ∈ Removed db args
      · exact Or.inl hn
      · rcases reflTransGen_iff_eq_or_transGen.mp han with rfl | han
        · exact absurd ha hn
        · exact Or.inr ⟨hn, a, ha, han⟩
    · rintro (hn | ⟨-, a, ha, han⟩)
      · exact ⟨n, hn, ReflTransGen.refl⟩
      · exact ⟨a, ha, han.to_reflTransGen⟩
  · rw [← hx.marked, mem_marked]
    constructor
    · rintro hr ⟨e, he⟩
      rw [Option.some.inj (hd.symm.trans (hgrown.kept n e he))] at hr
      exact hx.reason n e he hr
    · intro hn
      exact (hgrown.reason n d hd).resolve_left fun hd => hn ⟨d, hd⟩

end Build2.Bpkg.PkgDrop
