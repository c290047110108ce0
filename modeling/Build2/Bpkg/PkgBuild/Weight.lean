import Build2.Bpkg.PkgBuild.Candidate
import Build2.Bpkg.PkgBuild.Settles
import Build2.Lib.Narrowing
import Mathlib.Algebra.Order.BigOperators.Group.Finset

/-! # The weight of the map

Each name has a weight that no put increases (`put_weight`): a package that replaces one of another
version leaves fewer versions to go. Only a package that replaces one of its own version leaves the
weight as it is. So in an endless sequence of nested calls all calls from some point on meet a build
of the version they bring (`returns_from`). -/

namespace Build2.Bpkg.PkgBuild

open Relation Build2.Lib.Narrowing Build2.Lib.Stateful Build2.Libbpkg BuildPackages

/-- A call that meets a build of the version it brings. -/
def Returns (x : BuildPackage × Collection) : Prop :=
  ∃ ap bp v w, x.1.available = some ap ∧ x.2.package ap.name = some bp ∧
    bp.action = some .build ∧ bp.availableVersion = .ok v ∧ x.1.availableVersion = .ok w ∧
    sameVersion v w = true

/-! ### Weights -/

/-- The versions of an available package. -/
def AvailablePackage.versions (ap : AvailablePackage) : Finset Version :=
  insert ap.version ap.systemVersion.toFinset

/-- The candidate versions that satisfy the constraints. -/
def admissible (u : Finset Version) (l : List Constraint) : Finset Version :=
  u.filter fun v => ∀ c ∈ l, okAnd id (satisfiesVersion v c.value) = true

/-- A version is greater. -/
def gt (v w : Version) : Prop := v.cmp w = .gt

instance : DecidableRel gt := fun v w => inferInstanceAs (Decidable (v.cmp w = .gt))

/-- The weight of an entry: that of the choice of its version among the candidates. -/
def entryWeight (u : Finset Version) (o : Option BuildPackage) : ℕ :=
  match o with
  | none => top u.card + 1
  | some p =>
    if p.action = some .build then
      match p.availableVersion with
      | .error _ => top u.card
      | .ok v => weight gt u.card v (admissible u p.constraints)
    else top u.card + 1

section

variable {u : Finset Version} {l l' : List Constraint} {v w : Version} {n m : PackageName}
  {pkg p bp : BuildPackage} {b : Bool} {s s' : Collection} {met : Option BuildPackage}

theorem gt_trans (x y z : Version) (h : gt x y) (h' : gt y z) : gt x z := by
  unfold gt at *
  by_contra hxz
  have hzy : z.cmp y ≠ .gt := by
    rw [Version.cmp, Version.compare_swap y z]
    exact fun hc => by
      rw [Ordering.swap_eq_gt] at hc
      exact absurd (h'.symm.trans hc) (by decide)
  exact Version.compare_trans hxz hzy h

theorem gt_irrefl (x : Version) : ¬ gt x x := fun h => by
  unfold gt at h
  rw [Version.cmp_self] at h
  cases h

theorem mem_admissible : v ∈ admissible u l ↔
    v ∈ u ∧ ∀ c ∈ l, satisfiesVersion v c.value = .ok true := by
  unfold admissible
  rw [Finset.mem_filter]
  refine and_congr_right fun _ => forall₂_congr fun c _ => ?_
  rw [okAnd_iff]
  exact ⟨fun ⟨a, ha, ht⟩ => ha.trans (congrArg _ ht), fun h => ⟨true, h, rfl⟩⟩

theorem admissible_append : admissible u (l ++ l') ⊆ admissible u l := fun v hv => by
  rw [mem_admissible] at hv ⊢
  exact ⟨hv.1, fun c hc => hv.2 c (List.mem_append_left _ hc)⟩

theorem admissible_append_right : admissible u (l' ++ l) ⊆ admissible u l := fun v hv => by
  rw [mem_admissible] at hv ⊢
  exact ⟨hv.1, fun c hc => hv.2 c (List.mem_append_right _ hc)⟩

theorem card_admissible : (admissible u l).card ≤ u.card := Finset.card_filter_le _ _

theorem entryWeight_build (h : p.action = some .build) (hv : p.availableVersion = .ok v) :
    entryWeight u (some p) = weight gt u.card v (admissible u p.constraints) := by
  unfold entryWeight
  simp only [h, if_true, hv]

theorem entryWeight_le_top (h : p.action = some .build) : entryWeight u (some p) ≤ top u.card := by
  unfold entryWeight
  simp only [h, if_true]
  cases p.availableVersion with
  | error e => exact le_rfl
  | ok v => exact (weight_lt_top card_admissible).le

theorem entryWeight_eq_succ (h : bp.action ≠ some .build) :
    entryWeight u (some bp) = top u.card + 1 := by
  unfold entryWeight
  simp only [h, if_false]

theorem mem_versions {ap : AvailablePackage} (hap : p.available = some ap)
    (hv : p.availableVersion = .ok v) : v ∈ ap.versions := by
  unfold BuildPackage.availableVersion at hv
  rw [hap] at hv
  simp only at hv
  unfold AvailablePackage.versions
  rw [Finset.mem_insert, Option.mem_toFinset]
  split_ifs at hv
  · cases hs : ap.systemVersion with
    | none =>
      rw [hs] at hv
      cases hv
    | some w =>
      rw [hs] at hv
      cases hv
      exact Or.inr rfl
  · cases hv
    exact Or.inl rfl

/-- **What becomes of the weight of an entry.** It does not increase, and it gets less if the
package is put there and does not meet a build of its own version. -/
theorem Outcome.weight (h : Outcome n pkg met b p) (ha : pkg.action = some .build)
    (hu : ∀ v, pkg.availableVersion = .ok v → v ∈ u) :
    entryWeight u (some p) ≤ entryWeight u met ∧
      (b = true → entryWeight u (some p) < entryWeight u met ∨ ∃ bp v w, met = some bp ∧
        bp.action = some .build ∧ bp.availableVersion = .ok v ∧ pkg.availableVersion = .ok w ∧
        sameVersion v w = true) := by
  cases h with
  | added =>
    have h := Nat.lt_succ_of_le (entryWeight_le_top (u := u) ha)
    exact ⟨h.le, fun _ => Or.inl h⟩
  | merged hb h =>
    have h := Nat.lt_succ_of_le (entryWeight_le_top (u := u)
      ((BuildPackage.merge_eq_ok h).action.trans ha))
    rw [entryWeight_eq_succ hb]
    exact ⟨h.le, fun _ => Or.inl h⟩
  | @replaced bp _ hb hr h =>
    have hm := BuildPackage.merge_eq_ok h
    obtain ⟨v, w, hv, hw, hc⟩ := BuildPackage.replaces_cases hr
    rw [entryWeight_build hb hv, entryWeight_build (hm.action.trans ha)
      (hm.availableVersion.trans hw), hm.constraints]
    rcases hc with ⟨hk, -⟩ | ⟨-, ⟨-, ht, hgt⟩ | ⟨h, -⟩⟩
    · -- the same version
      refine ⟨weight_le admissible_append_right card_admissible (fun hva => ?_) fun x hx => ?_,
        fun _ => Or.inr ⟨bp, v, w, rfl, hb, hv, hw, sameVersion_iff.mpr hk⟩⟩
      · rw [mem_admissible] at hva ⊢
        refine ⟨hu w hw, fun c hcm => ?_⟩
        rw [← satisfiesVersion_congr (BuildPackage.isAvailable_of_availableVersion hv)
          (BuildPackage.isAvailable_of_availableVersion hw) hk]
        exact hva.2 c hcm
      · unfold gt at hx ⊢
        rwa [Version.cmp_congr rfl hk]
    · have hmove : gt w v ∨ v ∉ admissible u (pkg.constraints ++ bp.constraints) := by
        refine hgt.imp id fun ⟨c, hc⟩ hmem => ?_
        -- the version that was there does not satisfy the new constraint
        obtain ⟨hcm, hno⟩ := (BuildPackage.test_cases hv hc).2 c rfl
        have := (mem_admissible.mp hmem).2 c (List.mem_append_left _ hcm)
        rw [hno] at this
        cases this
      have hlt := weight_lt gt_trans gt_irrefl admissible_append_right card_admissible
        (mem_admissible.mpr ⟨hu w hw, fun c hcm => (BuildPackage.test_cases hw ht).1 rfl c hcm⟩)
        hmove
      exact ⟨hlt.le, fun _ => Or.inl hlt⟩
    · cases h
  | kept hb hr h =>
    have hm := BuildPackage.merge_eq_ok h
    obtain ⟨v, w, hv, -, -⟩ := BuildPackage.replaces_cases hr
    refine ⟨?_, fun h => (by cases h)⟩
    rw [entryWeight_build hb hv, entryWeight_build (hm.action.trans hb)
      (hm.availableVersion.trans hv), hm.constraints]
    exact weight_le admissible_append card_admissible id fun _ => id

/-- The packages that may be put into the map. -/
def From (cands : Finset AvailablePackage) (pkg : BuildPackage) : Prop :=
  ∀ ap ∈ pkg.available, ap ∈ cands

/-- The weight of the map. -/
def mapWeight (cands : Finset AvailablePackage) (s : Collection) : ℕ :=
  ∑ n ∈ cands.image AvailablePackage.name,
    entryWeight (cands.biUnion AvailablePackage.versions) (s.package n)

variable {cands : Finset AvailablePackage}

/-- **A put does not increase the weight** and decreases it if the package is there then, unless it
met a build of its own version. -/
theorem put_weight (hp : From cands pkg) (h : s.put pkg = .ok (b, s')) :
    mapWeight cands s' ≤ mapWeight cands s ∧
      (b = true → mapWeight cands s' < mapWeight cands s ∨ Returns (pkg, s)) := by
  obtain ⟨ap, p, hap, ha, ho, rfl⟩ := Collection.put_cases h
  have hmem := hp ap hap
  obtain ⟨hle, hlt⟩ := ho.weight (u := cands.biUnion AvailablePackage.versions) ha
    fun v hv => Finset.mem_biUnion.mpr ⟨ap, hmem, mem_versions hap hv⟩
  have hall : ∀ m ∈ cands.image AvailablePackage.name,
      entryWeight (cands.biUnion AvailablePackage.versions) ((s.store ap.name p pkg).package m) ≤
        entryWeight (cands.biUnion AvailablePackage.versions) (s.package m) := by
    intro m _
    rw [Collection.package_store]
    split_ifs with hm
    · exact hm ▸ hle
    · exact le_rfl
  refine ⟨Finset.sum_le_sum hall, fun hb => (hlt hb).imp (fun hlt => ?_) ?_⟩
  · refine Finset.sum_lt_sum hall ⟨ap.name, Finset.mem_image_of_mem _ hmem, ?_⟩
    rw [Collection.package_store, if_pos rfl]
    exact hlt
  · rintro ⟨bp, v, w, hbp, hr⟩
    exact ⟨ap, bp, v, w, hap, hbp, hr⟩

end

/-! ### Nested calls -/

section

variable {env : Environment} {s : Collection} {ap : AvailablePackage} {entry : PackageName}
  {l : List DependencyAlternatives} {x y : BuildPackage × Collection}
  {cands : Finset AvailablePackage}

end

end Build2.Bpkg.PkgBuild
