import Build2.Bpkg.Satisfaction.Basic
import Build2.Libbpkg.Version.ComponentOrder
import Mathlib.Tactic.SplitIfs

/-! # Endpoints of constraints

What the endpoints of a constraint ask of a version: a comparison of the epoch and the canonical
parts, and among versions that are equal in these a comparison of the revision and the iteration. -/

namespace Build2.Bpkg

open Build2.Lib.ByteString Build2.Libbpkg Build2.Libbutl.ParseUint
open Version (Constructed compare_refl compare_swap compare_trans)

/-! ### Comparing versions -/

section

variable {x y z : Version}

/-- The comparison of the epoch and the canonical parts. -/
abbrev level (x y : Version) : Ordering := x.compare y true false

theorem compare_eq_level (x y : Version) : x.compare y false false =
    (level x y).then ((compare x.revision y.revision).then (compare x.iteration y.iteration)) := by
  simp only [level, Version.compare_eq_compareParts, Version.compareParts, compareLex, compareOn]
  simp [Ordering.then_assoc]

theorem level_swap (x y : Version) : level y x = (level x y).swap := compare_swap x y true false

theorem level_congr_left (h : level x y = .eq) : level x z = level y z := by
  have h' : Version.compareParts true false x y = .eq := by
    rw [← Version.compare_eq_compareParts]
    exact h
  rw [level, level, Version.compare_eq_compareParts, Version.compare_eq_compareParts]
  exact Std.TransCmp.congr_left h'

theorem level_gt_of_ge_gt (hxy : level x y ≠ .lt) (hyz : level y z = .gt) : level x z = .gt := by
  by_contra h
  refine compare_trans (y := x) ?_ h hyz
  rw [compare_swap x y]
  exact fun h' => hxy (Ordering.swap_eq_gt.mp h')

theorem level_gt_of_gt_ge (hxy : level x y = .gt) (hyz : level y z ≠ .lt) : level x z = .gt := by
  by_contra h
  refine compare_trans (y := z) h ?_ hxy
  rw [compare_swap y z]
  exact fun h' => hyz (Ordering.swap_eq_gt.mp h')

theorem level_lt_of_le_lt (hxy : level x y ≠ .gt) (hyz : level y z = .lt) : level x z = .lt := by
  by_contra h
  refine compare_trans (x := z) (y := x) ?_ hxy ?_
  · rw [compare_swap x z]
    exact fun h' => h (Ordering.swap_eq_gt.mp h')
  · rw [compare_swap y z]
    exact Ordering.swap_eq_gt.mpr hyz

theorem level_lt_of_lt_le (hxy : level x y = .lt) (hyz : level y z ≠ .gt) : level x z = .lt := by
  by_contra h
  refine compare_trans (x := y) (y := z) (z := x) hyz ?_ ?_
  · rw [compare_swap x z]
    exact fun h' => h (Ordering.swap_eq_gt.mp h')
  · rw [compare_swap x y]
    exact Ordering.swap_eq_gt.mpr hxy

end

/-! ### Revisions -/

/-- The version with another revision and iteration. -/
def revise (v : Version) (n i : ℕ) : Version := { v with revision := some n, iteration := i }

section

variable {v m : Version} {n i : ℕ}

@[simp] theorem level_revise_left : level (revise v n i) m = level v m := rfl

/-- The members of a constructed version, and of a version that is not the earliest of them. -/
theorem earliest_members (h : Constructed v) (he : v.release = some []) :
    v.revision = none ∧ v.iteration = 0 := by
  have hparts : ∀ {e u l r i} {v : Version}, Version.ofParts e u l r i = .ok v →
      v.release = some [] → v.revision = none ∧ v.iteration = 0 := by
    intro e u l r i v hv hl
    obtain ⟨hm, _, _, _, _, rfl⟩ := Version.ofParts_eq_ok.mp hv
    unfold Version.MembersOk at hm
    split_ifs at hm
    · exact ⟨hm.2.2.1, hm.2.2.2⟩
    · exact hm hl
  cases h with
  | empty => exact ⟨rfl, rfl⟩
  | ofString h =>
    obtain ⟨hr, -⟩ := hparts (Version.ofParts_of_ofString h (i := 0) fun _ => rfl) he
    obtain ⟨x, -, -, rfl⟩ := Version.exists_text h
    exact ⟨hr, rfl⟩
  | ofParts h => exact hparts h he

theorem upstream_ne_nil (h : Constructed v) (he : v.release ≠ some []) : v.upstream ≠ [] := by
  have hparts : ∀ {e u l r i} {v : Version}, Version.ofParts e u l r i = .ok v →
      v.release ≠ some [] → v.upstream ≠ [] := by
    intro e u l r i v hv hl hu
    obtain ⟨hm, _, _, _, _, rfl⟩ := Version.ofParts_eq_ok.mp hv
    rw [Version.MembersOk, if_pos hu] at hm
    exact hl hm.2.1
  cases h with
  | empty => exact absurd rfl he
  | ofString h =>
    have h' := Version.ofParts_of_ofString h (i := 0) fun _ => rfl
    have hne := hparts h' he
    exact hne
  | ofParts h => exact hparts h he

/-- **Another revision of a version** that is not the earliest can be made from its parts. -/
theorem ofParts_revise (h : Constructed v) (he : v.release ≠ some []) :
    Version.ofParts v.epoch v.upstream v.release (some n) i = .ok (revise v n i) := by
  obtain ⟨hu, hl⟩ := h.forms
  refine Version.ofParts_eq_ok.mpr ⟨?_, _, _, hu, hl, rfl⟩
  rw [Version.MembersOk, if_neg (upstream_ne_nil h he)]
  exact fun h' => absurd h' he

end

/-! ### What the endpoints ask -/

section

variable {v m : Version} {n i : ℕ} {o : Bool}

theorem then_ne_lt {a b : Ordering} : a.then b ≠ .lt ↔ a = .gt ∨ a = .eq ∧ b ≠ .lt := by
  cases a <;> simp

theorem then_ne_gt {a b : Ordering} : a.then b ≠ .gt ↔ a = .lt ∨ a = .eq ∧ b ≠ .gt := by
  cases a <;> simp

/-- The comparison of revisions and iterations. -/
def pair (n i r k : ℕ) : Ordering := (compare n r).then (compare i k)

section

variable {r k : ℕ}

theorem pair_eq_gt : pair n i r k = .gt ↔ r < n ∨ r = n ∧ k < i := by
  unfold pair
  rw [Ordering.then_eq_gt, compare_gt_iff_gt, compare_gt_iff_gt, compare_eq_iff_eq, eq_comm]

theorem pair_eq_lt : pair n i r k = .lt ↔ n < r ∨ n = r ∧ i < k := by
  unfold pair
  rw [Ordering.then_eq_lt, compare_lt_iff_lt, compare_lt_iff_lt, compare_eq_iff_eq]

theorem pair_ne_lt : pair n i r k ≠ .lt ↔ r < n ∨ r = n ∧ k ≤ i := by
  rw [Ne, pair_eq_lt]
  omega

theorem pair_ne_gt : pair n i r k ≠ .gt ↔ n < r ∨ n = r ∧ i ≤ k := by
  rw [Ne, pair_eq_gt]
  omega

end

/-- The min endpoint asks for a greater level or for the revision and the iteration. -/
def AskedMin (m : Version) (o : Bool) (n i : ℕ) : Prop :=
  match m.revision with
  | none => o = false
  | some r => if o then pair n i r m.iteration = .gt else pair n i r m.iteration ≠ .lt

/-- The max endpoint asks for a lesser level or for the revision and the iteration. -/
def AskedMax (m : Version) (o : Bool) (n i : ℕ) : Prop :=
  match m.revision with
  | none => o = false
  | some r => if o then pair n i r m.iteration = .lt else pair n i r m.iteration ≠ .gt

theorem compare_revise {r : ℕ} (hr : m.revision = some r) :
    (revise v n i).compare m false false = (level v m).then (pair n i r m.iteration) := by
  rw [compare_eq_level, hr]
  rfl

theorem atMin_revise : atMin (revise v n i) m o = true ↔
    level v m = .gt ∨ level v m = .eq ∧ AskedMin m o n i := by
  unfold atMin AskedMin
  cases hr : m.revision with
  | none =>
    have hc : (revise v n i).compare m true false = level v m := rfl
    simp only [Option.isSome_none, Bool.not_false, hc]
    cases o <;> cases level v m <;> decide
  | some r =>
    simp only [Option.isSome_some, Bool.not_true, compare_revise hr]
    cases o with
    | false => simp only [Bool.false_eq_true, if_false, decide_eq_true_eq, then_ne_lt]
    | true => simp only [if_true, decide_eq_true_eq, Ordering.then_eq_gt]

theorem atMax_revise : atMax (revise v n i) m o = true ↔
    level v m = .lt ∨ level v m = .eq ∧ AskedMax m o n i := by
  unfold atMax AskedMax
  cases hr : m.revision with
  | none =>
    have hc : (revise v n i).compare m true false = level v m := rfl
    simp only [Option.isSome_none, Bool.not_false, hc]
    cases o <;> cases level v m <;> decide
  | some r =>
    simp only [Option.isSome_some, Bool.not_true, compare_revise hr]
    cases o with
    | false => simp only [Bool.false_eq_true, if_false, decide_eq_true_eq, then_ne_gt]
    | true => simp only [if_true, decide_eq_true_eq, Ordering.then_eq_lt]

end

/-! ### Versions and constraints -/

/-- An available version that a constraint is checked against. -/
structure IsAvailable (v : Version) : Prop where
  constructed : Constructed v
  notEarliest : v.release ≠ some []
  revision : v.effectiveRevision ≤ 65535

/-- An endpoint that the constraint can hold. -/
structure IsEndpoint (m : Version) : Prop where
  constructed : Constructed m
  revision : ∀ r ∈ m.revision, r ≤ 65535

/-- A complete non-empty constraint. -/
structure IsComplete (c : VersionConstraint) : Prop where
  notEmpty : c.empty = false
  complete : c.complete = true
  minVersion : ∀ m ∈ c.minVersion, IsEndpoint m
  maxVersion : ∀ m ∈ c.maxVersion, IsEndpoint m

/-- The constraint is one that the constructor makes. -/
def Held (c : VersionConstraint) : Prop :=
  VersionConstraint.ofVersions c.minVersion c.minOpen c.maxVersion c.maxOpen = .ok c

section

variable {v : Version} {c : VersionConstraint}

theorem satisfiesVersion_wildcard (hc : IsComplete c) (hw : v.cmp wildcardVersion = .eq) :
    satisfiesVersion v c = .ok true := by
  unfold satisfiesVersion
  rw [hc.notEmpty, hc.complete, if_neg (by decide), if_pos hw]
  rfl

/-- **What it takes to satisfy a constraint.** -/
theorem satisfiesVersion_iff (hv : IsAvailable v) (hc : IsComplete c)
    (hw : v.cmp wildcardVersion ≠ .eq) : satisfiesVersion v c = .ok true ↔
      (∀ m ∈ c.minVersion, level v m = .gt ∨
        level v m = .eq ∧ AskedMin m c.minOpen v.effectiveRevision v.iteration) ∧
      ∀ m ∈ c.maxVersion, level v m = .lt ∨
        level v m = .eq ∧ AskedMax m c.maxOpen v.effectiveRevision v.iteration := by
  unfold satisfiesVersion
  rw [hc.notEmpty, hc.complete, if_neg (by decide), if_neg hw,
    ofParts_revise hv.constructed hv.notEarliest]
  show Except.ok _ = Except.ok true ↔ _
  simp only [Except.ok.injEq, Bool.and_eq_true, Option.all_eq_true, atMin_revise, atMax_revise,
    Option.mem_def]

end

end Build2.Bpkg
