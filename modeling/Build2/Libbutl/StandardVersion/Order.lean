import Build2.Libbutl.StandardVersion.Print

/-! # The order of versions

`compare` looks at the packed numbers. On versions that the parser returns it is the lexicographic
order of the components, and printing followed by parsing is the identity. -/

namespace Build2.Libbutl.StandardVersion

open Build2.Lib.ByteString Build2.Lib.Decimal Build2.Lib.Lex Build2.Lib.Stateful
  Build2.Lib.Stateful.Comp Build2.Libbutl.ParseUint

theorem cmp_eq (x y : StandardVersion) :
    x.cmp y = (Ord.compare x.epoch y.epoch).then ((Ord.compare x.version y.version).then
      ((Ord.compare x.snapshotSn y.snapshotSn).then (Ord.compare x.revision y.revision))) := by
  have hr := compare_ite x.revision y.revision .eq
  rw [Ordering.then_eq] at hr
  rw [← compare_ite, ← compare_ite, ← compare_ite, ← hr]
  simp [cmp, StandardVersion.compare]

theorem cmp_eq_lt {x y : StandardVersion} :
    x.cmp y = .lt ↔ x.epoch < y.epoch ∨ x.epoch = y.epoch ∧ (x.version < y.version ∨
      x.version = y.version ∧ (x.snapshotSn < y.snapshotSn ∨
        x.snapshotSn = y.snapshotSn ∧ x.revision < y.revision)) := by
  rw [cmp_eq]
  simp only [Ordering.then_eq_lt, compare_lt_iff_lt, compare_eq_iff_eq]

theorem cmp_eq_eq {x y : StandardVersion} :
    x.cmp y = .eq ↔ x.epoch = y.epoch ∧ x.version = y.version ∧ x.snapshotSn = y.snapshotSn ∧
      x.revision = y.revision := by
  rw [cmp_eq]
  simp only [Ordering.then_eq_eq, compare_eq_iff_eq]

theorem cmp_eq_gt {x y : StandardVersion} :
    x.cmp y = .gt ↔ y.epoch < x.epoch ∨ x.epoch = y.epoch ∧ (y.version < x.version ∨
      x.version = y.version ∧ (y.snapshotSn < x.snapshotSn ∨
        x.snapshotSn = y.snapshotSn ∧ y.revision < x.revision)) := by
  rw [cmp_eq]
  simp only [Ordering.then_eq_gt, compare_gt_iff_gt, compare_eq_iff_eq]

theorem cmp_self (x : StandardVersion) : x.cmp x = .eq := by
  rw [cmp_eq]
  simp only [compare_eq_iff_eq.mpr, Ordering.eq_then]

/-- The place of the pre-release part: earliest, the snapshots before the first alpha, that alpha,
its snapshots and so on, and then the release. -/
def rank (v : StandardVersion) : ℕ :=
  if v.earliest then 0
  else
    match v.preRelease with
    | some pr => 2 * pr + if v.snapshot then 1 else 0
    | none => 2000

/-- The comparison of versions component by component. -/
def byComponents (a b : StandardVersion) : Ordering :=
  (Ord.compare a.epoch b.epoch).then <| (Ord.compare a.major b.major).then <|
    (Ord.compare a.minor b.minor).then <| (Ord.compare a.patch b.patch).then <|
      (Ord.compare a.rank b.rank).then <| (Ord.compare a.snapshotSn b.snapshotSn).then <|
        Ord.compare a.revision b.revision

/-- `DDDE`, the rank and the snapshot number, whatever the kind of the pre-release part. -/
theorem Pre.Valid.rank_ddde {p : Pre} (h : p.Valid) :
    p.sn = 0 ∧ p.ddde = 1 ∧ p.rank = 0 ∨ p.sn = 0 ∧ p.ddde = 10000 ∧ p.rank = 2000 ∨
      p.sn = 0 ∧ p.ddde = 5 * p.rank ∧ p.rank % 2 = 0 ∧ 2 ≤ p.rank ∧ p.rank < 2000 ∨
      1 ≤ p.sn ∧ p.ddde + 4 = 5 * p.rank ∧ p.rank % 2 = 1 ∧ p.rank < 2000 := by
  cases p with
  | release => exact Or.inr (Or.inl ⟨rfl, rfl, rfl⟩)
  | earliest => exact Or.inl ⟨rfl, rfl, rfl⟩
  | final n =>
    obtain ⟨h1, -, h2⟩ := h
    have hd : (Pre.final n).ddde = n * 10 := rfl
    have hr : (Pre.final n).rank = 2 * n := rfl
    exact Or.inr (Or.inr (Or.inl ⟨rfl, by omega, by omega, by omega, by omega⟩))
  | snapshot n sn id =>
    have h1 := h.1
    have hd : (Pre.snapshot n sn id).ddde = n * 10 + 1 := rfl
    have hr : (Pre.snapshot n sn id).rank = 2 * n + 1 := rfl
    exact Or.inr (Or.inr (Or.inr ⟨h.2.pos, by omega, by omega, by omega⟩))

/-- `DDDE` and the snapshot number order the pre-release parts as their ranks do. -/
theorem Pre.Valid.compare_ddde {p q : Pre} (hp : p.Valid) (hq : q.Valid) :
    (Ord.compare p.ddde q.ddde).then (Ord.compare p.sn q.sn) =
      (Ord.compare p.rank q.rank).then (Ord.compare p.sn q.sn) := by
  have h1 := hp.rank_ddde
  have h2 := hq.rank_ddde
  exact then_congr (by omega) (by omega)

namespace Components

variable {c d : Components}

theorem Valid.rank_eq (h : c.Valid) : c.toVersion.rank = c.pre.rank := by
  have he := h.earliest
  have hp := h.preRelease
  have hs := h.snapshot
  unfold StandardVersion.rank
  cases hc : c.pre <;> rw [hc] at he hp hs
  · rw [if_neg (by rw [he]; nofun), hp]
    rfl
  · rw [if_pos (he.mpr rfl)]
    rfl
  · rw [if_neg (by rw [he]; nofun), hp]
    simp only [if_neg (show ¬ c.toVersion.snapshot = true by rw [hs]; rintro ⟨_, _, _, ⟨⟩⟩)]
    rfl
  · rw [if_neg (by rw [he]; nofun), hp]
    simp only [if_pos (hs.mpr ⟨_, _, _, rfl⟩)]
    rfl

theorem Valid.compare_joined (hc : c.Valid) (hd : d.Valid) :
    Ord.compare c.joined d.joined = (Ord.compare c.major d.major).then
      ((Ord.compare c.minor d.minor).then (Ord.compare c.patch d.patch)) := by
  have h1 := hc.minor
  have h2 := hc.patch
  have h3 := hd.minor
  have h4 := hd.patch
  have hcj : c.joined = 10000000000 * c.major + (100000 * c.minor + c.patch) := by
    unfold Components.joined StandardVersion.joined; omega
  have hdj : d.joined = 10000000000 * d.major + (100000 * d.minor + d.patch) := by
    unfold Components.joined StandardVersion.joined; omega
  rw [hcj, hdj, compare_mul_add (by omega) (by omega), compare_mul_add (by omega) (by omega)]

/-- Versions put together compare as their components. -/
theorem Valid.compare_toVersion (hc : c.Valid) (hd : d.Valid) :
    c.toVersion.cmp d.toVersion = byComponents c.toVersion d.toVersion := by
  obtain ⟨h1, h2, h3⟩ := hc.decode
  obtain ⟨h4, h5, h6⟩ := hd.decode
  unfold byComponents
  rw [cmp_eq, h1, h2, h3, h4, h5, h6, hc.rank_eq, hd.rank_eq]
  simp only [toVersion]
  rw [compare_number c.number, hc.triple_eq, hd.triple_eq, hc.compare_joined hd, hc.ddde_eq,
    hd.ddde_eq]
  simp only [Ordering.then_assoc]
  rw [← Ordering.then_assoc (Ord.compare c.pre.ddde d.pre.ddde), hc.pre.compare_ddde hd.pre,
    Ordering.then_assoc]

end Components

/-- **Round trip and order.** Printing a parsed version and parsing it again gives it back, and
parsed versions compare component by component. -/
theorem parse_string_and_compare :
    (∀ s f r, fresh (parseVersion s f) = .ok r → fresh (parseVersion r.string f) = .ok r) ∧
      ∀ s f a s' f' b, fresh (parseVersion s f) = .ok a → fresh (parseVersion s' f') = .ok b →
        a.stub = false → b.stub = false → a.cmp b = byComponents a b := by
  refine ⟨fun s f r h => parse_string h, fun s f a s' f' b ha hb hsa hsb => ?_⟩
  rw [parseVersion_eq_ok] at ha hb
  rcases ha.cases with ⟨-, r, -, rfl⟩ | ⟨c, hc, -, rfl, -⟩
  · cases hsa
  rcases hb.cases with ⟨-, r, -, rfl⟩ | ⟨d, hd, -, rfl, -⟩
  · cases hsb
  exact hc.compare_toVersion hd

/-- The versions `1.0.0-a.1.5.ab` and `+2-0.1.0-`. -/
theorem parse_string_and_compare_at :
    fresh (parseVersion (str "1.0.0-a.1.5.ab".toList) .none) =
        .ok ⟨1, 99999999990011, 5, str ['a', 'b'], 0⟩ ∧
      fresh (parseVersion (string ⟨1, 99999999990011, 5, str ['a', 'b'], 0⟩) .none) =
        .ok ⟨1, 99999999990011, 5, str ['a', 'b'], 0⟩ ∧
      cmp ⟨1, 99999999990011, 5, str ['a', 'b'], 0⟩ ⟨2, 999990001, 0, [], 0⟩ =
        byComponents ⟨1, 99999999990011, 5, str ['a', 'b'], 0⟩ ⟨2, 999990001, 0, [], 0⟩ :=
  ⟨by decide, parse_string_and_compare.1 (str "1.0.0-a.1.5.ab".toList) _ _ (by decide),
    parse_string_and_compare.2 (str "1.0.0-a.1.5.ab".toList) .none _
      (str "+2-0.1.0-".toList) .earliest _ (by decide) (by decide) (by decide) (by decide)⟩

end Build2.Libbutl.StandardVersion
