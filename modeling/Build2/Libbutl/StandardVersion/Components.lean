import Build2.Libbutl.StandardVersion.Basic

/-! # The components of a version

The packed number `AAAAABBBBBCCCCCDDDE` of a pre-release borrows one from `AAAAABBBBBCCCCC`. Counted
from the other end this is a rounding: `AAAAABBBBBCCCCC` is the number of ten thousands rounded up,
and with `DDDE` of a release read as ten thousand the packed number is the lexicographic position of
the pair. -/

namespace Build2.Libbutl.StandardVersion

open Build2.Lib.ByteString Build2.Lib.Decimal

/-! ### The packed number -/

/-- `AAAAABBBBBCCCCC` of a version number, the borrow undone. -/
def triple (n : ℕ) : ℕ := (n + 9999) / 10000

/-- `DDDE` of a version number, ten thousand for a release. -/
def ddde (n : ℕ) : ℕ := if n % 10000 = 0 then 10000 else n % 10000

theorem ddde_pos (n : ℕ) : 1 ≤ ddde n := by
  unfold ddde
  split_ifs <;> omega

theorem ddde_le (n : ℕ) : ddde n ≤ 10000 := by
  unfold ddde
  split_ifs <;> omega

/-- **A version number is the position of its two parts.** -/
theorem triple_ddde (n : ℕ) : n + 10000 = 10000 * triple n + ddde n := by
  unfold triple ddde
  split_ifs <;> omega

theorem triple_eq {n t d : ℕ} (h : n + 10000 = 10000 * t + d) (h1 : 1 ≤ d) (h2 : d ≤ 10000) :
    triple n = t := by
  have := triple_ddde n
  have := ddde_pos n
  have := ddde_le n
  omega

theorem ddde_eq {n t d : ℕ} (h : n + 10000 = 10000 * t + d) (h1 : 1 ≤ d) (h2 : d ≤ 10000) :
    ddde n = d := by
  have := triple_ddde n
  have := triple_eq h h1 h2
  omega

/-- Version numbers compare as the pairs of their two parts. -/
theorem compare_number (m n : ℕ) :
    Ord.compare m n = (Ord.compare (triple m) (triple n)).then (Ord.compare (ddde m) (ddde n)) := by
  have hm := triple_ddde m
  have hn := triple_ddde n
  have := ddde_pos m
  have := ddde_le m
  have := ddde_pos n
  have := ddde_le n
  rcases lt_trichotomy (triple m) (triple n) with h | h | h
  · rw [compare_lt_iff_lt.mpr h, compare_lt_iff_lt.mpr (show m < n by omega)]
    rfl
  · rw [compare_eq_iff_eq.mpr h, Ordering.then]
    rcases lt_trichotomy (ddde m) (ddde n) with h' | h' | h'
    · rw [compare_lt_iff_lt.mpr h', compare_lt_iff_lt.mpr (show m < n by omega)]
    · rw [compare_eq_iff_eq.mpr h', compare_eq_iff_eq.mpr (show m = n by omega)]
    · rw [compare_gt_iff_gt.mpr h', compare_gt_iff_gt.mpr (show n < m by omega)]
  · rw [compare_gt_iff_gt.mpr h, compare_gt_iff_gt.mpr (show n < m by omega)]
    rfl

/-- The major, minor and patch numbers as one number. -/
def joined (ma mi bf : ℕ) : ℕ := ma * 10000000000 + mi * 100000 + bf

/-- A version number that the class can hold for a version other than a stub. -/
structure Regular (v : StandardVersion) : Prop where
  pos : v.version ≠ 0
  lt : v.version < 10000000000000000000
  flag : v.version % 10 ≤ 1
  sn : v.snapshotSn ≠ 0 → v.version % 10 = 1

section

variable {v : StandardVersion}

theorem unborrowed_eq (h : v.version % 10 ≤ 1) : v.unborrowed = 1000 * triple v.version := by
  unfold unborrowed triple
  simp only
  split_ifs <;> omega

theorem major_eq (h : v.version % 10 ≤ 1) :
    v.major = triple v.version / 10000000000 % 100000 := by
  unfold major
  rw [unborrowed_eq h]
  omega

theorem minor_eq (h : v.version % 10 ≤ 1) : v.minor = triple v.version / 100000 % 100000 := by
  unfold minor
  rw [unborrowed_eq h]
  omega

theorem patch_eq (h : v.version % 10 ≤ 1) : v.patch = triple v.version % 100000 := by
  unfold patch
  rw [unborrowed_eq h]
  omega

theorem Regular.stub (h : v.Regular) : v.stub = false := by
  have := h.lt
  exact decide_eq_false (by unfold stubVersion; omega)

theorem Regular.empty (h : v.Regular) : v.empty = false := by
  simp [StandardVersion.empty, h.pos]

theorem decode {ma mi bf : ℕ} (h : v.version % 10 ≤ 1) (ht : triple v.version = joined ma mi bf)
    (h1 : ma ≤ 99999) (h2 : mi ≤ 99999) (h3 : bf ≤ 99999) :
    v.major = ma ∧ v.minor = mi ∧ v.patch = bf := by
  rw [major_eq h, minor_eq h, patch_eq h, ht]
  unfold joined
  omega

end

/-! ### Components -/

/-- The pre-release part of a version. -/
inductive Pre
  | release
  | earliest
  | final (ddd : ℕ)
  | snapshot (ddd sn : ℕ) (id : Bytes)
  deriving DecidableEq, Repr

namespace Pre

/-- The `DDDE` of a version number. -/
def ddde : Pre → ℕ
  | release => 10000
  | earliest => 1
  | final ddd => ddd * 10
  | snapshot ddd _ _ => ddd * 10 + 1

def sn : Pre → ℕ
  | snapshot _ sn _ => sn
  | _ => 0

def id : Pre → Bytes
  | snapshot _ _ id => id
  | _ => []

/-- The place of the pre-release part among those of one `X.Y.Z`. -/
def rank : Pre → ℕ
  | earliest => 0
  | snapshot ddd _ _ => 2 * ddd + 1
  | final ddd => 2 * ddd
  | release => 2000

/-- A snapshot number and id that may stand together. -/
structure ValidSnapshot (sn : ℕ) (id : Bytes) : Prop where
  pos : 1 ≤ sn
  le : sn ≤ latestSn
  latest : sn = latestSn → id = []
  length : id.length ≤ 16
  alnum : ∀ b ∈ id, isAlnum b = true

/-- A pre-release part that the string grammar has. -/
def Valid : Pre → Prop
  | release => True
  | earliest => True
  | final ddd => 0 < ddd ∧ ddd ≠ 500 ∧ ddd ≤ 999
  | snapshot ddd sn id => ddd ≤ 999 ∧ ValidSnapshot sn id

theorem Valid.ddde {p : Pre} (h : p.Valid) : 1 ≤ p.ddde ∧ p.ddde ≤ 10000 := by
  cases p <;> simp only [Pre.ddde, Valid] at h ⊢ <;> omega

theorem Valid.ddde_eq_iff {p : Pre} (h : p.Valid) : p.ddde = 10000 ↔ p = release := by
  cases p <;> simp only [Pre.ddde, Valid, reduceCtorEq, iff_false] at h ⊢ <;> omega

theorem Valid.flag {p : Pre} (h : p.Valid) : p.ddde % 10 ≤ 1 := by
  cases p <;> simp only [Pre.ddde, Valid] at h ⊢ <;> omega

end Pre

/-- A version taken apart. -/
structure Components where
  epoch : ℕ
  major : ℕ
  minor : ℕ
  patch : ℕ
  pre : Pre
  revision : ℕ
  deriving DecidableEq, Repr

namespace Components

/-- The major, minor and patch numbers as one number. -/
def joined (c : Components) : ℕ := StandardVersion.joined c.major c.minor c.patch

/-- The version number. -/
def number (c : Components) : ℕ := 10000 * c.joined + c.pre.ddde - 10000

/-- The version put together. -/
def toVersion (c : Components) : StandardVersion :=
  ⟨c.epoch, c.number, c.pre.sn, c.pre.id, c.revision⟩

/-- Components that the string grammar has. -/
structure Valid (c : Components) : Prop where
  epoch : c.epoch ≤ 65535
  major : c.major ≤ 99999
  minor : c.minor ≤ 99999
  patch : c.patch ≤ 99999
  joined : c.joined ≠ 0
  pre : c.pre.Valid
  revision : c.revision ≤ 65535

namespace Valid

variable {c : Components}

theorem number_eq (h : c.Valid) : c.number + 10000 = 10000 * c.joined + c.pre.ddde := by
  have := h.joined
  unfold number
  omega

theorem triple_eq (h : c.Valid) : triple c.number = c.joined :=
  StandardVersion.triple_eq h.number_eq h.pre.ddde.1 h.pre.ddde.2

theorem ddde_eq (h : c.Valid) : StandardVersion.ddde c.number = c.pre.ddde :=
  StandardVersion.ddde_eq h.number_eq h.pre.ddde.1 h.pre.ddde.2

theorem joined_le (h : c.Valid) : c.joined ≤ 999999999999999 := by
  have := h.major
  have := h.minor
  have := h.patch
  unfold Components.joined StandardVersion.joined
  omega

theorem flag (h : c.Valid) : c.number % 10 ≤ 1 := by
  have := h.number_eq
  have := h.pre.flag
  omega

theorem regular (h : c.Valid) : c.toVersion.Regular := by
  have h1 := h.number_eq
  have h2 := h.joined_le
  have h3 := h.pre.ddde
  have h4 := h.joined
  refine ⟨?_, ?_, h.flag, fun hsn => ?_⟩ <;> simp only [toVersion] at *
  · omega
  · omega
  · cases hp : c.pre <;> rw [hp] at hsn h1 <;> simp only [Pre.sn, Pre.ddde] at *
    · exact absurd rfl hsn
    · exact absurd rfl hsn
    · exact absurd rfl hsn
    · omega

/-- **The accessors give the components back.** -/
theorem decode (h : c.Valid) :
    c.toVersion.major = c.major ∧ c.toVersion.minor = c.minor ∧ c.toVersion.patch = c.patch :=
  StandardVersion.decode h.flag h.triple_eq h.major h.minor h.patch

end Valid

end Components

end Build2.Libbutl.StandardVersion
