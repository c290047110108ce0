import Build2.Libbutl.Sha1.Basic
import Build2.Libbutl.Sha256.Transform

/-! # The transformation of a block

The standard's SHA-1, and that a step does what the standard says: the ring has the last sixteen
words of the message schedule (`Ring`), each of which is written over the one that is not needed any
more. -/

namespace Build2.Libbutl.Sha1c

open Build2.Lib Build2.Lib.ByteString

/-! ### The standard's SHA-1 -/

namespace Standard

def rotateLeft (x : UInt32) (n : ℕ) : UInt32 := ⟨x.toBitVec.rotateLeft n⟩

/-- A word of the message schedule, from those of the block. -/
def word (m : ℕ → UInt32) (t : ℕ) : UInt32 :=
  if t < 16 then m t
  else rotateLeft (word m (t - 3) ^^^ word m (t - 8) ^^^ word m (t - 14) ^^^ word m (t - 16)) 1

def parity (x y z : UInt32) : UInt32 := x ^^^ y ^^^ z

/-- The function of a round. -/
def f (t : ℕ) : UInt32 → UInt32 → UInt32 → UInt32 :=
  if t < 20 then Sha256c.Standard.choose
  else if t < 40 then parity
  else if t < 60 then Sha256c.Standard.majority
  else parity

/-- A round with a word of the schedule. -/
def nextVars (t : ℕ) (w : UInt32) (v : Vars) : Vars :=
  ⟨rotateLeft v.a 5 + f t v.b v.c v.d + v.e + k t + w, v.a, rotateLeft v.b 30, v.c, v.d⟩

/-- The variables after `n` rounds. -/
def rounds (m : ℕ → UInt32) (v : Vars) : ℕ → Vars
  | 0 => v
  | n + 1 => nextVars n (word m n) (rounds m v n)

/-- A block is taken into the hash. -/
def compress (v : Vars) (block : Bytes) : Vars :=
  let w := rounds (Sha256c.Standard.blockWord block) v 80
  ⟨v.a + w.a, v.b + w.b, v.c + w.c, v.d + w.d, v.e + w.e⟩

def initial : Vars := ⟨0x67452301, 0xefcdab89, 0x98badcfe, 0x10325476, 0xc3d2e1f0⟩

/-- The hash of a message. -/
def sha1 (m : Bytes) : Bytes :=
  let v := foldBlocks 64 compress initial (padded m)
  [v.a, v.b, v.c, v.d, v.e].flatMap fun u => bigEndian 4 u.toNat

end Standard

/-! ### Words -/

theorem f0_eq (x y z : UInt32) : f0 x y z = Sha256c.Standard.choose x y z := by
  apply UInt32.toBitVec_inj.mp
  simp only [f0, Sha256c.Standard.choose, UInt32.toBitVec_and, UInt32.toBitVec_xor,
    UInt32.toBitVec_not, UInt32.toBitVec_or]
  ext i hi
  simp only [BitVec.getElem_xor, BitVec.getElem_and, BitVec.getElem_not, BitVec.getElem_or]
  cases x.toBitVec[i] <;> cases y.toBitVec[i] <;> cases z.toBitVec[i] <;> rfl

theorem f2_eq (x y z : UInt32) : f2 x y z = Sha256c.Standard.majority x y z := by
  apply UInt32.toBitVec_inj.mp
  simp only [f2, Sha256c.Standard.majority, UInt32.toBitVec_and, UInt32.toBitVec_xor,
    UInt32.toBitVec_or]
  ext i hi
  simp only [BitVec.getElem_xor, BitVec.getElem_and, BitVec.getElem_or]
  cases x.toBitVec[i] <;> cases y.toBitVec[i] <;> cases z.toBitVec[i] <;> rfl

theorem s_eq {n : ℕ} (h : n < 32) (hn : 0 < n) (x : UInt32) :
    s (UInt32.ofNat n) x = Standard.rotateLeft x n := by
  apply UInt32.toBitVec_inj.mp
  rw [s, UInt32.toBitVec_or, UInt32.toBitVec_shiftRight, UInt32.toBitVec_shiftLeft,
    BitVec.ushiftRight_eq', BitVec.shiftLeft_eq', Sha256c.amount_eq h, Sha256c.restAmount_eq h hn]
  unfold Standard.rotateLeft
  rw [BitVec.rotateLeft_def, Nat.mod_eq_of_lt h]

/-! ### The ring -/

variable {m : ℕ → UInt32} {w : List UInt32} {n t : ℕ} {h v : Vars} {x : List UInt32 × Vars}

/-- The ring has the sixteen words of the schedule in front of the `n`th one. -/
structure Ring (m : ℕ → UInt32) (n : ℕ) (w : List UInt32) : Prop where
  length : w.length = 16
  word : ∀ i < n, n ≤ i + 16 → w.getD (i % 16) 0 = Standard.word m i

theorem Ring.extend (hr : Ring m n w) (hn : 16 ≤ n) : Ring m (n + 1) (extend w (n % 16)) := by
  have hnew : Standard.word m n = s 1 (w.getD ((n % 16 + 13) % 16) 0 ^^^
      w.getD ((n % 16 + 8) % 16) 0 ^^^ w.getD ((n % 16 + 2) % 16) 0 ^^^ w.getD (n % 16) 0) := by
    have h3 : (n % 16 + 13) % 16 = (n - 3) % 16 := by omega
    have h8 : (n % 16 + 8) % 16 = (n - 8) % 16 := by omega
    have h14 : (n % 16 + 2) % 16 = (n - 14) % 16 := by omega
    have h16 : n % 16 = (n - 16) % 16 := by omega
    rw [h3, h8, h14, h16, hr.word _ (by omega) (by omega), hr.word _ (by omega) (by omega),
      hr.word _ (by omega) (by omega), hr.word _ (by omega) (by omega), Standard.word,
      if_neg (by omega), ← s_eq (by decide) (by decide)]
    rfl
  refine ⟨(List.length_set ..).trans hr.length, fun i hi hle => ?_⟩
  rw [Sha1c.extend, ← hnew]
  have hlt : n % 16 < w.length := by
    rw [hr.length]
    exact Nat.mod_lt _ (by decide)
  rcases Nat.lt_succ_iff_lt_or_eq.mp hi with hi | rfl
  · have hne : n % 16 ≠ i % 16 := by omega
    rw [List.getD_eq_getElem?_getD, List.getElem?_set_ne hne, ← List.getD_eq_getElem?_getD]
    exact hr.word i hi (by omega)
  · rw [List.getD_eq_getElem?_getD, List.getElem?_set_self hlt]
    rfl

/-! ### Rounds -/

/-- The words and the variables after `n` rounds. -/
structure After (m : ℕ → UInt32) (h : Vars) (n : ℕ) (x : List UInt32 × Vars) : Prop where
  ring : Ring m (max n 16) x.1
  vars : x.2 = Standard.rounds m h n

theorem After.mix {f : UInt32 → UInt32 → UInt32 → UInt32} (hx : x.2 = Standard.rounds m h n)
    (hf : f = Standard.f n) (hw : Ring m (max (n + 1) 16) w) :
    After m h (n + 1) (w, mix f n w x.2) := by
  refine ⟨hw, ?_⟩
  have hword : w.getD (n % 16) 0 = Standard.word m n := hw.word n (by omega) (by omega)
  have h5 : s 5 x.2.a = Standard.rotateLeft x.2.a 5 := s_eq (by decide) (by decide) _
  have h30 : s 30 x.2.b = Standard.rotateLeft x.2.b 30 := s_eq (by decide) (by decide) _
  rw [Standard.rounds, ← hx, Sha1c.mix, Standard.nextVars, hword, hf, h5, h30,
    UInt32.add_assoc _ (k n), UInt32.add_comm (k n), ← UInt32.add_assoc]

theorem After.bodyFirst (hx : After m h n x) (hn : n < 20) : After m h (n + 1) (bodyFirst x n) := by
  have hf : f0 = Standard.f n := by
    rw [Standard.f, if_pos hn]
    exact funext fun x => funext fun y => funext fun z => f0_eq x y z
  refine After.mix hx.vars hf ?_
  split_ifs with h16
  · rw [Nat.max_eq_left (by omega)]
    have hr := hx.ring
    rw [Nat.max_eq_left h16] at hr
    exact hr.extend h16
  · have hr := hx.ring
    rw [Nat.max_eq_right (by omega)] at hr ⊢
    exact hr

theorem After.body {f : UInt32 → UInt32 → UInt32 → UInt32} (hx : After m h n x) (hn : 20 ≤ n)
    (hf : f = Standard.f n) : After m h (n + 1) (body f x n) := by
  refine After.mix hx.vars hf ?_
  have hr := hx.ring
  rw [Nat.max_eq_left (by omega)] at hr ⊢
  exact hr.extend (by omega)

theorem After.loop {g : List UInt32 × Vars → ℕ → List UInt32 × Vars} (k : ℕ)
    (hg : ∀ i x, n ≤ i → i < n + k → After m h i x → After m h (i + 1) (g x i))
    (hx : After m h n x) : After m h (n + k) ((List.range' n k).foldl g x) := by
  induction k with
  | zero => exact hx
  | succ k ih =>
    rw [List.range'_concat, List.foldl_append, Nat.one_mul]
    exact hg (n + k) _ (by omega) (by omega) (ih fun i x hi hlt => hg i x hi (by omega))

/-- **A block** is taken into the hash as in the standard. -/
theorem transform_eq {block : Bytes} (hb : block.length = 64) :
    transform h block = Standard.compress h block := by
  have hlength : (Sha256c.be32decVect block).length = 16 := by
    rw [Sha256c.length_be32decVect, hb]
  have hstart : After (Sha256c.Standard.blockWord block) h 0 (Sha256c.be32decVect block, h) := by
    refine ⟨⟨hlength, fun i hi _ => ?_⟩, rfl⟩
    have hi : i < 16 := hi
    rw [Nat.mod_eq_of_lt hi, Sha256c.getD_be32decVect block i (by omega), Standard.word, if_pos hi]
  have h20 := hstart.loop 20 fun i x hi hlt hx => hx.bodyFirst (by omega)
  have h40 := h20.loop 20 fun i x hi hlt hx => hx.body (f := f1) (by omega) (by
    rw [Standard.f, if_neg (by omega), if_pos (by omega)]
    rfl)
  have h60 := h40.loop 20 fun i x hi hlt hx => hx.body (f := f2) (by omega) (by
    rw [Standard.f, if_neg (by omega), if_neg (by omega), if_pos (by omega)]
    exact funext fun x => funext fun y => funext fun z => f2_eq x y z)
  have h80 := h60.loop 20 fun i x hi hlt hx => hx.body (f := f1) (by omega) (by
    rw [Standard.f, if_neg (by omega), if_neg (by omega), if_neg (by omega)]
    rfl)
  unfold transform Standard.compress
  rw [← h80.vars]

end Build2.Libbutl.Sha1c
