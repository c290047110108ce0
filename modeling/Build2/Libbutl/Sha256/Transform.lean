import Build2.Libbutl.Sha256.Standard
import Mathlib.Data.List.GetD

/-! # The transformation of a block

`SHA256_Transform` leaves the working variables in their places and takes other names for them in
every round. Seen by their names, they move on as in the standard (`view_rndr`), so that a block is
taken into the hash in the same way (`view_transform`). -/

namespace Build2.Libbutl.Sha256c

open Build2.Lib Build2.Lib.ByteString Standard

/-! ### Words -/

theorem ch_eq (x y z : UInt32) : ch x y z = choose x y z := by
  apply UInt32.toBitVec_inj.mp
  simp only [ch, choose, UInt32.toBitVec_and, UInt32.toBitVec_xor, UInt32.toBitVec_not]
  ext i hi
  simp only [BitVec.getElem_xor, BitVec.getElem_and, BitVec.getElem_not]
  cases x.toBitVec[i] <;> cases y.toBitVec[i] <;> cases z.toBitVec[i] <;> rfl

theorem maj_eq (x y z : UInt32) : maj x y z = majority x y z := by
  apply UInt32.toBitVec_inj.mp
  simp only [maj, majority, UInt32.toBitVec_and, UInt32.toBitVec_xor, UInt32.toBitVec_or]
  ext i hi
  simp only [BitVec.getElem_xor, BitVec.getElem_and, BitVec.getElem_or]
  cases x.toBitVec[i] <;> cases y.toBitVec[i] <;> cases z.toBitVec[i] <;> rfl

/-- The amount of a shift by `n` bits, and by what is left of a word. -/
theorem amount_eq {n : ℕ} (h : n < 32) :
    ((UInt32.ofNat n).toBitVec % 32).toNat = n := by
  have h32 : (32 : BitVec 32).toNat = 32 := rfl
  rw [BitVec.toNat_umod, h32, UInt32.toNat_toBitVec, UInt32.toNat_ofNat']
  omega

theorem restAmount_eq {n : ℕ} (h : n < 32) (hn : 0 < n) :
    ((32 - UInt32.ofNat n).toBitVec % 32).toNat = 32 - n := by
  have h32 : (32 : BitVec 32).toNat = 32 := rfl
  have h32' : (32 : UInt32).toNat = 32 := rfl
  rw [BitVec.toNat_umod, h32, UInt32.toNat_toBitVec, UInt32.toNat_sub, UInt32.toNat_ofNat', h32']
  omega

theorem rotr_eq {n : ℕ} (h : n < 32) (hn : 0 < n) (x : UInt32) :
    rotr x (UInt32.ofNat n) = rotateRight x n := by
  apply UInt32.toBitVec_inj.mp
  rw [rotr, UInt32.toBitVec_or, UInt32.toBitVec_shiftRight, UInt32.toBitVec_shiftLeft,
    BitVec.ushiftRight_eq', BitVec.shiftLeft_eq', amount_eq h, restAmount_eq h hn]
  unfold rotateRight
  rw [BitVec.rotateRight_def, Nat.mod_eq_of_lt h]

theorem bigS0_eq (x : UInt32) : bigS0 x = sum0 x := by
  unfold sum0
  rw [← rotr_eq (by decide) (by decide), ← rotr_eq (by decide) (by decide),
    ← rotr_eq (by decide) (by decide)]
  rfl

theorem bigS1_eq (x : UInt32) : bigS1 x = sum1 x := by
  unfold sum1
  rw [← rotr_eq (by decide) (by decide), ← rotr_eq (by decide) (by decide),
    ← rotr_eq (by decide) (by decide)]
  rfl

theorem smallS0_eq (x : UInt32) : smallS0 x = sigma0 x := by
  unfold sigma0
  rw [← rotr_eq (by decide) (by decide), ← rotr_eq (by decide) (by decide)]
  rfl

theorem smallS1_eq (x : UInt32) : smallS1 x = sigma1 x := by
  unfold sigma1
  rw [← rotr_eq (by decide) (by decide), ← rotr_eq (by decide) (by decide)]
  rfl

/-! ### Rounds -/

/-- The working variables by the names that they have after `n` rounds. -/
def view (n : ℕ) (s : Words) : Working :=
  ⟨s.get (slot (64 - n)), s.get (slot (65 - n)), s.get (slot (66 - n)), s.get (slot (67 - n)),
    s.get (slot (68 - n)), s.get (slot (69 - n)), s.get (slot (70 - n)), s.get (slot (71 - n))⟩

theorem get_set {s : Words} {i j : Fin 8} {x : UInt32} :
    (s.set i x i.isLt).get j = if i = j then x else s.get j := by
  have h : (s.set i x i.isLt).get j = if i.val = j.val then x else s.get j :=
    Vector.getElem_set i.isLt j.isLt
  rw [h]
  exact if_congr Fin.ext_iff.symm rfl rfl

theorem slot_add {p a b : ℕ} : slot (p + a) = slot (p + b) ↔ a % 8 = b % 8 := by
  rw [slot, slot, Fin.ext_iff]
  change (p + a) % 8 = (p + b) % 8 ↔ _
  omega

theorem rndr_eq (w : List UInt32) (n : ℕ) (k : UInt32) (s : Words) :
    rndr w n k s =
      (s.set (slot (67 - n)) (nextVars k (w.getD n 0) (view n s)).e (slot (67 - n)).isLt).set
        (slot (71 - n)) (nextVars k (w.getD n 0) (view n s)).a (slot (71 - n)).isLt := by
  have ht : s.get (slot (71 - n)) + bigS1 (s.get (slot (68 - n))) +
        ch (s.get (slot (68 - n))) (s.get (slot (69 - n))) (s.get (slot (70 - n))) +
        (w.getD n 0 + k) =
      (view n s).h + sum1 (view n s).e + choose (view n s).e (view n s).f (view n s).g + k +
        w.getD n 0 := by
    rw [bigS1_eq, ch_eq, UInt32.add_comm (w.getD n 0), UInt32.add_assoc _ k]
    rfl
  unfold rndr nextVars
  dsimp only
  rw [ht, bigS0_eq, maj_eq]
  rfl

/-- **A round** is the standard's. -/
theorem view_rndr {w : List UInt32} {n : ℕ} {k : UInt32} {s : Words} (h : n < 64) :
    view (n + 1) (rndr w n k s) = nextVars k (w.getD n 0) (view n s) := by
  obtain ⟨p, hp⟩ : ∃ p, n + p = 63 := ⟨63 - n, by omega⟩
  -- The first variable takes the place of the last one, the others keep theirs.
  have hget : ∀ a < 8, (rndr w n k s).get (slot (p + a)) =
      if a = 0 then (nextVars k (w.getD n 0) (view n s)).a
      else if a = 4 then (nextVars k (w.getD n 0) (view n s)).e else s.get (slot (p + a)) := by
    intro a ha
    have hd : 67 - n = p + 4 := by omega
    have hh : 71 - n = p + 8 := by omega
    have h0 : 8 % 8 = a % 8 ↔ a = 0 := by omega
    have h4 : 4 % 8 = a % 8 ↔ a = 4 := by omega
    rw [rndr_eq, get_set, get_set, hd, hh]
    simp only [slot_add, h0, h4]
  have hround : nextVars k (w.getD n 0) (view n s) =
      ⟨(nextVars k (w.getD n 0) (view n s)).a, s.get (slot (64 - n)), s.get (slot (65 - n)),
        s.get (slot (66 - n)), (nextVars k (w.getD n 0) (view n s)).e, s.get (slot (68 - n)),
        s.get (slot (69 - n)), s.get (slot (70 - n))⟩ := rfl
  have hview : ∀ a, 64 + a - n = p + (a + 1) ∧ 64 + a - (n + 1) = p + a := by omega
  rw [hround]
  generalize (nextVars k (w.getD n 0) (view n s)).a = a at hget ⊢
  generalize (nextVars k (w.getD n 0) (view n s)).e = e at hget ⊢
  unfold view
  rw [(hview 0).2, (hview 1).2, (hview 2).2, (hview 3).2, (hview 4).2, (hview 5).2, (hview 6).2,
    (hview 7).2, hget 0 (by decide), hget 1 (by decide), hget 2 (by decide), hget 3 (by decide),
    hget 4 (by decide), hget 5 (by decide), hget 6 (by decide), hget 7 (by decide), (hview 0).1,
    (hview 1).1, (hview 2).1, (hview 4).1, (hview 5).1, (hview 6).1]
  rfl

theorem view_mix {w : List UInt32} {m : ℕ → UInt32} {s : Words}
    (hw : ∀ t < 64, w.getD t 0 = word m t) {n : ℕ} (h : n ≤ 64) :
    view n ((List.range n).foldl (fun s i => rndr w i (constants.getD i 0) s) s) =
      rounds m (view 0 s) n := by
  induction n with
  | zero => rfl
  | succ n ih =>
    rw [List.range_succ, List.foldl_append, List.foldl_cons, List.foldl_nil, view_rndr (by omega),
      ih (by omega), hw n (by omega)]
    rfl

/-! ### The message schedule -/

theorem getD_extend {m : ℕ → UInt32} (n : ℕ) (w : List UInt32) (hlength : 16 ≤ w.length)
    (hw : ∀ t < w.length, w.getD t 0 = word m t) :
    ∀ t < w.length + n, (extend n w).getD t 0 = word m t := by
  induction n generalizing w with
  | zero => exact hw
  | succ n ih =>
    rw [extend]
    intro t ht
    refine ih _ (by rw [List.length_append]; omega) (fun t ht => ?_) t
      (by rw [List.length_append, List.length_singleton]; omega)
    rw [List.length_append, List.length_singleton] at ht
    rcases Nat.lt_succ_iff_lt_or_eq.mp ht with ht | rfl
    · rw [List.getD_append _ _ _ _ ht]
      exact hw t ht
    · rw [List.getD_append_right _ _ _ _ (Nat.le_refl _), Nat.sub_self, word, if_neg (by omega),
        hw _ (by omega), hw _ (by omega), hw _ (by omega), hw _ (by omega), smallS1_eq, smallS0_eq]
      rfl

/-! ### Blocks -/

theorem length_be32decVect (p : Bytes) : (be32decVect p).length = p.length / 4 := by
  induction p using be32decVect.induct with
  | case1 a b c d p ih =>
    rw [be32decVect, List.length_cons, ih]
    simp only [List.length_cons]
    omega
  | case2 p h =>
    rw [be32decVect]
    · have hlt : p.length < 4 := by
        rcases p with _ | ⟨a, _ | ⟨b, _ | ⟨c, _ | ⟨d, p⟩⟩⟩⟩
        · decide
        · exact Nat.lt_of_sub_eq_succ rfl
        · exact Nat.lt_of_sub_eq_succ rfl
        · exact Nat.lt_of_sub_eq_succ rfl
        · exact absurd rfl (h a b c d p)
      rw [Nat.div_eq_of_lt hlt]
      rfl
    · exact h

theorem or_of_lt {x y n : ℕ} (h : y < 2 ^ n) : x <<< n ||| y = x * 2 ^ n + y := by
  rw [← Nat.shiftLeft_add_eq_or_of_lt h, Nat.shiftLeft_eq]

theorem word_of_bytes (a b c d : UInt8) :
    a.toUInt32 <<< 24 ||| b.toUInt32 <<< 16 ||| c.toUInt32 <<< 8 ||| d.toUInt32 =
      UInt32.ofNat (ofBigEndian [a, b, c, d]) := by
  apply UInt32.toNat_inj.mp
  have ha := a.toNat_lt
  have hb := b.toNat_lt
  have hc := c.toNat_lt
  have hd := d.toNat_lt
  have h24 : (24 : UInt32).toNat % 32 = 24 := rfl
  have h16 : (16 : UInt32).toNat % 32 = 16 := rfl
  have h8 : (8 : UInt32).toNat % 32 = 8 := rfl
  have ea : a.toNat <<< 24 % 2 ^ 32 = a.toNat <<< 24 := by
    rw [Nat.shiftLeft_eq]
    omega
  have eb : b.toNat <<< 16 % 2 ^ 32 = b.toNat <<< 16 := by
    rw [Nat.shiftLeft_eq]
    omega
  have ec : c.toNat <<< 8 % 2 ^ 32 = c.toNat <<< 8 := by
    rw [Nat.shiftLeft_eq]
    omega
  simp only [UInt32.toNat_or, UInt32.toNat_shiftLeft, UInt8.toNat_toUInt32, h24, h16, h8, ea, eb,
    ec, Nat.or_assoc]
  rw [or_of_lt (show d.toNat < 2 ^ 8 by omega), or_of_lt (show _ < 2 ^ 16 by omega),
    or_of_lt (show _ < 2 ^ 24 by omega), UInt32.toNat_ofNat']
  simp only [ofBigEndian, List.foldl_cons, List.foldl_nil]
  omega

theorem getD_be32decVect (p : Bytes) (t : ℕ) (h : 4 * t + 4 ≤ p.length) :
    (be32decVect p).getD t 0 = blockWord p t := by
  induction t generalizing p with
  | zero =>
    rcases p with _ | ⟨a, _ | ⟨b, _ | ⟨c, _ | ⟨d, p⟩⟩⟩⟩
    · exact absurd h (by decide)
    · exact absurd h (by simp)
    · exact absurd h (by simp)
    · exact absurd h (by simp)
    · exact word_of_bytes a b c d
  | succ t ih =>
    rcases p with _ | ⟨a, _ | ⟨b, _ | ⟨c, _ | ⟨d, p⟩⟩⟩⟩
    · exact absurd h (by simp)
    · exact absurd h (by simp)
    · exact absurd h (by simp)
    · exact absurd h (by simp)
    · refine (ih p ?_).trans ?_
      · simp only [List.length_cons] at h
        omega
      · rw [blockWord, blockWord, Nat.mul_succ]
        rfl

/-- After eight rounds, the variables have their places again. -/
theorem view_back (s : Words) : view 64 s = view 0 s := rfl

theorem view_ofFn (s s' : Words) :
    view 0 (Vector.ofFn fun i => s.get i + s'.get i) = (view 0 s).add (view 0 s') := by
  have hget : ∀ i, (Vector.ofFn fun i => s.get i + s'.get i).get i = s.get i + s'.get i :=
    fun i => Vector.getElem_ofFn i.isLt
  unfold view Working.add
  simp only [hget]

/-- **A block** is taken into the hash as in the standard. -/
theorem view_transform {s : Words} {block : Bytes} (h : block.length = 64) :
    view 0 (transform s block) = compress (view 0 s) block := by
  have hlength : (be32decVect block).length = 16 := by rw [length_be32decVect, h]
  have hwords : ∀ t < 64, (extend 48 (be32decVect block)).getD t 0 = word (blockWord block) t := by
    intro t ht
    refine getD_extend 48 _ (by omega) (fun t ht => ?_) t (by omega)
    rw [getD_be32decVect block t (by omega), word, if_pos (by omega)]
  rw [compress, ← view_mix hwords (Nat.le_refl 64), view_back, ← view_ofFn, transform]

end Build2.Libbutl.Sha256c
