import Build2.Libbutl.Sha1.Transform
import Build2.Libbutl.Sha256.Streaming

/-! # Streaming

`sha1_loop` copies the data into the buffer in any case, and the padding is written there byte by
byte, without the number of bits. So that a context represents what was written (`Holds`) is one
thing, and that it has the number of bits of the message is another. -/

namespace Build2.Libbutl.Sha1c

open Build2.Lib Build2.Lib.ByteString

variable {c : Context} {m src : Bytes}

/-- The stream of the message. -/
def hashed (m : Bytes) : Stream Vars UInt8 64 :=
  (Stream.start Sha256c.block_pos Standard.initial).feed Standard.compress m

theorem hashed_append : hashed (m ++ src) = (hashed m).feed Standard.compress src :=
  Stream.feed_feed.symm

theorem hashed_nil : hashed [] = Stream.start Sha256c.block_pos Standard.initial := Stream.feed_nil

theorem length_pending : (hashed m).pending.length = m.length % 64 := length_leftOver

/-- The bytes were written to the context. -/
structure Holds (c : Context) (m : Bytes) : Prop where
  vars : c.h = (hashed m).state
  count : c.count.toNat = m.length % 64
  pending : c.m.take (m.length % 64) = (hashed m).pending

theorem holds_init : Holds Context.init [] := by
  refine ⟨?_, rfl, ?_⟩
  · rw [hashed_nil]
    rfl
  · rw [hashed_nil]
    rfl

/-! ### The buffer -/

theorem m_copy : (c.copy src).m = overwrite c.m (c.count % 64).toNat src := rfl

theorem h_copy : (c.copy src).h = c.h := rfl

theorem c_copy : (c.copy src).c = c.c := rfl

theorem count_step : c.step.count = c.count := by rw [Context.step]

theorem c_step : c.step.c = c.c := by rw [Context.step]

theorem Holds.used (h : Holds c m) : (c.count % 64).toNat = m.length % 64 := by
  rw [UInt8.toNat_mod, h.count]
  exact Nat.mod_mod _ 64

theorem Holds.count_copy (h : Holds c m) :
    (c.copy src).count.toNat = (m ++ src).length % 64 := by
  have h64 : (64 : UInt8).toNat = 64 := rfl
  rw [Context.copy, UInt8.toNat_mod, UInt8.toNat_add, UInt8.toNat_ofNat', h64, h.count,
    List.length_append]
  omega

theorem Holds.copy_of_lt (h : Holds c m) (hsrc : m.length % 64 + src.length < 64) :
    Holds (c.copy src) (m ++ src) := by
  have hfeed : hashed (m ++ src) = ⟨_, _, _⟩ :=
    hashed_append.trans (Stream.feed_of_lt (f := Standard.compress) (by rwa [length_pending]))
  have hlength : (m ++ src).length % 64 = m.length % 64 + src.length := by
    rw [List.length_append]
    omega
  refine ⟨?_, h.count_copy, ?_⟩
  · rw [hfeed]
    exact h.vars
  · rw [hfeed, hlength, m_copy, h.used]
    refine (take_overwrite (by rw [c.size]; omega)).trans ?_
    rw [h.pending]

theorem Holds.copy_of_eq (h : Holds c m) (hsrc : m.length % 64 + src.length = 64) :
    Holds (c.copy src).step (m ++ src) := by
  have hfeed : hashed (m ++ src) =
      Stream.start Sha256c.block_pos
        (Standard.compress (hashed m).state ((hashed m).pending ++ src)) := by
    rw [hashed_append]
    exact Stream.feed_of_eq (by rwa [length_pending])
  have hbuf : (c.copy src).m = (hashed m).pending ++ src := by
    rw [m_copy, h.used, overwrite_of_full (by rw [c.size]; exact hsrc), h.pending]
  have hzero : (m ++ src).length % 64 = 0 := by
    rw [List.length_append]
    omega
  refine ⟨?_, ?_, ?_⟩
  · rw [hfeed, Context.step, transform_eq (c.copy src).size, hbuf, h_copy, h.vars]
    rfl
  · rw [count_step]
    exact h.count_copy
  · rw [hzero, hfeed]
    rfl

theorem Holds.stepIfFull (h : Holds c m) (h0 : src ≠ []) (hsrc : m.length % 64 + src.length ≤ 64) :
    Holds (c.copy src).stepIfFull (m ++ src) := by
  have hpos := List.length_pos_of_ne_nil h0
  have hfull : (c.copy src).count % 64 = 0 ↔ m.length % 64 + src.length = 64 := by
    have h64 : (64 : UInt8).toNat = 64 := rfl
    have hzero : (0 : UInt8).toNat = 0 := rfl
    rw [← UInt8.toNat_inj, UInt8.toNat_mod, h.count_copy, List.length_append, h64, hzero]
    omega
  unfold Context.stepIfFull
  rcases Nat.lt_or_eq_of_le hsrc with hlt | heq
  · rw [if_neg fun hc => hlt.ne (hfull.mp hc)]
    exact h.copy_of_lt hlt
  · rw [if_pos (hfull.mpr heq)]
    exact h.copy_of_eq heq

theorem Holds.bits (h : Holds c m) (n : UInt64) : Holds { c with c := n } m :=
  ⟨h.vars, h.count, h.pending⟩

theorem bits_stepIfFull (c : Context) : c.stepIfFull.c = c.c := by
  unfold Context.stepIfFull
  split_ifs
  · exact c_step
  · rfl

theorem stepIfFull_bits (c : Context) (n : UInt64) :
    Context.stepIfFull { c with c := n } = { c.stepIfFull with c := n } := by
  unfold Context.stepIfFull
  split_ifs <;> rfl

/-! ### Pieces of the message -/

/-- The context was given the message. -/
structure Represents (c : Context) (m : Bytes) : Prop where
  holds : Holds c m
  bits : c.c = UInt64.ofNat (8 * m.length)

theorem bits_add (n k : ℕ) :
    UInt64.ofNat (8 * n) + UInt64.ofNat k * 8 = UInt64.ofNat (8 * (n + k)) := by
  apply UInt64.toNat_inj.mp
  have h8 : (8 : UInt64).toNat = 8 := rfl
  rw [UInt64.toNat_add, UInt64.toNat_mul, h8, UInt64.toNat_ofNat', UInt64.toNat_ofNat',
    UInt64.toNat_ofNat']
  omega

/-- **A piece of the message.** -/
theorem Represents.loop (h : Represents c m) (input : Bytes) :
    Represents (c.loop input) (m ++ input) := by
  induction hlen : input.length using Nat.strongRecOn generalizing c m input with
  | _ k ih =>
    rw [Context.loop]
    split_ifs with hpos
    · dsimp only
      rw [h.holds.used]
      generalize hn : (if 64 - m.length % 64 < input.length then 64 - m.length % 64
        else input.length) = n
      have hmod := Nat.mod_lt m.length (show 0 < 64 by decide)
      have hn' : 0 < n ∧ n ≤ input.length ∧ m.length % 64 + n ≤ 64 := by
        rw [← hn]
        split_ifs <;> omega
      have htake : (input.take n).length = n := List.length_take_of_le hn'.2.1
      have hne : input.take n ≠ [] := fun hnil => by
        rw [hnil, List.length_nil] at htake
        omega
      have hstep := h.holds.stepIfFull hne (by omega)
      have hrep : Represents (Context.stepIfFull { c.copy (input.take n) with
          c := c.c + UInt64.ofNat n * 8 }) (m ++ input.take n) := by
        rw [stepIfFull_bits]
        refine ⟨hstep.bits _, ?_⟩
        rw [List.length_append, htake, ← bits_add, ← h.bits]
      have hrest := ih (input.drop n).length (by rw [List.length_drop]; omega) hrep _ rfl
      rwa [List.append_assoc, List.take_append_drop] at hrest
    · rw [List.length_eq_zero_iff.mp (Nat.eq_zero_of_not_pos hpos), List.append_nil]
      exact h

/-! ### The end of the message -/

theorem Holds.putPad (h : Holds c m) (x : UInt8) : Holds (c.putPad x) (m ++ [x]) := by
  have hmod := Nat.mod_lt m.length (show 0 < 64 by decide)
  exact h.stepIfFull (List.cons_ne_nil x []) (by rw [List.length_singleton]; omega)

theorem Holds.foldl_putPad (h : Holds c m) (l : Bytes) :
    Holds (l.foldl Context.putPad c) (m ++ l) := by
  induction l generalizing c m with
  | nil =>
    rw [List.append_nil]
    exact h
  | cons x l ih =>
    have hrest := ih (h.putPad x)
    rwa [List.append_assoc] at hrest

theorem bits_putPad (c : Context) (x : UInt8) : (c.putPad x).c = c.c := bits_stepIfFull _

theorem Represents.pad (h : Represents c m) : Holds c.pad (padded m) := by
  have hmark := h.holds.putPad 0x80
  have hbits : (c.putPad 0x80).c = UInt64.ofNat (8 * m.length) := (bits_putPad c _).trans h.bits
  unfold Context.pad
  dsimp only
  generalize c.putPad 0x80 = d at hmark hbits ⊢
  have hlen : (m ++ [0x80]).length = m.length + 1 := by rw [List.length_append]; rfl
  -- The zeros up to the end of the block if the number of bits does not fit in it.
  have hfirst : ∃ z, Holds (if 64 - (d.count % 64).toNat < 8 then
        (d.copy (List.replicate (64 - (d.count % 64).toNat) 0)).step else d)
        (m ++ [0x80] ++ List.replicate z 0) ∧
      z + (56 - (m.length + 1 + z) % 64) = zeros m.length ∧ (m.length + 1 + z) % 64 ≤ 56 := by
    rw [hmark.used, hlen]
    split_ifs with hlt
    · refine ⟨64 - (m.length + 1) % 64, hmark.copy_of_eq ?_, ?_, ?_⟩
      · rw [hlen, List.length_replicate]
        omega
      · unfold zeros
        omega
      · omega
    · refine ⟨0, ?_, ?_, ?_⟩
      · rw [List.replicate_zero, List.append_nil]
        exact hmark
      · unfold zeros
        omega
      · omega
  have hfirstBits : (if 64 - (d.count % 64).toNat < 8 then
      (d.copy (List.replicate (64 - (d.count % 64).toNat) 0)).step else d).c = d.c := by
    split_ifs
    · rw [c_step, c_copy]
    · rfl
  obtain ⟨z, hz, hzeros, hfit⟩ := hfirst
  generalize (if 64 - (d.count % 64).toNat < 8 then
    (d.copy (List.replicate (64 - (d.count % 64).toNat) 0)).step else d) = d' at hz hfirstBits ⊢
  have hlen' : (m ++ [0x80] ++ List.replicate z 0).length = m.length + 1 + z := by
    rw [List.length_append, hlen, List.length_replicate]
  have hused : 64 - (d'.count % 64).toNat - 8 = 56 - (m.length + 1 + z) % 64 := by
    rw [hz.used, hlen']
    omega
  have hshort : (m ++ [0x80] ++ List.replicate z 0).length % 64 +
      (List.replicate (56 - (m.length + 1 + z) % 64) (0 : UInt8)).length < 64 := by
    rw [hlen', List.length_replicate]
    omega
  have hsecond := hz.copy_of_lt hshort
  have hlast := hsecond.foldl_putPad (bigEndian 8 (8 * m.length))
  rw [hused]
  rw [c_copy, hfirstBits, hbits, Sha256c.be64enc_eq]
  have hmessage : m ++ [0x80] ++ List.replicate z 0 ++
      List.replicate (56 - (m.length + 1 + z) % 64) 0 ++ bigEndian 8 (8 * m.length) = padded m := by
    rw [List.append_assoc (m ++ [0x80]), List.replicate_append_replicate, hzeros, padded]
    simp
  rwa [hmessage] at hlast

/-- **The hash is the standard's**, however the message was given. -/
theorem result_eq (h : Represents c m) : c.result = Standard.sha1 m := by
  have hvars := h.pad.vars
  unfold Context.result Standard.sha1
  rw [hvars, funext Sha256c.be32enc_eq]
  rfl

end Build2.Libbutl.Sha1c

/-! ### The class -/

namespace Build2.Libbutl.Sha1

open Build2.Lib Build2.Lib.ByteString

/-- A call. -/
inductive Call
  | data (b : Bytes)
  | string (b : Bytes)
  | reset
  deriving DecidableEq

def call (s : Sha1) : Call → Sha1
  | .data b => s.append b
  | .string b => s.appendString b
  | .reset => reset

/-- The message after a call. -/
def extended (m : Bytes) : Call → Bytes
  | .data b => m ++ b
  | .string b => m ++ (b ++ [0])
  | .reset => []

/-- The message of some calls: what was given since the last `reset`. -/
def message (calls : List Call) : Bytes := calls.foldl extended []

/-- The object was given the message and knows whether this is empty. -/
structure Hashed (s : Sha1) (m : Bytes) : Prop where
  ctx : Sha1c.Represents s.ctx m
  empty : s.empty = true ↔ m = []

variable {s : Sha1} {m : Bytes}

theorem hashed_reset : Hashed reset [] := ⟨⟨Sha1c.holds_init, rfl⟩, iff_of_true rfl rfl⟩

theorem Hashed.append (h : Hashed s m) (b : Bytes) : Hashed (s.append b) (m ++ b) := by
  unfold Sha1.append
  split_ifs with hb
  · refine ⟨h.ctx.loop b, iff_of_false Bool.false_ne_true fun hnil => hb ?_⟩
    rw [(List.append_eq_nil_iff.mp hnil).2]
    rfl
  · rw [List.length_eq_zero_iff.mp (not_not.mp hb), List.append_nil]
    exact h

theorem Hashed.call (h : Hashed s m) (a : Call) : Hashed (s.call a) (extended m a) := by
  cases a with
  | data b => exact h.append b
  | string b => exact h.append (b ++ [0])
  | reset => exact hashed_reset

theorem Hashed.calls (h : Hashed s m) (calls : List Call) :
    Hashed (calls.foldl Sha1.call s) (calls.foldl extended m) := by
  induction calls generalizing s m with
  | nil => exact h
  | cons a calls ih => exact ih (h.call a)

/-- **Whatever the calls**, `binary` is the standard's hash of the whole message, `string` has its
digits, and `empty` tells whether there was any data. -/
theorem binary_string_empty (calls : List Call) :
    (calls.foldl call reset).binary = Sha1c.Standard.sha1 (message calls) ∧
      (calls.foldl call reset).string = Sha256c.hex (Sha1c.Standard.sha1 (message calls)) ∧
      ((calls.foldl call reset).empty = true ↔ message calls = []) := by
  have h := hashed_reset.calls calls
  have hbinary : (calls.foldl call reset).binary = Sha1c.Standard.sha1 (message calls) :=
    Sha1c.result_eq h.ctx
  exact ⟨hbinary, by rw [string, Sha256c.flatMap_hexMap, hbinary], h.empty⟩

end Build2.Libbutl.Sha1
