import Build2.Libbutl.Sha256.Transform
import Mathlib.Data.List.Induction

/-! # Streaming

A context represents the message that it was given so far: its state is that of the complete blocks,
and its buffer begins with what is left over (`Represents`). The hash is then the standard's hash of
the whole message, whatever the pieces that it came in (`final_eq`). -/

namespace Build2.Libbutl.Sha256c

open Build2.Lib Build2.Lib.ByteString

variable {c : Context} {m src : Bytes}

theorem block_pos : 0 < 64 := by decide

/-- The stream of the message. -/
def hashed (m : Bytes) : Stream Standard.Working UInt8 64 :=
  (Stream.start block_pos Standard.initial).feed Standard.compress m

theorem hashed_append : hashed (m ++ src) = (hashed m).feed Standard.compress src :=
  Stream.feed_feed.symm

theorem pending_hashed : (hashed m).pending = leftOver 64 m := rfl

theorem length_pending : (hashed m).pending.length = m.length % 64 := by
  rw [pending_hashed, length_leftOver]

/-- The context was given the message. -/
structure Represents (c : Context) (m : Bytes) : Prop where
  state : view 0 c.state = (hashed m).state
  count : c.count = UInt64.ofNat (8 * m.length)
  pending : c.buf.take (m.length % 64) = (hashed m).pending

theorem hashed_nil : hashed [] = Stream.start block_pos Standard.initial := Stream.feed_nil

theorem represents_init (c : Context) : Represents c.init [] := by
  refine ⟨?_, rfl, ?_⟩
  · rw [hashed_nil]
    rfl
  · rw [hashed_nil]
    rfl

/-! ### The number of bits -/

theorem used_eq {n : ℕ} (h : c.count = UInt64.ofNat (8 * n)) : c.used = n % 64 := by
  have h3 : (3 : UInt64).toNat % 64 = 3 := rfl
  have h63 : (0x3f : UInt64).toNat = 2 ^ 6 - 1 := rfl
  rw [Context.used, h, UInt64.toNat_and, UInt64.toNat_shiftRight, h3, h63, UInt64.toNat_ofNat',
    Nat.and_two_pow_sub_one_eq_mod, Nat.shiftRight_eq_div_pow]
  omega

theorem count_add (n k : ℕ) :
    UInt64.ofNat (8 * n) + UInt64.ofNat k <<< 3 = UInt64.ofNat (8 * (n + k)) := by
  apply UInt64.toNat_inj.mp
  have h3 : (3 : UInt64).toNat % 64 = 3 := rfl
  rw [UInt64.toNat_add, UInt64.toNat_shiftLeft, h3, Nat.shiftLeft_eq, UInt64.toNat_ofNat',
    UInt64.toNat_ofNat', UInt64.toNat_ofNat']
  omega

theorem Represents.used (h : Represents c m) : c.used = m.length % 64 := used_eq h.count

theorem Represents.count_add (h : Represents c m) (src : Bytes) :
    c.count + UInt64.ofNat src.length <<< 3 = UInt64.ofNat (8 * (m ++ src).length) := by
  rw [h.count, Sha256c.count_add, List.length_append]

/-! ### Pieces of the message -/

theorem Represents.put (h : Represents c m) (hlt : src.length < 64 - m.length % 64) {n : UInt64}
    (hn : n = UInt64.ofNat (8 * (m ++ src).length)) :
    Represents { c.put (m.length % 64) src with count := n } (m ++ src) := by
  have hshort : (hashed m).pending.length + src.length < 64 := by
    rw [length_pending]
    omega
  have hfeed : hashed (m ++ src) = ⟨_, _, _⟩ :=
    hashed_append.trans (Stream.feed_of_lt (f := Standard.compress) hshort)
  have hlength : (m ++ src).length % 64 = m.length % 64 + src.length := by
    rw [List.length_append]
    omega
  refine ⟨?_, hn, ?_⟩
  · rw [hfeed]
    exact h.state
  · rw [hfeed, hlength]
    refine (take_overwrite (by rw [c.size]; omega)).trans ?_
    rw [h.pending]

/-- **A piece of the message.** -/
theorem Represents.update (h : Represents c m) (src : Bytes) :
    Represents (c.update src) (m ++ src) := by
  have hcount := h.count_add src
  unfold Context.update
  rw [h.used]
  dsimp only
  split_ifs with hlt
  · exact h.put hlt hcount
  · -- The first part completes the block.
    generalize hx : src.take (64 - m.length % 64) = x
    generalize hy : src.drop (64 - m.length % 64) = y
    have hsrc : src = x ++ y := by rw [← hx, ← hy, List.take_append_drop]
    have hxlen : x.length = 64 - m.length % 64 := by
      rw [← hx, List.length_take]
      omega
    have hbuf : overwrite c.buf (m.length % 64) x = (hashed m).pending ++ x := by
      have hlt := Nat.mod_lt m.length (show 0 < 64 by decide)
      rw [overwrite_of_full (by rw [c.size]; omega), h.pending]
    have hlen : ((hashed m).pending ++ x).length = 64 := by
      rw [← hbuf, length_overwrite, c.size]
    have hfull : hashed (m ++ x) =
        Stream.start block_pos (Standard.compress (hashed m).state ((hashed m).pending ++ x)) := by
      rw [hashed_append]
      exact Stream.feed_of_eq (by rwa [List.length_append] at hlen)
    have hdone : hashed (m ++ src) = (Stream.start block_pos
        (Standard.compress (hashed m).state ((hashed m).pending ++ x))).feed
          Standard.compress y := by
      rw [hsrc, ← List.append_assoc, hashed_append, hfull]
    refine ⟨?_, hcount, ?_⟩
    · rw [hdone]
      change view 0 (foldBlocks 64 transform (transform c.state (overwrite c.buf _ x)) y) =
        foldBlocks 64 Standard.compress _ ([] ++ y)
      rw [map_foldBlocks fun s b hb => view_transform hb, hbuf, view_transform hlen, h.state]
      rfl
    · have hmod : (m ++ src).length % 64 = 0 + (leftOver 64 y).length := by
        rw [length_leftOver, hsrc, List.length_append, List.length_append]
        omega
      rw [hdone, hmod]
      refine take_overwrite ?_
      rw [Context.size, Nat.zero_add, length_leftOver]
      exact (Nat.mod_lt _ (by decide)).le

/-! ### The end of the message -/

theorem take_padding {n : ℕ} (h : n < 64) :
    padding.take (n + 1) = 0x80 :: List.replicate n 0 := by
  rw [padding, List.take_succ_cons, List.take_replicate, Nat.min_eq_left (by omega)]

theorem be64enc_eq (n : ℕ) : be64enc (UInt64.ofNat n) = bigEndian 8 n := by
  have h : ∀ k : UInt64, k.toNat ≤ 56 →
      (UInt64.ofNat n >>> k &&& 0xff).toUInt8 = UInt8.ofNat (n / 2 ^ k.toNat) := by
    intro k hk
    apply UInt8.toNat_inj.mp
    have h255 : (0xff : UInt64).toNat = 2 ^ 8 - 1 := rfl
    have hpow : 2 ^ 64 = 2 ^ k.toNat * 2 ^ (64 - k.toNat) := by
      rw [← Nat.pow_add, Nat.add_sub_cancel' (by omega)]
    rw [UInt64.toNat_toUInt8, UInt64.toNat_and, UInt64.toNat_shiftRight, h255,
      Nat.and_two_pow_sub_one_eq_mod, Nat.shiftRight_eq_div_pow,
      Nat.mod_eq_of_lt (show k.toNat < 64 by omega), UInt64.toNat_ofNat', UInt8.toNat_ofNat',
      Nat.mod_mod, hpow, Nat.mod_mul_right_div_self,
      Nat.mod_mod_of_dvd _ (Nat.pow_dvd_pow 2 (by omega))]
  have h0 : (UInt64.ofNat n &&& 0xff).toUInt8 = UInt8.ofNat n := by
    simpa using h 0 (by decide)
  rw [be64enc, h 56 (by decide), h 48 (by decide), h 40 (by decide), h 32 (by decide),
    h 24 (by decide), h 16 (by decide), h 8 (by decide), h0]
  simp [bigEndian, List.range_succ]

theorem be32enc_eq (u : UInt32) : be32enc u = bigEndian 4 u.toNat := by
  have h : ∀ k : UInt32, k.toNat < 32 →
      (u >>> k &&& 0xff).toUInt8 = UInt8.ofNat (u.toNat / 2 ^ k.toNat) := by
    intro k hk
    apply UInt8.toNat_inj.mp
    have h255 : (0xff : UInt32).toNat = 2 ^ 8 - 1 := rfl
    rw [UInt32.toNat_toUInt8, UInt32.toNat_and, UInt32.toNat_shiftRight, h255,
      Nat.and_two_pow_sub_one_eq_mod, Nat.shiftRight_eq_div_pow, Nat.mod_eq_of_lt hk,
      UInt8.toNat_ofNat', Nat.mod_mod]
  have h0 : (u &&& 0xff).toUInt8 = UInt8.ofNat u.toNat := by
    simpa using h 0 (by decide)
  rw [be32enc, h 24 (by decide), h 16 (by decide), h 8 (by decide), h0]
  simp [bigEndian, List.range_succ]

theorem Represents.pad (h : Represents c m) : Represents c.pad (padded m) := by
  have hplen : (if c.used < 56 then 56 - c.used else 120 - c.used) = zeros m.length + 1 := by
    rw [h.used, zeros]
    split_ifs <;> omega
  have hpad := (h.update (padding.take (zeros m.length + 1))).update (bigEndian 8 (8 * m.length))
  rw [take_padding (zeros_lt _)] at hpad
  unfold Context.pad
  dsimp only
  rw [hplen, take_padding (zeros_lt _), h.count, be64enc_eq]
  exact hpad

theorem bytes_view (s : Words) :
    s.toList.flatMap be32enc = (view 0 s).bytes := by
  obtain ⟨⟨l⟩, h⟩ := s
  have hl : l.length = 8 := h
  obtain ⟨a, b, c, d, e, f, g, i, rfl⟩ : ∃ a b c d e f g i, l = [a, b, c, d, e, f, g, i] := by
    rcases l with
      _ | ⟨a, _ | ⟨b, _ | ⟨c, _ | ⟨d, _ | ⟨e, _ | ⟨f, _ | ⟨g, _ | ⟨i, _ | ⟨j, l⟩⟩⟩⟩⟩⟩⟩⟩⟩ <;>
      simp at hl
    exact ⟨a, b, c, d, e, f, g, i, rfl⟩
  unfold Standard.Working.bytes
  simp only [← be32enc_eq]
  rfl

/-- **The hash is the standard's**, however the message was given. -/
theorem final_eq (h : Represents c m) : c.final = Standard.sha256 m := by
  rw [Context.final, bytes_view, h.pad.state]
  rfl

/-- The hexadecimal digits of a byte string. -/
def hex (l : Bytes) : Bytes :=
  l.flatMap fun b => [hexMap.getD (b.toNat / 16) 0, hexMap.getD (b.toNat % 16) 0]

theorem flatMap_hexMap (l : Bytes) :
    (l.flatMap fun (b : UInt8) =>
      [hexMap.getD (b >>> 4).toNat 0, hexMap.getD (b &&& 0x0f).toNat 0]) = hex l := by
  refine List.flatMap_congr fun b _ => ?_
  have h4 : (4 : UInt8).toNat % 8 = 4 := rfl
  have h15 : (0x0f : UInt8).toNat = 2 ^ 4 - 1 := rfl
  rw [UInt8.toNat_shiftRight, h4, Nat.shiftRight_eq_div_pow, UInt8.toNat_and, h15,
    Nat.and_two_pow_sub_one_eq_mod]

end Build2.Libbutl.Sha256c

/-! ### The class -/

namespace Build2.Libbutl.Sha256

open Build2.Lib Build2.Lib.ByteString

/-- A call. A character or a number has its bytes in memory. -/
inductive Call
  | data (b : Bytes)
  | string (b : Bytes)
  | integral (x : Bytes)
  | reset
  deriving DecidableEq

def call (s : Sha256) : Call → Sha256
  | .data b => s.append b
  | .string b => s.appendString b
  | .integral x => s.appendIntegral x
  | .reset => s.reset

/-- The message after a call. -/
def extended (m : Bytes) : Call → Bytes
  | .data b => m ++ b
  | .string b => m ++ (b ++ [0])
  | .integral x => m ++ x
  | .reset => []

/-- The message of some calls: what was given since the last `reset`. -/
def message (calls : List Call) : Bytes := calls.foldl extended []

variable {s : Sha256} {m : Bytes}

theorem represents_append (h : Sha256c.Represents s.ctx m) (b : Bytes) :
    Sha256c.Represents (s.append b).ctx (m ++ b) := by
  unfold append
  split_ifs with hb
  · exact h.update b
  · rw [List.length_eq_zero_iff.mp (not_not.mp hb), List.append_nil]
    exact h

/-- The short way of a number that fits in the buffer does what `SHA256_Update` does. -/
theorem represents_appendIntegral (h : Sha256c.Represents s.ctx m) (x : Bytes) :
    Sha256c.Represents (s.appendIntegral x).ctx (m ++ x) := by
  unfold appendIntegral
  rw [h.used]
  dsimp only
  split_ifs with hlt
  · exact h.put hlt (h.count_add x)
  · exact represents_append h x

theorem represents_call (h : Sha256c.Represents s.ctx m) (a : Call) :
    Sha256c.Represents (s.call a).ctx (extended m a) := by
  cases a with
  | data b => exact represents_append h b
  | string b => exact represents_append h (b ++ [0])
  | integral x => exact represents_appendIntegral h x
  | reset => exact Sha256c.represents_init s.ctx

theorem represents_calls (h : Sha256c.Represents s.ctx m) (calls : List Call) :
    Sha256c.Represents (calls.foldl call s).ctx (calls.foldl extended m) := by
  induction calls generalizing s m with
  | nil => exact h
  | cons a calls ih => exact ih (represents_call h a)

/-- **Whatever the calls**, `binary` is the standard's hash of the whole message, and `string` has
its digits. -/
theorem binary_calls (s : Sha256) (calls : List Call) :
    (calls.foldl call s.reset).binary = Sha256c.Standard.sha256 (message calls) ∧
      (calls.foldl call s.reset).string =
        Sha256c.hex (Sha256c.Standard.sha256 (message calls)) := by
  have h : (calls.foldl call s.reset).binary = Sha256c.Standard.sha256 (message calls) :=
    Sha256c.final_eq (represents_calls (Sha256c.represents_init s.ctx) calls)
  exact ⟨h, by rw [string, Sha256c.flatMap_hexMap, h]⟩

/-! ### Whether anything was hashed -/

/-- The call comes to `SHA256_Update`. -/
def Updates (n : ℕ) : Call → Prop
  | .data b => b ≠ []
  | .string _ => True
  | .integral x => 64 - n % 64 ≤ x.length
  | .reset => False

/-- One of the calls since the last `reset` did. -/
def Updated (calls : List Call) : Prop :=
  ∃ pre a post, calls = pre ++ a :: post ∧ .reset ∉ post ∧ Updates (message pre).length a

theorem updated_snoc {calls : List Call} {a : Call} :
    Updated (calls ++ [a]) ↔
      Updates (message calls).length a ∨ a ≠ .reset ∧ Updated calls := by
  constructor
  · rintro ⟨pre, b, post, heq, hpost, hb⟩
    rcases List.eq_nil_or_concat post with rfl | ⟨post', z, rfl⟩
    · obtain ⟨rfl, hab⟩ := List.append_inj' heq rfl
      rw [List.singleton_inj.mp hab]
      exact Or.inl hb
    · rw [List.concat_eq_append, ← List.cons_append, ← List.append_assoc] at heq
      obtain ⟨rfl, haz⟩ := List.append_inj' heq rfl
      obtain rfl := List.singleton_inj.mp haz
      rw [List.concat_eq_append, List.mem_append, not_or, List.mem_singleton] at hpost
      exact Or.inr ⟨fun h => hpost.2 h.symm, pre, b, post', rfl, hpost.1, hb⟩
  · rintro (ha | ⟨hne, pre, b, post, rfl, hpost, hb⟩)
    · exact ⟨calls, a, [], rfl, List.not_mem_nil, ha⟩
    · refine ⟨pre, b, post ++ [a], by simp, ?_, hb⟩
      rw [List.mem_append, List.mem_singleton, not_or]
      exact ⟨hpost, fun h => hne h.symm⟩

theorem empty_append (s : Sha256) (b : Bytes) :
    (s.append b).empty = false ↔ b ≠ [] ∨ s.empty = false := by
  unfold append
  split_ifs with hb
  · exact iff_of_true rfl (Or.inl fun h => hb (congrArg List.length h))
  · rw [List.length_eq_zero_iff.mp (not_not.mp hb)]
    exact ⟨Or.inr, fun h => h.resolve_left fun hne => hne rfl⟩

theorem empty_call (h : Sha256c.Represents s.ctx m) (a : Call) :
    (s.call a).empty = false ↔ Updates m.length a ∨ a ≠ .reset ∧ s.empty = false := by
  cases a with
  | data b =>
    rw [call, empty_append]
    exact or_congr_right (and_iff_right (by simp)).symm
  | string b =>
    rw [call, appendString, empty_append]
    exact iff_of_true (Or.inl (List.append_ne_nil_of_right_ne_nil b (List.cons_ne_nil 0 [])))
      (Or.inl trivial)
  | integral x =>
    rw [call, appendIntegral, h.used, Updates]
    dsimp only
    split_ifs with hlt
    · have hnot : ¬ 64 - m.length % 64 ≤ x.length := Nat.not_le.mpr hlt
      simp [hnot]
    · have hle : 64 - m.length % 64 ≤ x.length := Nat.not_lt.mp hlt
      have hmod := Nat.mod_lt m.length (show 0 < 64 by decide)
      have hne : x ≠ [] := fun hx => by
        rw [hx, List.length_nil] at hle
        omega
      rw [empty_append]
      exact iff_of_true (Or.inl hne) (Or.inl hle)
  | reset => simp [call, reset, Updates]

/-- **What `empty` tells**: it is false if and only if one of the calls since the last `reset` came
to `SHA256_Update`. Characters and numbers that leave room in the buffer do not. -/
theorem empty_calls (s : Sha256) (calls : List Call) :
    (calls.foldl call s.reset).empty = false ↔ Updated calls := by
  induction calls using List.reverseRecOn with
  | nil =>
    refine ⟨fun h => (by cases h), ?_⟩
    rintro ⟨pre, a, post, h, -⟩
    exact absurd h.symm (List.append_ne_nil_of_right_ne_nil pre (List.cons_ne_nil a post))
  | append_singleton calls a ih =>
    have hstart : Sha256c.Represents s.reset.ctx [] := Sha256c.represents_init s.ctx
    have hrep := represents_calls hstart calls
    rw [List.foldl_append, List.foldl_cons, List.foldl_nil, updated_snoc, ← ih]
    exact empty_call hrep a

end Build2.Libbutl.Sha256
