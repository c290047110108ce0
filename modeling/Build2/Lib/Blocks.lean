import Mathlib.Data.List.Basic
import Mathlib.Order.Nat

/-! # Streams of blocks

A function of a stream that takes its blocks one after the other, as a hash function does, has to
keep what is left over until the block is complete. What it has computed then depends on the stream
only, not on the pieces that it came in (`Stream.feed_feed`). -/

namespace Build2.Lib

variable {σ α : Type}

/-- The complete blocks of `n` elements are taken one after the other. -/
def foldBlocks (n : ℕ) (f : σ → List α → σ) (s : σ) (l : List α) : σ :=
  if 0 < n ∧ n ≤ l.length then foldBlocks n f (f s (l.take n)) (l.drop n) else s
termination_by l.length
decreasing_by rw [List.length_drop]; omega

/-- What is left over. -/
def leftOver (n : ℕ) (l : List α) : List α := l.drop (n * (l.length / n))

variable {n : ℕ} {f : σ → List α → σ} {s : σ} {l x y : List α}

theorem foldBlocks_of_lt (h : l.length < n) : foldBlocks n f s l = s := by
  rw [foldBlocks, if_neg]
  omega

theorem foldBlocks_of_le (hn : 0 < n) (h : n ≤ l.length) :
    foldBlocks n f s l = foldBlocks n f (f s (l.take n)) (l.drop n) := by
  rw [foldBlocks, if_pos ⟨hn, h⟩]

theorem length_leftOver : (leftOver n l).length = l.length % n := by
  rw [leftOver, List.length_drop]
  have h := Nat.div_add_mod l.length n
  omega

theorem leftOver_of_lt (h : l.length < n) : leftOver n l = l := by
  rw [leftOver, Nat.div_eq_of_lt h]
  rfl

theorem leftOver_of_le (hn : 0 < n) (h : n ≤ l.length) :
    leftOver n l = leftOver n (l.drop n) := by
  have hdiv : l.length / n = (l.drop n).length / n + 1 := by
    rw [List.length_drop, ← Nat.add_div_right _ hn, Nat.sub_add_cancel h]
  rw [leftOver, leftOver, List.drop_drop, hdiv, Nat.mul_succ, Nat.add_comm n]

/-- What comes after some elements is taken after what is left over of them. -/
theorem foldBlocks_append (hn : 0 < n) :
    foldBlocks n f s (x ++ y) = foldBlocks n f (foldBlocks n f s x) (leftOver n x ++ y) := by
  induction hlen : x.length using Nat.strongRecOn generalizing x s with
  | _ k ih =>
    by_cases h : n ≤ x.length
    · rw [foldBlocks_of_le hn (by rw [List.length_append]; omega), foldBlocks_of_le hn h,
        leftOver_of_le hn h, List.take_append_of_le_length h, List.drop_append_of_le_length h]
      exact ih (x.drop n).length (by rw [List.length_drop]; omega) rfl
    · rw [foldBlocks_of_lt (not_le.mp h), leftOver_of_lt (not_le.mp h)]

theorem leftOver_append (hn : 0 < n) : leftOver n (x ++ y) = leftOver n (leftOver n x ++ y) := by
  induction hlen : x.length using Nat.strongRecOn generalizing x with
  | _ k ih =>
    by_cases h : n ≤ x.length
    · rw [leftOver_of_le hn (by rw [List.length_append]; omega), leftOver_of_le hn h,
        List.drop_append_of_le_length h]
      exact ih (x.drop n).length (by rw [List.length_drop]; omega) rfl
    · rw [leftOver_of_lt (not_le.mp h)]

theorem foldBlocks_of_length (hn : 0 < n) (h : l.length = n) : foldBlocks n f s l = f s l := by
  rw [foldBlocks_of_le hn h.ge, List.take_of_length_le h.le,
    foldBlocks_of_lt (by rw [List.length_drop]; omega)]

theorem map_foldBlocks {τ : Type} {g : τ → List α → τ} {v : σ → τ}
    (h : ∀ s b, b.length = n → v (f s b) = g (v s) b) (s : σ) (l : List α) :
    v (foldBlocks n f s l) = foldBlocks n g (v s) l := by
  induction hlen : l.length using Nat.strongRecOn generalizing s l with
  | _ k ih =>
    by_cases hl : 0 < n ∧ n ≤ l.length
    · rw [foldBlocks_of_le hl.1 hl.2, foldBlocks_of_le hl.1 hl.2,
        ih _ (by rw [List.length_drop]; omega) _ _ rfl,
        h _ _ (List.length_take_of_le hl.2)]
    · rw [foldBlocks, if_neg hl, foldBlocks, if_neg hl]

/-! ### Streams -/

/-- What was computed of a stream and what is left over. -/
structure Stream (σ α : Type) (n : ℕ) where
  state : σ
  pending : List α
  short : pending.length < n

namespace Stream

variable {c : Stream σ α n}

/-- More elements of the stream. -/
def feed (f : σ → List α → σ) (c : Stream σ α n) (l : List α) : Stream σ α n where
  state := foldBlocks n f c.state (c.pending ++ l)
  pending := leftOver n (c.pending ++ l)
  short := by
    rw [length_leftOver]
    exact Nat.mod_lt _ (Nat.zero_lt_of_lt c.short)

/-- A stream without elements. -/
def start (hn : 0 < n) (s : σ) : Stream σ α n := ⟨s, [], hn⟩

theorem ext {c d : Stream σ α n} (hs : c.state = d.state) (hp : c.pending = d.pending) : c = d := by
  cases c
  cases d
  cases hs
  cases hp
  rfl

theorem state_feed : (c.feed f l).state = foldBlocks n f c.state (c.pending ++ l) := rfl

theorem pending_feed : (c.feed f l).pending = leftOver n (c.pending ++ l) := rfl

theorem feed_nil : c.feed f [] = c := by
  refine ext ?_ ?_
  · rw [state_feed, List.append_nil, foldBlocks_of_lt c.short]
  · rw [pending_feed, List.append_nil, leftOver_of_lt c.short]

/-- **Two pieces** are as good as one. -/
theorem feed_feed : (c.feed f x).feed f y = c.feed f (x ++ y) := by
  have hn := Nat.zero_lt_of_lt c.short
  refine ext ?_ ?_
  · rw [state_feed, state_feed, pending_feed, ← foldBlocks_append hn, List.append_assoc, state_feed]
  · rw [pending_feed, pending_feed, ← leftOver_append hn, List.append_assoc, pending_feed]

theorem feed_of_lt (h : c.pending.length + l.length < n) :
    c.feed f l = ⟨c.state, c.pending ++ l, by rwa [List.length_append]⟩ := by
  have hlt : (c.pending ++ l).length < n := by rwa [List.length_append]
  exact ext (foldBlocks_of_lt hlt) (leftOver_of_lt hlt)

theorem feed_of_eq (h : c.pending.length + l.length = n) :
    c.feed f l = start (Nat.zero_lt_of_lt c.short) (f c.state (c.pending ++ l)) := by
  have hn := Nat.zero_lt_of_lt c.short
  have heq : (c.pending ++ l).length = n := by rwa [List.length_append]
  refine ext (foldBlocks_of_length hn heq) ?_
  rw [pending_feed, leftOver_of_le hn heq.ge, List.drop_of_length_le heq.le]
  exact leftOver_of_lt hn

end Stream

/-! ### Buffers -/

/-- `memcpy` into a buffer. What is behind its end is not written. -/
def overwrite (buf : List α) (r : ℕ) (src : List α) : List α :=
  (buf.take r ++ src ++ buf.drop (r + src.length)).take buf.length

theorem length_overwrite (buf : List α) (r : ℕ) (src : List α) :
    (overwrite buf r src).length = buf.length := by
  unfold overwrite
  simp only [List.length_take, List.length_append, List.length_drop]
  omega

theorem take_overwrite {buf src : List α} {r : ℕ} (h : r + src.length ≤ buf.length) :
    (overwrite buf r src).take (r + src.length) = buf.take r ++ src := by
  have hlength : (buf.take r ++ src).length = r + src.length := by
    rw [List.length_append, List.length_take, Nat.min_eq_left (by omega)]
  rw [overwrite, List.take_take, Nat.min_eq_left h]
  exact List.take_left' hlength

theorem overwrite_of_full {buf src : List α} {r : ℕ} (h : r + src.length = buf.length) :
    overwrite buf r src = buf.take r ++ src := by
  rw [← take_overwrite h.le, h, ← length_overwrite buf r src, List.take_length]

end Build2.Lib
