import Mathlib.Data.List.Infix
import Mathlib.Tactic.SplitIfs

/-! # The first occurrence of a word

The text behind the first occurrence of a word, and the search that keeps one position in the word
and starts again at a mismatch. It misses no occurrence of a word whose first letter does not come
back. -/

namespace Build2.Lib.Occurrence

variable {α : Type} [DecidableEq α]

/-- The text behind the first occurrence of `d`. -/
def firstAfter (d : List α) : List α → Option (List α)
  | [] => if d = [] then some [] else none
  | c :: t => if d <+: c :: t then some ((c :: t).drop d.length) else firstAfter d t

/-- The search for `d` from a position in it, with one letter of the text at a time. At a mismatch
it starts again, with the same letter. -/
def search (d : List α) : (i : ℕ) → List α → Option (List α)
  | _, [] => none
  | i, c :: t =>
    let i := if d[i]? ≠ some c then 0 else i
    if d[i]? = some c then (if i + 1 = d.length then some t else search d (i + 1) t)
    else search d i t

variable {d t u : List α} {c : α} {i : ℕ}

theorem firstAfter_cons_of_not (h : ¬ d <+: c :: t) : firstAfter d (c :: t) = firstAfter d t :=
  if_neg h

theorem firstAfter_append (hd : d ≠ []) (u : List α) : firstAfter d (d ++ u) = some u := by
  obtain ⟨a, w, rfl⟩ := List.exists_cons_of_ne_nil hd
  have h : a :: w <+: a :: (w ++ u) := List.prefix_append (a :: w) u
  rw [List.cons_append, firstAfter, if_pos h]
  simp

theorem firstAfter_eq_none (hd : d ≠ []) : firstAfter d t = none ↔ ¬ d <:+: t := by
  induction t with
  | nil => simp [firstAfter, hd]
  | cons c t ih =>
    by_cases hp : d <+: c :: t
    · simp [firstAfter, hp, hp.isInfix]
    · rw [firstAfter_cons_of_not hp, ih, List.infix_cons_iff]
      simp [hp]

theorem length_search {i : ℕ} (h : search d i t = some u) : u.length < t.length := by
  induction t generalizing i with
  | nil => cases h
  | cons c t ih =>
    rw [search] at h
    generalize (if d[i]? ≠ some c then 0 else i) = j at h
    split_ifs at h
    · rw [← Option.some.inj h, List.length_cons]
      exact Nat.lt_succ_self _
    · exact (ih h).trans (Nat.lt_succ_self _)
    · exact (ih h).trans (Nat.lt_succ_self _)

/-- No occurrence begins in a part of the word that the letter `c` ends. -/
theorem firstAfter_mismatch {a : α} {w : List α} (ha : a ∉ w) (hi : i ≤ w.length)
    (hc : (a :: w)[i]? ≠ some c) :
    firstAfter (a :: w) ((a :: w).take i ++ c :: t) = firstAfter (a :: w) (c :: t) := by
  have hskip : ∀ v : List α, a ∉ v → firstAfter (a :: w) (v ++ c :: t) =
      firstAfter (a :: w) (c :: t) := by
    intro v
    induction v with
    | nil => exact fun _ => rfl
    | cons b v ih =>
      intro hv
      have hne : ¬ a :: w <+: b :: (v ++ c :: t) := by
        intro h
        exact hv (by rw [(List.cons_prefix_cons.mp h).1]; exact List.mem_cons_self)
      rw [List.cons_append, firstAfter_cons_of_not hne]
      exact ih fun h => hv (List.mem_cons_of_mem _ h)
  cases i with
  | zero => rfl
  | succ i =>
    have hne : ¬ a :: w <+: a :: (w.take i ++ c :: t) := by
      intro h
      obtain ⟨v, hv⟩ := (List.cons_prefix_cons.mp h).2
      have hlen : (w.take i).length = i := by
        rw [List.length_take]
        omega
      refine hc ?_
      have hget : (w ++ v)[i]? = some c := by
        rw [hv, List.getElem?_append_right hlen.le, hlen, Nat.sub_self]
        rfl
      rw [List.getElem?_append_left (by omega)] at hget
      simpa using hget
    rw [List.take_succ_cons, List.cons_append, firstAfter_cons_of_not hne]
    exact hskip _ fun h => ha (List.mem_of_mem_take h)

/-- **Starting again misses nothing**, if the first letter of the word does not come back. -/
theorem search_eq {a : α} {w : List α} (ha : a ∉ w) (t : List α) : ∀ i ≤ w.length,
    search (a :: w) i t = firstAfter (a :: w) ((a :: w).take i ++ t) := by
  induction t with
  | nil =>
    intro i hi
    have hnone : ¬ a :: w <:+: (a :: w).take i := by
      intro h
      have := h.length_le
      rw [List.length_take, List.length_cons] at this
      omega
    rw [List.append_nil, (firstAfter_eq_none (List.cons_ne_nil _ _)).mpr hnone, search]
  | cons c t ih =>
    -- behind a letter that the word has at the position
    have hgo : ∀ i ≤ w.length, (a :: w)[i]? = some c →
        (if i + 1 = (a :: w).length then some t else search (a :: w) (i + 1) t) =
          firstAfter (a :: w) ((a :: w).take i ++ c :: t) := by
      intro i hi hc
      have htake : (a :: w).take i ++ c :: t = (a :: w).take (i + 1) ++ t := by
        rw [List.take_add_one, hc, Option.toList_some, List.append_assoc, List.singleton_append]
      rw [htake]
      split_ifs with hlast
      · rw [hlast, List.take_length, firstAfter_append (List.cons_ne_nil _ _)]
      · exact ih (i + 1) (by rw [List.length_cons] at hlast; omega)
    intro i hi
    rw [search]
    by_cases hc : (a :: w)[i]? = some c
    · simp only [hc, ne_eq, not_true_eq_false, if_false, if_true]
      exact hgo i hi hc
    · rw [firstAfter_mismatch ha hi hc]
      simp only [ne_eq, hc, not_false_eq_true, if_true]
      by_cases h0 : (a :: w)[0]? = some c
      · rw [if_pos h0]
        exact hgo 0 (Nat.zero_le _) h0
      · have hne : ¬ a :: w <+: c :: t := by
          intro h
          exact h0 (by rw [(List.cons_prefix_cons.mp h).1]; rfl)
        rw [if_neg h0, firstAfter_cons_of_not hne]
        exact ih 0 (Nat.zero_le _)

end Build2.Lib.Occurrence
