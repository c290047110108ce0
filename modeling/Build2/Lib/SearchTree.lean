import Mathlib.Data.List.Basic

/-! # Binary search trees

A search goes down a tree of any shape. If the elements that it passes come first in order, it stops
at the first of the others (`lowerBound_eq`); whatever their order, it stops at one of the others
(`mem_of_lowerBound`). -/

namespace Build2.Lib.SearchTree

inductive Tree (α : Type)
  | leaf
  | node (left : Tree α) (value : α) (right : Tree α)
  deriving Repr

variable {α : Type} {p : α → Bool} {t : Tree α} {a : α} {l : List α}

namespace Tree

/-- The elements in order. -/
def toList : Tree α → List α
  | leaf => []
  | node left value right => left.toList ++ value :: right.toList

/-- The elements from where a search for the first one that does not come before (`p`) ends. -/
def lowerBound (p : α → Bool) : Tree α → List α
  | leaf => []
  | node left value right =>
    if p value then right.lowerBound p else left.lowerBound p ++ value :: right.toList

/-- **The search ends at the first element** that does not come before. -/
theorem lowerBound_eq (h : t.toList.Pairwise fun a b => p b = true → p a = true) :
    t.lowerBound p = t.toList.dropWhile p := by
  induction t with
  | leaf => rfl
  | node left value right ihl ihr =>
    rw [toList, List.pairwise_append, List.pairwise_cons] at h
    obtain ⟨hl, ⟨-, hr⟩, hlr⟩ := h
    rw [lowerBound, toList]
    by_cases hv : p value = true
    · have hall : ∀ a ∈ left.toList, p a = true := fun a ha =>
        hlr a ha value List.mem_cons_self hv
      rw [if_pos hv, ihr hr, List.dropWhile_append_of_pos hall, List.dropWhile_cons_of_pos hv]
    · rw [if_neg hv, ihl hl, List.dropWhile_append]
      cases hd : left.toList.dropWhile p with
      | nil => simp [hv]
      | cons b bs => simp

/-- Whatever the order, the rest of the elements follows. -/
theorem lowerBound_suffix (t : Tree α) (p : α → Bool) : t.lowerBound p <:+ t.toList := by
  induction t with
  | leaf => exact List.suffix_refl _
  | node left value right ihl ihr =>
    rw [lowerBound, toList]
    split_ifs
    · exact ihr.trans ((List.suffix_cons value _).trans (List.suffix_append _ _))
    · obtain ⟨u, hu⟩ := ihl
      exact ⟨u, by rw [← hu, List.append_assoc]⟩

theorem mem_of_lowerBound (h : t.lowerBound p = a :: l) : a ∈ t.toList ∧ p a = false := by
  induction t generalizing l with
  | leaf => cases h
  | node left value right ihl ihr =>
    rw [lowerBound] at h
    rw [toList]
    by_cases hv : p value = true
    · rw [if_pos hv] at h
      obtain ⟨ha, hp⟩ := ihr h
      exact ⟨List.mem_append_right _ (List.mem_cons_of_mem _ ha), hp⟩
    · rw [if_neg hv] at h
      cases hd : left.lowerBound p with
      | nil =>
        rw [hd] at h
        obtain ⟨rfl, -⟩ := List.cons.inj h
        exact ⟨by simp, by simpa using hv⟩
      | cons b bs =>
        rw [hd] at h
        obtain ⟨rfl, -⟩ := List.cons.inj h
        obtain ⟨ha, hp⟩ := ihl hd
        exact ⟨List.mem_append_left _ ha, hp⟩

end Tree

end Build2.Lib.SearchTree
