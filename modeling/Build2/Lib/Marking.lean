import Mathlib.Data.Set.Insert
import Mathlib.Logic.Relation

/-! # Searches that mark

What a depth-first search does to the set of the marked nodes, which it does not enter again: all it
marks is reached from where it started, and what it marks leads to marked nodes only. Searches from
all the nodes that were marked at first mark what is reachable from them (`Marks.eq_reachable`). -/

namespace Build2.Lib.Marking

open Relation

variable {α : Type} {r : α → α → Prop} {R R' s t u : Set α} {a x : α}

/-- Searches by steps of `r` from nodes of `R` turn the marked nodes `s` into `t`. -/
structure Marks (r : α → α → Prop) (R s t : Set α) : Prop where
  subset : s ⊆ t
  reached : ∀ x ∈ t, x ∈ s ∨ ∃ a ∈ R, TransGen r a x
  closed : ∀ x ∈ t, x ∈ s ∨ ∀ y, r x y → y ∈ t

theorem Marks.refl (r : α → α → Prop) (R s : Set α) : Marks r R s s :=
  ⟨subset_rfl, fun _ => Or.inl, fun _ => Or.inl⟩

theorem Marks.mono (h : Marks r R s t) (hR : R ⊆ R') : Marks r R' s t :=
  ⟨h.subset, fun x hx => (h.reached x hx).imp_right fun ⟨a, ha, hax⟩ => ⟨a, hR ha, hax⟩, h.closed⟩

theorem Marks.trans (h : Marks r R s t) (h' : Marks r R t u) : Marks r R s u where
  subset := h.subset.trans h'.subset
  reached x hx := (h'.reached x hx).elim (h.reached x) Or.inr
  closed x hx := by
    rcases h'.closed x hx with hx | hx
    · exact (h.closed x hx).imp_right fun hall y hy => h'.subset (hall y hy)
    · exact Or.inr hx

theorem Marks.visit (ha : a ∈ R) (hr : r a x) (h : Marks r {x} (insert x s) t)
    (hx : ∀ y, r x y → y ∈ t) : Marks r R s t where
  subset := (Set.subset_insert x s).trans h.subset
  reached y hy := by
    rcases h.reached y hy with hy | ⟨b, rfl, hby⟩
    · rcases hy with rfl | hy
      · exact Or.inr ⟨a, ha, TransGen.single hr⟩
      · exact Or.inl hy
    · exact Or.inr ⟨a, ha, TransGen.head hr hby⟩
  closed y hy := by
    rcases h.closed y hy with hy | hy
    · rcases hy with rfl | hy
      · exact Or.inr hx
      · exact Or.inl hy
    · exact Or.inr hy

/-- **Searches from all the first nodes** mark what is reachable from them. -/
theorem Marks.eq_reachable (h : Marks r s s t) (hs : ∀ a ∈ s, ∀ y, r a y → y ∈ t) :
    t = {x | ∃ a ∈ s, ReflTransGen r a x} := by
  ext x
  constructor
  · intro hx
    rcases h.reached x hx with hx | ⟨a, ha, hax⟩
    · exact ⟨x, hx, ReflTransGen.refl⟩
    · exact ⟨a, ha, hax.to_reflTransGen⟩
  · rintro ⟨a, ha, hax⟩
    induction hax with
    | refl => exact h.subset ha
    | tail _ hyz ih => exact (h.closed _ ih).elim (fun hy => hs _ hy _ hyz) fun hall => hall _ hyz

end Build2.Lib.Marking
