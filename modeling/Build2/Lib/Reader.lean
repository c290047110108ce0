import Mathlib.Data.List.Basic
import Mathlib.Data.List.Monad

/-! # Reading to a stop

A reader takes the elements of a list one at a time, changes its state with each, and may refuse
one: there it stops. What it has read is a prefix of the list, and a reader that has read a prefix
goes on from there whatever follows. -/

namespace Build2.Lib.Reader

variable {σ α : Type} {step : σ → α → Option σ}

/-- Reads to the first element that is refused: the state there and the rest of the list. -/
def readTo (step : σ → α → Option σ) (t : σ) : List α → σ × List α
  | [] => (t, [])
  | a :: l =>
    match step t a with
    | none => (t, a :: l)
    | some t => readTo step t l

/-- The reader refuses what comes first in the rest, if anything. -/
def Stopped (step : σ → α → Option σ) (t : σ) (r : List α) : Prop :=
  ∀ a ∈ r.head?, step t a = none

section

variable {t u : σ} {a : α} {l w r : List α}

@[simp] theorem readTo_nil : readTo step t [] = (t, []) := rfl

theorem readTo_cons (h : step t a = some u) : readTo step t (a :: l) = readTo step u l := by
  rw [readTo, h]

theorem readTo_refused (h : step t a = none) : readTo step t (a :: l) = (t, a :: l) := by
  rw [readTo, h]

@[simp] theorem stopped_nil : Stopped step t [] := by
  intro a h
  cases h

@[simp] theorem stopped_cons : Stopped step t (a :: l) ↔ step t a = none := by
  unfold Stopped
  simp

/-- **A reader goes on behind what it has read.** -/
theorem readTo_append (h : w.foldlM step t = some u) (r : List α) :
    readTo step t (w ++ r) = readTo step u r := by
  induction w generalizing t with
  | nil =>
    cases h
    rfl
  | cons a w ih =>
    rw [List.foldlM_cons, Option.bind_eq_bind, Option.bind_eq_some_iff] at h
    obtain ⟨t', ht, h⟩ := h
    rw [List.cons_append, readTo_cons ht, ih h]

theorem readTo_stopped (h : w.foldlM step t = some u) (hr : Stopped step u r) :
    readTo step t (w ++ r) = (u, r) := by
  rw [readTo_append h]
  cases r with
  | nil => rfl
  | cons a r => exact readTo_refused (stopped_cons.mp hr)

/-- **What a reader has read** is a prefix, and it stopped behind it. -/
theorem readTo_eq_iff : readTo step t l = (u, r) ↔
    ∃ w, l = w ++ r ∧ w.foldlM step t = some u ∧ Stopped step u r := by
  constructor
  · intro h
    induction l generalizing t with
    | nil =>
      cases h
      exact ⟨[], rfl, rfl, stopped_nil⟩
    | cons a l ih =>
      cases ha : step t a with
      | none =>
        rw [readTo_refused ha] at h
        cases h
        exact ⟨[], rfl, rfl, stopped_cons.mpr ha⟩
      | some t' =>
        rw [readTo_cons ha] at h
        obtain ⟨w, rfl, hw, hr⟩ := ih h
        refine ⟨a :: w, rfl, ?_, hr⟩
        rw [List.foldlM_cons, ha]
        exact hw
  · rintro ⟨w, rfl, hw, hr⟩
    exact readTo_stopped hw hr

end

end Build2.Lib.Reader
