import Mathlib.Algebra.BigOperators.Group.List.Basic
import Mathlib.Algebra.GroupWithZero.Nat

/-! # Counting the members of a list

Programs keep the number of their threads, of open files and so on in counters of their own. Such a
counter is right when it is the sum of what each member counts for, and it stays so when it changes
by what the change of a member makes. -/

namespace Build2.Lib.Census

variable {α : Type*}

/-- What the members of a list count for together. -/
def census (w : α → ℕ) (l : List α) : ℕ := (l.map w).sum

@[simp] theorem census_nil (w : α → ℕ) : census w [] = 0 := rfl

@[simp] theorem census_cons (w : α → ℕ) (a : α) (l : List α) :
    census w (a :: l) = w a + census w l := by
  simp [census]

@[simp] theorem census_append (w : α → ℕ) (l l' : List α) :
    census w (l ++ l') = census w l + census w l' := by
  simp [census]

@[simp] theorem census_replicate (w : α → ℕ) (n : ℕ) (a : α) :
    census w (List.replicate n a) = n * w a := by
  simp [census]

theorem census_map {β : Type*} (w : β → ℕ) (f : α → β) (l : List α) :
    census w (l.map f) = census (fun a => w (f a)) l := by
  simp [census, Function.comp_def]

/-- A member in the place of another one. -/
theorem census_set (w : α → ℕ) {l : List α} {i : ℕ} {a : α} (h : l[i]? = some a) (b : α) :
    census w (l.set i b) + w a = census w l + w b := by
  induction l generalizing i with
  | nil => simp at h
  | cons c l ih =>
    cases i with
    | zero =>
      obtain rfl : c = a := by simpa using h
      simp only [List.set_cons_zero, census_cons]
      omega
    | succ i =>
      have ih := ih (by simpa using h)
      simp only [List.set_cons_succ, census_cons]
      omega

theorem le_census (w : α → ℕ) {l : List α} {i : ℕ} {a : α} (h : l[i]? = some a) :
    w a ≤ census w l := by
  obtain ⟨s, t, rfl⟩ := List.append_of_mem (List.mem_of_getElem? h)
  rw [census_append, census_cons]
  omega

theorem add_le_census (w : α → ℕ) {l : List α} {i j : ℕ} {a b : α} (hi : l[i]? = some a)
    (hj : l[j]? = some b) (hij : i ≠ j) : w a + w b ≤ census w l := by
  induction l generalizing i j with
  | nil => simp at hi
  | cons c l ih =>
    rw [census_cons]
    cases i with
    | zero =>
      cases j with
      | zero => exact absurd rfl hij
      | succ j =>
        obtain rfl : c = a := by simpa using hi
        have hb := le_census w (i := j) (l := l) (by simpa using hj)
        omega
    | succ i =>
      cases j with
      | zero =>
        obtain rfl : c = b := by simpa using hj
        have ha := le_census w (i := i) (l := l) (by simpa using hi)
        omega
      | succ j =>
        have ih := ih (i := i) (j := j) (by simpa using hi) (by simpa using hj) (by omega)
        omega

theorem census_le {w w' : α → ℕ} {l : List α} (h : ∀ a ∈ l, w a ≤ w' a) :
    census w l ≤ census w' l := by
  induction l with
  | nil => exact Nat.le_refl 0
  | cons a l ih =>
    have ha := h a List.mem_cons_self
    have hl := ih fun b hb => h b (List.mem_cons_of_mem _ hb)
    rw [census_cons, census_cons]
    omega

theorem census_add (w w' : α → ℕ) (l : List α) :
    census (fun a => w a + w' a) l = census w l + census w' l :=
  List.sum_map_add

theorem census_congr {w w' : α → ℕ} {l : List α} (h : ∀ a ∈ l, w a = w' a) :
    census w l = census w' l :=
  congrArg List.sum (List.map_congr_left h)

end Build2.Lib.Census
