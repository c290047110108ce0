import Mathlib.Tactic.Common

/-! # How a fallible computation ends

`Ends r E P` is a postcondition of a fallible computation: it returns a value of which `P` holds or
fails with an error of which `E` holds. -/

namespace Build2.Lib.Outcome

variable {ε α β : Type}

def Ends (r : Except ε α) (E : ε → Prop) (P : α → Prop) : Prop :=
  match r with
  | .ok a => P a
  | .error e => E e

theorem mapError_eq_ok {δ : Type} {r : Except ε α} {f : ε → δ} {a : α} :
    r.mapError f = .ok a ↔ r = .ok a := by
  cases r <;> simp [Except.mapError]

variable {r : Except ε α} {f : α → Except ε β} {E E' : ε → Prop} {P P' : α → Prop} {Q : β → Prop}

theorem Ends.mono (h : Ends r E P) (hE : ∀ e, E e → E' e) (hP : ∀ a, P a → P' a) :
    Ends r E' P' := by
  cases r with
  | ok a => exact hP a h
  | error e => exact hE e h

theorem Ends.imp (h : Ends r E P) (hP : ∀ a, P a → P' a) : Ends r E P' := h.mono (fun _ => id) hP

theorem Ends.bind (h : Ends r E P) (hf : ∀ a, P a → Ends (f a) E Q) : Ends (r >>= f) E Q := by
  cases r with
  | ok a => exact hf a h
  | error e => exact h

theorem ends_ite {c : Prop} [Decidable c] {x y : Except ε α} (hx : c → Ends x E P)
    (hy : ¬c → Ends y E P) : Ends (if c then x else y) E P := by
  split_ifs with h
  · exact hx h
  · exact hy h

theorem Ends.of_eq {a : α} (h : r = .ok a) (ha : P a) : Ends r E P := by
  rw [h]
  exact ha

end Build2.Lib.Outcome
