import Mathlib.Data.Fintype.Card
import Mathlib.Logic.Relation
import Mathlib.Tactic.SplitIfs

/-! # Searches that remember the current path

A recursive search of a graph that goes back at the nodes of the current path alone. Nothing is
missed: what is reachable is reachable by a path that does not come back to its first node. And a
vocabulary for searches that may fail: `Returns`, with the loop over candidates. -/

namespace Build2.Lib.Search

open Relation

/-! ### Paths -/

section

variable {α : Type} {r : α → α → Prop} {s : List α} {x y z : α}

/-- There is a path from `x` to `y` that does not lead to a node of `s`. -/
def Avoiding (r : α → α → Prop) (s : List α) : α → α → Prop :=
  ReflTransGen fun x y => r x y ∧ y ∉ s

theorem avoiding_nil : Avoiding r [] x y ↔ ReflTransGen r x y := by
  simp [Avoiding]

/-- **A path need not come back to its first node.** -/
theorem Avoiding.cases (h : Avoiding r s x y) :
    x = y ∨ ∃ z, r x z ∧ z ∉ s ++ [x] ∧ Avoiding r (s ++ [x]) z y := by
  induction h with
  | refl => exact Or.inl rfl
  | @tail b c _ hbc ih =>
    by_cases hc : x = c
    · exact Or.inl hc
    have hnew : c ∉ s ++ [x] := by
      simp only [List.mem_append, List.mem_singleton, not_or]
      exact ⟨hbc.2, fun h => hc h.symm⟩
    refine Or.inr ?_
    rcases ih with rfl | ⟨z, hxz, hz, hzb⟩
    · exact ⟨c, hbc.1, hnew, ReflTransGen.refl⟩
    · exact ⟨z, hxz, hz, hzb.tail ⟨hbc.1, hnew⟩⟩

/-- A path either leads through a node or avoids it. -/
theorem avoiding_or_through (x : α) (h : ReflTransGen r z y) :
    ReflTransGen r x y ∨ z ∉ [x] ∧ Avoiding r [x] z y := by
  induction h with
  | refl =>
    by_cases hz : z = x
    · exact Or.inl (hz ▸ ReflTransGen.refl)
    · exact Or.inr ⟨by simpa using hz, ReflTransGen.refl⟩
  | @tail b c _ hbc ih =>
    rcases ih with h | ⟨hz, h⟩
    · exact Or.inl (h.tail hbc)
    · by_cases hc : c = x
      · exact Or.inl (hc ▸ ReflTransGen.refl)
      · exact Or.inr ⟨hz, h.tail ⟨hbc, by simpa using hc⟩⟩

end

/-! ### Searches -/

section

variable {ε α β : Type} {p r : β → Prop} {q t : Prop} {x : Except ε (Option β)}

/-- The search does not fail, what it finds meets `p`, and if `q` then it finds something. -/
def Returns (x : Except ε (Option β)) (p : β → Prop) (q : Prop) : Prop :=
  ∃ o, x = .ok o ∧ (∀ y ∈ o, p y) ∧ (q → o.isSome = true)

theorem Returns.imp (h : Returns x p q) (hp : ∀ y, p y → r y) (hq : t → q) : Returns x r t := by
  obtain ⟨o, ho, h1, h2⟩ := h
  exact ⟨o, ho, fun y hy => hp y (h1 y hy), fun h => h2 (hq h)⟩

theorem returns_some {y : β} (h : p y) : Returns (.ok (some y) : Except ε (Option β)) p q :=
  ⟨_, rfl, fun z hz => by cases hz; exact h, fun _ => rfl⟩

theorem returns_none (h : ¬ q) : Returns (.ok none : Except ε (Option β)) p q :=
  ⟨_, rfl, nofun, fun hq => absurd hq h⟩

theorem Returns.orElse {f : Except ε (Option β)} (h : Returns x p q) (hf : Returns f p t) :
    Returns (x >>= fun o => match o with
      | some y => .ok (some y)
      | none => f) p (q ∨ t) := by
  obtain ⟨o, rfl, h1, h2⟩ := h
  cases o with
  | some y => exact returns_some (h1 y rfl)
  | none =>
    refine hf.imp (fun _ h => h) fun hq => hq.resolve_left fun h => ?_
    cases h2 h

/-- **A loop over candidates.** -/
theorem returns_findSomeM {f : α → Except ε (Option β)} {q : α → Prop} : ∀ {l : List α},
    (∀ a ∈ l, Returns (f a) p (q a)) → Returns (l.findSomeM? f) p (∃ a ∈ l, q a)
  | [], _ => returns_none (by simp)
  | a :: l, h => by
    have ih := returns_findSomeM fun b hb => h b (List.mem_cons_of_mem _ hb)
    refine Returns.imp (Returns.orElse (h a (by simp)) ih) (fun _ h => h) ?_
    rintro ⟨b, hb, hq⟩
    rcases List.mem_cons.mp hb with rfl | hb
    · exact Or.inl hq
    · exact Or.inr ⟨b, hb, hq⟩

/-- What a loop finds does not change when its body gets defined on more candidates. -/
theorem findSomeM_mono {f f' : α → Except ε (Option β)} : ∀ {l : List α} {o : Option β},
    (∀ a ∈ l, ∀ o, f a = .ok o → f' a = .ok o) → l.findSomeM? f = .ok o → l.findSomeM? f' = .ok o
  | [], _, _, h => h
  | a :: l, o, hf, h => by
    rw [List.findSomeM?_cons] at h ⊢
    cases ha : f a with
    | error e =>
      rw [ha] at h
      cases h
    | ok c =>
      rw [ha] at h
      rw [hf a (by simp) c ha]
      cases c with
      | some y => exact h
      | none => exact findSomeM_mono (fun b hb => hf b (List.mem_cons_of_mem _ hb)) h

end

end Build2.Lib.Search
