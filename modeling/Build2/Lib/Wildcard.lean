import Mathlib.Data.List.Infix
import Mathlib.Tactic.SplitIfs

/-! # Patterns of wildcards

A pattern is a list of items, each for one element of a class or, a star, for any run of elements.
Patterns match the texts that can be split accordingly; a pattern may be matched from either end,
and one that starts with a star matches if the rest of it matches some final part of the text. -/

namespace Build2.Lib.Wildcard

/-- An item of a pattern. -/
inductive Item (α : Type)
  | star
  | one (p : α → Bool)

variable {α : Type}

/-- The text can be split as the pattern has it. -/
def Matches : List (Item α) → List α → Prop
  | [], s => s = []
  | .star :: ps, s => ∃ a b, s = a ++ b ∧ Matches ps b
  | .one p :: ps, s => ∃ c b, s = c :: b ∧ p c = true ∧ Matches ps b

section

variable {ps qs : List (Item α)} {p : α → Bool} {s : List α} {c : α}

@[simp] theorem matches_nil : Matches [] s ↔ s = [] := Iff.rfl

@[simp] theorem matches_one_nil : ¬ Matches (.one p :: ps) [] := by
  rintro ⟨c, b, h, -⟩
  cases h

@[simp] theorem matches_one_cons :
    Matches (.one p :: ps) (c :: s) ↔ p c = true ∧ Matches ps s := by
  constructor
  · rintro ⟨d, b, h, hp, hb⟩
    cases h
    exact ⟨hp, hb⟩
  · rintro ⟨hp, hs⟩
    exact ⟨c, s, rfl, hp, hs⟩

/-- **A leading star** stands for any initial part. -/
theorem matches_star : Matches (.star :: ps) s ↔ ∃ t ∈ s.tails, Matches ps t := by
  constructor
  · rintro ⟨a, b, rfl, hb⟩
    exact ⟨b, (List.mem_tails _ _).mpr (List.suffix_append a b), hb⟩
  · rintro ⟨t, ht, hm⟩
    obtain ⟨a, rfl⟩ := (List.mem_tails _ _).mp ht
    exact ⟨a, t, rfl, hm⟩

@[simp] theorem matches_star_nil : Matches [.star] s := ⟨s, [], by simp, rfl⟩

/-- **A pattern in two parts** matches a text in two parts. -/
theorem matches_append : ∀ {ps : List (Item α)} {s : List α}, Matches (ps ++ qs) s ↔
    ∃ a b, s = a ++ b ∧ Matches ps a ∧ Matches qs b
  | [], s => by simp
  | .star :: ps, s => by
    constructor
    · rintro ⟨a, b, rfl, hb⟩
      obtain ⟨c, d, rfl, hc, hd⟩ := matches_append.mp hb
      exact ⟨a ++ c, d, by simp, ⟨a, c, rfl, hc⟩, hd⟩
    · rintro ⟨_, d, rfl, ⟨a, c, rfl, hc⟩, hd⟩
      exact ⟨a, c ++ d, by simp, matches_append.mpr ⟨c, d, rfl, hc, hd⟩⟩
  | .one p :: ps, s => by
    constructor
    · rintro ⟨c, b, rfl, hp, hb⟩
      obtain ⟨a, d, rfl, ha, hd⟩ := matches_append.mp hb
      exact ⟨c :: a, d, rfl, ⟨c, a, rfl, hp, ha⟩, hd⟩
    · rintro ⟨_, d, rfl, ⟨c, a, rfl, hp, ha⟩, hd⟩
      exact ⟨c, a ++ d, rfl, hp, matches_append.mpr ⟨a, d, rfl, ha, hd⟩⟩

/-- **A pattern may be matched from the end.** -/
theorem matches_reverse : ∀ {ps : List (Item α)} {s : List α},
    Matches ps s → Matches ps.reverse s.reverse
  | [], s, h => by
    rw [matches_nil.mp h]
    rfl
  | .star :: ps, s, h => by
    obtain ⟨a, b, rfl, hb⟩ := h
    rw [List.reverse_cons, matches_append]
    exact ⟨b.reverse, a.reverse, by simp, matches_reverse hb, matches_star_nil⟩
  | .one p :: ps, s, h => by
    obtain ⟨c, b, rfl, hp, hb⟩ := h
    rw [List.reverse_cons, matches_append]
    exact ⟨b.reverse, [c], by simp, matches_reverse hb, c, [], rfl, hp, rfl⟩

theorem matches_reverse_iff : Matches ps.reverse s.reverse ↔ Matches ps s := by
  refine ⟨fun h => ?_, matches_reverse⟩
  have := matches_reverse h
  rwa [List.reverse_reverse, List.reverse_reverse] at this

end

end Build2.Lib.Wildcard
