import Build2.Lib.ByteString

/-! # Words of a text

The words of a text are its maximal runs of elements that are no separators. A separator between two
texts keeps their words apart (`words_append_cons`), however many others stand next to it. -/

namespace Build2.Lib.Words

open Build2.Lib.ByteString

variable {α : Type} {p : α → Bool} {a : α} {w s t : List α}

/-- The words of a text, for a class of separators. -/
def words (p : α → Bool) (s : List α) : List (List α) :=
  (s.splitOnP p).filter fun w => !w.isEmpty

@[simp] theorem words_nil : words p [] = [] := rfl

theorem words_append_cons (ha : p a = true) : words p (s ++ a :: t) = words p s ++ words p t := by
  rw [words, List.splitOnP_append_cons s t ha, List.filter_append]
  rfl

theorem words_cons (ha : p a = true) : words p (a :: t) = words p t :=
  words_append_cons (s := []) ha

theorem words_word (h : w ≠ []) (hw : ∀ b ∈ w, p b = false) : words p w = [w] := by
  rw [words, List.splitOnP_eq_singleton hw]
  simpa using h

theorem words_append (h : w ≠ []) (hw : ∀ b ∈ w, p b = false) (ht : Stops (fun b => !p b) t) :
    words p (w ++ t) = w :: words p t := by
  cases t with
  | nil => rw [List.append_nil, words_word h hw, words_nil]
  | cons b t =>
    have hb : p b = true := by simpa using ht
    rw [words_append_cons hb, words_word h hw, words_cons hb, List.singleton_append]

theorem words_dropWhile (s : List α) : words p (s.dropWhile p) = words p s := by
  induction s with
  | nil => rfl
  | cons b s ih =>
    by_cases hb : p b = true
    · rw [List.dropWhile_cons_of_pos hb, ih, words_cons hb]
    · rw [List.dropWhile_cons_of_neg hb]

end Build2.Lib.Words
