import Build2.Lib.Stateful
import Build2.Libbutl.Manifest.Value

/-! # The lines of a manifest

What the parts of `parse_next` take from the text and what they leave, whether they are used at the
start of a line or in the middle of it. -/

namespace Build2.Libbutl.Manifest

open Build2.Lib.ByteString Build2.Lib.Reader
open Build2.Lib.Stateful
open CharScanner (cr lf)

/-! ### Skipping spaces -/

/-- One character that is skipped, with whether it belongs to a comment. -/
def skipStep (start comment : Bool) (c : UInt8) : Option Bool :=
  if comment = true ∧ c ≠ lf then some true
  else if isBlank c then some false
  else if c = lf then if start then some false else none
  else if c = ch '#' then if start then some true else none
  else none

/-- What is left behind the spaces and comments. -/
def skipped (start : Bool) (s : Bytes) : Bytes := (readTo (skipStep start) false s).2

section

variable {src : Source} {start comment : Bool} {lp : Nat} {s r : Bytes} {c : UInt8}

theorem skipLoop_fst (src : Source) (start comment : Bool) (lp : Nat) (s : Bytes) :
    (skipLoop src start comment lp s).1 = (readTo (skipStep start) comment s).2 := by
  induction s generalizing comment lp with
  | nil => rfl
  | cons c s ih =>
    rw [skipLoop]
    split_ifs with h1 h2 h3 hs h4 hs
    · rw [ih, readTo_cons (by rw [skipStep, if_pos h1])]
    · rw [ih, readTo_cons (by rw [skipStep, if_neg h1, if_pos h2])]
    · rw [ih, readTo_cons (by rw [skipStep, if_neg h1, if_neg h2, if_pos h3, if_pos hs])]
    · rw [readTo_refused (by rw [skipStep, if_neg h1, if_neg h2, if_pos h3, if_neg hs])]
    · rw [ih, readTo_cons (by
        rw [skipStep, if_neg h1, if_neg h2, if_neg h3, if_pos h4, if_pos hs])]
    · rw [readTo_refused (by
        rw [skipStep, if_neg h1, if_neg h2, if_neg h3, if_pos h4, if_neg hs])]
    · rw [readTo_refused (by rw [skipStep, if_neg h1, if_neg h2, if_neg h3, if_neg h4])]

/-! ### Spaces, names and values -/

/-- A fault that is not a failed assertion. -/
def Fault.IsParsing (f : Fault) : Prop := f ≠ .assertion

theorem ends_fail {α : Type} {Q : α → Prop} (line column : Nat) (description : String) :
    Ends Fault.IsParsing Q (fail line column description) := by
  intro h
  cases h

theorem ends_checkEnd (src : Source) (what : String) (s : Bytes) :
    Ends Fault.IsParsing (fun _ => True) (checkEnd src what s) := by
  unfold checkEnd
  split
  · exact ends_fail _ _ _
  · trivial

theorem ends_skipSpaces (src : Source) (s : Bytes) :
    Ends Fault.IsParsing (fun r => r.1 = skipped ((src.loc s).column = 1) s)
      (skipSpaces src s) := by
  unfold skipSpaces
  exact (ends_checkEnd ..).bind fun _ _ => skipLoop_fst ..

theorem ends_parseName (src : Source) (s : Bytes) :
    Ends Fault.IsParsing (fun r => r = (s.takeWhile isNameChar, s.dropWhile isNameChar))
      (parseName src s) := by
  unfold parseName
  exact (ends_checkEnd ..).bind fun _ _ => rfl

theorem skipped_stops (s : Bytes) : ∀ c ∈ (skipped true s).head?, skipStep true false c = none := by
  rcases hread : readTo (skipStep true) false s with ⟨comment, r⟩
  obtain ⟨lead, -, -, hstop⟩ := readTo_eq_iff.mp hread
  unfold skipped
  rw [hread]
  intro c hc
  have hstop := hstop c hc
  cases comment with
  | false => exact hstop
  | true =>
    -- a comment is skipped up to its newline, and so is that
    by_cases hlf : c = lf
    · rw [hlf] at hstop
      cases hstop
    · rw [skipStep, if_pos ⟨rfl, hlf⟩] at hstop
      cases hstop

theorem skipped_suffix (start : Bool) (s : Bytes) : ∃ w, s = w ++ skipped start s := by
  rcases hread : readTo (skipStep start) false s with ⟨comment, r⟩
  obtain ⟨lead, hs, -, -⟩ := readTo_eq_iff.mp hread
  unfold skipped
  rw [hread]
  exact ⟨lead, hs⟩

theorem skipStep_eq_none : skipStep true false c = none ↔
    isBlank c = false ∧ c ≠ lf ∧ c ≠ ch '#' := by
  unfold skipStep
  simp only [Bool.false_eq_true, false_and, if_false, if_true]
  split_ifs with h1 h2 h3
  · simp [h1]
  · simp [h2]
  · simp [h3]
  · simp [h1, h2, h3]

theorem skipped_of_not (start : Bool) (h : isBlank (hd s) = false) (hlf : hd s ≠ lf)
    (hc : hd s ≠ ch '#') : skipped start s = s := by
  unfold skipped
  cases s with
  | nil => rfl
  | cons c s =>
    rw [readTo_refused]
    simp only [hd_cons] at h hlf hc
    simp [skipStep, h, hlf, hc]

/-- A value ends in front of a newline or at the end, as `parse_next` asserts. -/
theorem readValue_stop {value : Bytes} (h : readValue s = (value, r)) : ¬ (r ≠ [] ∧ hd r ≠ lf) := by
  rintro ⟨hne, hlf⟩
  obtain ⟨c, r, rfl⟩ := List.exists_cons_of_ne_nil hne
  rcases hread : readTo ValueState.feed .start s with ⟨t, r'⟩
  obtain ⟨-, -, -, hstop⟩ := readTo_eq_iff.mp hread
  unfold readValue at h
  rw [hread] at h
  obtain ⟨-, rfl⟩ := Prod.mk.inj h
  exact hlf (feed_stop (stopped_cons.mp hstop))

/-- `parse_value` leaves a part of the text that is empty or starts with a newline. -/
theorem ends_parseValue (src : Source) (s : Bytes) :
    Ends Fault.IsParsing (fun r => (∃ w, s = w ++ r.2.2) ∧ ¬(r.2.2 ≠ [] ∧ hd r.2.2 ≠ lf))
      (parseValue src s) := by
  rw [parseValue_eq]
  refine (ends_checkEnd ..).bind fun _ _ => ⟨?_, readValue_stop rfl⟩
  rcases hread : readTo ValueState.feed .start s with ⟨t, r⟩
  obtain ⟨w, hs, -, -⟩ := readTo_eq_iff.mp hread
  refine ⟨w, ?_⟩
  change s = w ++ (readTo ValueState.feed .start s).2
  rw [hread]
  exact hs

end

end Build2.Libbutl.Manifest
