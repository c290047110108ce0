import Build2.Libbutl.CharScanner.View
import Mathlib.Data.List.Induction

/-! # The characters of a manifest

What the scanner of `manifest_parser` delivers of a text: its characters, CR and CRLF translated to
a newline, and the line, column and position of each. The characters end at the first byte that is
not valid. -/

namespace Build2.Libbutl.Manifest

open Build2.Lib.ByteString Build2.Libbutl.Utf8
open CharScanner (cr lf)

/-- The validator of the parser and of the serializer. -/
def validator : Validator := ⟨.graphic, [10, 13, 9]⟩

/-- A place in a text. -/
structure Loc where
  line : Nat
  column : Nat
  position : Nat
  deriving DecidableEq

/-- The characters of a text, the places of each of them and of the end, and the description of the
byte that is not valid. -/
structure Source where
  chars : Bytes
  locs : List Loc
  invalid : Option String

/-! ### Scanning -/

/-- The scanner: the state of the validator, whether it is in a run of CR, and the place. -/
structure Scan where
  seq : Option Seq
  inCr : Bool
  loc : Loc

/-- The character that a byte is delivered as. -/
def translate (b : UInt8) : UInt8 := if b = cr then lf else b

/-- The place behind a character. The column counts codepoints. -/
def Loc.next (l : Loc) (c : UInt8) (decoded : Bool) : Loc :=
  if c = lf then ⟨l.line + 1, 1, l.position + 1⟩
  else ⟨l.line, if decoded then l.column + 1 else l.column, l.position + 1⟩

/-- The character that is delivered for a byte, if any, and the scanner behind it. -/
def Scan.step (t : Scan) (b : UInt8) : Option (Option UInt8 × Scan) :=
  if t.inCr = true ∧ (b = cr ∨ b = lf) then
    some (none, ⟨t.seq, b = cr, { t.loc with position := t.loc.position + 1 }⟩)
  else
    (validator.validate b t.seq).next.map fun seq =>
      (some (translate b), ⟨seq, b = cr, t.loc.next (translate b) seq.isNone⟩)

def Source.add (c : Option UInt8) (l : Loc) (src : Source) : Source :=
  match c with
  | none => src
  | some c => ⟨c :: src.chars, l :: src.locs, src.invalid⟩

/-- What is delivered of a text. -/
def scan (t : Scan) : Bytes → Source
  | [] => ⟨[], [t.loc], if t.seq.isNone then none else some "unexpected end of stream"⟩
  | b :: r =>
    match t.step b with
    | none => ⟨[], [t.loc], some (validator.validate b t.seq).what⟩
    | some (c, t') => (scan t' r).add c t.loc

/-- A scanner at the start of a text. -/
def Scan.start : Scan := ⟨none, false, ⟨1, 1, 0⟩⟩

def Source.of (text : Bytes) : Source := scan .start text

/-- The place of a suffix of the characters. -/
def Source.loc (src : Source) (s : Bytes) : Loc :=
  src.locs.getD (src.chars.length - s.length) ⟨0, 0, 0⟩

/-! ### A part of a text -/

/-- What is delivered of a part of a text that is valid, and the scanner behind it. -/
def reach (t : Scan) : Bytes → Option (Bytes × Scan)
  | [] => some ([], t)
  | b :: r =>
    match t.step b with
    | none => none
    | some (c, t') => (reach t' r).map fun p => (c.toList ++ p.1, p.2)

/-- The text that follows does not continue a run of CR. -/
def Scan.Settled (t : Scan) (text : Bytes) : Prop :=
  t.inCr = true → hd text ≠ cr ∧ hd text ≠ lf

section

variable {t t' : Scan} {b : UInt8} {a text u s : Bytes} {c : Option UInt8}

theorem reach_cons (h : t.step b = some (c, t')) :
    reach t (b :: text) = (reach t' text).map fun p => (c.toList ++ p.1, p.2) := by
  rw [reach, h]

theorem scan_cons (h : t.step b = some (c, t')) :
    scan t (b :: text) = (scan t' text).add c t.loc := by
  rw [scan, h]

theorem reach_snoc (h : reach t (a ++ [b]) = some (u, t')) : ∃ u' t1 c,
    reach t a = some (u', t1) ∧ t1.step b = some (c, t') ∧ u = u' ++ c.toList := by
  induction a generalizing t u with
  | nil =>
    rw [List.nil_append, reach] at h
    cases hs : t.step b with
    | none =>
      rw [hs] at h
      cases h
    | some p =>
      rw [hs] at h
      cases h
      exact ⟨[], t, p.1, rfl, hs, by simp⟩
  | cons x a ih =>
    rw [List.cons_append, reach] at h
    cases hs : t.step x with
    | none =>
      rw [hs] at h
      cases h
    | some p =>
      obtain ⟨c, t2⟩ := p
      rw [hs] at h
      obtain ⟨⟨w, t3⟩, hw, he⟩ := Option.map_eq_some_iff.mp h
      obtain ⟨rfl, rfl⟩ := Prod.mk.inj he
      obtain ⟨u', t1, c', h1, h2, rfl⟩ := ih hw
      exact ⟨c.toList ++ u', t1, c', by rw [reach_cons hs, h1]; rfl, h2, by simp⟩

theorem scan_append (h : reach t a = some (u, t')) (text : Bytes) :
    (scan t (a ++ text)).chars = u ++ (scan t' text).chars ∧
      (scan t (a ++ text)).invalid = (scan t' text).invalid ∧
      (scan t (a ++ text)).locs.drop u.length = (scan t' text).locs := by
  induction a generalizing t u with
  | nil =>
    cases h
    simp
  | cons b a ih =>
    cases hs : t.step b with
    | none =>
      rw [reach, hs] at h
      cases h
    | some p =>
      obtain ⟨c, t1⟩ := p
      rw [reach_cons hs, Option.map_eq_some_iff] at h
      obtain ⟨⟨u', t2⟩, h1, h2⟩ := h
      obtain ⟨rfl, rfl⟩ := Prod.mk.inj h2
      obtain ⟨h3, h4, h5⟩ := ih h1
      rw [List.cons_append, scan_cons hs]
      cases c with
      | none => exact ⟨h3, h4, h5⟩
      | some c => exact ⟨congrArg (c :: ·) h3, h4, h5⟩

/-- **What a byte does to the scanner.** -/
theorem Scan.step_cases (h : t.step b = some (c, t')) :
    (c = none ∧ (t.inCr = true ∧ (b = cr ∨ b = lf)) ∧
      t' = ⟨t.seq, b = cr, { t.loc with position := t.loc.position + 1 }⟩) ∨
    ∃ seq, c = some (translate b) ∧ ¬ (t.inCr = true ∧ (b = cr ∨ b = lf)) ∧
      (validator.validate b t.seq).next = some seq ∧
      t' = ⟨seq, b = cr, t.loc.next (translate b) seq.isNone⟩ := by
  unfold Scan.step at h
  split_ifs at h with hskip
  · cases h
    exact Or.inl ⟨rfl, hskip, rfl⟩
  · obtain ⟨seq, hseq, he⟩ := Option.map_eq_some_iff.mp h
    cases he
    exact Or.inr ⟨seq, rfl, hskip, hseq, rfl⟩

theorem Scan.step_settled (hs : t.Settled (b :: text)) :
    ¬ (t.inCr = true ∧ (b = cr ∨ b = lf)) := by
  rintro ⟨hcr, hb⟩
  obtain ⟨h1, h2⟩ := hs hcr
  rcases hb with hb | hb
  · exact h1 hb
  · exact h2 hb

theorem Loc.position_next (l : Loc) (x : UInt8) (d : Bool) :
    (l.next x d).position = l.position + 1 := by
  unfold Loc.next
  split_ifs <;> rfl

theorem Scan.position_step (h : t.step b = some (c, t')) :
    t'.loc.position = t.loc.position + 1 := by
  rcases Scan.step_cases h with ⟨-, -, rfl⟩ | ⟨seq, -, -, -, rfl⟩
  · rfl
  · exact Loc.position_next _ _ _

/-! ### Cutting a text -/

/-- **A text can be cut in front of each of its characters**, and so that no CR is cut from the
newline that it makes. -/
theorem exists_cut (h : (scan t text).chars = u ++ s) : ∃ a r t', text = a ++ r ∧
    reach t a = some (u, t') ∧ t'.Settled r ∧ (scan t' r).chars = s ∧
    t'.loc.position = t.loc.position + a.length := by
  induction text generalizing t u with
  | nil =>
    obtain ⟨rfl, rfl⟩ := List.append_eq_nil_iff.mp h.symm
    exact ⟨[], [], t, rfl, rfl, fun _ => ⟨by decide, by decide⟩, rfl, rfl⟩
  | cons b r ih =>
    by_cases hnow : u = [] ∧ t.Settled (b :: r)
    · obtain ⟨rfl, hset⟩ := hnow
      exact ⟨[], b :: r, t, rfl, rfl, hset, h, rfl⟩
    cases hs : t.step b with
    | none =>
      -- the characters end here
      rw [scan, hs] at h
      obtain ⟨rfl, rfl⟩ := List.append_eq_nil_iff.mp h.symm
      refine absurd ⟨rfl, fun hcr => ?_⟩ hnow
      by_contra hb
      have hskip : t.inCr = true ∧ (b = cr ∨ b = lf) :=
        ⟨hcr, by rwa [not_and_or, not_not, not_not] at hb⟩
      rw [Scan.step, if_pos hskip] at hs
      cases hs
    | some p =>
      obtain ⟨c, t1⟩ := p
      have hpos := Scan.position_step hs
      rw [scan_cons hs] at h
      have go : ∀ u', (scan t1 r).chars = u' ++ s → c.toList ++ u' = u → ∃ a r' t',
          b :: r = a ++ r' ∧ reach t a = some (u, t') ∧ t'.Settled r' ∧
          (scan t' r').chars = s ∧ t'.loc.position = t.loc.position + a.length := by
        rintro u' hu' rfl
        obtain ⟨a, r', t', rfl, h1, h2, h3, h4⟩ := ih hu'
        refine ⟨b :: a, r', t', rfl, by rw [reach_cons hs, h1]; rfl, h2, h3, ?_⟩
        rw [h4, hpos, List.length_cons]
        omega
      rcases Scan.step_cases hs with ⟨rfl, hskip, -⟩ | ⟨seq, rfl, hskip, -, -⟩
      · exact go u h rfl
      · cases u with
        | nil =>
          refine absurd ⟨rfl, fun hcr => ?_⟩ hnow
          by_contra hb
          exact hskip ⟨hcr, by rwa [not_and_or, not_not, not_not] at hb⟩
        | cons x u =>
          obtain ⟨hx, hu⟩ := List.cons.inj h
          exact go u hu (congrArg (· :: u) hx)

/-- The place of the first character of a settled text is that of the scanner. -/
theorem head_locs (hs : t.Settled text) : (scan t text).locs.head? = some t.loc := by
  cases text with
  | nil => rfl
  | cons b r =>
    have hskip := Scan.step_settled hs
    unfold scan Scan.step
    rw [if_neg hskip]
    cases (validator.validate b t.seq).next with
    | none => rfl
    | some seq => rfl

end

/-! ### Places -/

section

variable {text u s a r : Bytes} {t : Scan}

/-- **The place of a suffix.** -/
theorem loc_of_reach (h : reach .start a = some (u, t)) (hs : t.Settled r) :
    (Source.of (a ++ r)).loc (scan t r).chars = t.loc := by
  obtain ⟨h1, -, h3⟩ := scan_append h r
  have hlen : (Source.of (a ++ r)).chars.length - (scan t r).chars.length = u.length := by
    rw [Source.of, h1, List.length_append]
    omega
  have hhead := head_locs hs
  rw [← h3, List.head?_drop] at hhead
  rw [Source.loc, hlen, List.getD_eq_getElem?_getD]
  exact congrArg (Option.getD · _) hhead

/-- What the column of a place is, from the characters before it. -/
structure Scan.Placed (u : Bytes) (t : Scan) : Prop where
  pos : 1 ≤ t.loc.column
  start : (∀ c ∈ u.getLast?, c = lf) → t.loc.column = 1
  middle : ∀ c ∈ u.getLast?, c ≠ lf → t.seq = none → 2 ≤ t.loc.column
  ascii : ∀ c ∈ u.getLast?, c < 0x80 → t.seq = none

theorem lt_of_translate {b : UInt8} (h : translate b < 0x80) : b < 0x80 := by
  unfold translate at h
  split_ifs at h with hcr
  · rw [hcr]
    decide
  · exact h

theorem placed_of_reach (h : reach .start a = some (u, t)) : t.Placed u := by
  induction a using List.reverseRecOn generalizing u t with
  | nil =>
    cases h
    exact ⟨le_rfl, fun _ => rfl, fun _ h => (by cases h), fun _ h => (by cases h)⟩
  | append_singleton a b ih =>
    obtain ⟨u', t1, c, h1, h2, rfl⟩ := reach_snoc h
    obtain ⟨hpos, hstart, hmiddle, hascii⟩ := ih h1
    rcases Scan.step_cases h2 with ⟨rfl, -, rfl⟩ | ⟨seq, rfl, -, hv, rfl⟩
    · rw [Option.toList_none, List.append_nil]
      exact ⟨hpos, hstart, hmiddle, hascii⟩
    · have hlast : (u' ++ (some (translate b)).toList).getLast? = some (translate b) := by simp
      have hone : ∀ c ∈ (u' ++ (some (translate b)).toList).getLast?, c < 0x80 → seq = none := by
        intro c hc hlt
        rw [hlast] at hc
        cases hc
        exact (Validator.eq_none_of_ascii (lt_of_translate hlt) hv).2
      by_cases hlf : translate b = lf
      · refine ⟨?_, fun _ => ?_, fun c hc hne => ?_, hone⟩
        · simp [Loc.next, hlf]
        · simp [Loc.next, hlf]
        · rw [hlast] at hc
          cases hc
          exact absurd hlf hne
      · refine ⟨?_, fun hall => absurd (hall _ hlast) hlf, fun c _ _ hseq => ?_, hone⟩
        · simp only [Loc.next, if_neg hlf]
          split_ifs <;> omega
        · obtain rfl : seq = none := hseq
          simp only [Loc.next, if_neg hlf, Option.isNone_none, if_true]
          omega

theorem column_of_lineStart (h : (Source.of text).chars = u ++ s)
    (hu : ∀ c ∈ u.getLast?, c = lf) : ((Source.of text).loc s).column = 1 := by
  obtain ⟨a, r, t, rfl, hr, hset, rfl, -⟩ := exists_cut h
  rw [loc_of_reach hr hset]
  exact (placed_of_reach hr).start hu

end

end Build2.Libbutl.Manifest
