import Build2.Libbuild2.Depdbs.Skip

/-! # A list of lines

What the database is for: it keeps a list of lines that is read from the start and that is written
anew from some line on. A file keeps the longest list of lines that each end with a newline and are
each followed by another character; it is valid if this is the end marker. -/

namespace Build2.Libbuild2.Depdbs

open Build2.Lib.ByteString Build2.Lib.Files

/-! ### The abstract model -/

/-- The lines of a text that starts a line, and whether the end marker follows them. -/
def scan (line : Bytes) : Bytes → List Bytes × Bool
  | [] => ([], false)
  | c :: s =>
    if c = nl then
      if s = [] then ([], false)
      else if s.head? = some marker then ([line], true)
      else (line :: (scan [] s).1, (scan [] s).2)
    else scan (line ++ [c]) s

/-- The lines after the version, `none` for a file that is not of this version. -/
def stored (f : Bytes) : Option (List Bytes × Bool) :=
  match scan [] f with
  | (l :: ls, valid) => if l = version then some (ls, valid) else none
  | ([], _) => none

/-- The database while lines are read: those before the last one returned, that one unless there was
no next one, those still to be read, and whether the end marker follows. -/
structure Reading where
  before : List Bytes
  last : Option Bytes
  rest : List Bytes
  valid : Bool

/-- The lines read so far. -/
def Reading.lines (r : Reading) : List Bytes := r.before ++ r.last.toList

/-- The list of lines while it is read and while it is written, with a line that has not ended. -/
inductive Model
  | reading (r : Reading)
  | writing (lines : List Bytes) (line : Bytes)

namespace Model

/-- Opening a file, or creating it. -/
def openModel (f : Option Bytes) : Model :=
  match f.bind stored with
  | some (ls, valid) => .reading ⟨[], none, ls, valid⟩
  | none => .writing [] []

/-- The next line. -/
def read : Model → Model × Option Bytes
  | .reading ⟨before, last, l :: rest, valid⟩ =>
    (.reading ⟨before ++ last.toList, some l, rest, valid⟩, some l)
  | .reading ⟨before, last, [], true⟩ => (.reading ⟨before ++ last.toList, none, [], true⟩, none)
  | .reading ⟨before, last, [], false⟩ => (.writing (before ++ last.toList) [], none)
  | .writing lines line => (.writing lines line, none)

/-- From here on the lines are written: the last one returned and those not read are dropped. -/
def overwrite : Model → Model
  | .reading r => .writing r.before []
  | .writing lines line => .writing lines line

/-- A line or a part of a line. -/
def write (m : Model) (s : Bytes) (newline : Bool) : Model :=
  match m.overwrite with
  | .writing lines line =>
    if newline then .writing (lines ++ [line ++ s]) [] else .writing lines (line ++ s)
  | m => m

/-- The next line is to be this one. -/
def expect (m : Model) (v : Bytes) : Model × Option Bytes :=
  if m.read.2 = some v then (m.read.1, none) else (m.read.1.write v true, m.read.2)

/-- An operation with its result. -/
def apply (m : Model) : Op → Model × Option Bytes
  | .read => m.read
  | .expect v => m.expect v
  | .write s newline => (m.write s newline, none)
  | .overwrite => (m.overwrite, none)

/-- A sequence of operations with their results. -/
def run (m : Model) : List Op → Model × List (Option Bytes)
  | [] => (m, [])
  | op :: ops => ((run (m.apply op).1 ops).1, (m.apply op).2 :: (run (m.apply op).1 ops).2)

/-- The lines that are kept: those read and not overwritten, and those written. -/
def lines : Model → List Bytes
  | .reading r => r.lines
  | .writing lines _ => lines

/-- No line has been left without its newline. -/
def complete : Model → Bool
  | .reading _ => true
  | .writing _ line => line = []

end Model

/-! ### Texts -/

/-- The text of lines. -/
def text (ls : List Bytes) : Bytes := ls.flatMap (· ++ [nl])

@[simp] theorem text_nil : text [] = [] := rfl

@[simp] theorem text_cons (l : Bytes) (ls : List Bytes) : text (l :: ls) = l ++ nl :: text ls := by
  simp [text]

@[simp] theorem text_append (ls ls' : List Bytes) : text (ls ++ ls') = text ls ++ text ls' := by
  simp [text]

/-- A line that a file can keep: it has no newline and is not taken for the end marker. -/
structure Storable (l : Bytes) : Prop where
  nl : nl ∉ l
  marker : l.head? ≠ some marker

theorem scan_line {l : Bytes} (h : nl ∉ l) (line s : Bytes) :
    scan line (l ++ nl :: s) = scan (line ++ l) (nl :: s) := by
  induction l generalizing line with
  | nil => simp
  | cons c l ih =>
    rw [List.mem_cons, not_or] at h
    rw [List.cons_append, scan, if_neg (Ne.symm h.1), ih h.2, List.append_assoc]
    rfl

theorem scan_of_notMem {s : Bytes} (h : nl ∉ s) (line : Bytes) : scan line s = ([], false) := by
  induction s generalizing line with
  | nil => rfl
  | cons c s ih =>
    rw [List.mem_cons, not_or] at h
    rw [scan, if_neg (Ne.symm h.1), ih h.2]

theorem head_text {ls : List Bytes} (h : ∀ l ∈ ls, Storable l) {s : Bytes}
    (hs : s.head? ≠ some marker) : (text ls ++ s).head? ≠ some marker := by
  cases ls with
  | nil => exact hs
  | cons l ls =>
    have hl := (h l List.mem_cons_self).marker
    cases l with
    | nil => simp [nl, marker]
    | cons b l => simpa using hl

theorem text_append_ne_nil {ls : List Bytes} {s : Bytes} (h : s ≠ []) : text ls ++ s ≠ [] :=
  fun he => h (List.append_eq_nil_iff.mp he).2

theorem scan_text {ls : List Bytes} (h : ∀ l ∈ ls, Storable l) {s : Bytes} (hne : s ≠ [])
    (hs : s.head? ≠ some marker) :
    scan [] (text ls ++ s) = (ls ++ (scan [] s).1, (scan [] s).2) := by
  induction ls with
  | nil => rfl
  | cons l ls ih =>
    have hls := fun k hk => h k (List.mem_cons_of_mem _ hk)
    rw [text_cons, List.append_assoc, List.cons_append, scan_line (h l List.mem_cons_self).nl, scan,
      if_pos rfl, if_neg (text_append_ne_nil hne), if_neg (head_text hls hs), ih hls]
    simp

theorem scan_text_marker {ls : List Bytes} (h : ∀ l ∈ ls, Storable l) (hne : ls ≠ []) (s : Bytes) :
    scan [] (text ls ++ marker :: s) = (ls, true) := by
  obtain ⟨ls, l, rfl⟩ := (List.eq_nil_or_concat ls).resolve_left hne
  rw [List.concat_eq_append] at h ⊢
  have hls := fun k hk => h k (List.mem_append_left _ hk)
  have hl := h l (by simp)
  have ht : text (ls ++ [l]) ++ marker :: s = text ls ++ (l ++ nl :: marker :: s) := by simp
  have hhead : (l ++ nl :: marker :: s).head? ≠ some marker := by
    have hm := hl.marker
    cases l with
    | nil => simp [nl, marker]
    | cons b l => simpa using hm
  have hscan : scan [] (l ++ nl :: marker :: s) = ([l], true) := by
    rw [scan_line hl.nl]
    simp [scan]
  have hsc := scan_text hls (List.append_ne_nil_of_right_ne_nil l (List.cons_ne_nil _ _)) hhead
  rw [hscan] at hsc
  exact ht ▸ hsc

/-- Whatever part of a text there is keeps a first part of the lines. -/
theorem scan_prefix {ls : List Bytes} (h : ∀ l ∈ ls, Storable l) {s p : Bytes} (hs : nl ∉ s)
    (hp : p <+: text ls ++ s) : (scan [] p).1 <+: ls := by
  induction ls generalizing p with
  | nil =>
    have hnp : nl ∉ p := fun hm => hs (hp.subset hm)
    simp [scan_of_notMem hnp]
  | cons l ls ih =>
    have hl := (h l List.mem_cons_self).nl
    have hls := fun k hk => h k (List.mem_cons_of_mem _ hk)
    have ht : text (l :: ls) ++ s = l ++ [nl] ++ (text ls ++ s) := by simp
    rw [ht] at hp
    -- the part ends before the newline or goes on after it
    have hcases : p <+: l ∨ ∃ t, p = l ++ nl :: t ∧ t <+: text ls ++ s := by
      rcases List.prefix_or_prefix_of_prefix hp (List.prefix_append _ _) with hpl | ⟨t, rfl⟩
      · rcases List.prefix_concat_iff.mp hpl with rfl | hpl
        · exact .inr ⟨[], rfl, List.nil_prefix⟩
        · exact .inl hpl
      · exact .inr ⟨t, by simp, (List.prefix_append_right_inj _).mp hp⟩
    rcases hcases with hpl | ⟨t, rfl, ht⟩
    · rw [scan_of_notMem fun hm => hl (hpl.subset hm)]
      exact List.nil_prefix
    · rw [scan_line hl, List.nil_append, scan, if_pos rfl]
      split_ifs
      · exact List.nil_prefix
      · exact ⟨ls, rfl⟩
      · exact (List.cons_prefix_cons).mpr ⟨rfl, ih hls ht⟩

/-- What a text keeps if the last line has not ended or the end marker comes next. -/
theorem scan_closed {ls : List Bytes} (h : ∀ l ∈ ls, Storable l) {line : Bytes} (hnl : nl ∉ line)
    (hmarker : marker ∉ line) (hne : ls ≠ []) :
    scan [] (text ls ++ line ++ [marker]) = (ls, decide (line = [])) := by
  cases line with
  | nil => simpa using scan_text_marker h hne []
  | cons b line =>
    have hb : b ≠ marker := fun hb => hmarker (hb ▸ List.mem_cons_self)
    have hn : nl ∉ b :: line ++ [marker] := by
      rw [List.mem_append, not_or]
      exact ⟨hnl, by simp [nl, marker]⟩
    rw [List.append_assoc, scan_text h (by simp) (by simpa using hb), scan_of_notMem hn]
    simp

end Build2.Libbuild2.Depdbs
