import Build2.Libbuild2.Depdbs.Lines

/-! # The database refines the list of lines

While lines are read, the file is the text of the lines read so far and what is left to be read.
Once lines are written, what has been done to the file makes it the text of the lines that are kept.
The position of the line that is overwritten is that of the last line returned, except that it is
the version line until the first line is asked for. -/

namespace Build2.Libbuild2.Depdbs

open Build2.Lib.ByteString Build2.Lib.Files

/-! ### The relation -/

/-- The database while it is read, with the line at `pos` in the place of the one returned last. -/
structure Reads (f : Bytes) (db : Depdb) (r : Reading) (pos : ℕ) : Prop where
  steps : db.steps = []
  file : f = text (version :: r.lines) ++ db.input
  tell : db.tell = (text (version :: r.lines)).length
  pos : db.pos = pos
  storable : ∀ l ∈ r.lines, Storable l
  rest : (db.state = .read ∧ scan [] db.input = (r.rest, r.valid) ∧
      ∃ c s, db.input = c :: s ∧ c ≠ marker) ∨
    (db.state = .readEof ∧ r.rest = [] ∧ r.valid = true ∧ ∃ s, db.input = marker :: s)

/-- What has been done to a file to overwrite it from some position on. -/
def Overwrites (f : Bytes) (steps : List Step) (content : Bytes) : Prop :=
  (f = [] ∧ steps = puts content) ∨
    ∃ n s, n ≤ f.length ∧ steps = .truncate n :: .seek n :: puts s ∧ content = f.take n ++ s

/-- The database while it is written, after the lines of the header. -/
structure Writes (f : Bytes) (header : List Bytes) (db : Depdb) (lines : List Bytes)
    (line : Bytes) : Prop where
  state : db.state = .write
  steps : Overwrites f db.steps (text (header ++ lines) ++ line)
  storable : ∀ l ∈ lines, Storable l
  line : ∀ b ∈ line, b ≠ nl ∧ b ≠ marker

/-- The position of the line that a write drops. -/
def Reading.start (r : Reading) : ℕ := (text (version :: r.before)).length

/-- The database with a file and the list of lines. -/
def Refines (f : Bytes) (header : List Bytes) (db : Depdb) : Model → Prop
  | .reading r => header = [version] ∧ Reads f db r r.start
  | .writing lines line => Writes f header db lines line

variable {f : Bytes} {header : List Bytes} {db : Depdb} {m : Model} {r : Reading}

/-! ### Writing -/

theorem Overwrites.puts {steps : List Step} {content : Bytes} (h : Overwrites f steps content)
    (s : Bytes) : Overwrites f (steps ++ puts s) (content ++ s) := by
  rcases h with ⟨rfl, rfl⟩ | ⟨n, t, hn, rfl, rfl⟩
  · exact .inl ⟨rfl, (puts_append _ _).symm⟩
  · exact .inr ⟨n, t ++ s, hn, by simp [puts_append], by simp⟩

theorem overwrite_state (db : Depdb) : (overwrite db).state = .write := by
  rw [overwrite]
  split_ifs with h
  · rfl
  · exact not_not.mp h

theorem write_overwrite (db : Depdb) (s : Bytes) (newline : Bool) :
    write (overwrite db) s newline = write db s newline := by
  have hidem : overwrite (overwrite db) = overwrite db := if_neg (not_not.mpr (overwrite_state db))
  rw [write, write, hidem]

theorem Model.write_overwrite (m : Model) (s : Bytes) (newline : Bool) :
    m.overwrite.write s newline = m.write s newline := by
  cases m <;> rfl

theorem writes_change {lines : List Bytes} (hsteps : db.steps = []) (hpos : db.pos ≤ f.length)
    (htake : f.take db.pos = text (header ++ lines)) (hs : ∀ l ∈ lines, Storable l) :
    Writes f header (change db true) lines [] where
  state := rfl
  steps := by
    refine .inr ⟨db.pos, [], hpos, ?_, by rw [htake]⟩
    simp [change, hsteps, Lib.Files.puts]
  storable := hs
  line := by simp

theorem storable_of_plain {l : Bytes} (h : ∀ b ∈ l, b ≠ nl ∧ b ≠ marker) : Storable l where
  nl hm := (h _ hm).1 rfl
  marker hm := (h _ (List.mem_of_mem_head? hm)).2 rfl

theorem Writes.write {lines : List Bytes} {line : Bytes} (h : Writes f header db lines line)
    (s : Text) (newline : Bool) :
    Refines f header (write db s newline) ((Model.writing lines line).write s newline) := by
  have hover : overwrite db = db := by simp [overwrite, h.state]
  have hline : ∀ b ∈ line ++ s.1, b ≠ nl ∧ b ≠ marker := fun b hb =>
    (List.mem_append.mp hb).elim (h.line b) (s.2 b)
  cases newline
  · refine ⟨?_, ?_, h.storable, hline⟩
    · simp [Depdbs.write, hover, h.state]
    · have hput := h.steps.puts s
      simpa [Depdbs.write, hover] using hput
  · refine ⟨?_, ?_, fun l hl => ?_, by simp⟩
    · simp [Depdbs.write, hover, h.state]
    · have hput := (h.steps.puts s).puts [nl]
      simpa [Depdbs.write, hover, Lib.Files.puts] using hput
    · rcases List.mem_append.mp hl with hl | hl
      · exact h.storable l hl
      · rw [List.mem_singleton.mp hl]
        exact storable_of_plain hline

/-! ### Reading -/

theorem notMem_of_getline {s : Bytes} (h : getline s = none) : nl ∉ s := by
  induction s with
  | nil => exact List.not_mem_nil
  | cons c s ih =>
    rw [getline] at h
    split_ifs at h with hc
    rw [List.mem_cons, not_or]
    exact ⟨Ne.symm hc, ih (Option.map_eq_none_iff.mp h)⟩

theorem scan_of_getline {s line t : Bytes} (h : getline s = some (line, t)) :
    scan [] s = scan line (nl :: t) := by
  obtain ⟨rfl, hn⟩ := getline_append h
  rw [scan_line hn, List.nil_append]

theorem Reads.take_tell {pos : ℕ} (h : Reads f db r pos) :
    db.tell ≤ f.length ∧ f.take db.tell = text (version :: r.lines) := by
  have hf := h.file
  have ht := h.tell
  constructor
  · rw [hf, ht, List.length_append]
    omega
  · rw [hf, ht, List.take_left]

/-- The next line, whatever line a write would have dropped. -/
theorem Reads.read {pos : ℕ} (h : Reads f db r pos) :
    Refines f [version] (read db).1 (Model.reading r).read.1 ∧
      (read db).2 = (Model.reading r).read.2 := by
  obtain ⟨hle, htake⟩ := h.take_tell
  obtain ⟨before, last, rest, valid⟩ := r
  rcases h.rest with ⟨hstate, hscan, c₀, s₀, hin, hc₀⟩ | ⟨hstate, rfl, rfl, hin⟩
  · have hread : Depdbs.read db = readLine db := by simp [Depdbs.read, hstate]
    rw [hread, readLine]
    simp only [hstate, reduceCtorEq, if_false]
    -- the rest of the file is corrupt
    have hcorrupt : (rest, valid) = ([], false) →
        Refines f [version] (change { db with pos := db.tell } true)
          (Model.reading ⟨before, last, rest, valid⟩).read.1 ∧
        (none : Option Bytes) = (Model.reading ⟨before, last, rest, valid⟩).read.2 := by
      intro he
      obtain ⟨rfl, rfl⟩ := Prod.mk.inj he
      exact ⟨writes_change h.steps hle htake h.storable, rfl⟩
    cases hg : getline db.input with
    | none =>
      refine hcorrupt ?_
      rw [← hscan, scan_of_notMem (notMem_of_getline hg)]
    | some g =>
      obtain ⟨line, t⟩ := g
      have hsl := scan_of_getline hg
      rw [hscan, scan, if_pos rfl] at hsl
      cases t with
      | nil => exact hcorrupt hsl
      | cons c t =>
        obtain ⟨happ, hnl⟩ := getline_append hg
        have hst : Storable line := by
          refine ⟨hnl, fun hm => ?_⟩
          cases line with
          | nil => simp at hm
          | cons b line =>
            rw [hin] at happ
            exact hc₀ ((List.cons.inj happ).1.trans (Option.some.inj hm))
        rw [if_neg (by simp)] at hsl
        -- the line is the next one of the rest
        obtain ⟨rest', rfl, hrest⟩ : ∃ rest', rest = line :: rest' ∧
            (c = marker ∧ rest' = [] ∧ valid = true ∨
              c ≠ marker ∧ scan [] (c :: t) = (rest', valid)) := by
          by_cases hc : c = marker
          · rw [if_pos (by rw [hc]; rfl)] at hsl
            obtain ⟨rfl, rfl⟩ := Prod.mk.inj hsl
            exact ⟨[], rfl, .inl ⟨hc, rfl, rfl⟩⟩
          · rw [if_neg (by simpa using hc)] at hsl
            obtain ⟨rfl, rfl⟩ := Prod.mk.inj hsl
            exact ⟨_, rfl, .inr ⟨hc, rfl⟩⟩
        have hlines : Reading.lines ⟨before ++ last.toList, some line, rest', valid⟩ =
            Reading.lines ⟨before, last, line :: rest', valid⟩ ++ [line] := by
          simp [Reading.lines]
        refine ⟨⟨rfl, ⟨h.steps, ?_, ?_, h.tell, ?_, ?_⟩⟩, rfl⟩
        · have hf := h.file
          rw [happ] at hf
          rw [hlines, hf]
          simp
        · rw [hlines, ← List.cons_append, text_append, List.length_append, ← h.tell]
          simp [Nat.add_assoc]
        · intro l hl
          rw [hlines] at hl
          rcases List.mem_append.mp hl with hl | hl
          · exact h.storable l hl
          · rwa [List.mem_singleton.mp hl]
        · rcases hrest with ⟨hc, rfl, rfl⟩ | ⟨hc, hscan'⟩
          · exact .inr ⟨by simp [hc], rfl, rfl, t, by rw [hc]⟩
          · exact .inl ⟨by simp [hc], hscan', c, t, rfl, hc⟩
  · have hread : Depdbs.read db = ({ db with pos := db.tell }, none) := by
      simp [Depdbs.read, readLine, hstate]
    rw [hread]
    have hlines : Reading.lines ⟨before ++ last.toList, none, [], true⟩ =
        Reading.lines ⟨before, last, [], true⟩ := by simp [Reading.lines]
    refine ⟨⟨rfl, ⟨h.steps, ?_, ?_, h.tell, ?_, .inr ⟨hstate, rfl, rfl, hin⟩⟩⟩, rfl⟩
    · rw [hlines]
      exact h.file
    · rw [hlines]
      exact h.tell
    · rw [hlines]
      exact h.storable

/-! ### Operations -/

theorem Reads.overwrite {pos : ℕ} (h : Reads f db r pos)
    (hpos : f.take pos = text (header ++ r.before)) (hle : pos ≤ f.length) :
    Writes f header (overwrite db) r.before [] := by
  have hstate : db.state ≠ .write := by
    rcases h.rest with ⟨hs, -⟩ | ⟨hs, -⟩ <;> simp [hs]
  have hpos' := h.pos
  subst hpos'
  rw [Depdbs.overwrite, if_pos hstate]
  exact writes_change h.steps hle hpos fun l hl => h.storable l (List.mem_append_left _ hl)

theorem Refines.overwrite (h : Refines f header db m) :
    Refines f header (overwrite db) m.overwrite := by
  cases m with
  | reading r =>
    obtain ⟨rfl, h⟩ := h
    have hf : f = text (version :: r.before) ++ (text r.last.toList ++ db.input) := by
      have hf := h.file
      rw [Reading.lines, ← List.cons_append, text_append, List.append_assoc] at hf
      exact hf
    refine h.overwrite ?_ ?_
    · rw [hf, Reading.start, List.take_left]
      rfl
    · rw [hf, Reading.start, List.length_append]
      omega
  | writing lines line =>
    have hs : db.state = .write := h.state
    rw [Depdbs.overwrite, if_neg (not_not.mpr hs)]
    exact h

theorem Refines.write (h : Refines f header db m) (s : Text) (newline : Bool) :
    Refines f header (write db s newline) (m.write s newline) := by
  have hover := h.overwrite
  obtain ⟨lines, line, hm⟩ : ∃ lines line, m.overwrite = .writing lines line := by
    cases m <;> exact ⟨_, _, rfl⟩
  rw [← write_overwrite, ← Model.write_overwrite, hm]
  rw [hm] at hover
  exact Writes.write hover s newline

theorem Refines.read (h : Refines f header db m) :
    Refines f header (read db).1 m.read.1 ∧ (read db).2 = m.read.2 := by
  cases m with
  | reading r =>
    obtain ⟨rfl, h⟩ := h
    exact h.read
  | writing lines line =>
    have hs : db.state = .write := h.state
    simpa [Depdbs.read, hs, Model.read] using h

theorem expect_refines (h : Refines f header (read db).1 m.read.1 ∧ (read db).2 = m.read.2)
    (v : Text) :
    Refines f header (expect db v).1 (m.expect v).1 ∧ (expect db v).2 = (m.expect v).2 := by
  obtain ⟨href, hres⟩ := h
  simp only [Depdbs.expect, Model.expect, hres]
  split_ifs
  · exact ⟨href, rfl⟩
  · exact ⟨href.write v true, rfl⟩

theorem Refines.apply (h : Refines f header db m) (op : Op) :
    Refines f header (op.apply db).1 (m.apply op).1 ∧ (op.apply db).2 = (m.apply op).2 := by
  cases op with
  | read => exact h.read
  | expect v => exact expect_refines h.read v
  | write s newline => exact ⟨h.write s newline, rfl⟩
  | overwrite => exact ⟨h.overwrite, rfl⟩

theorem Refines.run (h : Refines f header db m) (ops : List Op) :
    Refines f header (run db ops).1 (m.run ops).1 ∧ (run db ops).2 = (m.run ops).2 := by
  induction ops generalizing db m with
  | nil => exact ⟨h, rfl⟩
  | cons op ops ih =>
    obtain ⟨href, hres⟩ := h.apply op
    obtain ⟨href', hres'⟩ := ih href
    refine ⟨href', ?_⟩
    simp only [Depdbs.run, Model.run, hres, hres']

end Build2.Libbuild2.Depdbs
