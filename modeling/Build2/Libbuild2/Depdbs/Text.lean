import Build2.Libbuild2.Depdbs.Refine

/-! # The text of the database

What a user of the database reads and writes, byte by byte: the text in front of the line that comes
next (`Behind`), and the text of the file once it is written (`Written`). No line is asked to be
free of newlines and end markers. -/

namespace Build2.Libbuild2.Depdbs

open Build2.Lib.ByteString Build2.Lib.Files

/-- The database while it is read, behind the text `done`. A line has been read. -/
structure Behind (f : Bytes) (db : Depdb) (done : Bytes) : Prop where
  state : db.state = if db.input.head? = some marker then .readEof else .read
  steps : db.steps = []
  file : f = done ++ db.input
  tell : db.tell = done.length

/-- The database while it is written, with the text that the file has. -/
structure Written (f : Bytes) (db : Depdb) (content : Bytes) : Prop where
  state : db.state = .write
  steps : Overwrites f db.steps content

variable {f done content : Bytes} {db : Depdb}

/-! ### Writing -/

theorem Written.write (h : Written f db content) (s : Bytes) :
    Written f (write db s true) (content ++ (s ++ [nl])) := by
  have hover : overwrite db = db := by simp [overwrite, h.state]
  unfold Depdbs.write
  rw [hover]
  refine ⟨h.state, ?_⟩
  have hsteps := h.steps.puts (s ++ [nl])
  rw [puts_append, ← List.append_assoc] at hsteps
  exact hsteps

theorem Written.close (h : Written f db content) :
    after f (close db false).steps = content ++ [marker] := by
  have hc : (Depdbs.close db false).steps = db.steps ++ puts [marker] := by
    rw [Depdbs.close, h.state]
    rfl
  rw [hc]
  rcases h.steps.puts [marker] with ⟨rfl, hsteps⟩ | ⟨n, s, hn, hsteps, hcontent⟩
  · rw [hsteps, after_puts]
  · rw [hsteps, after_truncate hn, hcontent]

theorem Written.overwrite (h : Written f db content) : Written f (overwrite db) content := by
  have hover : Depdbs.overwrite db = db := by simp [Depdbs.overwrite, h.state]
  rw [hover]
  exact h

theorem written_change (hsteps : db.steps = []) (hpos : db.pos ≤ f.length) :
    Written f (change db true) (f.take db.pos) := by
  refine ⟨rfl, .inr ⟨db.pos, [], hpos, ?_, (List.append_nil _).symm⟩⟩
  simp [change, hsteps, puts]

/-! ### Reading -/

theorem Behind.reading (h : Behind f db done) : db.state ≠ .write := by
  rw [h.state]
  split_ifs
  · nofun
  · nofun

theorem Behind.le (h : Behind f db done) : done.length ≤ f.length := by
  rw [h.file, List.length_append]
  omega

theorem Behind.take (h : Behind f db done) : f.take done.length = done := by
  rw [h.file, List.take_left]

theorem written_overwrite (hstate : db.state ≠ .write) (hsteps : db.steps = [])
    (hpos : db.pos = done.length) (hle : done.length ≤ f.length)
    (htake : f.take done.length = done) :
    Written f (overwrite db) done := by
  have hw := written_change (f := f) hsteps (hpos ▸ hle)
  rw [hpos, htake] at hw
  rw [overwrite, if_pos hstate]
  exact hw

theorem Behind.overwrite {line : Bytes} (h : Behind f db (done ++ line))
    (hpos : db.pos = done.length) : Written f (overwrite db) done := by
  have hfile := h.file
  rw [List.append_assoc] at hfile
  refine written_overwrite h.reading h.steps hpos ?_ ?_
  · rw [hfile, List.length_append]
    omega
  · rw [hfile, List.take_left]

/-- A line that is there is read; where there is none the database is written. -/
theorem readLine_cases (hstate : db.state = .read) (hsteps : db.steps = [])
    (hfile : f = done ++ db.input) (htell : db.tell = done.length) :
    (∃ line, (readLine db).2 = some line ∧ nl ∉ line ∧
      Behind f (readLine db).1 (done ++ (line ++ [nl])) ∧ (readLine db).1.pos = done.length) ∨
    ((readLine db).2 = none ∧ Written f (readLine db).1 done) := by
  have hle : done.length ≤ f.length := by
    rw [hfile, List.length_append]
    omega
  have htake : f.take done.length = done := by rw [hfile, List.take_left]
  have hcorrupt : Written f (change { db with pos := db.tell } true) done := by
    have hw : Written f (change { db with pos := db.tell } true) (f.take db.tell) :=
      written_change hsteps (htell ▸ hle)
    rwa [htell, htake, ← htell] at hw
  have hne : ¬ db.state = .readEof := by rw [hstate]; nofun
  unfold readLine
  dsimp only
  rw [if_neg hne]
  cases hg : getline db.input with
  | none => exact Or.inr ⟨rfl, hcorrupt⟩
  | some p =>
    obtain ⟨line, t⟩ := p
    obtain ⟨hin, hn⟩ := getline_append hg
    cases t with
    | nil => exact Or.inr ⟨rfl, hcorrupt⟩
    | cons c t =>
      refine Or.inl ⟨line, rfl, hn, ⟨?_, hsteps, ?_, ?_⟩, htell⟩
      · dsimp only
        rw [List.head?_cons, hstate]
        simp only [Option.some.injEq]
      · rw [hfile, hin]
        simp
      · dsimp only
        rw [htell, List.length_append, List.length_append, List.length_singleton]
        omega

theorem Behind.read (h : Behind f db done) :
    (∃ line, (read db).2 = some line ∧ nl ∉ line ∧ Behind f (read db).1 (done ++ (line ++ [nl])) ∧
      (read db).1.pos = done.length) ∨
    ((read db).2 = none ∧ Written f (Depdbs.overwrite (read db).1) done) := by
  have hread : Depdbs.read db = readLine db := if_neg h.reading
  rw [hread]
  by_cases heof : db.state = .readEof
  · have hline : readLine db = ({ db with pos := db.tell }, none) := by
      unfold readLine
      exact if_pos heof
    rw [hline]
    exact Or.inr ⟨rfl, written_overwrite h.reading h.steps h.tell h.le h.take⟩
  · have hstate : db.state = .read := by
      have := h.state
      split_ifs at this with hm
      · exact absurd this heof
      · exact this
    rcases readLine_cases hstate h.steps h.file h.tell with hline | ⟨hnone, hw⟩
    · exact Or.inl hline
    · exact Or.inr ⟨hnone, hw.overwrite⟩

/-- The database behind the text, or with it written. -/
def Has (f : Bytes) (db : Depdb) (content : Bytes) : Prop :=
  Behind f db content ∨ Written f db content

/-- **The line that is expected** comes next, whether it is read or written. -/
theorem Has.expect (h : Has f db content) (v : Bytes) :
    Has f (expect db v).1 (content ++ (v ++ [nl])) := by
  rcases h with h | h
  · unfold Depdbs.expect
    dsimp only
    rcases h.read with ⟨line, hl, -, hb, hpos⟩ | ⟨hnone, hw⟩
    · rw [hl]
      split_ifs with hv
      · obtain rfl := Option.some.inj hv
        exact Or.inl hb
      · have hw := (hb.overwrite hpos).write v
        rw [write_overwrite] at hw
        exact Or.inr hw
    · rw [hnone, if_neg (by nofun)]
      have hw := hw.write v
      rw [write_overwrite] at hw
      exact Or.inr hw
  · have hread : read db = (db, none) := if_pos h.state
    unfold Depdbs.expect
    rw [hread]
    exact Or.inr (h.write v)

theorem Has.overwrite (h : Has f db content) :
    Written f (Depdbs.overwrite (if db.state = .write then db else (read db).1)) content := by
  rcases h with h | h
  · rw [if_neg h.reading]
    rcases h.read with ⟨line, -, -, hb, hpos⟩ | ⟨-, hw⟩
    · exact hb.overwrite hpos
    · exact hw
  · rw [if_pos h.state]
    exact h.overwrite

end Build2.Libbuild2.Depdbs
