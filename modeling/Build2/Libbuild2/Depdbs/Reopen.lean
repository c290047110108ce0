import Build2.Libbuild2.Depdbs.Refine

/-! # Closing and opening again

A sequence of operations from the opening of a file to its close behaves like the list of lines: in
its results, in the file that it leaves, and in the file that is left whenever it is stopped. The
one exception is a database that is overwritten before a line of it has been asked for, which loses
the version line. -/

namespace Build2.Libbuild2.Depdbs

open Build2.Lib.ByteString Build2.Lib.Files

variable {f : Bytes} {header : List Bytes} {db : Depdb} {r : Reading}

/-! ### Opening -/

/-- A file before anything has been read. -/
def unread (f : Bytes) : Depdb where
  state := .read
  input := f
  tell := 0
  pos := 0
  steps := []

theorem plain_singleton {c : UInt8} (h : c ≠ nl ∧ c ≠ marker) : ∀ b ∈ [c], b ≠ nl ∧ b ≠ marker :=
  List.forall_mem_singleton.mpr h

theorem plain_version : ∀ b ∈ version, b ≠ nl ∧ b ≠ marker := plain_singleton (by decide)

theorem openDb_some (f : Bytes) :
    openDb (some f) =
      if (read (unread f)).2 = some version then (read (unread f)).1
      else write (read (unread f)).1 version true := rfl

theorem writes_version {d : Depdb} (h : Writes f [] (overwrite d) [] []) :
    Writes f [version] (write d version true) [] [] := by
  have hw : Writes f [] (write (overwrite d) version true) [version] [] :=
    h.write ⟨version, plain_version⟩ true
  rw [write_overwrite] at hw
  exact ⟨hw.state, hw.steps, by simp, hw.line⟩

theorem openDb_cases (file : Option Bytes) :
    (∃ f ls valid, file = some f ∧ stored f = some (ls, valid) ∧
        Reads f (openDb file) ⟨[], none, ls, valid⟩ 0) ∨
      (file.bind stored = none ∧ Writes (file.getD []) [version] (openDb file) [] []) := by
  cases file with
  | none =>
    refine .inr ⟨rfl, writes_version (d := ⟨.write, [], 0, 0, []⟩)
      ⟨rfl, .inl ⟨rfl, rfl⟩, ?_, ?_⟩⟩ <;> simp
  | some f =>
    have hchange : ∀ d : Depdb, d.steps = [] → d.pos = 0 → Writes f [] (change d true) [] [] :=
      fun d hd hp => writes_change hd (by omega) (by simp [hp]) (by simp)
    have hcorrupt : (read (unread f)) = (change (unread f) true, none) →
        Writes f [version] (openDb (some f)) [] [] := fun he => by
      rw [openDb_some, he]
      refine writes_version (d := change (unread f) true) ?_
      rw [show overwrite (change (unread f) true) = change (unread f) true from rfl]
      exact hchange (unread f) rfl rfl
    cases hg : getline f with
    | none =>
      refine .inr ⟨?_, hcorrupt (by simp [read, readLine, unread, hg])⟩
      simp [stored, scan_of_notMem (notMem_of_getline hg)]
    | some g =>
      obtain ⟨line, t⟩ := g
      have hsl := scan_of_getline hg
      rw [scan, if_pos rfl] at hsl
      cases t with
      | nil =>
        refine .inr ⟨?_, hcorrupt (by simp [read, readLine, unread, hg])⟩
        simp [stored, hsl]
      | cons c t =>
        rw [if_neg (by simp)] at hsl
        have hread : read (unread f) = ({ unread f with
            state := if c = marker then .readEof else .read
            input := c :: t
            tell := line.length + 1 }, some line) := by
          simp [read, readLine, unread, hg]
        by_cases hv : line = version
        · subst hv
          left
          have hstored : ∃ ls valid, stored f = some (ls, valid) ∧
              (c = marker ∧ ls = [] ∧ valid = true ∨
                c ≠ marker ∧ scan [] (c :: t) = (ls, valid)) := by
            by_cases hc : c = marker
            · refine ⟨[], true, ?_, .inl ⟨hc, rfl, rfl⟩⟩
              simp [stored, hsl, hc]
            · refine ⟨(scan [] (c :: t)).1, (scan [] (c :: t)).2, ?_, .inr ⟨hc, rfl⟩⟩
              rw [stored, hsl, if_neg (by simpa using hc)]
              exact if_pos rfl
          obtain ⟨ls, valid, hst, hrest⟩ := hstored
          refine ⟨f, ls, valid, rfl, hst, ?_⟩
          rw [openDb_some, hread, if_pos rfl]
          refine ⟨rfl, ?_, by simp [Reading.lines], rfl, by simp [Reading.lines], ?_⟩
          · simpa [Reading.lines] using (getline_append hg).1
          · rcases hrest with ⟨hc, rfl, rfl⟩ | ⟨hc, hscan⟩
            · exact .inr ⟨by simp [hc], rfl, rfl, t, by rw [hc]⟩
            · exact .inl ⟨by simp [hc], hscan, c, t, rfl, hc⟩
        · right
          refine ⟨?_, ?_⟩
          · by_cases hc : c = marker <;> simp [stored, hsl, hc, hv]
          · rw [openDb_some, hread, if_neg (by simpa using hv)]
            refine writes_version ?_
            have hne : (if c = marker then State.readEof else .read) ≠ .write := by
              split_ifs <;> simp
            rw [overwrite, if_pos hne]
            exact hchange _ rfl rfl

/-! ### Closing -/

theorem Overwrites.after {steps : List Step} {content : Bytes} (h : Overwrites f steps content) :
    after f steps = content ∧
      ∀ k, Lib.Files.after f (steps.take k) = f ∨ Lib.Files.after f (steps.take k) <+: content := by
  rcases h with ⟨rfl, rfl⟩ | ⟨n, s, hn, rfl, rfl⟩
  · refine ⟨after_puts content, fun k => .inr ?_⟩
    rw [take_puts, after_puts]
    exact List.take_prefix _ _
  · exact ⟨after_truncate hn, after_take_truncate hn⟩

/-- The text that a closed file starts with, and what may be left of the file if it is stopped. -/
structure Closes (f : Bytes) (db : Depdb) (touch : Bool) (content : Bytes) : Prop where
  closed : ∃ s, after f (close db touch).steps = content ++ marker :: s
  stopped : ∀ k, after f ((close db touch).steps.take k) = f ∨
    after f ((close db touch).steps.take k) <+: content ++ [marker]

theorem Writes.closes {lines : List Bytes} {line : Bytes} (h : Writes f header db lines line)
    (touch : Bool) : Closes f db touch (text (header ++ lines) ++ line) ∧
      after f (close db touch).steps = text (header ++ lines) ++ line ++ [marker] := by
  have hc : (close db touch).steps = db.steps ++ puts [marker] := by
    rw [close, h.state]
    rfl
  obtain ⟨hafter, hstop⟩ := (h.steps.puts [marker]).after
  rw [← hc] at hafter hstop
  exact ⟨⟨⟨[], hafter⟩, hstop⟩, hafter⟩

theorem Reads.closes {pos : ℕ} (h : Reads f db r pos) (touch : Bool) :
    Closes f db touch (text (version :: r.lines)) := by
  obtain ⟨hle, htake⟩ := h.take_tell
  rcases h.rest with ⟨hstate, -⟩ | ⟨hstate, -, -, s, hin⟩
  · have hsteps : (close db touch).steps =
        .truncate db.tell :: .seek db.tell :: puts [marker] := by
      simp [close, hstate, change, h.steps, puts]
    rw [← htake]
    have hover : Overwrites f (close db touch).steps (f.take db.tell ++ [marker]) :=
      .inr ⟨_, _, hle, hsteps, rfl⟩
    exact ⟨⟨[], hover.after.1⟩, hover.after.2⟩
  · -- the file stays as it is
    have hf : f = text (version :: r.lines) ++ marker :: s := by
      rw [← hin]
      exact h.file
    have hsame : ∀ k, after f ((close db touch).steps.take k) = f := by
      intro k
      cases touch with
      | false =>
        rw [close, hstate]
        simp [h.steps]
      | true =>
        have hsteps : (close db true).steps = [.seek db.tell, .put marker] := by
          simp [close, hstate, change, h.steps]
        rw [hsteps, h.tell]
        rcases k with _ | _ | k
        · rfl
        · rfl
        · conv_lhs => rw [hf]
          conv_rhs => rw [hf]
          simpa using after_put_same (s := text (version :: r.lines)) (t := s) (b := marker)
    refine ⟨⟨s, ?_⟩, fun k => .inl (hsame k)⟩
    have hall := hsame (close db touch).steps.length
    rw [List.take_length] at hall
    rw [hall]
    exact hf

/-! ### Opening again -/

/-- The lines that reading a file returns. -/
def readAll (f : Bytes) : List Bytes :=
  (run (openDb (some f)) (List.replicate f.length .read)).2.filterMap id

theorem reads_reading (r : Reading) (n : ℕ) :
    ((Model.reading r).run (List.replicate n .read)).2.filterMap id = r.rest.take n := by
  induction n generalizing r with
  | zero => simp [Model.run]
  | succ n ih =>
    obtain ⟨before, last, rest, valid⟩ := r
    cases rest with
    | cons l rest =>
      have hn := ih ⟨before ++ last.toList, some l, rest, valid⟩
      simpa [List.replicate_succ, Model.run, Model.apply, Model.read] using hn
    | nil =>
      cases valid with
      | true =>
        have hn := ih ⟨before ++ last.toList, none, [], true⟩
        simpa [List.replicate_succ, Model.run, Model.apply, Model.read] using hn
      | false =>
        have hw : ∀ n lines,
            ((Model.writing lines []).run (List.replicate n .read)).2.filterMap id = [] := by
          intro n lines
          induction n with
          | zero => simp [Model.run]
          | succ n ih => simpa [List.replicate_succ, Model.run, Model.apply, Model.read] using ih
        simpa [List.replicate_succ, Model.run, Model.apply, Model.read] using hw n _

theorem length_scan (line s : Bytes) : (scan line s).1.length ≤ s.length := by
  induction s generalizing line with
  | nil => simp [scan]
  | cons c s ih =>
    rw [scan]
    have hs := ih []
    have hl := ih (line ++ [c])
    split_ifs <;> simp only [List.length_cons, List.length_nil] <;> omega

theorem length_stored {ls : List Bytes} {valid : Bool} (h : stored f = some (ls, valid)) :
    ls.length ≤ f.length ∧ scan [] f = (version :: ls, valid) := by
  have hlen := length_scan [] f
  rw [stored] at h
  cases hs : scan [] f with
  | mk all v =>
    rw [hs] at h hlen
    cases all with
    | nil => simp at h
    | cons l all =>
      dsimp only at h
      split_ifs at h with hl
      obtain ⟨rfl, rfl⟩ := Prod.mk.inj (Option.some.inj h)
      subst hl
      exact ⟨by simp only [List.length_cons] at hlen; omega, rfl⟩

theorem readAll_eq (f : Bytes) : readAll f = ((stored f).map (·.1)).getD [] := by
  rcases openDb_cases (some f) with ⟨_, ls, valid, hf, hst, hr⟩ | ⟨hst, hw⟩
  · obtain rfl := Option.some.inj hf
    obtain ⟨hlen, -⟩ := length_stored hst
    have hres : (run (openDb (some f)) (List.replicate f.length .read)).2 =
        ((Model.reading ⟨[], none, ls, valid⟩).run (List.replicate f.length .read)).2 := by
      cases f.length with
      | zero => rfl
      | succ n =>
        obtain ⟨href, hres⟩ := hr.read
        have hrun := (href.run (List.replicate n .read)).2
        simp only [List.replicate_succ, run, Model.run, Op.apply, Model.apply, hres, hrun]
    rw [readAll, hres, reads_reading, hst]
    exact List.take_of_length_le hlen
  · have hst' : stored f = none := hst
    have hrun := (Refines.run (m := .writing [] []) hw (List.replicate f.length .read)).2
    rw [readAll, hrun, hst']
    have hnone : ∀ n, ((Model.writing [] []).run (List.replicate n .read)).2.filterMap id = [] :=
      fun n => by
        induction n with
        | zero => simp [Model.run]
        | succ n ih => simpa [List.replicate_succ, Model.run, Model.apply, Model.read] using ih
    exact hnone _

/-! ### Behaviour -/

/-- The operations on a file or on a new one, closed in the end. -/
def session (file : Option Bytes) (ops : List Op) (touch : Bool) : Depdb :=
  close (run (openDb file) ops).1 touch

/-- The same on the list of lines. -/
def lines (file : Option Bytes) (ops : List Op) : Model := ((Model.openModel file).run ops).1

/-- The database behaves like the list of lines: the results of the operations are the same, the
closed file holds the lines that are kept, reading it again returns them in order, and a file that
is left when the process stops is the old one or returns a first part of these lines. -/
structure Behaves (file : Option Bytes) (ops : List Op) (touch : Bool) : Prop where
  results : (run (openDb file) ops).2 = ((Model.openModel file).run ops).2
  closed : stored (after (file.getD []) (session file ops touch).steps) =
    some ((lines file ops).lines, (lines file ops).complete)
  reopened : readAll (after (file.getD []) (session file ops touch).steps) = (lines file ops).lines
  stopped : ∀ k, after (file.getD []) ((session file ops touch).steps.take k) = file.getD [] ∨
    readAll (after (file.getD []) ((session file ops touch).steps.take k)) <+:
      (lines file ops).lines

/-- The first operation writes. -/
def WritesFirst : List Op → Prop
  | .write _ _ :: _ => True
  | .overwrite :: _ => True
  | _ => False

theorem storable_version {ls : List Bytes} (h : ∀ l ∈ ls, Storable l) :
    ∀ l ∈ version :: ls, Storable l := fun l hl => by
  rcases List.mem_cons.mp hl with rfl | hl
  · exact storable_of_plain plain_version
  · exact h l hl

/-- What the text of a closed file and of its parts holds. -/
theorem Closes.behaves {file : Option Bytes} {ops : List Op} {touch : Bool} (line : Bytes)
    (hres : (run (openDb file) ops).2 = ((Model.openModel file).run ops).2)
    (hc : Closes (file.getD []) (run (openDb file) ops).1 touch
      (text (version :: (lines file ops).lines) ++ line))
    (hstored : stored (after (file.getD []) (session file ops touch).steps) =
      some ((lines file ops).lines, (lines file ops).complete))
    (hs : ∀ l ∈ (lines file ops).lines, Storable l) (hline : nl ∉ line) :
    Behaves file ops touch where
  results := hres
  closed := hstored
  reopened := by rw [readAll_eq, hstored]; rfl
  stopped k := by
    refine (hc.stopped k).imp id fun hp => ?_
    rw [List.append_assoc] at hp
    have hnl : nl ∉ line ++ [marker] := by
      rw [List.mem_append, not_or]
      exact ⟨hline, by simp [nl, marker]⟩
    have hpre := scan_prefix (storable_version hs) hnl hp
    rw [readAll_eq]
    cases hst : stored (after (file.getD []) ((session file ops touch).steps.take k)) with
    | none => exact List.nil_prefix
    | some p =>
      obtain ⟨ls, valid⟩ := p
      have hscan := (length_stored hst).2
      rw [session] at hscan
      rw [hscan] at hpre
      exact (List.cons_prefix_cons.mp hpre).2

theorem behaves_of_reads {file : Option Bytes} {ops : List Op} {pos : ℕ}
    (hres : (run (openDb file) ops).2 = ((Model.openModel file).run ops).2)
    (hm : lines file ops = .reading r) (h : Reads (file.getD []) (run (openDb file) ops).1 r pos)
    (touch : Bool) : Behaves file ops touch := by
  have hc := h.closes touch
  obtain ⟨s, hs⟩ := hc.closed
  refine Closes.behaves [] hres ?_ ?_ ?_ List.not_mem_nil
  · rw [hm, List.append_nil]
    exact hc
  · have hscan := scan_text_marker (storable_version h.storable) (by simp) s
    rw [session, hs, hm, stored, hscan]
    exact if_pos rfl
  · rw [hm]
    exact h.storable

theorem behaves_of_refines {file : Option Bytes} {ops : List Op} {touch : Bool}
    (hres : (run (openDb file) ops).2 = ((Model.openModel file).run ops).2)
    (h : Refines (file.getD []) [version] (run (openDb file) ops).1 (lines file ops)) :
    Behaves file ops touch := by
  cases hm : lines file ops with
  | reading r =>
    rw [hm] at h
    obtain ⟨-, h⟩ := h
    exact behaves_of_reads hres hm h touch
  | writing ls line =>
    rw [hm] at h
    obtain ⟨hc, hafter⟩ := Writes.closes h touch
    have hn : nl ∉ line := fun hb => (h.line _ hb).1 rfl
    refine Closes.behaves line hres (by rw [hm]; exact hc) ?_ ?_ hn
    · have hscan := scan_closed (storable_version h.storable) hn (fun hb => (h.line _ hb).2 rfl)
        (by simp)
      rw [session, hafter, hm, stored, List.singleton_append, hscan]
      exact if_pos rfl
    · rw [hm]
      exact h.storable

/-- Without the version line the lines are lost. -/
theorem not_behaves {file : Option Bytes} {ops : List Op} {touch : Bool} {ls : List Bytes}
    {line : Bytes} (hm : lines file ops = .writing ls line)
    (h : Writes (file.getD []) [] (run (openDb file) ops).1 ls line) : ¬Behaves file ops touch := by
  intro hb
  have hclosed := hb.closed
  obtain ⟨-, hafter⟩ := h.closes touch
  have hn : nl ∉ line := fun hb => (h.line _ hb).1 rfl
  rw [session, hafter, hm, stored, List.nil_append] at hclosed
  cases ls with
  | nil =>
    have hnm : nl ∉ text [] ++ line ++ [marker] := by
      simpa [nl, marker] using hn
    rw [scan_of_notMem hnm] at hclosed
    simp at hclosed
  | cons l ls =>
    rw [scan_closed h.storable hn (fun hb => (h.line _ hb).2 rfl) (by simp)] at hclosed
    dsimp only at hclosed
    split_ifs at hclosed
    have hlen := congrArg (fun p => p.1.length) (Option.some.inj hclosed)
    simp [Model.lines] at hlen

/-- The database behaves like the list of lines, unless a file that is valid so far as its version
line is written to before a line has been asked for. -/
theorem behaves_iff (file : Option Bytes) (ops : List Op) (touch : Bool) :
    Behaves file ops touch ↔ ¬((file.bind stored).isSome ∧ WritesFirst ops) := by
  rcases openDb_cases file with ⟨f, ls, valid, rfl, hst, hr⟩ | ⟨hst, hw⟩
  · have hmodel : Model.openModel (some f) = .reading ⟨[], none, ls, valid⟩ := by
      simp [Model.openModel, hst]
    have hsome : ((some f).bind stored).isSome = true := by simp [hst]
    rw [and_iff_right hsome]
    have hover : Writes f [] (overwrite (openDb (some f))) [] [] :=
      hr.overwrite rfl (Nat.zero_le _)
    cases ops with
    | nil =>
      have hm : lines (some f) [] = .reading ⟨[], none, ls, valid⟩ := hmodel
      have hr' : Reads ((some f).getD []) (run (openDb (some f)) []).1 ⟨[], none, ls, valid⟩ 0 := hr
      exact iff_of_true (behaves_of_reads rfl hm hr' touch) id
    | cons op ops =>
      have hfirst : ∀ hdr, Refines f hdr (op.apply (openDb (some f))).1
          ((Model.openModel (some f)).apply op).1 →
          Refines f hdr (run (openDb (some f)) (op :: ops)).1 (lines (some f) (op :: ops)) ∧
            (run (openDb (some f)) (op :: ops)).2 =
              (op.apply (openDb (some f))).2 ::
                (((Model.openModel (some f)).apply op).1.run ops).2 :=
        fun hdr h => ⟨(h.run ops).1, congrArg (_ :: ·) (h.run ops).2⟩
      have hgood : Refines f [version] (op.apply (openDb (some f))).1
            ((Model.openModel (some f)).apply op).1 ∧
          (op.apply (openDb (some f))).2 = ((Model.openModel (some f)).apply op).2 →
          Behaves (some f) (op :: ops) touch := by
        rintro ⟨href, hres⟩
        obtain ⟨hrun, hruns⟩ := hfirst _ href
        refine behaves_of_refines ?_ hrun
        rw [hruns, hres]
        rfl
      have hbad : Refines f [] (op.apply (openDb (some f))).1
          ((Model.openModel (some f)).apply op).1 → ¬Behaves (some f) (op :: ops) touch := by
        intro href
        obtain ⟨hrun, -⟩ := hfirst _ href
        cases hm : lines (some f) (op :: ops) with
        | reading r =>
          rw [hm] at hrun
          exact absurd hrun.1 (by simp)
        | writing ls line =>
          rw [hm] at hrun
          exact not_behaves hm hrun
      have hread := hr.read
      rw [← hmodel] at hread
      cases op with
      | read => exact iff_of_true (hgood hread) id
      | expect v => exact iff_of_true (hgood (expect_refines hread v)) id
      | write s newline =>
        refine iff_of_false (hbad ?_) (not_not.mpr trivial)
        have hw := hover.write s newline
        rw [write_overwrite] at hw
        rw [hmodel]
        exact hw
      | overwrite =>
        refine iff_of_false (hbad ?_) (not_not.mpr trivial)
        rw [hmodel]
        exact hover
  · have hrun := Refines.run (m := .writing [] []) hw ops
    have hmodel : Model.openModel file = .writing [] [] := by simp [Model.openModel, hst]
    rw [← hmodel] at hrun
    exact iff_of_true (behaves_of_refines hrun.2 hrun.1) (by simp [hst])

/-- A valid file of one line that is written to without being read. -/
theorem not_behaves_writeFirst :
    ¬Behaves (some (text [version, [ch 'a']] ++ [marker]))
      [.write ⟨[ch 'b'], plain_singleton (by decide)⟩ true] false := by
  intro hb
  have hr := hb.reopened
  revert hr
  decide

end Build2.Libbuild2.Depdbs
