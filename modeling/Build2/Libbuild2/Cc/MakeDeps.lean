import Build2.Lib.ByteString

/-! # Make dependency declarations

How the header dependencies are read that a GCC-like compiler writes as a make dependency
declaration: the prerequisites with their escape sequences (`nextMake`), and the lines that the
declaration is folded into. The source file comes first. Headers that were processed before a
restart are skipped, and reading stops at the first header that asks for another one. -/

namespace Build2.Libbuild2.Cc.MakeDeps

open Build2.Lib.ByteString

/-! ### Prerequisites -/

def skipSpaces (l : Bytes) : Bytes := l.dropWhile fun c => c = ch ' '

/-- The loop of `next_make` that scans a prerequisite, and what is left of the line. -/
def scan : Bytes → Bytes × Bytes
  | [] => ([], [])
  | [c] => if c = ch ' ' then ([], [c]) else ([c], [])
  | c :: d :: l =>
    if c = ch ' ' then ([], c :: d :: l)
    -- An escaped character, or an escape character for itself.
    else if (c = ch '$' ∧ d = ch '$') ∨ (c = ch '\\' ∧ (d = ch '\\' ∨ d = ch ' ')) then
      (d :: (scan l).1, (scan l).2)
    else (c :: (scan (d :: l)).1, (scan (d :: l)).2)

/-- `next_make`: the next prerequisite and what follows it in the line. -/
def nextMake (l : Bytes) : Bytes × Bytes :=
  let x := scan (skipSpaces l)
  let l := skipSpaces x.2
  (x.1, if l = [ch '\\'] then [] else l)

theorem length_scan (l : Bytes) : (scan l).2.length ≤ l.length := by
  induction l using scan.induct with
  | case1 => exact Nat.le_refl _
  | case2 => exact Nat.le_refl _
  | case3 c hc =>
    rw [scan, if_neg hc]
    exact Nat.zero_le _
  | case4 d l => exact Nat.le_refl _
  | case5 c d l hc hesc ih =>
    rw [scan, if_neg hc, if_pos hesc]
    simp only [List.length_cons]
    omega
  | case6 c d l hc hesc ih =>
    rw [scan, if_neg hc, if_neg hesc]
    simp only [List.length_cons] at ih ⊢
    omega

theorem length_scan_lt {c : UInt8} {l : Bytes} (h : c ≠ ch ' ') :
    (scan (c :: l)).2.length < (c :: l).length := by
  cases l with
  | nil => rw [scan, if_neg h]; simp
  | cons d l =>
    rw [scan, if_neg h]
    have h1 := length_scan l
    have h2 := length_scan (d :: l)
    split_ifs
    · simp only [List.length_cons]
      omega
    · simp only [List.length_cons] at h2 ⊢
      omega

theorem length_skipSpaces (l : Bytes) : (skipSpaces l).length ≤ l.length :=
  (List.dropWhile_suffix _).length_le

theorem length_nextMake {l : Bytes} (h : l ≠ []) : (nextMake l).2.length < l.length := by
  have hscan : (scan (skipSpaces l)).2.length < l.length := by
    cases hs : skipSpaces l with
    | nil => exact List.length_pos_of_ne_nil h
    | cons c s =>
      have hc : c ≠ ch ' ' := by
        have hd := List.head?_dropWhile_not (fun c => decide (c = ch ' ')) l
        rw [← skipSpaces, hs] at hd
        simpa using hd
      have hlt := length_scan_lt (l := s) hc
      have hle := length_skipSpaces l
      rw [hs] at hle
      omega
  have hle := length_skipSpaces (scan (skipSpaces l)).2
  unfold nextMake
  dsimp only
  split_ifs
  · exact List.length_pos_of_ne_nil h
  · omega

/-! ### Lines -/

variable {σ : Type}

/-- The variables of the loop that reads the lines, with what `process` works on. -/
structure State (σ : Type) where
  first : Bool
  second : Bool
  skip : ℕ
  badError : Bool
  goodError : Bool
  restart : Bool
  update : Bool
  deferredFailure : Bool
  headers : σ

variable (process : Bytes → σ → σ × Option Bool)

/-- What is done with a header that is not skipped: `process` (the function `add`) tells whether to
restart, or that the failure is deferred. -/
def State.add (st : State σ) (f : Bytes) : State σ :=
  let x := process f st.headers
  let st := { st with headers := x.1 }
  match x.2 with
  | some true => { st with restart := true, goodError := true, update := true }
  | some false => { st with restart := false }
  | none => { st with update := true, deferredFailure := true }

/-- The loop over the prerequisites in the rest of a line. -/
def readHeaders (l : Bytes) (st : State σ) : State σ :=
  if _h : l ≠ [] then
    let x := nextMake l
    if st.skip ≠ 0 then readHeaders x.2 { st with skip := st.skip - 1 }
    else
      let st := st.add process x.1
      if st.restart || st.deferredFailure then st else readHeaders x.2 st
  else st
termination_by l.length
decreasing_by all_goals exact length_nextMake _h

/-- The case of a GCC-like compiler. -/
def readLine (l : Bytes) (st : State σ) : State σ :=
  if st.first then
    if ¬ str ['^', ':', ' '] <+: l then { st with badError := true }
    else
      let st := { st with first := false, second := true }
      if l.length = 4 ∧ l.getD 3 0 = ch '\\' then st
      else readHeaders process (nextMake (l.drop 3)).2 { st with second := false }
  else if st.second then readHeaders process (nextMake l).2 { st with second := false }
  else readHeaders process l st

/-- The loop over the lines. -/
def readLines : List Bytes → State σ → State σ
  | [], st => st
  | l :: ls, st =>
    if st.restart then st
    else
      let st := readLine process l st
      if st.badError || st.deferredFailure then st else readLines ls st

/-! ### Declarations -/

/-- How a file name can be written in a prerequisite. A backslash and a space are escaped by a
backslash and a dollar sign by a dollar sign. A backslash or dollar sign also stands for itself in
front of what does not make an escape sequence of the two. The escape sequence of a number sign is
left out: the code does not know it, and its backslash stays in the name. -/
inductive Escaped : Bytes → Bytes → Prop
  | nil : Escaped [] []
  | plain {c f t} : c ≠ ch ' ' → c ≠ ch '$' → c ≠ ch '\\' → Escaped f t → Escaped (c :: f) (c :: t)
  | backslash {c f t} : c = ch '\\' ∨ c = ch ' ' → Escaped f t →
      Escaped (c :: f) (ch '\\' :: c :: t)
  | dollar {f t} : Escaped f t → Escaped (ch '$' :: f) (ch '$' :: ch '$' :: t)
  | plainBackslash {c f t} : c ≠ ch '\\' → c ≠ ch ' ' → Escaped f (c :: t) →
      Escaped (ch '\\' :: f) (ch '\\' :: c :: t)
  | plainDollar {f t} : t.head? ≠ some (ch '$') → Escaped f t →
      Escaped (ch '$' :: f) (ch '$' :: t)

theorem Escaped.ne_nil {f t : Bytes} (h : Escaped f t) (hf : f ≠ []) : t ≠ [] := by
  rintro rfl
  cases h
  exact hf rfl

theorem exists_escaped (f : Bytes) : ∃ t, Escaped f t := by
  induction f with
  | nil => exact ⟨[], .nil⟩
  | cons c f ih =>
    obtain ⟨t, ht⟩ := ih
    by_cases hc : c = ch '\\' ∨ c = ch ' '
    · exact ⟨_, .backslash hc ht⟩
    by_cases hd : c = ch '$'
    · subst hd
      exact ⟨_, .dollar ht⟩
    · rw [not_or] at hc
      exact ⟨_, .plain hc.2 hd hc.1 ht⟩

def spaces (n : ℕ) : Bytes := List.replicate n (ch ' ')

/-- A file with how its name, which is not empty, is written. -/
structure File where
  name : Bytes
  text : Bytes
  ne_nil : name ≠ []
  escaped : Escaped name text

/-- A line of a declaration: the spaces in front of a prerequisite and the prerequisite, and the
spaces at the end. The prerequisites behind the first one have one more space in front of them. -/
structure Line where
  lead : ℕ
  head : File
  tail : List (ℕ × File)
  trail : ℕ

def Line.files (l : Line) : List Bytes := l.head.name :: l.tail.map fun w => w.2.name

/-- The prerequisites behind the first one and the end of the line. -/
def Line.tailText (last : Bool) (trail : ℕ) : List (ℕ × File) → Bytes
  | [] => if last then spaces trail else spaces (trail + 1) ++ [ch '\\']
  | w :: ws => spaces (w.1 + 1) ++ (w.2.text ++ tailText last trail ws)

/-- The text of a line. There is a backslash at its end unless it is the last one. -/
def Line.text (last : Bool) (l : Line) : Bytes :=
  spaces l.lead ++ (l.head.text ++ Line.tailText last l.trail l.tail)

def linesText : List Line → List Bytes
  | [] => []
  | l :: ls => l.text ls.isEmpty :: linesText ls

/-- A declaration. Its target is alone on a line if the source file is too long for this. -/
structure Declaration where
  alone : Bool
  first : Line
  others : List Line

def Declaration.text (d : Declaration) : List Bytes :=
  if d.alone then str ['^', ':', ' ', '\\'] :: linesText (d.first :: d.others)
  else (str ['^', ':', ' '] ++ d.first.text d.others.isEmpty) :: linesText d.others

/-- The headers: what follows the source file. -/
def Declaration.headers (d : Declaration) : List Bytes :=
  (d.first.tail.map fun w => w.2.name) ++ d.others.flatMap Line.files

/-- What is done with some headers, of which none is skipped. -/
def processAll : List Bytes → State σ → State σ
  | [], st => st
  | f :: fs, st =>
    let st := st.add process f
    if st.restart || st.deferredFailure then st else processAll fs st

/-- The variables before the first line, with the number of the headers to skip. -/
def State.start (skip : ℕ) (update : Bool) (headers : σ) : State σ where
  first := true
  second := false
  skip := skip
  badError := false
  goodError := false
  restart := false
  update := update
  deferredFailure := false
  headers := headers

/-! ### Reading a prerequisite -/

/-- A prerequisite ends at a space or with the line. -/
def Ends (l : Bytes) : Prop := ∀ c s, l = c :: s → c = ch ' '

theorem scan_ends {l : Bytes} (h : Ends l) : scan l = ([], l) := by
  rcases l with _ | ⟨c, _ | ⟨d, l⟩⟩
  · rfl
  · rw [scan, if_pos (h c [] rfl)]
  · rw [scan, if_pos (h c (d :: l) rfl)]

theorem scan_plain {c : UInt8} {l : Bytes} (hs : c ≠ ch ' ')
    (h : ∀ d s, l = d :: s →
      ¬ ((c = ch '$' ∧ d = ch '$') ∨ (c = ch '\\' ∧ (d = ch '\\' ∨ d = ch ' ')))) :
    scan (c :: l) = (c :: (scan l).1, (scan l).2) := by
  cases l with
  | nil =>
    refine (if_neg hs : scan [c] = ([c], [])).trans ?_
    rfl
  | cons d l => rw [scan, if_neg hs, if_neg (h d l rfl)]

/-- A file name is read back, however it is written. -/
theorem scan_escaped {f t : Bytes} (hf : Escaped f t) {l : Bytes} (h : Ends l) :
    scan (t ++ l) = (f, l) := by
  have hbs : ch '\\' ≠ ch ' ' := by decide
  have hds : ch '$' ≠ ch ' ' := by decide
  have hdb : ch '$' ≠ ch '\\' := by decide
  induction hf with
  | nil => exact scan_ends h
  | plain hs hd hb _ ih =>
    rw [List.cons_append, scan_plain hs, ih]
    rintro d s - (hc | hc)
    · exact hd hc.1
    · exact hb hc.1
  | backslash hc _ ih =>
    rw [List.cons_append, List.cons_append, scan, if_neg hbs, if_pos (Or.inr ⟨rfl, hc⟩), ih]
  | dollar _ ih =>
    rw [List.cons_append, List.cons_append, scan, if_neg hds, if_pos (Or.inl ⟨rfl, rfl⟩), ih]
  | plainBackslash hb hs _ ih =>
    rw [List.cons_append, scan_plain hbs, ih]
    rintro d s hl (hc | hc)
    · exact hdb hc.1.symm
    · obtain ⟨rfl, -⟩ := List.cons.inj hl
      exact hc.2.elim hb hs
  | @plainDollar f t hd _ ih =>
    rw [List.cons_append, scan_plain hds, ih]
    rintro d s hl (hc | hc)
    · -- What follows is in the name or, behind it, a space.
      cases t with
      | nil => exact hds (hc.2.symm.trans (h d s hl))
      | cons e t => exact hd (congrArg some ((List.cons.inj hl).1.trans hc.2))
    · exact hdb hc.1

/-- There is no space in front of the text of a file name, and it is not just a backslash. -/
theorem text_stops (f : File) (l : Bytes) :
    skipSpaces (f.text ++ l) = f.text ++ l ∧ f.text ++ l ≠ [ch '\\'] := by
  have hbs : ch '\\' ≠ ch ' ' := by decide
  have hds : ch '$' ≠ ch ' ' := by decide
  have hdb : ch '$' ≠ ch '\\' := by decide
  obtain ⟨f, t, hne, hf⟩ := f
  dsimp only
  cases hf with
  | nil => exact absurd rfl hne
  | plain hs hd hb _ => exact ⟨by simp [skipSpaces, hs], by simp [hb]⟩
  | backslash => exact ⟨by simp [skipSpaces, hbs], by simp⟩
  | dollar => exact ⟨by simp [skipSpaces, hds], by simp⟩
  | plainBackslash => exact ⟨by simp [skipSpaces, hbs], by simp⟩
  | plainDollar => exact ⟨by simp [skipSpaces, hds], by simp [hdb]⟩

theorem skipSpaces_spaces (n : ℕ) (l : Bytes) : skipSpaces (spaces n ++ l) = skipSpaces l := by
  induction n with
  | zero => rfl
  | succ n ih =>
    rw [spaces, List.replicate_succ, List.cons_append]
    simp only [skipSpaces, List.dropWhile_cons, decide_true, if_true]
    exact ih

/-! ### Reading a line -/

/-- What is left of a line behind a prerequisite. -/
def Line.rest (last : Bool) (trail : ℕ) : List (ℕ × File) → Bytes
  | [] => []
  | w :: ws => w.2.text ++ Line.tailText last trail ws

theorem ends_tailText (last : Bool) (trail : ℕ) (ws : List (ℕ × File)) :
    Ends (Line.tailText last trail ws) := by
  have hspaces : ∀ n l, Ends (spaces (n + 1) ++ l) := by
    intro n l c s h
    exact (List.cons.inj h).1.symm
  cases ws with
  | nil =>
    rw [Line.tailText]
    split_ifs
    · intro c s h
      have hc : c ∈ spaces trail := h ▸ List.mem_cons_self
      exact List.eq_of_mem_replicate hc
    · exact hspaces trail _
  | cons w ws => exact hspaces w.1 _

theorem nextMake_text (n : ℕ) (f : File) (last : Bool) (trail : ℕ) (ws : List (ℕ × File)) :
    nextMake (spaces n ++ (f.text ++ Line.tailText last trail ws)) =
      (f.name, Line.rest last trail ws) := by
  unfold nextMake
  dsimp only
  rw [skipSpaces_spaces, (text_stops f _).1, scan_escaped f.escaped (ends_tailText last trail ws)]
  cases ws with
  | nil =>
    rw [Line.tailText, Line.rest]
    cases last with
    | true =>
      have h := skipSpaces_spaces trail []
      rw [List.append_nil] at h
      rw [if_pos rfl, h]
      rfl
    | false =>
      rw [if_neg Bool.false_ne_true, skipSpaces_spaces]
      rfl
  | cons w ws =>
    rw [Line.tailText, Line.rest, skipSpaces_spaces, (text_stops w.2 _).1,
      if_neg (text_stops w.2 _).2]

theorem text_ne_nil (n : ℕ) (f : File) (l : Bytes) : spaces n ++ (f.text ++ l) ≠ [] := by
  intro h
  have hf : f.text ++ l = [] := (List.append_eq_nil_iff.1 h).2
  exact f.escaped.ne_nil f.ne_nil (List.append_eq_nil_iff.1 hf).1

/-- What is done with some headers, of which the first ones are skipped. -/
def passAll : List Bytes → State σ → State σ
  | [], st => st
  | f :: fs, st =>
    if st.skip ≠ 0 then passAll fs { st with skip := st.skip - 1 }
    else
      let st := st.add process f
      if st.restart || st.deferredFailure then st else passAll fs st

theorem readHeaders_line (last : Bool) (trail : ℕ) (n : ℕ) (f : File) (ws : List (ℕ × File))
    (st : State σ) :
    readHeaders process (spaces n ++ (f.text ++ Line.tailText last trail ws)) st =
      passAll process (f.name :: ws.map fun w => w.2.name) st := by
  induction ws generalizing n f st with
  | nil =>
    have hnil : ∀ st, readHeaders process (Line.rest last trail []) st = st := by
      intro st
      rw [readHeaders, Line.rest]
      rfl
    rw [readHeaders, dif_pos (text_ne_nil n f _), nextMake_text, passAll]
    dsimp only
    rw [hnil, hnil]
    rfl
  | cons w ws ih =>
    have hcons : ∀ st, readHeaders process (Line.rest last trail (w :: ws)) st =
        passAll process (w.2.name :: ws.map fun w => w.2.name) st := ih 0 w.2
    rw [readHeaders, dif_pos (text_ne_nil n f _), nextMake_text, List.map_cons, passAll]
    dsimp only
    rw [hcons, hcons]

theorem readHeaders_rest (last : Bool) (trail : ℕ) (ws : List (ℕ × File)) (st : State σ) :
    readHeaders process (Line.rest last trail ws) st =
      passAll process (ws.map fun w => w.2.name) st := by
  cases ws with
  | nil =>
    rw [readHeaders, Line.rest]
    rfl
  | cons w ws => exact readHeaders_line process last trail 0 w.2 ws st

/-! ### Reading the lines -/

/-- The loop over the lines goes on, behind the source file. -/
structure State.Running (st : State σ) : Prop where
  first : st.first = false
  second : st.second = false
  badError : st.badError = false
  restart : st.restart = false
  deferredFailure : st.deferredFailure = false

theorem State.add_flags (st : State σ) (f : Bytes) :
    (st.add process f).first = st.first ∧ (st.add process f).second = st.second ∧
      (st.add process f).skip = st.skip ∧ (st.add process f).badError = st.badError := by
  unfold State.add
  dsimp only
  split <;> exact ⟨rfl, rfl, rfl, rfl⟩

/-- After some headers the loop goes on unless one of them stopped it. -/
theorem passAll_running (fs : List Bytes) {st : State σ} (h : st.Running) :
    (passAll process fs st).Running ∨ (passAll process fs st).badError = false ∧
      ((passAll process fs st).restart || (passAll process fs st).deferredFailure) = true := by
  induction fs generalizing st with
  | nil => exact Or.inl h
  | cons f fs ih =>
    rw [passAll]
    obtain ⟨hfirst, hsecond, -, hbad⟩ := st.add_flags process f
    dsimp only
    split_ifs with hskip hstop
    · exact ih ⟨h.first, h.second, h.badError, h.restart, h.deferredFailure⟩
    · exact Or.inr ⟨hbad.trans h.badError, hstop⟩
    · rw [Bool.not_eq_true, Bool.or_eq_false_iff] at hstop
      exact ih ⟨hfirst.trans h.first, hsecond.trans h.second, hbad.trans h.badError, hstop.1,
        hstop.2⟩

theorem passAll_append (fs gs : List Bytes) {st : State σ}
    (h : (st.restart || st.deferredFailure) = false) :
    passAll process (fs ++ gs) st =
      if (passAll process fs st).restart || (passAll process fs st).deferredFailure then
        passAll process fs st
      else passAll process gs (passAll process fs st) := by
  induction fs generalizing st with
  | nil => rw [List.nil_append, passAll, h, if_neg Bool.false_ne_true]
  | cons f fs ih =>
    rw [List.cons_append, passAll, passAll]
    dsimp only
    by_cases hskip : st.skip ≠ 0
    · rw [if_pos hskip, if_pos hskip]
      exact ih h
    · rw [if_neg hskip, if_neg hskip]
      by_cases hstop : ((st.add process f).restart || (st.add process f).deferredFailure) = true
      · rw [if_pos hstop, if_pos hstop, if_pos hstop]
      · rw [if_neg hstop, if_neg hstop]
        exact ih (eq_false_of_ne_true hstop)

theorem readLines_behind (fs : List Bytes) {st : State σ} (h : st.Running) (ls : List Line)
    (hlines : ∀ st : State σ, st.Running → readLines process (linesText ls) st =
      passAll process (ls.flatMap Line.files) st) :
    (if (passAll process fs st).badError || (passAll process fs st).deferredFailure then
        passAll process fs st
      else readLines process (linesText ls) (passAll process fs st)) =
      passAll process (fs ++ ls.flatMap Line.files) st := by
  have hst : (st.restart || st.deferredFailure) = false := by rw [h.restart, h.deferredFailure]; rfl
  rw [passAll_append process fs _ hst]
  rcases passAll_running process fs h with hrun | ⟨hbad, hstop⟩
  · rw [hrun.badError, hrun.deferredFailure, hrun.restart, Bool.or_false,
      if_neg Bool.false_ne_true, if_neg Bool.false_ne_true, hlines _ hrun]
  · rw [if_pos hstop, hbad, Bool.false_or]
    split_ifs with hdeferred
    · rfl
    · -- The loop ends before the next line.
      rw [eq_false_of_ne_true hdeferred, Bool.or_false] at hstop
      cases ls with
      | nil => rfl
      | cons l ls => rw [linesText, readLines, if_pos hstop]

theorem readLines_linesText (ls : List Line) {st : State σ} (h : st.Running) :
    readLines process (linesText ls) st = passAll process (ls.flatMap Line.files) st := by
  induction ls generalizing st with
  | nil => rfl
  | cons l ls ih =>
    have hline : readLine process (l.text ls.isEmpty) st = passAll process l.files st := by
      rw [readLine, h.first, h.second, if_neg Bool.false_ne_true, if_neg Bool.false_ne_true]
      exact readHeaders_line process _ _ _ _ _ st
    rw [linesText, readLines, h.restart, if_neg Bool.false_ne_true, hline, List.flatMap_cons]
    exact readLines_behind process l.files h ls fun st h => ih h

theorem passAll_eq (fs : List Bytes) (st : State σ) :
    passAll process fs st =
      processAll process (fs.drop st.skip) { st with skip := st.skip - fs.length } := by
  induction fs generalizing st with
  | nil => rw [List.drop_nil, passAll, processAll]; rfl
  | cons f fs ih =>
    rw [passAll]
    dsimp only
    rcases hskip : st.skip with _ | k
    · have hst : ({ st with skip := 0 - (f :: fs).length } : State σ) = st := by
        rw [Nat.zero_sub, ← hskip]
      have hadd : (st.add process f).skip = 0 := (st.add_flags process f).2.2.1.trans hskip
      rw [if_neg (not_not_intro rfl), hst, List.drop_zero, processAll, ih, hadd,
        List.drop_zero, Nat.zero_sub, ← hadd]
    · rw [if_pos (Nat.succ_ne_zero k), ih, List.drop_succ_cons]
      rw [List.length_cons, Nat.add_sub_cancel, Nat.add_sub_add_right]

theorem text_ne_backslash (n : ℕ) (f : File) (l : Bytes) :
    spaces n ++ (f.text ++ l) ≠ [ch '\\'] := by
  cases n with
  | zero => exact (text_stops f l).2
  | succ n =>
    intro h
    have hc : ch ' ' = ch '\\' := (List.cons.inj h).1
    exact absurd hc (by decide)

theorem readLine_source {l : Bytes} (h : l ≠ [ch '\\']) (skip : ℕ) (update : Bool)
    (headers : σ) : readLine process (str ['^', ':', ' '] ++ l) (State.start skip update headers) =
      readHeaders process (nextMake l).2
        { State.start skip update headers with first := false } := by
  have hpre : str ['^', ':', ' '] <+: str ['^', ':', ' '] ++ l := List.prefix_append _ _
  have halone : ¬ ((str ['^', ':', ' '] ++ l).length = 4 ∧
      (str ['^', ':', ' '] ++ l).getD 3 0 = ch '\\') := by
    rintro ⟨hlen, hc⟩
    obtain ⟨c, rfl⟩ : ∃ c, l = [c] := List.length_eq_one_iff.1 (by simpa [str] using hlen)
    exact h (congrArg (fun c => [c]) hc)
  rw [readLine, State.start, if_pos rfl, if_neg (not_not_intro hpre)]
  dsimp only
  rw [if_neg halone]
  rfl

/-- The lines of a declaration are read back: the headers behind those to skip are processed in
their order, to the first one that asks for a restart or whose failure is deferred. -/
theorem readLines_text (d : Declaration) (skip : ℕ) (update : Bool) (headers : σ) :
    readLines process d.text (State.start skip update headers) =
      processAll process (d.headers.drop skip)
        { State.start (skip - d.headers.length) update headers with first := false } := by
  -- The variables behind the source file.
  let st : State σ := { State.start skip update headers with first := false }
  have hst : st.Running := ⟨rfl, rfl, rfl, rfl, rfl⟩
  have hpass : readLines process d.text (State.start skip update headers) =
      passAll process d.headers st := by
    have hsource : readHeaders process (nextMake (d.first.text d.others.isEmpty)).2 st =
        passAll process (d.first.tail.map fun w => w.2.name) st := by
      rw [Line.text, nextMake_text]
      exact readHeaders_rest process _ _ _ st
    have hbehind := readLines_behind process (d.first.tail.map fun w => w.2.name) hst d.others
      fun st h => readLines_linesText process d.others h
    rw [Declaration.headers, ← hbehind, ← hsource]
    unfold Declaration.text
    by_cases halone : d.alone = true
    · rw [if_pos halone]
      rfl
    · have htext : d.first.text d.others.isEmpty ≠ [ch '\\'] := text_ne_backslash _ _ _
      rw [if_neg halone, readLines, readLine_source process htext]
      rfl
  rw [hpass, passAll_eq]
  rfl

end Build2.Libbuild2.Cc.MakeDeps
