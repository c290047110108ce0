import Build2.Libbutl.CharScanner.Agreement

/-! # Characters of the C-family lexer

How `cc::lexer` peeks and gets characters: on top of the character scanner, without a validator and
without a translation of CR, and with line continuations removed unless the caller says
otherwise. -/

namespace Build2.Libbuild2.Cc

open Build2.Lib.ByteString Build2.Libbutl.CharScanner

/-- `cc::lexer`: the scanner, the logical line and what has been hashed. The logical file and the
buffer for it are left out. -/
structure Lexer where
  scanner : Scanner
  logLine : Option ℕ
  cs : Bytes

theorem eos_of_char {c : XChar} {b : UInt8} (h : c.char = b) (hb : b ≠ 0) : c.eos = false := by
  refine eq_false_of_ne_true fun he => hb ?_
  rw [← h, XChar.char, (Scanner.eos_eq c).mp he]

namespace Lexer

/-- The bytes to come. -/
def rest (s : Lexer) : Bytes := s.scanner.stream.rest

/-- How many characters are left. -/
def left (s : Lexer) : ℕ :=
  s.scanner.unget.length + (s.scanner.unpeek.toList.length + s.rest.length)

/-- `char_scanner::peek` with the validator that accepts every byte, CR not translated. -/
def scannerPeek (s : Lexer) : XChar × Lexer :=
  match s.scanner.unget, s.scanner.unpeek with
  | c :: _, _ => (c, s)
  | [], some c => (c, s)
  | [], none =>
    if s.scanner.eos then (s.scanner.xchar eof, s)
    else if s.scanner.raw = eof then
      (s.scanner.xchar eof, { s with scanner := { s.scanner.fill with eos := true } })
    else
      (s.scanner.xchar s.scanner.raw,
        { s with scanner := { s.scanner.fill with validated := true } })

/-- `get (peeked)`. -/
def getPeeked (s : Lexer) (c : XChar) : Lexer :=
  { s with
    logLine :=
      if c.char = lf ∧ s.scanner.unget = [] then s.logLine.map (· + 1) else s.logLine
    scanner := s.scanner.getPeeked c }

/-- `char_scanner::peek` and `get` of the character that it gives. -/
def scannerGet (s : Lexer) : Lexer := s.scannerPeek.2.getPeeked s.scannerPeek.1

section

variable {s : Lexer} {c : XChar}

theorem scannerPeek_new (hu : s.scanner.unget = []) (hp : s.scanner.unpeek = none) :
    s.scannerPeek =
      if s.scanner.eos then (s.scanner.xchar eof, s)
      else if s.scanner.raw = eof then
        (s.scanner.xchar eof, { s with scanner := { s.scanner.fill with eos := true } })
      else
        (s.scanner.xchar s.scanner.raw,
          { s with scanner := { s.scanner.fill with validated := true } }) := by
  unfold scannerPeek
  rw [hu, hp]

theorem scannerPeek_scanner (s : Lexer) : ∃ stream direct eos validated,
    s.scannerPeek.2.scanner = { s.scanner with stream, direct, eos, validated } ∧
      stream.rest = s.rest := by
  have hfill := (Scanner.moved_fill s.scanner).1.eq
  have hrest := Scanner.rest_fill s.scanner
  unfold scannerPeek
  split
  · exact ⟨_, _, _, _, rfl, rfl⟩
  · exact ⟨_, _, _, _, rfl, rfl⟩
  · split_ifs
    · exact ⟨_, _, _, _, rfl, rfl⟩
    · rw [hfill]
      exact ⟨_, _, _, _, rfl, hrest⟩
    · rw [hfill]
      exact ⟨_, _, _, _, rfl, hrest⟩

theorem rest_scannerPeek (s : Lexer) : s.scannerPeek.2.rest = s.rest := by
  obtain ⟨_, _, _, _, h, hrest⟩ := scannerPeek_scanner s
  unfold rest at hrest ⊢
  rw [h]
  exact hrest

theorem unget_scannerPeek (s : Lexer) : s.scannerPeek.2.scanner.unget = s.scanner.unget ∧
    s.scannerPeek.2.scanner.unpeek = s.scanner.unpeek := by
  obtain ⟨_, _, _, _, h, -⟩ := scannerPeek_scanner s
  rw [h]
  exact ⟨rfl, rfl⟩

theorem left_scannerPeek (s : Lexer) : s.scannerPeek.2.left = s.left := by
  obtain ⟨hu, hp⟩ := unget_scannerPeek s
  unfold left
  rw [hu, hp, rest_scannerPeek]

theorem getPeeked_unget {u : List XChar} {d : XChar} (hu : s.scanner.unget = d :: u) :
    (s.getPeeked c).scanner = { s.scanner with unget := u } := by
  unfold getPeeked Scanner.getPeeked
  rw [hu]

theorem getPeeked_unpeek {d : XChar} (hu : s.scanner.unget = [])
    (hp : s.scanner.unpeek = some d) : ∃ line column position,
      (s.getPeeked c).scanner = { s.scanner with unpeek := none, line, column, position } := by
  have hconsume : s.scanner.consume c = { s.scanner with unpeek := none } := by
    unfold Scanner.consume
    rw [hp]
  show ∃ line column position, s.scanner.getPeeked c = _
  rw [Scanner.getPeeked_new hu, hconsume]
  exact Scanner.advance_eq c _

theorem getPeeked_byte (hu : s.scanner.unget = []) (hp : s.scanner.unpeek = none)
    (hc : c.eos = false) : ∃ line column position,
      (s.getPeeked c).scanner = { s.scanner.getByte with line, column, position } := by
  have hconsume : s.scanner.consume c = s.scanner.getByte := by
    unfold Scanner.consume
    rw [hp]
    dsimp only
    rw [hc]
    rfl
  show ∃ line column position, s.scanner.getPeeked c = _
  rw [Scanner.getPeeked_new hu, hconsume]
  exact Scanner.advance_eq c _

/-- Without a look-ahead only the next byte is a character to get. -/
theorem scannerGet_byte (hu : s.scanner.unget = []) (hp : s.scanner.unpeek = none)
    (hc : s.scannerPeek.1.eos = false) : s.scanner.eos = false ∧ s.scanner.raw ≠ eof ∧
      s.scannerPeek.1 = s.scanner.xchar s.scanner.raw ∧ ∃ line column position,
        s.scannerGet.scanner = { s.scanner.fill.getByte with line, column, position } := by
  obtain ⟨hu', hp'⟩ := unget_scannerPeek s
  obtain ⟨line, column, position, hget⟩ := getPeeked_byte (hu'.trans hu) (hp'.trans hp) hc
  rw [scannerPeek_new hu hp] at hc hget ⊢
  unfold scannerGet
  rw [scannerPeek_new hu hp]
  split_ifs at hc hget ⊢ with he hraw
  · cases hc
  · cases hc
  · exact ⟨eq_false_of_ne_true he, hraw, rfl, line, column, position, hget⟩

theorem scannerGet_scanner (hu : s.scanner.unget = []) (hp : s.scanner.unpeek = none)
    (hc : s.scannerPeek.1.eos = false) : s.scannerGet.scanner.unget = [] ∧
      s.scannerGet.scanner.unpeek = none ∧ s.scannerGet.scanner.eos = false ∧
      s.scannerGet.rest = s.rest.tail := by
  obtain ⟨he, -, -, line, column, position, hget⟩ := scannerGet_byte hu hp hc
  have hmoved := ((Scanner.moved_fill s.scanner).1.trans (Scanner.moved_getByte _).1).eq
  have hrest := Scanner.rest_getByte s.scanner.fill
  rw [Scanner.rest_fill] at hrest
  unfold rest
  rw [hget]
  dsimp only
  rw [hrest, hmoved]
  exact ⟨hu, hp, he, rfl⟩

/-- A character that has been peeked is there to be got. -/
theorem left_scannerGet (s : Lexer) (h : s.scannerPeek.1.eos = false) :
    s.scannerGet.left < s.left := by
  cases hu : s.scanner.unget with
  | cons d u =>
    have hpeek : s.scannerPeek = (d, s) := by
      unfold scannerPeek
      rw [hu]
    unfold scannerGet left rest
    rw [hpeek, getPeeked_unget hu, hu, List.length_cons]
    dsimp only
    omega
  | nil =>
    cases hp : s.scanner.unpeek with
    | some d =>
      have hpeek : s.scannerPeek = (d, s) := by
        unfold scannerPeek
        rw [hu, hp]
      obtain ⟨line, column, position, hget⟩ := getPeeked_unpeek (c := d) hu hp
      unfold scannerGet left rest
      rw [hpeek, hget, hp, Option.toList_some, Option.toList_none, List.length_singleton]
      dsimp only [List.length_nil]
      omega
    | none =>
      obtain ⟨-, hraw, -⟩ := scannerGet_byte hu hp h
      obtain ⟨hu', hp', -, hrest⟩ := scannerGet_scanner hu hp h
      have hne : s.rest ≠ [] := fun hnil => hraw (Scanner.raw_of_rest_nil hnil)
      have hpos := List.length_pos_of_ne_nil hne
      unfold left
      rw [hu', hp', hrest, hu, hp, List.length_tail]
      omega

end

/-- The characters behind a CR that is part of a line continuation. -/
def afterCr (s : Lexer) : Lexer :=
  if s.scannerPeek.1.char = cr then s.scannerGet.afterCr
  else if s.scannerPeek.1.char = lf then s.scannerGet
  else s.scannerPeek.2
termination_by s.left
decreasing_by
  rename_i h
  exact left_scannerGet s (eos_of_char h (by decide))

theorem left_afterCr (s : Lexer) : s.afterCr.left ≤ s.left := by
  fun_induction afterCr s with
  | case1 s h ih => exact ih.trans (left_scannerGet s (eos_of_char h (by decide))).le
  | case2 s _ h => exact (left_scannerGet s (eos_of_char h (by decide))).le
  | case3 s _ _ => exact (left_scannerPeek s).le

/-- `peek`. A backslash that continues no line is kept to be peeked again. -/
def peek (e : Bool) (s : Lexer) : XChar × Lexer :=
  match s.scanner.unget, s.scanner.unpeek with
  | c :: _, _ => (c, s)
  | [], some c => (c, s)
  | [], none =>
    let c := s.scannerPeek.1
    if e ∧ c.char = ch '\\' then
      let s := s.scannerGet
      -- a CR continues the line also without a newline
      if s.scannerPeek.1.char = cr then s.scannerGet.afterCr.peek e
      else if s.scannerPeek.1.char = lf then s.scannerGet.peek e
      else
        (c, { s.scannerPeek.2 with
          scanner := { s.scannerPeek.2.scanner with unpeek := some c } })
    else s.scannerPeek
termination_by s.left
decreasing_by
  · rename_i hc hp
    have h1 := left_scannerGet _ (eos_of_char hc.2 (by decide))
    have h2 := left_scannerGet _ (eos_of_char hp (by decide))
    exact (left_afterCr _).trans_lt (h2.trans h1)
  · rename_i hc _ hp
    have h1 := left_scannerGet _ (eos_of_char hc.2 (by decide))
    have h2 := left_scannerGet _ (eos_of_char hp (by decide))
    exact h2.trans h1

theorem left_peek (e : Bool) (s : Lexer) (h : (s.peek e).1.eos = false) :
    ((s.peek e).2.getPeeked (s.peek e).1).left < s.left := by
  induction hn : s.left using Nat.strong_induction_on generalizing s with
  | _ n ih =>
    subst hn
    have hsame : s.peek e = s.scannerPeek →
        ((s.peek e).2.getPeeked (s.peek e).1).left < s.left := by
      intro heq
      rw [heq] at h ⊢
      exact left_scannerGet s h
    cases hu : s.scanner.unget with
    | cons c u =>
      refine hsame ?_
      rw [peek, scannerPeek, hu]
    | nil =>
      cases hp : s.scanner.unpeek with
      | some c =>
        refine hsame ?_
        rw [peek, scannerPeek, hu, hp]
      | none =>
        by_cases hc : e = true ∧ s.scannerPeek.1.char = ch '\\'
        · have hleft := left_scannerGet s (eos_of_char hc.2 (by decide))
          by_cases hcr : s.scannerGet.scannerPeek.1.char = cr
          · have hleft' := left_scannerGet _ (eos_of_char hcr (by decide))
            have hpeek : s.peek e = s.scannerGet.scannerGet.afterCr.peek e := by
              rw [peek]
              simp only [hu, hp, hc, hcr, and_self, if_true]
            have hlt := (left_afterCr _).trans_lt (hleft'.trans hleft)
            rw [hpeek] at h ⊢
            exact (ih _ hlt _ h rfl).trans hlt
          by_cases hlf : s.scannerGet.scannerPeek.1.char = lf
          · have hleft' := left_scannerGet _ (eos_of_char hlf (by decide))
            have hpeek : s.peek e = s.scannerGet.scannerGet.peek e := by
              rw [peek]
              simp only [hu, hp, hc, hlf, and_self, if_true]
              rw [if_neg (by decide)]
            have hlt := hleft'.trans hleft
            rw [hpeek] at h ⊢
            exact (ih _ hlt _ h rfl).trans hlt
          · have hpeek : s.peek e = (s.scannerPeek.1, { s.scannerGet.scannerPeek.2 with
                scanner := { s.scannerGet.scannerPeek.2.scanner with
                  unpeek := some s.scannerPeek.1 } }) := by
              rw [peek]
              simp only [hu, hp, hc, hcr, hlf, and_self, if_true, if_false]
            have hunget := (unget_scannerPeek s.scannerGet).1.trans
              (scannerGet_scanner hu hp (eos_of_char hc.2 (by decide))).1
            rw [hpeek]
            obtain ⟨line, column, position, hget⟩ := getPeeked_unpeek (c := s.scannerPeek.1)
              (s := { s.scannerGet.scannerPeek.2 with
                scanner := { s.scannerGet.scannerPeek.2.scanner with
                  unpeek := some s.scannerPeek.1 } }) hunget rfl
            have hrest := congrArg List.length (rest_scannerPeek s.scannerGet)
            unfold left at hleft ⊢
            unfold rest at hleft hrest ⊢
            rw [hget]
            dsimp only
            rw [hunget, Option.toList_none, hrest]
            simp only [List.length_nil, Nat.zero_add]
            omega
        · refine hsame ?_
          rw [peek, hu, hp]
          exact if_neg hc

/-- `get ()`. -/
def get (e : Bool) (s : Lexer) : XChar × Lexer :=
  match s.scanner.unget with
  | c :: u => (c, { s with scanner := { s.scanner with unget := u } })
  | [] => ((s.peek e).1, (s.peek e).2.getPeeked (s.peek e).1)

/-- `geth ()`. -/
def geth (e : Bool) (s : Lexer) : XChar × Lexer :=
  ((s.get e).1, { (s.get e).2 with cs := (s.get e).2.cs ++ [(s.get e).1.char] })

theorem left_geth (e : Bool) (s : Lexer) (h : (s.geth e).1.eos = false) :
    (s.geth e).2.left < s.left := by
  have hget : (s.geth e).2.left = (s.get e).2.left := rfl
  rw [hget]
  have h : (s.get e).1.eos = false := h
  unfold get at h ⊢
  cases hu : s.scanner.unget with
  | cons c u =>
    unfold left rest
    dsimp only
    rw [hu, List.length_cons]
    omega
  | nil =>
    rw [hu] at h
    exact left_peek e s h

/-- `geth (peeked)`. -/
def gethPeeked (s : Lexer) (c : XChar) : Lexer :=
  { s.getPeeked c with cs := (s.getPeeked c).cs ++ [c.char] }

/-! ### The bytes that are got -/

/-- Nothing is looked ahead, and what has been taken for the end of the stream is one or the byte
0xFF. -/
structure Steady (s : Lexer) : Prop where
  unget : s.scanner.unget = []
  unpeek : s.scanner.unpeek = none
  eos : s.scanner.eos = true → s.rest = [] ∨ hd s.rest = 0xFF

section

variable {s : Lexer} {b : UInt8}

/-- The next character is the next byte, which a 0xFF may hide. -/
theorem Steady.scannerPeek (h : Steady s) : Steady s.scannerPeek.2 ∧
    (s.scannerPeek.1.char = hd s.rest ∨ s.scannerPeek.1.char = 0 ∧ hd s.rest = 0xFF) := by
  obtain ⟨hu, hp⟩ := unget_scannerPeek s
  have hrest := rest_scannerPeek s
  -- what is taken for the end of the stream
  have heof : s.scanner.raw = eof → s.rest = [] ∨ hd s.rest = 0xFF := by
    intro hraw
    cases hr : s.rest with
    | nil => exact Or.inl rfl
    | cons b r => exact Or.inr (Scanner.eq_ff_of_raw hr hraw).1
  have hnone : s.rest = [] ∨ hd s.rest = 0xFF →
      (0 : UInt8) = hd s.rest ∨ (0 : UInt8) = 0 ∧ hd s.rest = 0xFF := by
    rintro (hnil | hff)
    · exact Or.inl (by rw [hnil]; rfl)
    · exact Or.inr ⟨rfl, hff⟩
  refine ⟨⟨hu.trans h.unget, hp.trans h.unpeek, fun ht => ?_⟩, ?_⟩
  · rw [hrest]
    rw [scannerPeek_new h.unget h.unpeek] at ht
    split_ifs at ht with he hraw
    · exact h.eos he
    · exact heof hraw
    · rw [(Scanner.moved_fill s.scanner).1.eq] at ht
      exact absurd ht he
  · rw [scannerPeek_new h.unget h.unpeek]
    split_ifs with he hraw
    · exact hnone (h.eos he)
    · exact hnone (heof hraw)
    · cases hr : s.rest with
      | nil => exact absurd (Scanner.raw_of_rest_nil hr) hraw
      | cons b r =>
        refine Or.inl ?_
        unfold XChar.char
        rw [Scanner.result_raw hr hraw]
        rfl

theorem Steady.char_iff (h : Steady s) (h0 : b ≠ 0) (hff : b ≠ 0xFF) :
    s.scannerPeek.1.char = b ↔ hd s.rest = b := by
  rcases h.scannerPeek.2 with hc | ⟨hc, hr⟩
  · rw [hc]
  · rw [hc, hr]
    exact ⟨fun h => absurd h.symm h0, fun h => absurd h.symm hff⟩

theorem Steady.scannerGet (h : Steady s) (hc : s.scannerPeek.1.eos = false) :
    Steady s.scannerGet ∧ s.scannerGet.rest = s.rest.tail := by
  obtain ⟨hu, hp, he, hrest⟩ := scannerGet_scanner h.unget h.unpeek hc
  exact ⟨⟨hu, hp, fun ht => absurd (he.symm.trans ht) Bool.false_ne_true⟩, hrest⟩

theorem Steady.afterCr (h : Steady s) : Steady s.afterCr ∧ s.afterCr.rest = behindCr s.rest := by
  fun_induction Lexer.afterCr s with
  | case1 s hp ih =>
    obtain ⟨hnext, hrest⟩ := h.scannerGet (eos_of_char hp (by decide))
    have hcr := eq_cons_of_hd ((h.char_iff (by decide) (by decide)).mp hp) (by decide)
    obtain ⟨hih, hihrest⟩ := ih hnext
    refine ⟨hih, ?_⟩
    rw [hihrest, hrest, hcr]
    exact (behindCr_run (w := [cr]) (by simp) _).symm
  | case2 s hp hlf =>
    obtain ⟨hnext, hrest⟩ := h.scannerGet (eos_of_char hlf (by decide))
    have hlf := eq_cons_of_hd ((h.char_iff (by decide) (by decide)).mp hlf) (by decide)
    refine ⟨hnext, ?_⟩
    rw [hrest, hlf, behindCr_lf]
    rfl
  | case3 s hp hlf =>
    have hcr := mt (h.char_iff (by decide) (by decide)).mpr hp
    have hlf := mt (h.char_iff (by decide) (by decide)).mpr hlf
    refine ⟨h.scannerPeek.1, (rest_scannerPeek s).trans ?_⟩
    cases hr : s.rest with
    | nil => rfl
    | cons b r =>
      rw [hr] at hcr hlf
      exact (behindCr_other hcr hlf).symm

/-- The bytes with the line continuations in front of them removed. -/
def spliced (t : Bytes) : Bytes :=
  match t with
  | [] => []
  | b :: r =>
    if b = ch '\\' then
      if hd r = cr then spliced (behindCr r)
      else if hd r = lf then spliced r.tail
      else b :: r
    else b :: r
termination_by t.length
decreasing_by
  · have := length_behindCr_le r
    simp only [List.length_cons]
    omega
  · simp only [List.length_cons, List.length_tail]
    omega

/-- The bytes to come, with a backslash that is kept. -/
def ahead (s : Lexer) : Bytes := s.scanner.unpeek.toList.map XChar.char ++ s.rest

theorem Steady.ahead (h : Steady s) : s.ahead = s.rest := by
  unfold Lexer.ahead
  rw [h.unpeek]
  rfl

theorem spliced_backslash (r : Bytes) : spliced (ch '\\' :: r) =
    if hd r = cr then spliced (behindCr r) else if hd r = lf then spliced r.tail
    else ch '\\' :: r := by
  rw [spliced, if_pos rfl]

theorem spliced_other (h : hd s.rest ≠ ch '\\') : spliced s.rest = s.rest := by
  cases hr : s.rest with
  | nil => rw [spliced]
  | cons b r =>
    rw [hr] at h
    rw [spliced, if_neg (show ¬ b = ch '\\' from h)]

/-- What `peek` gives: the next byte of `t`, which a 0xFF may hide. All but a backslash that is kept
is what the scanner gives. -/
structure Peeks (t : Bytes) (p : XChar × Lexer) : Prop where
  ahead : p.2.ahead = t
  char : p.1.char = hd t ∨ p.1.char = 0 ∧ hd t = 0xFF
  scanner : p.1.char ≠ ch '\\' → ∃ s', Steady s' ∧ s'.rest = t ∧ p = s'.scannerPeek

/-- **Peeking removes line continuations.** -/
theorem Steady.peek (h : Steady s) : Peeks (spliced s.rest) (s.peek true) := by
  induction hn : s.left using Nat.strong_induction_on generalizing s with
  | _ n ih =>
    subst hn
    have hiff := h.char_iff (b := ch '\\') (by decide) (by decide)
    rw [Lexer.peek.eq_def]
    simp only [h.unget, h.unpeek, true_and]
    by_cases hc : s.scannerPeek.1.char = ch '\\'
    · obtain ⟨hnext, hrest⟩ := h.scannerGet (eos_of_char hc (by decide))
      have hb := eq_cons_of_hd (hiff.mp hc) (by decide)
      have hleft := left_scannerGet s (eos_of_char hc (by decide))
      rw [if_pos hc, hb, spliced_backslash, ← hrest]
      by_cases hcr : s.scannerGet.scannerPeek.1.char = cr
      · obtain ⟨hnext', hrest'⟩ := hnext.scannerGet (eos_of_char hcr (by decide))
        have hr := (hnext.char_iff (by decide) (by decide)).mp hcr
        have hleft' := left_scannerGet _ (eos_of_char hcr (by decide))
        obtain ⟨hbehind, hrest''⟩ := hnext'.afterCr
        have hsame : behindCr s.scannerGet.rest = behindCr s.scannerGet.rest.tail := by
          rw [eq_cons_of_hd hr (by decide)]
          exact behindCr_run (w := [cr]) (by simp) _
        rw [if_pos hcr, if_pos hr, hsame, ← hrest', ← hrest'']
        exact ih _ ((left_afterCr _).trans_lt (hleft'.trans hleft)) hbehind rfl
      rw [if_neg hcr, if_neg (mt (hnext.char_iff (by decide) (by decide)).mpr hcr)]
      by_cases hlf : s.scannerGet.scannerPeek.1.char = lf
      · obtain ⟨hnext', hrest'⟩ := hnext.scannerGet (eos_of_char hlf (by decide))
        have hleft' := left_scannerGet _ (eos_of_char hlf (by decide))
        rw [if_pos hlf, if_pos ((hnext.char_iff (by decide) (by decide)).mp hlf), ← hrest']
        exact ih _ (hleft'.trans hleft) hnext' rfl
      · rw [if_neg hlf, if_neg (mt (hnext.char_iff (by decide) (by decide)).mpr hlf)]
        refine ⟨?_, Or.inl hc, fun h => absurd hc h⟩
        exact congrArg₂ List.cons hc (rest_scannerPeek s.scannerGet)
    · rw [if_neg hc, spliced_other (mt hiff.mpr hc)]
      exact ⟨h.scannerPeek.1.ahead.trans (rest_scannerPeek s), h.scannerPeek.2,
        fun _ => ⟨s, h, rfl, rfl⟩⟩

end

/-! ### The buffer of the stream -/

/-- The bytes `t` to come begin with a 0xFF that is not the first byte of a read. -/
def Misread (is : Stream) (t : Bytes) : Prop := hd t = 0xFF ∧ ¬ is.Boundary t

/-- Between two characters, before the end of the stream. -/
structure Ready (s : Lexer) : Prop where
  fd : s.scanner.stream.fd = true
  filled : s.scanner.Filled
  unget : s.scanner.unget = []
  unpeek : s.scanner.unpeek = none
  eos : s.scanner.eos = false

section

variable {s : Lexer} {is : Stream}

theorem Ready.steady (h : Ready s) : Steady s :=
  ⟨h.unget, h.unpeek, fun he => absurd (h.eos.symm.trans he) Bool.false_ne_true⟩

theorem boundary_rest (is : Stream) : is.Boundary is.rest ↔ is.area = [] := by
  refine ⟨area_of_boundary, fun h => ⟨0, ?_⟩⟩
  rw [Stream.rest, h]
  rfl

/-- The next byte looks like the end of the stream if it is one or misread. -/
theorem raw_eq_eof {t : Scanner} (h : t.Filled) :
    t.raw = eof ↔ t.stream.rest = [] ∨ Misread t.stream t.stream.rest := by
  have hfast : t.fast = t.stream.area := by
    unfold Scanner.fast
    split_ifs with hdirect
    · rfl
    · exact (not_ne_iff.mp (mt h hdirect)).symm
  constructor
  · intro hraw
    cases hr : t.stream.rest with
    | nil => exact Or.inl rfl
    | cons b r =>
      obtain ⟨rfl, a, ha⟩ := Scanner.eq_ff_of_raw hr hraw
      refine Or.inr ⟨rfl, ?_⟩
      rw [← hr, boundary_rest, ← hfast, ha]
      exact List.cons_ne_nil _ _
  · rintro (hnil | ⟨hff, hb⟩)
    · exact Scanner.raw_of_rest_nil hnil
    · rw [boundary_rest] at hb
      obtain ⟨b, a, ha⟩ := List.exists_cons_of_ne_nil hb
      rw [Stream.rest, ha] at hff
      obtain rfl : b = 0xFF := hff
      unfold Scanner.raw
      rw [hfast, ha]
      rfl

/-- **Getting the next byte** keeps where the reads of the bytes behind it begin. -/
theorem Ready.scannerGet (h : Ready s) (hc : s.scannerPeek.1.eos = false) :
    Ready s.scannerGet ∧ ∀ t : Bytes, t.length < s.rest.length →
      (s.scannerGet.scanner.stream.Boundary t ↔ s.scanner.stream.Boundary t) := by
  obtain ⟨hu, hp, he, -⟩ := scannerGet_scanner h.unget h.unpeek hc
  obtain ⟨-, -, -, line, column, position, hget⟩ := scannerGet_byte h.unget h.unpeek hc
  have hfill := (Scanner.moved_fill s.scanner).1.stream
  have hmoved := hfill.trans (Scanner.moved_getByte s.scanner.fill).1.stream
  refine ⟨⟨?_, ?_, hu, hp, he⟩, fun t ht => ?_⟩
  · rw [hget]
    exact hmoved.fd.trans h.fd
  · rw [hget]
    exact (Scanner.loaded_fill h.fd).getByte
  · rw [hget]
    refine ⟨hmoved.origin t, fun hb => ?_⟩
    have ht' : t.length < s.scanner.fill.stream.rest.length := by
      rw [Scanner.rest_fill]
      exact ht
    exact Scanner.boundary_getByte _ ht' (hfill.boundary t ht' hb)

theorem Ready.scannerPeek (h : Ready s) (he : s.scannerPeek.2.scanner.eos = false) :
    Ready s.scannerPeek.2 := by
  obtain ⟨hu, hp⟩ := unget_scannerPeek s
  have hfd := (Scanner.moved_fill s.scanner).1.stream.fd
  have hloaded := Scanner.loaded_fill h.fd
  refine ⟨?_, ?_, hu.trans h.unget, hp.trans h.unpeek, he⟩
  · rw [scannerPeek_new h.unget h.unpeek]
    split_ifs
    · exact h.fd
    · exact hfd.trans h.fd
    · exact hfd.trans h.fd
  · rw [scannerPeek_new h.unget h.unpeek]
    split_ifs
    · exact h.filled
    · exact (hloaded.of_stream rfl rfl).filled
    · exact (hloaded.of_stream rfl rfl).filled

theorem Ready.afterCr (h : Ready s) (he : s.afterCr.scanner.eos = false) : Ready s.afterCr := by
  fun_induction Lexer.afterCr s with
  | case1 s hp ih => exact ih (h.scannerGet (eos_of_char hp (by decide))).1 he
  | case2 s hp hlf => exact (h.scannerGet (eos_of_char hlf (by decide))).1
  | case3 s hp hlf => exact h.scannerPeek he

theorem Steady.peek_end (h : Steady s) (he : s.scanner.eos = true) :
    (s.peek true).1.eos = true := by
  have hslash : ¬ (s.scanner.xchar eof).char = ch '\\' := (by decide : ¬ (0 : UInt8) = ch '\\')
  have hpeek := scannerPeek_new h.unget h.unpeek
  rw [if_pos he] at hpeek
  rw [Lexer.peek.eq_def]
  simp only [h.unget, h.unpeek, true_and, hpeek]
  rw [if_neg hslash]
  rfl

theorem Ready.peek (h : Ready s) (hc : (s.peek true).1.eos = false)
    (hb : (s.peek true).1.char ≠ ch '\\') :
    ∃ s', Ready s' ∧ s.peek true = s'.scannerPeek := by
  induction hn : s.left using Nat.strong_induction_on generalizing s with
  | _ n ih =>
    subst hn
    have heq := Lexer.peek.eq_def true s
    simp only [h.unget, h.unpeek, true_and] at heq
    by_cases hslash : s.scannerPeek.1.char = ch '\\'
    · have hleft := left_scannerGet s (eos_of_char hslash (by decide))
      have hnext := (h.scannerGet (eos_of_char hslash (by decide))).1
      rw [if_pos hslash] at heq
      by_cases hcr : s.scannerGet.scannerPeek.1.char = cr
      · have hleft' := left_scannerGet _ (eos_of_char hcr (by decide))
        have hnext' := (hnext.scannerGet (eos_of_char hcr (by decide))).1
        have hbehind := hnext'.steady.afterCr.1
        rw [if_pos hcr] at heq
        rw [heq] at hc hb ⊢
        have heos : s.scannerGet.scannerGet.afterCr.scanner.eos = false := by
          refine eq_false_of_ne_true fun he => ?_
          rw [hbehind.peek_end he] at hc
          cases hc
        exact ih _ ((left_afterCr _).trans_lt (hleft'.trans hleft)) (hnext'.afterCr heos) hc hb rfl
      rw [if_neg hcr] at heq
      by_cases hlf : s.scannerGet.scannerPeek.1.char = lf
      · have hleft' := left_scannerGet _ (eos_of_char hlf (by decide))
        have hnext' := (hnext.scannerGet (eos_of_char hlf (by decide))).1
        rw [if_pos hlf] at heq
        rw [heq] at hc hb ⊢
        exact ih _ (hleft'.trans hleft) hnext' hc hb rfl
      · rw [if_neg hlf] at heq
        rw [heq] at hb
        exact absurd hslash hb
    · rw [if_neg hslash] at heq
      exact ⟨s, h, heq⟩

/-- **Getting a character** behind line continuations. -/
theorem Ready.geth (h : Ready s) (hc : (s.geth true).1.eos = false)
    (hb : (s.geth true).1.char ≠ ch '\\') : Ready (s.geth true).2 := by
  have hget : s.get true = ((s.peek true).1, (s.peek true).2.getPeeked (s.peek true).1) := by
    unfold get
    rw [h.unget]
  unfold Lexer.geth at hc hb ⊢
  rw [hget] at hc hb ⊢
  obtain ⟨s', hs', hpeek⟩ := h.peek hc hb
  rw [hpeek] at hc ⊢
  have hready := (hs'.scannerGet hc).1
  exact ⟨hready.fd, hready.filled, hready.unget, hready.unpeek, hready.eos⟩

theorem Steady.peek_new {e : Bool} (h : Steady s)
    (hb : e = false ∨ s.scannerPeek.1.char ≠ ch '\\') : s.peek e = s.scannerPeek := by
  have hnot : ¬ (e = true ∧ s.scannerPeek.1.char = ch '\\') := by
    rintro ⟨rfl, hslash⟩
    rcases hb with hb | hb
    · cases hb
    · exact hb hslash
  rw [Lexer.peek.eq_def]
  simp only [h.unget, h.unpeek]
  exact if_neg hnot

theorem Steady.geth_new {e : Bool} (h : Steady s)
    (hb : e = false ∨ s.scannerPeek.1.char ≠ ch '\\') : (s.geth e).1 = s.scannerPeek.1 ∧
      (s.geth e).2.scanner = s.scannerGet.scanner := by
  unfold Lexer.geth get
  rw [h.unget, h.peek_new hb]
  exact ⟨rfl, rfl⟩

theorem Ready.scannerPeek_byte {b : UInt8} {r : Bytes} (h : Ready s) (hr : s.rest = b :: r)
    (hok : ¬ Misread s.scanner.stream s.rest) :
    s.scannerPeek.1.eos = false ∧ s.scannerPeek.1.char = b := by
  have hraw : ¬ s.scanner.raw = eof := by
    rw [raw_eq_eof h.filled]
    exact not_or.mpr ⟨fun hnil => List.cons_ne_nil _ _ (hr.symm.trans hnil), hok⟩
  have hresult := Scanner.result_raw hr hraw
  rw [scannerPeek_new h.unget h.unpeek, h.eos, if_neg Bool.false_ne_true, if_neg hraw]
  dsimp only
  refine ⟨eq_false_of_ne_true fun he => ?_, ?_⟩
  · rw [Scanner.eos_eq, hresult] at he
    cases he
  · unfold XChar.char
    rw [hresult]

/-- Behind the next byte. -/
structure Behind (s : Lexer) (r : Bytes) (s' : Lexer) : Prop where
  ready : Ready s'
  rest : s'.rest = r
  boundary : ∀ t : Bytes, t.length ≤ r.length →
    (s'.scanner.stream.Boundary t ↔ s.scanner.stream.Boundary t)

theorem Ready.behind {b : UInt8} {r : Bytes} {s' : Lexer} (h : Ready s) (hr : s.rest = b :: r)
    (hc : s.scannerPeek.1.eos = false) (hs : s'.scanner = s.scannerGet.scanner) :
    Behind s r s' := by
  obtain ⟨hready, hbound⟩ := h.scannerGet hc
  have hrest := (h.steady.scannerGet hc).2
  rw [hr] at hrest
  refine ⟨⟨?_, ?_, ?_, ?_, ?_⟩, ?_, fun t ht => ?_⟩
  · rw [hs]
    exact hready.fd
  · rw [hs]
    exact hready.filled
  · rw [hs]
    exact hready.unget
  · rw [hs]
    exact hready.unpeek
  · rw [hs]
    exact hready.eos
  · unfold Lexer.rest at hrest ⊢
    rw [hs]
    exact hrest
  · rw [hs]
    exact hbound t (by rw [hr]; exact Nat.lt_succ_of_le ht)

/-- **Getting a byte**, with a regard to line continuations only if it is no backslash. -/
theorem Ready.geth_byte {e : Bool} {b : UInt8} {r : Bytes} (h : Ready s) (hr : s.rest = b :: r)
    (hok : ¬ Misread s.scanner.stream s.rest) (hb : e = false ∨ b ≠ ch '\\') :
    (s.geth e).1.eos = false ∧ (s.geth e).1.char = b ∧ Behind s r (s.geth e).2 := by
  obtain ⟨heos, hchar⟩ := h.scannerPeek_byte hr hok
  rw [← hchar] at hb
  obtain ⟨h1, h2⟩ := h.steady.geth_new hb
  rw [h1]
  exact ⟨heos, hchar, h.behind hr heos h2⟩

theorem Ready.geth_eos (h : Ready s) (hend : s.rest = [] ∨ Misread s.scanner.stream s.rest) :
    (s.geth false).1.eos = true := by
  have hraw := (raw_eq_eof h.filled).mpr hend
  rw [(h.steady.geth_new (Or.inl rfl)).1, scannerPeek_new h.unget h.unpeek, h.eos,
    if_neg Bool.false_ne_true, if_pos hraw]
  rfl

end

end Lexer

end Build2.Libbuild2.Cc
