import Build2.Libbutl.CharScanner.Basic

/-! # What the scanner delivers

The scanner as a reader of a byte string (`View`), without the buffer of the stream and without the
conversion of bytes to `int_type`. A scanner follows its view as long as no byte that is read looks
like the end of the file. -/

namespace Build2.Libbutl.CharScanner

open Build2.Lib.ByteString Build2.Libbutl.Utf8

/-- Carriage return and newline. -/
def cr : UInt8 := 13
def lf : UInt8 := 10

/-! ### The reader of a byte string -/

/-- The bytes to come and the look-ahead. -/
structure View where
  rest : Bytes
  crlf : Bool
  val : Validator
  seq : Option Seq
  validated : Bool
  eos : Bool
  unpeek : Bool
  unget : List Result

namespace View

/-- The state of the validator after the byte, validated once. -/
def check (v : View) (b : UInt8) : Option (Option Seq) :=
  if v.validated then some v.seq else (v.val.validate b v.seq).next

/-- The reader after a run of CR, in front of `t`. -/
def afterCr (v : View) (t : Bytes) : View :=
  if hd t = lf then { v with rest := t, validated := false }
  else { v with rest := t, validated := false, unpeek := true, eos := t = [] }

/-- The next character of the bytes. -/
def peekByte (v : View) : Result × View :=
  match v.rest with
  | [] => (if v.seq.isNone then .eos else .invalid, { v with eos := true })
  | b :: r =>
    match v.check b with
    | none => (.invalid, v)
    | some seq =>
      if v.crlf ∧ b = cr then (.char lf, { v with seq }.afterCr (r.dropWhile (· = cr)))
      else (.char b, { v with seq, validated := true })

def peek (v : View) : Result × View :=
  match v.unget with
  | r :: _ => (r, v)
  | [] => if v.unpeek then (.char lf, v) else if v.eos then (.eos, v) else v.peekByte

def getPeeked (r : Result) (v : View) : View :=
  match v.unget with
  | _ :: u => { v with unget := u }
  | [] =>
    if v.unpeek then { v with unpeek := false }
    else if r = .eos then v
    else { v with rest := v.rest.tail, validated := false }

def get (v : View) : Result × View :=
  match v.unget with
  | r :: u => (r, { v with unget := u })
  | [] => (v.peek.1, v.peek.2.getPeeked v.peek.1)

section

variable {v : View} {b : UInt8} {r : Bytes}

theorem peekByte_nil (h : v.rest = []) :
    v.peekByte = (if v.seq.isNone then .eos else .invalid, { v with eos := true }) := by
  obtain ⟨⟩ := v
  cases h
  rfl

theorem peekByte_invalid (h : v.rest = b :: r) (hc : v.check b = none) :
    v.peekByte = (.invalid, v) := by
  unfold peekByte
  rw [h]
  dsimp only
  rw [hc]

theorem peekByte_cr (h : v.rest = cr :: r) {seq : Option Seq} (hc : v.check cr = some seq)
    (hcrlf : v.crlf = true) :
    v.peekByte = (.char lf, { v with seq }.afterCr (r.dropWhile (· = cr))) := by
  obtain ⟨⟩ := v
  cases h
  unfold peekByte
  dsimp only
  rw [hc]
  exact if_pos ⟨hcrlf, rfl⟩

theorem peekByte_char (h : v.rest = b :: r) {seq : Option Seq} (hc : v.check b = some seq)
    (hcr : ¬ (v.crlf = true ∧ b = cr)) :
    v.peekByte = (.char b, { v with seq, validated := true }) := by
  obtain ⟨⟩ := v
  cases h
  unfold peekByte
  dsimp only
  rw [hc]
  exact if_neg hcr

theorem peek_new (hu : v.unget = []) (hp : v.unpeek = false) (he : v.eos = false) :
    v.peek = v.peekByte := by
  obtain ⟨⟩ := v
  cases hu
  cases hp
  cases he
  rfl

theorem get_new (h : v.unget = []) : v.get = (v.peek.1, v.peek.2.getPeeked v.peek.1) := by
  unfold get
  rw [h]

theorem getPeeked_new (h : v.unget = []) (c : Result) : v.getPeeked c =
    if v.unpeek then { v with unpeek := false }
    else if c = .eos then v
    else { v with rest := v.rest.tail, validated := false } := by
  obtain ⟨⟩ := v
  cases h
  rfl

end

end View

/-! ### Bytes as characters -/

section

variable {b : UInt8} {r : Bytes}

theorem toInt_toInt8 (b : UInt8) :
    b.toInt8.toInt = if b.toNat < 128 then (b.toNat : Int) else b.toNat - 256 := by
  have hb := b.toNat_lt
  change b.toBitVec.toInt = _
  rw [BitVec.toInt_eq_toNat_cond]
  change (if 2 * b.toNat < 256 then (b.toNat : Int) else (b.toNat : Int) - 256) = _
  split_ifs <;> omega

/-- A byte as an `int_type` when it is taken from the buffer. -/
theorem toChar_toInt (b : UInt8) : toChar b.toInt8.toInt = b := by
  have hb := b.toNat_lt
  apply UInt8.toNat_inj.mp
  rw [toInt_toInt8, toChar, UInt8.toNat_ofNat']
  split_ifs <;> omega

/-- A byte as an `int_type` when it comes from the stream. -/
theorem toChar_toNat (b : UInt8) : toChar b.toNat = b := by
  have hb := b.toNat_lt
  apply UInt8.toNat_inj.mp
  rw [toChar, UInt8.toNat_ofNat']
  omega

namespace Scanner

variable {s : Scanner}

/-- What holds of the scanner between two calls. -/
structure Wf (s : Scanner) : Prop where
  direct : s.direct = true → s.stream.fd = true
  decoded : s.decoded = s.seq.isNone
  validated : s.validated = true → hd s.stream.rest ≠ 0xFF
  unpeek : ∀ c, s.unpeek = some c → c.result = .char lf

/-- The value of `peek_` is that of the next byte, as one or the other `int_type`. -/
theorem raw_of_rest (h : s.stream.rest = b :: r) :
    (s.raw = b.toInt8.toInt ∧ ∃ a, s.fast = b :: a) ∨ (s.raw = b.toNat ∧ s.fast = []) := by
  cases hf : s.fast with
  | cons b' a =>
    obtain ⟨-, ha⟩ := area_ne_nil_of_fast hf
    unfold Stream.rest at h
    rw [ha, List.cons_append] at h
    obtain rfl := (List.cons.inj h).1
    unfold raw
    rw [hf]
    exact Or.inl ⟨rfl, a, rfl⟩
  | nil =>
    rw [← rest_underflow] at h
    have hne : s.stream.underflow.area ≠ [] := by
      intro hnil
      rw [rest_underflow, rest_of_underflow_nil hnil] at h
      cases h
    obtain ⟨b', a, ha⟩ := List.exists_cons_of_ne_nil hne
    unfold Stream.rest at h
    rw [ha, List.cons_append] at h
    obtain rfl := (List.cons.inj h).1
    unfold raw Stream.head
    rw [hf]
    exact Or.inr ⟨by rw [ha], rfl⟩

theorem toChar_raw (h : s.stream.rest = b :: r) : toChar s.raw = b := by
  rcases raw_of_rest h with ⟨hr, -⟩ | ⟨hr, -⟩
  · rw [hr, toChar_toInt]
  · rw [hr, toChar_toNat]

/-- Only the byte 0xFF, taken from the buffer, looks like the end of the file. -/
theorem eq_ff_of_raw (h : s.stream.rest = b :: r) (he : s.raw = eof) :
    b = 0xFF ∧ ∃ a, s.fast = b :: a := by
  have hb := b.toNat_lt
  rcases raw_of_rest h with ⟨hr, hf⟩ | ⟨hr, -⟩
  · refine ⟨UInt8.toNat_inj.mp ?_, hf⟩
    rw [he, toInt_toInt8, eof] at hr
    change b.toNat = 255
    split_ifs at hr
    omega
  · rw [he, eof] at hr
    omega

theorem raw_eq_iff (h : s.stream.rest = b :: r) {n : Nat} (hn : n < 128) :
    s.raw = n ↔ b.toNat = n := by
  have hb := b.toNat_lt
  rcases raw_of_rest h with ⟨hr, -⟩ | ⟨hr, -⟩
  · rw [hr, toInt_toInt8]
    split_ifs <;> omega
  · rw [hr]
    omega

theorem raw_eq_cr_iff (h : s.stream.rest = b :: r) : s.raw = 13 ↔ b = cr := by
  rw [← UInt8.toNat_inj]
  exact raw_eq_iff h (n := 13) (by decide)

theorem raw_eq_lf_iff (h : s.stream.rest = b :: r) : s.raw = 10 ↔ b = lf := by
  rw [← UInt8.toNat_inj]
  exact raw_eq_iff h (n := 10) (by decide)

theorem raw_ne_invalid (h : s.stream.rest = b :: r) : s.raw ≠ invalid := by
  have hb := b.toNat_lt
  rcases raw_of_rest h with ⟨hr, -⟩ | ⟨hr, -⟩
  · rw [hr, toInt_toInt8, invalid]
    split_ifs
    · omega
    · omega
  · rw [hr, invalid]
    omega

theorem result_raw (h : s.stream.rest = b :: r) (he : s.raw ≠ eof) :
    (s.xchar s.raw).result = .char b := by
  unfold XChar.result xchar
  rw [if_neg he, if_neg (raw_ne_invalid h), toChar_raw h]

/-! ### Moving on in the stream -/

end Scanner

namespace Stream

/-- The bytes `t` to come start with a read of the underlying file, or there are none. -/
def Boundary (is : Stream) (t : Bytes) : Prop :=
  ∃ k, t = ((is.chunks.drop k).map Subtype.val).flatten

/-- The stream at a later place: it reads further only where its get area ends. -/
structure Moved (is is' : Stream) : Prop where
  fd : is'.fd = is.fd
  rest : ∃ p, is.rest = p ++ is'.rest
  boundary : ∀ t, t.length < is'.rest.length → is.Boundary t → is'.Boundary t
  origin : ∀ t, is'.Boundary t → is.Boundary t

variable {is is' is'' : Stream}

theorem Moved.refl (is : Stream) : is.Moved is := ⟨rfl, ⟨[], rfl⟩, fun _ _ h => h, fun _ h => h⟩

theorem Moved.trans (h : is.Moved is') (h' : is'.Moved is'') : is.Moved is'' := by
  obtain ⟨p, hp⟩ := h.rest
  obtain ⟨p', hp'⟩ := h'.rest
  refine ⟨h'.fd.trans h.fd, ⟨p ++ p', by rw [hp, hp', List.append_assoc]⟩, fun t ht hb => ?_,
    fun t hb => h.origin t (h'.origin t hb)⟩
  refine h'.boundary t ht (h.boundary t ?_ hb)
  rw [hp', List.length_append]
  omega

theorem boundary_underflow {t : Bytes} (ht : t.length < is.rest.length) (h : is.Boundary t) :
    is.underflow.Boundary t := by
  obtain ⟨fd, area, chunks, offset⟩ := is
  cases area with
  | cons b a => exact h
  | nil =>
    cases chunks with
    | nil => exact h
    | cons c cs =>
      obtain ⟨k, rfl⟩ := h
      cases k with
      | zero => exact absurd ht (lt_irrefl _)
      | succ k => exact ⟨k, rfl⟩

theorem boundary_bump {t : Bytes} : is.bump.Boundary t ↔ is.Boundary t := by
  unfold bump
  split <;> exact Iff.rfl

theorem moved_underflow (is : Stream) : is.Moved is.underflow := by
  refine ⟨?_, ⟨[], (Scanner.rest_underflow is).symm⟩, fun t ht => boundary_underflow ?_,
    fun t ⟨k, hk⟩ => ?_⟩
  · unfold underflow
    split <;> rfl
  · rwa [Scanner.rest_underflow] at ht
  · obtain ⟨fd, area, chunks, offset⟩ := is
    cases area with
    | cons b a => exact ⟨k, hk⟩
    | nil =>
      cases chunks with
      | nil => exact ⟨k, hk⟩
      | cons c cs => exact ⟨k + 1, hk⟩

theorem moved_bump (is : Stream) : is.Moved is.bump := by
  refine ⟨?_, ?_, fun _ _ => boundary_bump.mpr, fun _ => boundary_bump.mp⟩
  · unfold bump
    split <;> rfl
  · obtain ⟨fd, area, chunks, offset⟩ := is
    cases area with
    | nil => exact ⟨[], rfl⟩
    | cons b a => exact ⟨[b], rfl⟩

end Stream

namespace Scanner

/-- The scanner at a later place of its stream. -/
structure Moved (s t : Scanner) : Prop where
  stream : s.stream.Moved t.stream
  direct : (s.direct = true → s.stream.fd = true) → t.direct = true → t.stream.fd = true
  eq : t = { s with stream := t.stream, direct := t.direct, validated := t.validated }

variable {s : Scanner}

theorem moved_fill (s : Scanner) : Moved s s.fill ∧ s.fill.validated = s.validated := by
  unfold fill
  split
  · exact ⟨⟨.refl _, id, rfl⟩, rfl⟩
  · refine ⟨⟨Stream.moved_underflow _, fun h hd => ?_, rfl⟩, rfl⟩
    rw [(Stream.moved_underflow _).fd]
    rcases Bool.or_eq_true_iff.mp hd with hfd | hd
    · exact hfd
    · exact h hd

theorem moved_getByte (s : Scanner) : Moved s s.getByte ∧ s.getByte.validated = false := by
  unfold getByte
  split
  · refine ⟨⟨Stream.moved_bump _, fun h hd => ?_, rfl⟩, rfl⟩
    exact (Stream.moved_bump _).fd.trans (h hd)
  · exact ⟨⟨(Stream.moved_underflow _).trans (Stream.moved_bump _), fun _ => nofun, rfl⟩, rfl⟩

/-- Behind the byte that is got nothing is lost. -/
theorem boundary_getByte (s : Scanner) {t : Bytes} (ht : t.length < s.stream.rest.length)
    (h : s.stream.Boundary t) : s.getByte.stream.Boundary t := by
  unfold getByte
  split
  · exact Stream.boundary_bump.mpr h
  · exact Stream.boundary_bump.mpr (Stream.boundary_underflow ht h)

theorem Moved.trans {t u : Scanner} (h : Moved s t) (h' : Moved t u) : Moved s u := by
  refine ⟨h.stream.trans h'.stream, fun hs => h'.direct (h.direct hs), ?_⟩
  have h1 := h.eq
  have h2 := h'.eq
  rw [h1] at h2
  exact h2

/-- **The run of CR**: it is left for the byte behind it. -/
theorem skipCr_eq (s : Scanner) : ∃ u, s.skipCr = (u.raw, u.fill) ∧ Moved s u ∧
    u.validated = false ∧ u.stream.rest = s.stream.rest.tail.dropWhile (· = cr) := by
  fun_induction skipCr s with
  | case1 s h ih =>
    obtain ⟨u, hu, hm, hv, hr⟩ := ih
    refine ⟨u, hu, ((moved_getByte s).1.trans (moved_fill _).1).trans hm, hv, ?_⟩
    rw [hr, rest_fill, rest_getByte]
    cases hrest : s.stream.rest.tail with
    | nil =>
      rw [raw_of_rest_nil (by rw [rest_getByte, hrest])] at h
      exact absurd h (by decide)
    | cons b r =>
      have hb : b = cr := (raw_eq_cr_iff (by rw [rest_getByte, hrest])).mp h
      rw [List.dropWhile_cons_of_pos (by simpa using hb), List.tail_cons]
  | case2 s h =>
    refine ⟨s.getByte, rfl, (moved_getByte s).1, (moved_getByte s).2, ?_⟩
    rw [rest_getByte]
    cases hrest : s.stream.rest.tail with
    | nil => rfl
    | cons b r =>
      refine (List.dropWhile_cons_of_neg ?_).symm
      intro hb
      have hcr : b = cr := by simpa using hb
      exact h ((raw_eq_cr_iff (by rw [rest_getByte, hrest])).mpr hcr)

/-! ### The scanner follows its view -/

def view (s : Scanner) : View where
  rest := s.stream.rest
  crlf := s.crlf
  val := s.val
  seq := s.seq
  validated := s.validated
  eos := s.eos
  unpeek := s.unpeek.isSome
  unget := s.unget.map XChar.result

/-- No byte that the next call reads looks like the end of the file, or it is invalid anyway. -/
structure Trusty (s : Scanner) : Prop where
  head : ∀ b r, s.stream.rest = b :: r → s.raw = eof → s.seq ≠ none
  behindCr : ∀ r seq, s.stream.rest = cr :: r → s.view.check cr = some seq → s.crlf = true →
    s.stream.fd = true → hd (r.dropWhile (· = cr)) ≠ 0xFF

theorem Moved.view {t : Scanner} (h : Moved s t) :
    t.view = { s.view with rest := t.stream.rest, validated := t.validated } := by
  rw [h.eq]
  rfl

theorem Moved.wf {t : Scanner} (h : Moved s t) (hs : Wf s)
    (hv : t.validated = true → hd t.stream.rest ≠ 0xFF) : Wf t where
  direct := h.direct hs.direct
  decoded := by
    rw [h.eq]
    exact hs.decoded
  validated := hv
  unpeek := by
    rw [h.eq]
    exact hs.unpeek

theorem view_fill (s : Scanner) : s.fill.view = s.view := by
  rw [(moved_fill s).1.view, rest_fill, (moved_fill s).2]
  rfl

theorem wf_fill (hs : Wf s) : Wf s.fill :=
  (moved_fill s).1.wf hs (by rw [(moved_fill s).2, rest_fill]; exact hs.validated)

/-- The lambda `valid` against the check of the view. -/
theorem valid_eq (hs : Wf s) {v : Int} (hb : toChar v = b) :
    (s.view.check b = none → (s.valid v).1 = false) ∧
    ∀ seq, s.view.check b = some seq → (s.valid v).1 = true ∧
      (s.valid v).2.2 = { s with seq, decoded := seq.isNone, validated := true } := by
  cases hv : s.validated with
  | true =>
    have hc : s.view.check b = some s.seq := if_pos hv
    have hval : s.valid v = (true, "", s) := if_pos hv
    rw [hc, hval]
    refine ⟨nofun, fun seq hq => ?_⟩
    cases hq
    refine ⟨rfl, ?_⟩
    change s = _
    rw [← hs.decoded, ← hv]
  | false =>
    have hc : s.view.check b = (s.val.validate b s.seq).next := if_neg (by simp [view, hv])
    have hval : s.valid v = _ := if_neg (by simp [hv])
    rw [hc, hval, hb]
    dsimp only
    refine ⟨fun hn => by rw [hn]; rfl, fun seq hn => ?_⟩
    rw [Verdict.isLast_of_next hn, hn]
    exact ⟨rfl, rfl⟩

theorem ne_ff_of_check (hs : Wf s) (h : s.stream.rest = b :: r) {seq : Option Seq}
    (hc : s.view.check b = some seq) : b ≠ 0xFF := by
  rintro rfl
  cases hv : s.validated with
  | true =>
    refine hs.validated hv ?_
    rw [h]
    rfl
  | false =>
    have hn : s.view.check 0xFF = (s.val.validate 0xFF s.seq).next := if_neg (by simp [view, hv])
    rw [hn, Validator.next_validate_ff] at hc
    cases hc

/-- The newline for a run of CR and what follows it. -/
theorem translate_cr (hs : Wf s) (h : s.stream.rest = cr :: r) (hcrlf : s.crlf = true)
    (hff : s.stream.fd = true → hd (r.dropWhile (· = cr)) ≠ 0xFF) :
    (s.translate 13).c.result = .char lf ∧
      (s.translate 13).scanner.view = s.view.afterCr (r.dropWhile (· = cr)) ∧
      Wf (s.translate 13).scanner := by
  obtain ⟨u, hu, hm, hv, hr⟩ := skipCr_eq s
  rw [h, List.tail_cons] at hr
  have hw : Wf u := hm.wf hs (by rw [hv]; nofun)
  have hview : u.fill.view = { s.view with rest := r.dropWhile (· = cr), validated := false } := by
    rw [view_fill, hm.view, hr, hv]
  have hpeek : ∀ e, ({ u.fill with unpeek := some (u.fill.xchar 10), eos := e } : Scanner).view =
      { s.view with rest := r.dropWhile (· = cr), validated := false, unpeek := true, eos := e } :=
    fun e => congrArg (fun v : View => { v with unpeek := true, eos := e }) hview
  have hwf : ∀ e, Wf { u.fill with unpeek := some (u.fill.xchar 10), eos := e } := fun e =>
    ⟨(wf_fill hw).direct, (wf_fill hw).decoded, (wf_fill hw).validated, by
      intro c hc
      cases hc
      rfl⟩
  have ht : s.translate 13 = _ := if_pos ⟨hcrlf, rfl⟩
  rw [ht, hu]
  dsimp only
  unfold View.afterCr
  cases hd' : r.dropWhile (· = cr) with
  | nil =>
    have hraw : u.raw = eof := raw_of_rest_nil (hr.trans hd')
    rw [hraw, if_neg (by decide), if_neg (by decide)]
    rw [hd'] at hpeek
    exact ⟨rfl, hpeek _, hwf _⟩
  | cons x t =>
    have hx := hr.trans hd'
    rw [hd'] at hpeek hview hff
    rw [hd_cons]
    by_cases hlf : x = lf
    · rw [if_pos ((raw_eq_lf_iff hx).mpr hlf), if_pos hlf]
      exact ⟨rfl, hview, wf_fill hw⟩
    · have h10 : u.raw ≠ 10 := fun he => hlf ((raw_eq_lf_iff hx).mp he)
      have heof : u.raw ≠ eof := by
        intro he
        obtain ⟨hxff, a, hfast⟩ := eq_ff_of_raw hx he
        have hfd := hw.direct (area_ne_nil_of_fast hfast).1
        rw [hm.stream.fd] at hfd
        exact hff hfd hxff
      rw [if_neg h10, if_neg hlf, decide_eq_false heof]
      exact ⟨rfl, hpeek _, hwf _⟩

theorem peekNew_eq (hs : Wf s) (h : s.stream.rest = b :: r) (hraw : s.raw ≠ eof) :
    (s.view.check b = none → s.peekNew.c.result = .invalid) ∧
    ∀ seq, s.view.check b = some seq →
      s.peekNew =
        ({ s.fill with seq, decoded := seq.isNone, validated := true } : Scanner).translate
          s.raw := by
  obtain ⟨hinvalid, hvalid⟩ := valid_eq (wf_fill hs) (toChar_raw h)
  rw [view_fill] at hinvalid hvalid
  unfold peekNew peekByte
  dsimp only
  rw [if_neg hraw]
  refine ⟨fun hc => by rw [hinvalid hc]; rfl, fun seq hc => ?_⟩
  obtain ⟨hok, hscanner⟩ := hvalid seq hc
  rw [hok, if_pos rfl, hscanner]

/-- **The next character of the stream** is the next one of the view. -/
theorem peekNew_view (hs : Wf s) (ht : Trusty s) :
    s.peekNew.c.result = s.view.peekByte.1 ∧ (s.view.peekByte.1 ≠ .invalid →
      s.peekNew.scanner.view = s.view.peekByte.2 ∧ Wf s.peekNew.scanner) := by
  have hwf : ∀ e, Wf { s.fill with eos := e } := fun e =>
    ⟨(wf_fill hs).direct, (wf_fill hs).decoded, (wf_fill hs).validated, (wf_fill hs).unpeek⟩
  have hdec : s.fill.decoded = s.seq.isNone := by
    rw [(moved_fill s).1.eq]
    exact hs.decoded
  have hcrlf : s.fill.crlf = s.crlf := by rw [(moved_fill s).1.eq]
  have hfd : s.fill.stream.fd = s.stream.fd := (moved_fill s).1.stream.fd
  cases hrest : s.stream.rest with
  | nil =>
    rw [View.peekByte_nil hrest]
    unfold peekNew peekByte
    dsimp only
    rw [raw_of_rest_nil hrest, if_pos rfl]
    cases hq : s.seq with
    | none =>
      have hnone : s.view.seq.isNone = true := congrArg Option.isNone hq
      rw [if_pos (by rw [hdec, hq]; rfl), hnone]
      refine ⟨rfl, fun _ => ⟨?_, hwf true⟩⟩
      exact congrArg (fun v : View => { v with eos := true }) (view_fill s)
    | some q =>
      have hsome : s.view.seq.isNone = false := congrArg Option.isNone hq
      rw [if_neg (by rw [hdec, hq]; exact Bool.false_ne_true), hsome]
      exact ⟨rfl, fun h => absurd rfl h⟩
  | cons b r =>
    have hfill : s.fill.stream.rest = b :: r := (rest_fill s).trans hrest
    by_cases hraw : s.raw = eof
    · -- only inside of a sequence, where the byte is invalid
      obtain ⟨rfl, -⟩ := eq_ff_of_raw hrest hraw
      obtain ⟨q, hq⟩ := Option.ne_none_iff_exists'.mp (ht.head _ _ hrest hraw)
      have hnone : s.view.check 0xFF = none := by
        by_contra hne
        obtain ⟨seq, hc⟩ := Option.ne_none_iff_exists'.mp hne
        exact ne_ff_of_check hs hrest hc rfl
      rw [View.peekByte_invalid hrest hnone]
      unfold peekNew peekByte
      dsimp only
      rw [if_pos hraw, if_neg (by rw [hdec, hq]; exact Bool.false_ne_true)]
      exact ⟨rfl, fun h => absurd rfl h⟩
    obtain ⟨hinvalid, hvalid⟩ := peekNew_eq hs hrest hraw
    cases hc : s.view.check b with
    | none =>
      rw [View.peekByte_invalid hrest hc, hinvalid hc]
      exact ⟨rfl, fun h => absurd rfl h⟩
    | some seq =>
      rw [hvalid seq hc]
      have hview : ({ s.fill with seq, decoded := seq.isNone, validated := true } : Scanner).view =
          { s.view with seq, validated := true } :=
        congrArg (fun v : View => { v with seq, validated := true }) (view_fill s)
      have hw : Wf { s.fill with seq, decoded := seq.isNone, validated := true } :=
        ⟨(wf_fill hs).direct, rfl, fun _ => by rw [hfill]; exact ne_ff_of_check hs hrest hc,
          (wf_fill hs).unpeek⟩
      by_cases hcr : s.crlf = true ∧ b = cr
      · obtain ⟨htrue, rfl⟩ := hcr
        rw [View.peekByte_cr hrest hc htrue, (raw_eq_cr_iff hrest).mpr rfl]
        obtain ⟨h1, h2, h3⟩ := translate_cr hw hfill (hcrlf.trans htrue) fun h =>
          ht.behindCr _ _ hrest hc htrue (hfd.symm.trans h)
        refine ⟨h1, fun _ => ⟨?_, h3⟩⟩
        rw [h2, hview]
        unfold View.afterCr
        rfl
      · rw [View.peekByte_char hrest hc hcr]
        have ht : ∀ t : Scanner, t.crlf = s.crlf → t.translate s.raw = ⟨t.xchar s.raw, "", t⟩ :=
          fun t h => if_neg (by rw [h, raw_eq_cr_iff hrest]; exact hcr)
        rw [ht { s.fill with seq, decoded := seq.isNone, validated := true } hcrlf]
        exact ⟨result_raw hrest hraw, fun _ => ⟨hview, hw⟩⟩

theorem peek_new (hu : s.unget = []) (hp : s.unpeek = none) :
    s.peek = if s.eos then ⟨s.xchar eof, "", s⟩ else s.peekNew := by
  unfold peek
  rw [hu, hp]

theorem get_new (hu : s.unget = []) :
    s.get = (s.peek.c, s.peek.scanner.getPeeked s.peek.c) := by
  unfold get
  rw [hu]

theorem getPeeked_new (hu : s.unget = []) (c : XChar) :
    s.getPeeked c = (s.consume c).advance c := by
  unfold getPeeked
  rw [hu]

theorem peek_view (hs : Wf s) (ht : s.unget = [] → s.unpeek = none → s.eos = false → Trusty s) :
    s.peek.c.result = s.view.peek.1 ∧ (s.view.peek.1 ≠ .invalid →
      s.peek.scanner.view = s.view.peek.2 ∧ Wf s.peek.scanner) := by
  unfold peek View.peek
  cases hu : s.unget with
  | cons c u =>
    have hv : s.view.unget = c.result :: u.map XChar.result := congrArg (List.map XChar.result) hu
    rw [hv]
    exact ⟨rfl, fun _ => ⟨rfl, hs⟩⟩
  | nil =>
    have hv : s.view.unget = [] := congrArg (List.map XChar.result) hu
    rw [hv]
    cases hp : s.unpeek with
    | some c =>
      have hv : s.view.unpeek = true := congrArg Option.isSome hp
      dsimp only
      rw [if_pos hv]
      exact ⟨hs.unpeek c hp, fun _ => ⟨rfl, hs⟩⟩
    | none =>
      have hv : s.view.unpeek = false := congrArg Option.isSome hp
      have hif : ∀ {α : Type} (x y : α), (if s.view.unpeek = true then x else y) = y :=
        fun x y => if_neg (by rw [hv]; exact Bool.false_ne_true)
      dsimp only
      rw [hif]
      cases he : s.eos with
      | true =>
        have hv : s.view.eos = true := he
        rw [hv]
        exact ⟨rfl, fun _ => ⟨rfl, hs⟩⟩
      | false =>
        have hv : s.view.eos = false := he
        rw [hv]
        exact peekNew_view hs (ht hu hp he)

theorem stream_peekNew (s : Scanner) : s.stream.Moved s.peekNew.scanner.stream := by
  have hfill : s.stream.Moved s.fill.stream := (moved_fill s).1.stream
  unfold peekNew peekByte
  dsimp only
  by_cases hraw : s.raw = eof
  · rw [if_pos hraw]
    split_ifs <;> exact hfill
  rw [if_neg hraw]
  have hvalid : (s.fill.valid s.raw).2.2.stream = s.fill.stream := by
    unfold valid
    split_ifs <;> rfl
  split_ifs
  · unfold translate
    obtain ⟨u, hu, hm, -, -⟩ := skipCr_eq (s.fill.valid s.raw).2.2
    have hmu := hm.stream
    rw [hvalid] at hmu
    rw [hu]
    dsimp only
    split_ifs
    · exact (hfill.trans hmu).trans (moved_fill u).1.stream
    · exact (hfill.trans hmu).trans (moved_fill u).1.stream
    · rw [hvalid]
      exact hfill
  · rw [hvalid]
    exact hfill

theorem stream_peek (s : Scanner) : s.stream.Moved s.peek.scanner.stream := by
  unfold peek
  split
  · exact .refl _
  · exact .refl _
  · split_ifs
    · exact .refl _
    · exact stream_peekNew s

theorem eos_eq (c : XChar) : c.eos = true ↔ c.result = .eos := by
  unfold XChar.eos XChar.result
  rw [decide_eq_true_eq]
  split_ifs with h1 h2
  · simp [h1]
  · simp [h1]
  · simp [h1]

/-- Only the line, the column and the position are advanced. -/
theorem advance_eq (c : XChar) (s : Scanner) : ∃ line column position,
    s.advance c = { s with line, column, position } := by
  unfold advance
  split_ifs
  · exact ⟨_, _, _, rfl⟩
  · exact ⟨_, _, _, rfl⟩
  · exact ⟨_, _, _, rfl⟩
  · exact ⟨_, _, _, rfl⟩

theorem view_advance (c : XChar) (s : Scanner) : (s.advance c).view = s.view := by
  obtain ⟨_, _, _, h⟩ := advance_eq c s
  rw [h]
  rfl

theorem stream_advance (c : XChar) (s : Scanner) : (s.advance c).stream = s.stream := by
  obtain ⟨_, _, _, h⟩ := advance_eq c s
  rw [h]

theorem wf_advance (c : XChar) (hs : Wf s) : Wf (s.advance c) := by
  obtain ⟨_, _, _, h⟩ := advance_eq c s
  rw [h]
  exact ⟨hs.direct, hs.decoded, hs.validated, hs.unpeek⟩

theorem getPeeked_view (hs : Wf s) (c : XChar) :
    (s.getPeeked c).view = s.view.getPeeked c.result ∧ Wf (s.getPeeked c) := by
  cases hu : s.unget with
  | cons d u =>
    have hv : s.view.unget = d.result :: u.map XChar.result := congrArg (List.map XChar.result) hu
    unfold getPeeked View.getPeeked
    rw [hv, hu]
    exact ⟨rfl, ⟨hs.direct, hs.decoded, hs.validated, hs.unpeek⟩⟩
  | nil =>
    rw [View.getPeeked_new (congrArg (List.map XChar.result) hu)]
    rw [getPeeked_new hu, view_advance]
    suffices h : (s.consume c).view = _ ∧ Wf (s.consume c) from ⟨h.1, wf_advance c h.2⟩
    unfold consume
    cases hp : s.unpeek with
    | some d =>
      rw [if_pos (show s.view.unpeek = true from congrArg Option.isSome hp)]
      exact ⟨rfl, ⟨hs.direct, hs.decoded, hs.validated, nofun⟩⟩
    | none =>
      have hv : ¬ s.view.unpeek = true := by
        rw [show s.view.unpeek = false from congrArg Option.isSome hp]
        exact Bool.false_ne_true
      dsimp only
      rw [if_neg hv]
      by_cases he : c.eos = true
      · rw [if_pos he, if_pos ((eos_eq c).mp he)]
        exact ⟨rfl, hs⟩
      · rw [if_neg he, if_neg (fun h => he ((eos_eq c).mpr h))]
        obtain ⟨hm, hval⟩ := moved_getByte s
        refine ⟨?_, hm.wf hs (by rw [hval]; nofun)⟩
        rw [hm.view, rest_getByte, hval]
        rfl

theorem stream_getPeeked (s : Scanner) (c : XChar) :
    s.stream.Moved (s.getPeeked c).stream := by
  unfold getPeeked
  split
  · exact .refl _
  · rw [stream_advance]
    unfold consume
    split
    · exact .refl _
    · split_ifs
      · exact .refl _
      · exact (moved_getByte s).1.stream

theorem stream_get (s : Scanner) : s.stream.Moved s.get.2.stream := by
  unfold get
  split
  · exact .refl _
  · exact (stream_peek s).trans (stream_getPeeked _ _)

theorem get_view (hs : Wf s) (ht : s.unget = [] → s.unpeek = none → s.eos = false → Trusty s) :
    s.get.1.result = s.view.get.1 ∧ (s.view.get.1 ≠ .invalid →
      s.get.2.view = s.view.get.2 ∧ Wf s.get.2) := by
  unfold get View.get
  cases hu : s.unget with
  | cons c u =>
    have hv : s.view.unget = c.result :: u.map XChar.result := congrArg (List.map XChar.result) hu
    rw [hv]
    exact ⟨rfl, fun _ => ⟨rfl, ⟨hs.direct, hs.decoded, hs.validated, hs.unpeek⟩⟩⟩
  | nil =>
    have hv : s.view.unget = [] := congrArg (List.map XChar.result) hu
    rw [hv]
    obtain ⟨hr, hnext⟩ := peek_view hs ht
    refine ⟨hr, fun hne => ?_⟩
    obtain ⟨hview, hw⟩ := hnext hne
    obtain ⟨hview', hw'⟩ := getPeeked_view hw s.peek.c
    refine ⟨?_, hw'⟩
    rw [hview', hview, hr]

end Scanner

end

end Build2.Libbutl.CharScanner
