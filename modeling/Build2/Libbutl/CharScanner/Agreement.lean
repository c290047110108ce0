import Build2.Libbutl.CharScanner.Client
import Build2.Libbutl.CharScanner.Safe

/-! # Scanning a file and scanning a stream

Over an ordinary stream a client of the scanner sees what the bytes are. Over an `ifdstream` the
byte 0xFF, between two byte sequences, is taken for the end of the stream, unless it is the first
byte of a read and does not follow a translated CR. -/

namespace Build2.Libbutl.CharScanner

open Build2.Lib.ByteString Build2.Libbutl.Utf8

/-! ### Safe sessions -/

namespace Session

open Scanner

variable {n : Nat} {t : Session}

/-- The bytes ahead are safe, and a character that has been peeked is ready to be got. -/
structure SafeAhead (t : Session) : Prop where
  ahead : t.scanner.view.Ahead t.scanner.stream
  peeked : ∀ c, t.peeked = some c → c.result ≠ .eos → t.scanner.unget = [] →
    t.scanner.unpeek = none → t.scanner.eos = false → t.scanner.view.Ready t.scanner.stream

theorem SafeAhead.trusty (hw : Wf t.scanner) (h : SafeAhead t) : Trusty t :=
  fun _ _ he => trusty_of_ahead hw h.ahead he

/-- **One call** keeps the bytes ahead safe. -/
theorem SafeAhead.call (hw : Wf t.scanner) (h : SafeAhead t) {c : Call} {r : Option Result}
    {t' : Session} (hc : t.call n c = some (r, t')) (hne : r ≠ some .invalid) : SafeAhead t' := by
  cases c with
  | peek =>
    obtain ⟨rfl, rfl⟩ := Prod.mk.inj (Option.some.inj hc)
    rw [(peek_view hw (h.trusty hw)).1] at hne
    obtain ⟨hahead, hready⟩ := ahead_peek hw h.ahead (mt (congrArg some) hne)
    exact ⟨hahead, fun _ _ _ => hready⟩
  | get =>
    obtain ⟨rfl, rfl⟩ := Prod.mk.inj (Option.some.inj hc)
    rw [(get_view hw (h.trusty hw)).1] at hne
    exact ⟨ahead_get hw h.ahead (mt (congrArg some) hne), fun _ h => by cases h⟩
  | take =>
    obtain ⟨c, hpeeked, hc⟩ := Option.map_eq_some_iff.mp hc
    obtain ⟨rfl, rfl⟩ := Prod.mk.inj hc
    exact ⟨ahead_getPeeked c h.ahead (h.peeked c hpeeked), fun _ h => by cases h⟩
  | unget =>
    unfold Session.call at hc
    dsimp only at hc
    split_ifs at hc
    obtain ⟨rfl, rfl⟩ := Prod.mk.inj (Option.some.inj hc)
    exact ⟨h.ahead.congr rfl, fun _ h => by cases h⟩

/-- **A session with safe bytes ahead** gives what the bytes are. -/
theorem run_of_safeAhead (cs : List Call) (hw : Wf t.scanner) (h : SafeAhead t) :
    t.run n cs = t.reading.run n cs :=
  run_reading (P := fun t => Wf t.scanner ∧ SafeAhead t) (fun _ h => h.2.trusty h.1)
    (fun _ c r t' h hw hc hne => ⟨((call_reading hw (h.2.trusty hw) c).2 r t' hc hne).2,
      h.2.call hw hc hne⟩) cs t ⟨hw, h⟩ hw

/-- A scanner over an ordinary stream takes no byte from the buffer. -/
theorem trusty_of_ordinary (hw : Wf t.scanner) (hfd : t.scanner.stream.fd = false) : Trusty t := by
  refine fun _ _ _ => ⟨fun b r hr hraw => ?_, fun r seq _ _ _ h => ?_⟩
  · obtain ⟨-, a, hfast⟩ := eq_ff_of_raw hr hraw
    have := hw.direct (area_ne_nil_of_fast hfast).1
    rw [hfd] at this
    cases this
  · rw [hfd] at h
    cases h

theorem fd_call {c : Call} {r : Option Result} {t' : Session} (hc : t.call n c = some (r, t')) :
    t'.scanner.stream.fd = t.scanner.stream.fd := by
  cases c with
  | peek =>
    obtain ⟨-, rfl⟩ := Prod.mk.inj (Option.some.inj hc)
    exact (stream_peek _).fd
  | get =>
    obtain ⟨-, rfl⟩ := Prod.mk.inj (Option.some.inj hc)
    exact (stream_get _).fd
  | take =>
    obtain ⟨c, -, hc⟩ := Option.map_eq_some_iff.mp hc
    obtain ⟨-, rfl⟩ := Prod.mk.inj hc
    exact (stream_getPeeked _ c).fd
  | unget =>
    unfold Session.call at hc
    dsimp only at hc
    split_ifs at hc
    obtain ⟨-, rfl⟩ := Prod.mk.inj (Option.some.inj hc)
    rfl

/-- **A session over an ordinary stream** gives what the bytes are. -/
theorem run_of_ordinary (cs : List Call) (hw : Wf t.scanner) (hfd : t.scanner.stream.fd = false) :
    t.run n cs = t.reading.run n cs :=
  run_reading (P := fun t => Wf t.scanner ∧ t.scanner.stream.fd = false)
    (fun _ h => trusty_of_ordinary h.1 h.2)
    (fun _ c r t' h hw hc hne =>
      ⟨((call_reading hw (trusty_of_ordinary hw h.2) c).2 r t' hc hne).2, (fd_call hc).trans h.2⟩)
    cs t ⟨hw, hfd⟩ hw

theorem wf_start (is : Stream) (val : Validator) (crlf : Bool) :
    Wf (start is val crlf).scanner where
  direct := nofun
  decoded := rfl
  validated := nofun
  unpeek := nofun

end Session

/-! ### The buffer of a file -/

namespace Scanner

variable {s : Scanner} {b : UInt8} {r : Bytes}

/-- The get area belongs to the direct pointers. -/
def Filled (s : Scanner) : Prop := s.stream.area ≠ [] → s.direct = true

/-- The next byte can be taken directly. -/
def Loaded (s : Scanner) : Prop := s.stream.rest ≠ [] → s.fast ≠ []

theorem Loaded.filled (h : Loaded s) : Filled s := by
  intro ha
  have hrest : s.stream.rest ≠ [] := fun hnil => ha (List.append_eq_nil_iff.mp hnil).1
  obtain ⟨b, a, hfast⟩ := List.exists_cons_of_ne_nil (h hrest)
  exact (area_ne_nil_of_fast hfast).1

theorem loaded_fill (hfd : s.stream.fd = true) : Loaded s.fill := by
  intro hrest
  unfold Scanner.fill at hrest ⊢
  cases hfast : s.fast with
  | cons b a =>
    dsimp only
    rw [hfast]
    nofun
  | nil =>
    rw [hfast] at hrest
    unfold fast
    dsimp only at hrest ⊢
    rw [hfd, Bool.true_or, if_pos rfl]
    intro hnil
    rw [rest_underflow, rest_of_underflow_nil hnil] at hrest
    exact hrest rfl

theorem Loaded.getByte (h : Loaded s) : Filled s.getByte := by
  unfold Scanner.getByte
  cases hfast : s.fast with
  | cons b a => exact fun _ => (area_ne_nil_of_fast hfast).1
  | nil =>
    intro ha
    have hrest : s.stream.rest = [] := by
      by_contra hne
      exact h hne hfast
    have hu : s.stream.underflow.area = [] := by
      rw [← rest_underflow] at hrest
      exact (List.append_eq_nil_iff.mp hrest).1
    dsimp only at ha
    rw [Stream.bump, hu] at ha
    exact absurd hu ha

/-- Peeking takes the get area for the direct pointers. -/
theorem loaded_skipCr (s : Scanner) (hfd : s.stream.fd = true) : Loaded s.skipCr.2 := by
  fun_induction skipCr s with
  | case1 s h ih =>
    exact ih (((moved_getByte s).1.trans (moved_fill _).1).stream.fd.trans hfd)
  | case2 s h => exact loaded_fill ((moved_getByte s).1.stream.fd.trans hfd)

theorem Loaded.of_stream {t : Scanner} (h : Loaded s) (hs : t.stream = s.stream)
    (hd : t.direct = s.direct) : Loaded t := by
  unfold Loaded fast at *
  rwa [hs, hd]

theorem loaded_peekNew (s : Scanner) (hfd : s.stream.fd = true) : Loaded s.peekNew.scanner := by
  have hfill : Loaded s.fill := loaded_fill hfd
  have hvalid : (s.fill.valid s.raw).2.2.stream = s.fill.stream ∧
      (s.fill.valid s.raw).2.2.direct = s.fill.direct := by
    unfold valid
    split_ifs
    · exact ⟨rfl, rfl⟩
    · exact ⟨rfl, rfl⟩
  unfold peekNew peekByte
  dsimp only
  split_ifs
  · exact hfill.of_stream rfl rfl
  · exact hfill.of_stream rfl rfl
  · have hskip : Loaded (s.fill.valid s.raw).2.2.skipCr.2 :=
      loaded_skipCr _ (by rw [hvalid.1, (moved_fill s).1.stream.fd, hfd])
    unfold translate
    dsimp only
    split_ifs
    · exact hskip
    · exact hskip.of_stream rfl rfl
    · exact hfill.of_stream hvalid.1 hvalid.2
  · exact hfill.of_stream hvalid.1 hvalid.2

/-- Between two calls of `get`, with nothing looked ahead. -/
structure Fresh (s : Scanner) : Prop where
  wf : Wf s
  fd : s.stream.fd = true
  filled : Filled s
  unget : s.unget = []
  unpeek : s.unpeek = none
  eos : s.eos = false
  validated : s.validated = false

theorem Fresh.get (h : Fresh s) :
    s.get = (s.peekNew.c, s.peekNew.scanner.getPeeked s.peekNew.c) := by
  rw [get_new h.unget, peek_new h.unget h.unpeek, h.eos]
  rfl

theorem Fresh.view_get (h : Fresh s) : s.view.get =
    (s.view.peekByte.1, s.view.peekByte.2.getPeeked s.view.peekByte.1) := by
  have hu : s.view.unget = [] := congrArg (List.map XChar.result) h.unget
  rw [View.get_new hu, View.peek_new hu (congrArg Option.isSome h.unpeek) h.eos]

theorem filled_getPeeked (h : Loaded s) (c : XChar) : Filled (s.getPeeked c) := by
  have hadvance : ∀ t : Scanner, Filled t → Filled (t.advance c) := by
    intro t ht
    unfold advance
    split_ifs <;> exact ht
  unfold getPeeked
  split
  · exact h.filled
  · apply hadvance
    unfold consume
    split
    · exact h.filled
    · split_ifs
      · exact h.filled
      · exact h.getByte

theorem Fresh.next (h : Fresh s) (ht : Trusty s) {seq : Option Seq} {t : Bytes} {x : UInt8}
    (hv : s.view.get = (.char x, { s.view with rest := t, seq, validated := false })) :
    s.get.1.result = .char x ∧ Fresh s.get.2 ∧ s.get.2.stream.rest = t ∧ s.get.2.seq = seq ∧
      s.get.2.val = s.val ∧ s.get.2.crlf = s.crlf ∧ s.stream.Moved s.get.2.stream ∧
      s.get.2.view = s.view.get.2 := by
  obtain ⟨hr, hnext⟩ := get_view h.wf (fun _ _ _ => ht)
  rw [hv] at hr hnext
  obtain ⟨hview, hw⟩ := hnext (by nofun)
  have hfilled : Filled s.get.2 := by
    rw [h.get]
    exact filled_getPeeked (loaded_peekNew s h.fd) _
  refine ⟨hr, ⟨hw, (stream_get s).fd.trans h.fd, hfilled, ?_, ?_, ?_, ?_⟩, ?_, ?_, ?_, ?_,
    stream_get s, hview.trans (congrArg Prod.snd hv).symm⟩
  · have := congrArg View.unget hview
    exact List.map_eq_nil_iff.mp (this.trans (congrArg (List.map XChar.result) h.unget))
  · have := congrArg View.unpeek hview
    exact Option.isSome_eq_false_iff.mp
      (this.trans (congrArg Option.isSome h.unpeek)) |> Option.isNone_iff_eq_none.mp
  · exact (congrArg View.eos hview).trans h.eos
  · exact congrArg View.validated hview
  · exact congrArg View.rest hview
  · exact congrArg View.seq hview
  · exact congrArg View.val hview
  · exact congrArg View.crlf hview

theorem Fresh.view_char (h : Fresh s) (hr : s.stream.rest = b :: r) {seq : Option Seq}
    (hb : (s.val.validate b s.seq).next = some seq) (hcr : ¬ (s.crlf = true ∧ b = cr)) :
    s.view.get = (.char b, { s.view with rest := r, seq, validated := false }) := by
  have hc : s.view.check b = some seq := (check_new h.validated).trans hb
  rw [h.view_get, View.peekByte_char hr hc hcr,
    View.getPeeked_new (congrArg (List.map XChar.result) h.unget)]
  dsimp only
  rw [show s.view.unpeek = false from congrArg Option.isSome h.unpeek,
    show s.view.rest = _ from hr]
  rfl

theorem Fresh.view_cr (h : Fresh s) (hr : s.stream.rest = cr :: r) {seq : Option Seq}
    (hb : (s.val.validate cr s.seq).next = some seq) (hcrlf : s.crlf = true)
    (hne : r.dropWhile (· = cr) ≠ []) :
    s.view.get = (.char lf, { s.view with rest := behindCr r, seq, validated := false }) := by
  have hc : s.view.check cr = some seq := (check_new h.validated).trans hb
  have hu : s.view.unget = [] := congrArg (List.map XChar.result) h.unget
  have hup : s.view.unpeek = false := congrArg Option.isSome h.unpeek
  have he : s.view.eos = false := h.eos
  rw [h.view_get, View.peekByte_cr hr hc hcrlf]
  unfold View.afterCr behindCr
  by_cases hlf : hd (r.dropWhile (· = cr)) = lf
  · rw [if_pos hlf, if_pos hlf, View.getPeeked_new (by exact hu)]
    dsimp only
    rw [hup]
    rfl
  · rw [if_neg hlf, if_neg hlf, View.getPeeked_new (by exact hu)]
    dsimp only
    rw [if_pos rfl]
    simp only [decide_eq_false hne, he, hup]

/-- A directly taken 0xFF, between two sequences, is the end of the stream. -/
theorem peekNew_of_fast {a : Bytes} (hfast : s.fast = 0xFF :: a) (hd : s.decoded = true) :
    s.peekNew.c.result = .eos := by
  have hraw : s.raw = eof := by
    unfold raw
    rw [hfast]
    rfl
  have hfill : s.fill = s := by
    unfold fill
    rw [hfast]
  unfold peekNew peekByte
  dsimp only
  rw [if_pos hraw, hfill, if_pos hd]
  rfl

/-- The run of CR in front of a 0xFF is a newline, and then the stream ends. -/
theorem Fresh.get_ff (h : Fresh s) {q w : Bytes} (hr : s.stream.rest = cr :: (w ++ 0xFF :: q))
    (hw : ∀ b ∈ w, b = cr) {seq : Option Seq} (hb : (s.val.validate cr s.seq).next = some seq)
    (hcrlf : s.crlf = true) :
    s.get.1.result = .char lf ∧ s.get.2.get.1.result = .eos := by
  have hc : s.view.check cr = some seq := (check_new h.validated).trans hb
  obtain ⟨-, rfl⟩ := Validator.eq_none_of_ascii (by decide) hb
  have hraw : s.raw = 13 := (raw_eq_cr_iff hr).mpr rfl
  have hpeek := (peekNew_eq h.wf hr (by rw [hraw]; decide)).2 _ hc
  rw [hraw] at hpeek
  have hloaded := loaded_peekNew s h.fd
  obtain ⟨g, hg⟩ : ∃ g : Scanner, g =
      { s.fill with seq := none, decoded := (none : Option Seq).isNone, validated := true } :=
    ⟨_, rfl⟩
  have hgeq : g = { s with
      stream := g.stream, direct := g.direct, seq := none, decoded := true
      validated := true } := by
    rw [hg, (moved_fill s).1.eq]
    rfl
  have hgrest : g.stream.rest = cr :: (w ++ 0xFF :: q) := by
    rw [hg]
    exact (rest_fill s).trans hr
  -- the run of CR is skipped up to the 0xFF
  obtain ⟨u, hu, hm, -, hru⟩ := skipCr_eq g
  have hrest : u.stream.rest = 0xFF :: q := by
    rw [hru, hgrest, List.tail_cons, List.dropWhile_append_of_pos (by simpa using hw)]
    rfl
  have hne : u.raw ≠ 10 := fun he => absurd ((raw_eq_lf_iff hrest).mp he) (by decide)
  have ht : s.peekNew = ⟨u.fill.xchar 10, "",
      { u.fill with unpeek := some (u.fill.xchar 10), eos := u.raw = eof }⟩ := by
    rw [hpeek, ← hg]
    unfold translate
    rw [if_pos ⟨by rw [hgeq]; exact hcrlf, rfl⟩, hu]
    exact if_neg hne
  rw [ht] at hloaded
  have hueq : u.fill = { s with
      stream := u.fill.stream, direct := u.fill.direct, seq := none, decoded := true,
      validated := u.fill.validated } := by
    rw [(hm.trans (moved_fill u).1).eq, hgeq]
  -- the second character
  obtain ⟨v, hv⟩ : ∃ v : Scanner,
      v = { u.fill with unpeek := none, eos := decide (u.raw = eof) } := ⟨_, rfl⟩
  obtain ⟨l, k, p, hadv⟩ := advance_eq (u.fill.xchar 10) v
  have hunget : u.fill.unget = [] := by
    rw [hueq]
    exact h.unget
  obtain ⟨v', hv'⟩ : ∃ v' : Scanner, v' = { v with line := l, column := k, position := p } :=
    ⟨_, rfl⟩
  have hget : s.get = (u.fill.xchar 10, v') := by
    rw [h.get, ht, getPeeked_new (by exact hunget), hv', ← hadv, hv]
    rfl
  have hnew : v'.unget = [] ∧ v'.unpeek = none := by
    rw [hv', hv]
    exact ⟨hunget, rfl⟩
  rw [hget, get_new hnew.1, peek_new hnew.1 hnew.2]
  refine ⟨rfl, ?_⟩
  by_cases heof : v'.eos = true
  · rw [if_pos heof]
    rfl
  · rw [if_neg heof]
    have hfast : v'.stream = u.fill.stream ∧ v'.direct = u.fill.direct := by
      rw [hv', hv]
      exact ⟨rfl, rfl⟩
    have hrest' : v'.stream.rest = 0xFF :: q := by
      rw [hfast.1, rest_fill, hrest]
    have hload := hloaded.of_stream hfast.1 hfast.2
    rcases raw_of_rest hrest' with ⟨-, a, ha⟩ | ⟨-, ha⟩
    · refine peekNew_of_fast ha ?_
      rw [hv', hv]
      dsimp only
      rw [hueq]
    · exact absurd ha (hload (by rw [hrest']; exact List.cons_ne_nil _ _))

end Scanner

namespace Session

open Scanner

variable {n : Nat} {s : Scanner} {l : XChar}

/-- A session with a fresh scanner against its view, for a client that only gets. -/
def Differs (n : Nat) (s : Scanner) (l : XChar) : Prop :=
  ∃ k, run n (List.replicate k .get) ⟨s, l, none⟩ ≠
    Reading.run n (List.replicate k .get) ⟨s.view, l.result, none⟩

theorem run_get (cs : List Call) : run n (.get :: cs) ⟨s, l, none⟩ =
    s.get.1.result ::
      if s.get.1.result = .invalid then [] else run n cs ⟨s.get.2, s.get.1, none⟩ := by
  rw [run]
  simp [call]

theorem reading_run_get {v : View} {r : Result} (cs : List Call) :
    Reading.run n (.get :: cs) ⟨v, r, none⟩ =
      v.get.1 :: if v.get.1 = .invalid then [] else Reading.run n cs ⟨v.get.2, v.get.1, none⟩ := by
  rw [Reading.run]
  simp [Reading.call]

theorem differs_of_ne (h : s.get.1.result ≠ s.view.get.1) : Differs n s l := by
  refine ⟨1, fun heq => h ?_⟩
  rw [List.replicate_one, run_get, reading_run_get] at heq
  exact (List.cons.inj heq).1

theorem differs_of_next {x : UInt8} (hx : s.get.1.result = .char x) (hv : s.view.get.1 = .char x)
    (hview : s.get.2.view = s.view.get.2) (h : Differs n s.get.2 s.get.1) : Differs n s l := by
  obtain ⟨k, hk⟩ := h
  refine ⟨k + 1, fun heq => hk ?_⟩
  rw [List.replicate_succ, run_get, reading_run_get, hx, hv] at heq
  rw [hview, hx]
  exact (List.cons.inj heq).2

/-- The scanner takes a 0xFF from the buffer for the end of the stream. -/
theorem differs_of_head {q : Bytes} (h : Fresh s) (hr : s.stream.rest = 0xFF :: q)
    (hseq : s.seq = none) (hb : ¬ s.stream.Boundary (0xFF :: q)) : Differs n s l := by
  have harea : s.stream.area ≠ [] := fun hnil => hb ⟨0, by
    rw [← hr, Stream.rest, hnil]
    rfl⟩
  have hfast : s.fast = s.stream.area := if_pos (h.filled harea)
  have hview : s.view.get.1 = .invalid := by
    have hc : s.view.check 0xFF = none := (check_new h.validated).trans Validator.next_validate_ff
    rw [h.view_get, View.peekByte_invalid hr hc]
  refine differs_of_ne ?_
  rw [hview, h.get]
  rcases raw_of_rest hr with ⟨-, a, ha⟩ | ⟨-, ha⟩
  · rw [peekNew_of_fast ha (by rw [h.wf.decoded, hseq]; rfl)]
    intro heq
    cases heq
  · exact absurd (hfast.symm.trans ha) harea

/-- The scanner takes a 0xFF behind a translated CR for the end of the stream. -/
theorem differs_of_cr {q w : Bytes} (h : Fresh s) (hr : s.stream.rest = cr :: (w ++ 0xFF :: q))
    (hw : ∀ b ∈ w, b = cr) {seq : Option Seq} (hb : (s.val.validate cr s.seq).next = some seq)
    (hcrlf : s.crlf = true) : Differs n s l := by
  have hd : (w ++ 0xFF :: q).dropWhile (· = cr) = 0xFF :: q := by
    rw [List.dropWhile_append_of_pos (by simpa using hw)]
    rfl
  have hbehind : behindCr (w ++ 0xFF :: q) = 0xFF :: q := by
    rw [behindCr_run hw]
    rfl
  have hview := h.view_cr hr hb hcrlf (by rw [hd]; exact List.cons_ne_nil _ _)
  have hview2 : s.view.get.2.get.1 = .invalid := by
    rw [hview, hbehind]
    have hc : ({ s.view with rest := 0xFF :: q, seq, validated := false } : View).check 0xFF =
      none := (check_new rfl).trans Validator.next_validate_ff
    have hu : s.view.unget = [] := congrArg (List.map XChar.result) h.unget
    rw [View.get_new (by exact hu),
      View.peek_new (by exact hu) (by exact congrArg Option.isSome h.unpeek) (by exact h.eos),
      View.peekByte_invalid rfl hc]
  obtain ⟨h1, h2⟩ := h.get_ff hr hw hb hcrlf
  refine ⟨2, fun heq => ?_⟩
  rw [show List.replicate 2 Call.get = [.get, .get] from rfl, run_get, reading_run_get, h1,
    show s.view.get.1 = _ from congrArg Prod.fst hview, run_get, reading_run_get, h2, hview2] at heq
  simp at heq

theorem behindCr_append {w : Bytes} (hw : ∀ b ∈ w, b = cr) {x : UInt8} (hx : x ≠ cr)
    (t s : Bytes) : behindCr (w ++ x :: t ++ s) = behindCr (w ++ x :: t) ++ s := by
  rw [List.append_assoc, List.cons_append, behindCr_run hw, behindCr_run hw]
  by_cases hlf : x = lf
  · rw [hlf, behindCr_lf, behindCr_lf]
  · rw [behindCr_other hx hlf, behindCr_other hx hlf, List.cons_append]

/-- **Bytes that are not safe are noticed**: by induction on the bytes in front of the 0xFF. -/
theorem differs_of_danger {q : Bytes} : ∀ (m : Nat) (p : Bytes) (s : Scanner) (l : XChar),
    p.length ≤ m → Fresh s → s.stream.rest = p ++ 0xFF :: q →
    reads s.val s.crlf s.seq p = some none →
    ¬ s.stream.Boundary (0xFF :: q) ∨ s.crlf = true ∧ p.getLast? = some cr → Differs n s l := by
  intro m
  induction m with
  | zero =>
    intro p s l hm h hr hreads hdanger
    obtain rfl := List.length_eq_zero_iff.mp (Nat.le_zero.mp hm)
    rw [reads_nil] at hreads
    rcases hdanger with hb | ⟨-, hlast⟩
    · exact differs_of_head h hr (Option.some.inj hreads) hb
    · cases hlast
  | succ m ih =>
    intro p s l hm h hr hreads hdanger
    cases p with
    | nil => exact ih [] s l (Nat.zero_le m) h hr hreads hdanger
    | cons b p =>
      have hm' : p.length ≤ m := Nat.le_of_succ_le_succ hm
      obtain ⟨seq, hb⟩ : ∃ seq, (s.val.validate b s.seq).next = some seq := by
        rw [reads] at hreads
        cases hb : (s.val.validate b s.seq).next with
        | none => rw [hb] at hreads; cases hreads
        | some seq => exact ⟨seq, rfl⟩
      by_cases hcr : s.crlf = true ∧ b = cr
      · obtain ⟨htrue, rfl⟩ := hcr
        obtain ⟨-, rfl⟩ := Validator.eq_none_of_ascii (by decide) hb
        obtain ⟨w, t, rfl, hw, hx, ht⟩ := exists_run p
        cases t with
        | nil =>
          rw [List.append_nil] at hr
          exact differs_of_cr h hr hw hb htrue
        | cons x t =>
          rw [List.cons_append] at hr
          rw [hd_cons] at hx
          have happ := behindCr_append hw hx t (0xFF :: q)
          have hd : (w ++ x :: t ++ 0xFF :: q).dropWhile (· = cr) = x :: (t ++ 0xFF :: q) := by
            rw [List.append_assoc, List.dropWhile_append_of_pos (by simpa using hw)]
            exact List.dropWhile_cons_of_neg (by simpa using hx)
          have hview := h.view_cr hr hb htrue (by rw [hd]; exact List.cons_ne_nil _ _)
          rw [reads_cr hb htrue] at hreads
          have hff : x ≠ 0xFF := by
            rintro rfl
            rw [behindCr_run hw, behindCr_other hx (by decide), reads,
              Validator.next_validate_ff] at hreads
            cases hreads
          have htrusty : Scanner.Trusty s := by
            constructor
            · intro b' r hr' hraw
              obtain ⟨rfl, -⟩ := eq_ff_of_raw hr' hraw
              exact absurd (List.cons.inj (hr.symm.trans hr')).1 (by decide)
            · intro r seq' hr' _ _ _
              rw [← (List.cons.inj (hr.symm.trans hr')).2, hd]
              exact hff
          obtain ⟨hx', hfresh, hrest, hseq, hval, hcrlf, hmoved, hv⟩ := h.next htrusty hview
          have hlen := (length_behindCr_le (w ++ x :: t)).trans hm'
          refine differs_of_next hx' (congrArg Prod.fst hview) hv
            (ih _ _ _ hlen hfresh (hrest.trans happ) ?_ ?_)
          · rw [hval, hcrlf, hseq]
            exact hreads
          · refine hdanger.imp (fun hbound hbound' => hbound (hmoved.origin _ hbound')) ?_
            rintro ⟨-, hlast⟩
            refine ⟨hcrlf.trans htrue, ?_⟩
            rw [← List.cons_append,
              List.getLast?_append_of_ne_nil _ (List.cons_ne_nil _ _)] at hlast
            rw [behindCr_run hw]
            by_cases hlf : x = lf
            · subst hlf
              rw [behindCr_lf]
              cases t with
              | nil => exact absurd (Option.some.inj hlast) (by decide)
              | cons y t => exact hlast
            · rw [behindCr_other hx hlf, hlast]
      · have hview := h.view_char hr hb hcr
        have htrusty : Scanner.Trusty s := by
          constructor
          · intro b' r hr' hraw
            obtain ⟨rfl, -⟩ := eq_ff_of_raw hr' hraw
            obtain rfl := (List.cons.inj (hr.symm.trans hr')).1
            rw [Validator.next_validate_ff] at hb
            cases hb
          · intro r seq' hr' _ hcrlf _
            exact absurd ⟨hcrlf, (List.cons.inj (hr.symm.trans hr')).1⟩ hcr
        obtain ⟨hx, hfresh, hrest, hseq, hval, hcrlf, hmoved, hv⟩ := h.next htrusty hview
        refine differs_of_next hx (congrArg Prod.fst hview) hv (ih p _ _ hm' hfresh hrest ?_ ?_)
        · rw [hval, hcrlf, hseq, ← reads_cons hb hcr]
          exact hreads
        · refine hdanger.imp (fun hbound hbound' => hbound (hmoved.origin _ hbound')) ?_
          rintro ⟨htrue, hlast⟩
          refine ⟨hcrlf.trans htrue, ?_⟩
          rw [List.getLast?_cons] at hlast
          cases hp : p.getLast? with
          | none =>
            rw [hp] at hlast
            exact absurd ⟨htrue, Option.some.inj hlast⟩ hcr
          | some y =>
            rw [hp] at hlast
            exact hlast

end Session

/-! ### The two ways to read -/

/-- The chunks hold a 0xFF that the scanner takes for the end of the stream: reading gets to it
between two sequences, and it is not the first byte of a chunk or follows a CR that is
translated. -/
def Dangerous (val : Validator) (crlf : Bool) (chunks : List Chunk) : Prop :=
  ∃ p q, (chunks.map Subtype.val).flatten = p ++ 0xFF :: q ∧ reads val crlf none p = some none ∧
    (¬ (∃ k, 0xFF :: q = ((chunks.drop k).map Subtype.val).flatten) ∨
      crlf = true ∧ p.getLast? = some cr)

/-- **Reading from a file and from a stream agree**, for every client, exactly when the chunks are
not dangerous. -/
theorem run_ofChunks_iff (val : Validator) (crlf : Bool) (n : Nat) (chunks : List Chunk) :
    (∀ cs, (Session.start (.ofChunks chunks) val crlf).run n cs =
      (Session.start (.ofBytes (chunks.map Subtype.val).flatten) val crlf).run n cs) ↔
    ¬ Dangerous val crlf chunks := by
  have hview : (Session.start (.ofBytes (chunks.map Subtype.val).flatten) val crlf).reading =
      (Session.start (.ofChunks chunks) val crlf).reading :=
    congrArg (fun r => (⟨⟨r, crlf, val, none, false, false, false, []⟩, _, none⟩ : Reading))
      (List.append_nil _)
  have hbytes := fun cs => Session.run_of_ordinary (n := n) cs
    (Session.wf_start (.ofBytes (chunks.map Subtype.val).flatten) val crlf) rfl
  have hwf := Session.wf_start (.ofChunks chunks) val crlf
  constructor
  · rintro hagree ⟨p, q, hflat, hreads, hdanger⟩
    have hfresh : (Session.start (.ofChunks chunks) val crlf).scanner.Fresh :=
      ⟨hwf, rfl, fun h => absurd rfl h, rfl, rfl, rfl, rfl⟩
    obtain ⟨k, hk⟩ := Session.differs_of_danger (n := n) p.length p _ ⟨0, 0, 0, 0⟩ le_rfl hfresh
      hflat hreads hdanger
    refine hk ((hagree _).trans ((hbytes _).trans ?_))
    rw [hview]
    rfl
  · intro hsafe cs
    rw [hbytes, hview]
    refine Session.run_of_safeAhead cs hwf ⟨.new rfl fun p q hflat hreads => ?_, nofun⟩
    constructor
    · by_contra hbound
      exact hsafe ⟨p, q, hflat, hreads, Or.inl hbound⟩
    · exact fun hlast => hsafe ⟨p, q, hflat, hreads, Or.inr hlast⟩

/-- The second of two bytes read at once: from a file it ends the stream, from a stream it is
invalid. -/
theorem not_run_ofChunks : ¬ ∀ (val : Validator) (crlf : Bool) (n : Nat) (chunks : List Chunk)
    (cs : List Call), (Session.start (.ofChunks chunks) val crlf).run n cs =
      (Session.start (.ofBytes (chunks.map Subtype.val).flatten) val crlf).run n cs := by
  intro h
  exact absurd (h ⟨.any, []⟩ true 1 [⟨[97, 0xFF], by decide⟩] [.get, .get]) (by decide)

end Build2.Libbutl.CharScanner
