import Build2.Libbutl.CharScanner.View

/-! # Safe bytes

Reading bytes to their end, and the bytes to come that hold no 0xFF where the scanner would take it
for the end of the stream. That these are ahead is kept by peeking and by getting. -/

namespace Build2.Libbutl.CharScanner

open Build2.Lib.ByteString Build2.Libbutl.Utf8

/-! ### Reading bytes -/

/-- The position behind a run of CR and a newline that follows it. -/
def behindCr (p : Bytes) : Bytes :=
  if hd (p.dropWhile (· = cr)) = lf then (p.dropWhile (· = cr)).tail else p.dropWhile (· = cr)

theorem length_behindCr_le (p : Bytes) : (behindCr p).length ≤ p.length := by
  have h := (List.dropWhile_sublist (fun b => b = cr) (l := p)).length_le
  unfold behindCr
  split_ifs
  · rw [List.length_tail]
    omega
  · exact h

/-- Reading the bytes `p` to their end: the state of the validator, if all are valid. The bytes
behind a CR that is translated are not validated. -/
def reads (val : Validator) (crlf : Bool) (seq : Option Seq) : Bytes → Option (Option Seq)
  | [] => some seq
  | b :: p =>
    match (val.validate b seq).next with
    | none => none
    | some seq => reads val crlf seq (if crlf = true ∧ b = cr then behindCr p else p)
termination_by p => p.length
decreasing_by
  have := length_behindCr_le p
  split_ifs <;> simp only [List.length_cons] <;> omega

section

variable {val : Validator} {crlf : Bool} {seq seq' : Option Seq} {b : UInt8} {p q r : Bytes}

@[simp] theorem reads_nil : reads val crlf seq [] = some seq := by
  rw [reads]

theorem reads_cons (h : (val.validate b seq).next = some seq')
    (hcr : ¬ (crlf = true ∧ b = cr)) :
    reads val crlf seq (b :: p) = reads val crlf seq' p := by
  rw [reads, h]
  dsimp only
  rw [if_neg hcr]

theorem reads_cr (h : (val.validate cr seq).next = some seq') (hcrlf : crlf = true) :
    reads val crlf seq (cr :: p) = reads val crlf seq' (behindCr p) := by
  rw [reads, h]
  dsimp only
  rw [if_pos ⟨hcrlf, rfl⟩]

theorem exists_run (r : Bytes) : ∃ w t, r = w ++ t ∧ (∀ b ∈ w, b = cr) ∧ hd t ≠ cr ∧
    r.dropWhile (· = cr) = t := by
  induction r with
  | nil => exact ⟨[], [], rfl, nofun, by decide, rfl⟩
  | cons b r ih =>
    by_cases hb : b = cr
    · obtain ⟨w, t, hr, hw, ht, hd'⟩ := ih
      refine ⟨b :: w, t, by rw [hr]; rfl, ?_, ht, ?_⟩
      · intro x hx
        rcases List.mem_cons.mp hx with rfl | hx
        · exact hb
        · exact hw x hx
      · rw [List.dropWhile_cons_of_pos (by simpa using hb), hd']
    · exact ⟨[], b :: r, rfl, nofun, hb, List.dropWhile_cons_of_neg (by simpa using hb)⟩

theorem behindCr_run {w : Bytes} (hw : ∀ b ∈ w, b = cr) (p : Bytes) :
    behindCr (w ++ p) = behindCr p := by
  unfold behindCr
  rw [List.dropWhile_append_of_pos (by simpa using hw)]

theorem behindCr_lf (p : Bytes) : behindCr (lf :: p) = p := rfl

theorem behindCr_other (hcr : b ≠ cr) (hlf : b ≠ lf) : behindCr (b :: p) = b :: p := by
  unfold behindCr
  rw [List.dropWhile_cons_of_neg (by simpa using hcr), hd_cons, if_neg hlf]

theorem getLast?_run {w : Bytes} (hw : ∀ b ∈ w, b = cr) : (cr :: w).getLast? = some cr := by
  rw [List.getLast?_cons]
  cases hlast : w.getLast? with
  | none => rfl
  | some b =>
    rw [hw b (List.mem_of_getLast? hlast)]
    rfl

/-- The bytes `r` hold no 0xFF that the scanner takes for the end of the stream: where the reading
of them gets to one between two sequences, a read starts there and there is no CR before it. -/
def Safe (val : Validator) (crlf : Bool) (is : Stream) (seq : Option Seq) (r : Bytes) : Prop :=
  ∀ p q, r = p ++ 0xFF :: q → reads val crlf seq p = some none →
    is.Boundary (0xFF :: q) ∧ ¬ (crlf = true ∧ p.getLast? = some cr)

/-- Moving on keeps the reads that start behind the first byte. -/
theorem Safe.moved {is is' : Stream} (hm : is.Moved is') (h : Safe val crlf is seq r)
    (hr : r.length < is'.rest.length ∨ r.length = is'.rest.length ∧ hd r ≠ 0xFF) :
    Safe val crlf is' seq r := by
  intro p q hpq hreads
  refine ⟨hm.boundary _ ?_ (h p q hpq hreads).1, (h p q hpq hreads).2⟩
  rcases hr with hr | ⟨hr, hff⟩
  · rw [hpq, List.length_append] at hr
    omega
  · rw [← hr, hpq, List.length_append]
    cases p with
    | nil =>
      rw [hpq] at hff
      exact absurd rfl hff
    | cons x p =>
      simp only [List.length_cons]
      omega

theorem Safe.tail {is : Stream} (h : Safe val crlf is seq (b :: r))
    (hb : (val.validate b seq).next = some seq') (hcr : ¬ (crlf = true ∧ b = cr)) :
    Safe val crlf is seq' r := by
  rintro p q rfl hreads
  obtain ⟨hbound, hlast⟩ := h (b :: p) q rfl (by rw [reads_cons hb hcr, hreads])
  refine ⟨hbound, fun ⟨hc, hp⟩ => hlast ⟨hc, ?_⟩⟩
  rw [List.getLast?_cons, hp]
  rfl

theorem Safe.ne_ff {is : Stream} (h : Safe val crlf is seq (cr :: r))
    (hb : (val.validate cr seq).next = some seq') (hcrlf : crlf = true) :
    hd (r.dropWhile (· = cr)) ≠ 0xFF := by
  obtain ⟨-, rfl⟩ := Validator.eq_none_of_ascii (by decide) hb
  obtain ⟨w, t, rfl, hw, -, ht⟩ := exists_run r
  rw [ht]
  intro hff
  have hreads : reads val crlf seq (cr :: w) = some none := by
    rw [reads_cr hb hcrlf, ← List.append_nil w, behindCr_run hw]
    exact reads_nil
  have hcons := eq_cons_of_hd hff (by decide)
  refine (h (cr :: w) t.tail ?_ hreads).2 ⟨hcrlf, getLast?_run hw⟩
  rw [List.cons_append, ← hcons]

theorem Safe.behindCr {is : Stream} (h : Safe val crlf is seq (cr :: r))
    (hb : (val.validate cr seq).next = some seq') (hcrlf : crlf = true) :
    Safe val crlf is none (behindCr r) := by
  obtain ⟨-, rfl⟩ := Validator.eq_none_of_ascii (by decide) hb
  have hff := h.ne_ff hb hcrlf
  obtain ⟨w, t, rfl, hw, hcr, ht⟩ := exists_run r
  rw [ht] at hff
  rw [behindCr_run hw]
  have hlast : ∀ (u p : Bytes), p ≠ [] → (cr :: (w ++ (u ++ p))).getLast? = p.getLast? :=
    fun u p hp => by
      rw [← List.append_assoc, ← List.cons_append, List.getLast?_append_of_ne_nil _ hp]
  intro p q hpq hreads
  cases t with
  | nil =>
    rw [show CharScanner.behindCr [] = [] from rfl] at hpq
    exact absurd hpq.symm (by simp)
  | cons x t =>
    by_cases hlf : x = lf
    · subst hlf
      rw [behindCr_lf] at hpq
      subst hpq
      obtain ⟨hbound, hend⟩ := h (cr :: (w ++ (lf :: p))) q (by simp)
        (by rw [reads_cr hb hcrlf, behindCr_run hw, behindCr_lf, hreads])
      refine ⟨hbound, fun ⟨hc, hp⟩ => hend ⟨hc, ?_⟩⟩
      have hne : p ≠ [] := by
        rintro rfl
        cases hp
      rw [← hp]
      exact hlast [lf] p hne
    · rw [hd_cons] at hcr
      rw [behindCr_other hcr hlf] at hpq
      cases p with
      | nil => exact absurd (List.cons.inj hpq).1 hff
      | cons y p =>
        obtain ⟨rfl, rfl⟩ := List.cons.inj hpq
        obtain ⟨hbound, hend⟩ := h (cr :: (w ++ (x :: p))) q (by simp)
          (by rw [reads_cr hb hcrlf, behindCr_run hw, behindCr_other hcr hlf, hreads])
        refine ⟨hbound, fun ⟨hc, hp⟩ => hend ⟨hc, ?_⟩⟩
        rw [← hp]
        exact hlast [] (x :: p) (by simp)

end

/-! ### Safe sessions -/

/-- The next byte has been peeked: it is valid, or it is the newline behind a CR. -/
inductive View.Ready (v : View) (is : Stream) : Prop
  | validated (b : UInt8) (r : Bytes) : v.validated = true → v.rest = b :: r →
      ¬ (v.crlf = true ∧ b = cr) → Safe v.val v.crlf is v.seq r → Ready v is
  | newline (r : Bytes) : v.validated = false → v.rest = lf :: r → v.seq = none →
      Safe v.val v.crlf is none r → Ready v is

/-- The bytes to come are safe, from where the client is. -/
inductive View.Ahead (v : View) (is : Stream) : Prop
  | eos : v.eos = true → Ahead v is
  | new : v.validated = false → Safe v.val v.crlf is v.seq v.rest → Ahead v is
  | ready : v.Ready is → Ahead v is

section

variable {v : View} {is is' : Stream} {b : UInt8} {r : Bytes} {seq : Option Seq}

theorem check_new (hv : v.validated = false) : v.check b = (v.val.validate b v.seq).next := by
  unfold View.check
  rw [if_neg (by rw [hv]; exact Bool.false_ne_true)]

theorem check_validated (hv : v.validated = true) : v.check b = some v.seq := by
  unfold View.check
  rw [if_pos hv]

/-- **Peeking the next byte** keeps what is ahead safe. -/
theorem ahead_peekByte (h : v.Ahead is) (he : v.eos = false) (hm : is.Moved is')
    (hrest : v.peekByte.2.rest = is'.rest) (hne : v.peekByte.1 ≠ .invalid)  :
    v.peekByte.2.Ahead is' ∧ (v.peekByte.2.eos = false → v.peekByte.2.unpeek = false →
      v.peekByte.2.Ready is') := by
  cases hr : v.rest with
  | nil =>
    rw [View.peekByte_nil hr]
    exact ⟨.eos rfl, nofun⟩
  | cons b r =>
    cases hc : v.check b with
    | none =>
      rw [View.peekByte_invalid hr hc] at hne
      exact absurd rfl hne
    | some seq =>
      by_cases hcr : v.crlf = true ∧ b = cr
      · obtain ⟨hcrlf, rfl⟩ := hcr
        rw [View.peekByte_cr hr hc hcrlf] at hrest ⊢
        cases h with
        | eos h => rw [he] at h; cases h
        | ready h =>
          cases h with
          | validated b' r' hv hr' hcr' hs =>
            rw [hr] at hr'
            exact absurd ⟨hcrlf, (List.cons.inj hr').1.symm⟩ hcr'
          | newline r' hv hr' hq hs =>
            rw [hr] at hr'
            exact absurd (List.cons.inj hr').1 (by decide)
        | new hv hs =>
          rw [hr] at hs
          rw [check_new hv] at hc
          have hff := hs.ne_ff hc hcrlf
          have hsafe := hs.behindCr hc hcrlf
          obtain ⟨-, rfl⟩ := Validator.eq_none_of_ascii (by decide) hc
          unfold View.afterCr at hrest ⊢
          unfold behindCr at hsafe
          split_ifs at hrest hsafe ⊢ with hlf
          · have ht := eq_cons_of_hd hlf (by decide)
            have hready : ({ v with
                seq := none, rest := r.dropWhile (· = cr), validated := false } : View).Ready is' :=
              .newline _ rfl ht rfl (hsafe.moved hm (Or.inl (by
                rw [← hrest, ht]
                exact Nat.lt_succ_self _)))
            exact ⟨.ready hready, fun _ _ => hready⟩
          · refine ⟨.new rfl (hsafe.moved hm (Or.inr ⟨by rw [← hrest], hff⟩)), fun _ h => ?_⟩
            cases h
      · rw [View.peekByte_char hr hc hcr] at hrest ⊢
        have hlen : r.length < is'.rest.length := by
          rw [← hrest, show ({ v with seq, validated := true } : View).rest = b :: r from hr]
          exact Nat.lt_succ_self _
        have hready : ({ v with seq, validated := true } : View).Ready is' := by
          refine .validated b r rfl hr hcr ?_
          cases h with
          | eos h => rw [he] at h; cases h
          | new hv hs =>
            rw [hr] at hs
            rw [check_new hv] at hc
            exact (hs.tail hc hcr).moved hm (Or.inl hlen)
          | ready h =>
            cases h with
            | validated b' r' hv hr' hcr' hs =>
              rw [hr] at hr'
              obtain ⟨rfl, rfl⟩ := List.cons.inj hr'
              rw [check_validated hv] at hc
              cases hc
              exact hs.moved hm (Or.inl hlen)
            | newline r' hv hr' hq hs =>
              rw [hr] at hr'
              obtain ⟨rfl, rfl⟩ := List.cons.inj hr'
              rw [check_new hv] at hc
              obtain ⟨-, rfl⟩ := Validator.eq_none_of_ascii (by decide) hc
              exact hs.moved hm (Or.inl hlen)
        exact ⟨.ready hready, fun _ _ => hready⟩

/-- What is ahead does not depend on the look-ahead. -/
theorem View.Ahead.congr {w : View} (h : v.Ahead is)
    (hw : w = { v with unpeek := w.unpeek, unget := w.unget }) : w.Ahead is := by
  rw [hw]
  cases h with
  | eos h => exact .eos h
  | new hv hs => exact .new hv hs
  | ready h =>
    cases h with
    | validated b r hv hr hcr hs => exact .ready (.validated b r hv hr hcr hs)
    | newline r hv hr hq hs => exact .ready (.newline r hv hr hq hs)

/-- Where a read starts, the get area is empty. -/
theorem area_of_boundary (h : is.Boundary is.rest) : is.area = [] := by
  obtain ⟨k, hk⟩ := h
  have hle : ((is.chunks.drop k).map Subtype.val).flatten.length ≤
      (is.chunks.map Subtype.val).flatten.length := by
    conv_rhs => rw [← List.take_append_drop k is.chunks]
    rw [List.map_append, List.flatten_append, List.length_append]
    exact Nat.le_add_left _ _
  rw [← hk, Stream.rest, List.length_append] at hle
  exact List.length_eq_zero_iff.mp (by omega)

end

namespace Scanner

variable {s : Scanner}

theorem trusty_of_ahead (hs : Wf s) (h : s.view.Ahead s.stream) (he : s.eos = false) :
    Trusty s := by
  constructor
  · intro b r hr hraw hseq
    obtain ⟨rfl, a, hfast⟩ := eq_ff_of_raw hr hraw
    cases h with
    | eos h => exact absurd (he.symm.trans h) Bool.false_ne_true
    | new hv hsafe =>
      have hb := (hsafe [] r hr (by rw [show s.view.seq = none from hseq]; exact reads_nil)).1
      rw [← hr] at hb
      have ha := (area_ne_nil_of_fast hfast).2
      rw [area_of_boundary hb] at ha
      cases ha
    | ready h =>
      cases h with
      | validated b' r' hv hr' hcr' hsafe =>
        refine hs.validated hv ?_
        rw [hr]
        rfl
      | newline r' hv hr' hq hsafe =>
        have heq := hr.symm.trans hr'
        exact absurd (List.cons.inj heq).1 (by decide)
  · intro r seq hr hc hcrlf _
    cases h with
    | eos h => exact absurd (he.symm.trans h) Bool.false_ne_true
    | new hv hsafe =>
      rw [show s.view.rest = _ from hr] at hsafe
      rw [check_new hv] at hc
      exact hsafe.ne_ff hc hcrlf
    | ready h =>
      cases h with
      | validated b' r' hv hr' hcr' hsafe =>
        have heq := hr.symm.trans hr'
        exact absurd ⟨hcrlf, (List.cons.inj heq).1.symm⟩ hcr'
      | newline r' hv hr' hq hsafe =>
        have heq := hr.symm.trans hr'
        exact absurd (List.cons.inj heq).1 (by decide)

/-- **Peeking** keeps what is ahead safe. -/
theorem ahead_peek (hs : Wf s) (h : s.view.Ahead s.stream) (hne : s.view.peek.1 ≠ .invalid) :
    s.peek.scanner.view.Ahead s.peek.scanner.stream ∧
      (s.peek.scanner.unget = [] → s.peek.scanner.unpeek = none → s.peek.scanner.eos = false →
        s.peek.scanner.view.Ready s.peek.scanner.stream) := by
  cases hu : s.unget with
  | cons c u =>
    have hp : s.peek = ⟨c, "", s⟩ := by
      unfold peek
      rw [hu]
    rw [hp]
    refine ⟨h, fun hnil => ?_⟩
    rw [show s.unget = _ from hu] at hnil
    cases hnil
  | nil =>
    cases hup : s.unpeek with
    | some c =>
      have hp : s.peek = ⟨c, "", s⟩ := by
        unfold peek
        rw [hu, hup]
      rw [hp]
      refine ⟨h, fun _ hnone => ?_⟩
      rw [show s.unpeek = _ from hup] at hnone
      cases hnone
    | none =>
      have hp := peek_new hu hup
      cases he : s.eos with
      | true =>
        rw [hp, if_pos he]
        refine ⟨h, fun _ _ hfalse => ?_⟩
        rw [show s.eos = _ from he] at hfalse
        cases hfalse
      | false =>
        have hv : s.view.peek = s.view.peekByte :=
          View.peek_new (congrArg (List.map XChar.result) hu) (congrArg Option.isSome hup) he
        rw [hv] at hne
        rw [hp, if_neg (by rw [he]; exact Bool.false_ne_true)]
        obtain ⟨-, hnext⟩ := peekNew_view hs (trusty_of_ahead hs h he)
        obtain ⟨hview, -⟩ := hnext hne
        obtain ⟨h1, h2⟩ := ahead_peekByte h he (stream_peekNew s)
          (by rw [← hview]; rfl) hne
        rw [← hview] at h1 h2
        exact ⟨h1, fun _ hnone hfalse => h2 hfalse (congrArg Option.isSome hnone)⟩

/-- **Getting** keeps what is ahead safe. -/
theorem ahead_getPeeked (c : XChar) (h : s.view.Ahead s.stream)
    (hready : c.result ≠ .eos → s.unget = [] → s.unpeek = none → s.eos = false →
      s.view.Ready s.stream) :
    (s.getPeeked c).view.Ahead (s.getPeeked c).stream := by
  cases hu : s.unget with
  | cons d u =>
    have hg : s.getPeeked c = { s with unget := u } := by
      unfold getPeeked
      rw [hu]
    rw [hg]
    exact h.congr rfl
  | nil =>
    rw [getPeeked_new hu, view_advance, stream_advance]
    unfold consume
    cases hup : s.unpeek with
    | some d => exact h.congr rfl
    | none =>
      dsimp only
      by_cases he : c.eos = true
      · rw [if_pos he]
        exact h
      rw [if_neg he]
      obtain ⟨hm, hval⟩ := moved_getByte s
      rw [hm.view, rest_getByte, hval]
      cases hseos : s.eos with
      | true => exact .eos hseos
      | false =>
        have hsafe : ∀ b r, s.stream.rest = b :: r → Safe s.val s.crlf s.stream s.seq r →
            Safe s.val s.crlf s.getByte.stream s.seq s.stream.rest.tail := by
          intro b r hr hs p q hpq hreads
          rw [hr, List.tail_cons] at hpq
          refine ⟨boundary_getByte s ?_ (hs p q hpq hreads).1, (hs p q hpq hreads).2⟩
          rw [hr, hpq]
          simp only [List.length_cons, List.length_append]
          omega
        refine .new rfl ?_
        cases hready (fun h => he ((eos_eq c).mpr h)) hu hup hseos with
        | validated b r hv hr hcr hs => exact hsafe b r hr hs
        | newline r hv hr hq hs =>
          refine hsafe lf r hr ?_
          rw [show s.seq = none from hq]
          exact hs

theorem ahead_get (hs : Wf s) (h : s.view.Ahead s.stream) (hne : s.view.get.1 ≠ .invalid) :
    s.get.2.view.Ahead s.get.2.stream := by
  unfold View.get at hne
  unfold get
  cases hu : s.unget with
  | cons d u => exact h.congr rfl
  | nil =>
    rw [show s.view.unget = [] from congrArg (List.map XChar.result) hu] at hne
    obtain ⟨hahead, hready⟩ := ahead_peek hs h hne
    exact ahead_getPeeked _ hahead fun _ => hready

end Scanner

end Build2.Libbutl.CharScanner
