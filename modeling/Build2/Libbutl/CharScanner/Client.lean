import Build2.Libbutl.CharScanner.View

/-! # Clients of the scanner

A client of the scanner makes calls and sees characters, the end of the stream and invalid
characters. It sees the same of the scanner and of its view, as long as the scanner reads no byte
that looks like the end of the file. -/

namespace Build2.Libbutl.CharScanner

open Build2.Lib.ByteString Build2.Libbutl.Utf8

/-! ### Clients -/

/-- The calls of a client: `peek ()`, `get ()`, `get (peeked)` after a `peek`, and `unget` of the
character that was got last. -/
inductive Call
  | peek
  | get
  | take
  | unget
  deriving DecidableEq

/-- The scanner, the character that was got last and the one that has just been peeked. -/
structure Session where
  scanner : Scanner
  last : XChar
  peeked : Option XChar

namespace Session

/-- One call: what the client sees and the session after it. The scanner takes back at most `n`
characters, and `get (peeked)` needs a peeked character. -/
def call (n : Nat) (t : Session) : Call → Option (Option Result × Session)
  | .peek =>
    some (some t.scanner.peek.c.result, ⟨t.scanner.peek.scanner, t.last, some t.scanner.peek.c⟩)
  | .get => some (some t.scanner.get.1.result, ⟨t.scanner.get.2, t.scanner.get.1, none⟩)
  | .take => t.peeked.map fun c => (none, ⟨t.scanner.getPeeked c, c, none⟩)
  | .unget =>
    if t.scanner.unget.length = n then none
    else some (none, ⟨{ t.scanner with unget := t.last :: t.scanner.unget }, t.last, none⟩)

/-- What a client sees. After an invalid character it makes no more calls. -/
def run (n : Nat) : List Call → Session → List Result
  | [], _ => []
  | c :: cs, t =>
    match t.call n c with
    | none => []
    | some (r, t) => r.toList ++ if r = some .invalid then [] else run n cs t

/-- A session with a new scanner. -/
def start (is : Stream) (val : Validator) (crlf : Bool) : Session :=
  ⟨Scanner.open' is val crlf, ⟨0, 0, 0, 0⟩, none⟩

end Session

/-- An `ifdstream` from which the chunks are read. -/
def Stream.ofChunks (chunks : List Chunk) : Stream := ⟨true, [], chunks, 0⟩

/-- An ordinary stream of the bytes. -/
def Stream.ofBytes (bytes : Bytes) : Stream := ⟨false, bytes, [], 0⟩

/-! ### Clients of the view -/

/-- A session with the view of the scanner. -/
structure Reading where
  view : View
  last : Result
  peeked : Option Result

namespace Reading

def call (n : Nat) (t : Reading) : Call → Option (Option Result × Reading)
  | .peek => some (some t.view.peek.1, ⟨t.view.peek.2, t.last, some t.view.peek.1⟩)
  | .get => some (some t.view.get.1, ⟨t.view.get.2, t.view.get.1, none⟩)
  | .take => t.peeked.map fun c => (none, ⟨t.view.getPeeked c, c, none⟩)
  | .unget =>
    if t.view.unget.length = n then none
    else some (none, ⟨{ t.view with unget := t.last :: t.view.unget }, t.last, none⟩)

def run (n : Nat) : List Call → Reading → List Result
  | [], _ => []
  | c :: cs, t =>
    match t.call n c with
    | none => []
    | some (r, t) => r.toList ++ if r = some .invalid then [] else run n cs t

end Reading

namespace Session

def reading (t : Session) : Reading := ⟨t.scanner.view, t.last.result, t.peeked.map XChar.result⟩

variable {n : Nat} {t : Session}

open Scanner

/-- The call reads no byte that looks like the end of the file. -/
def Trusty (t : Session) : Prop :=
  t.scanner.unget = [] → t.scanner.unpeek = none → t.scanner.eos = false → t.scanner.Trusty

/-- **One call** of a client gives the same as with the view. -/
theorem call_reading (hw : Wf t.scanner) (ht : Trusty t) (c : Call) :
    (t.call n c).map Prod.fst = (t.reading.call n c).map Prod.fst ∧
    ∀ r t', t.call n c = some (r, t') → r ≠ some .invalid →
      t.reading.call n c = some (r, t'.reading) ∧ Wf t'.scanner := by
  cases c with
  | peek =>
    obtain ⟨hr, hnext⟩ := peek_view hw ht
    unfold call Reading.call
    refine ⟨congrArg (some ∘ some) hr, fun r t' h hne => ?_⟩
    obtain ⟨rfl, rfl⟩ := Prod.mk.inj (Option.some.inj h)
    rw [hr] at hne
    obtain ⟨hview, hw'⟩ := hnext (mt (congrArg some) hne)
    exact ⟨by simp only [reading, hview, hr, Option.map_some], hw'⟩
  | get =>
    obtain ⟨hr, hnext⟩ := get_view hw ht
    unfold call Reading.call
    refine ⟨congrArg (some ∘ some) hr, fun r t' h hne => ?_⟩
    obtain ⟨rfl, rfl⟩ := Prod.mk.inj (Option.some.inj h)
    rw [hr] at hne
    obtain ⟨hview, hw'⟩ := hnext (mt (congrArg some) hne)
    exact ⟨by simp only [reading, hview, hr, Option.map_none], hw'⟩
  | take =>
    cases hp : t.peeked with
    | none =>
      have h1 : t.call n .take = none := by simp only [call, hp, Option.map_none]
      have h2 : t.reading.call n .take = none := by
        simp only [Reading.call, reading, hp, Option.map_none]
      rw [h1, h2]
      exact ⟨rfl, fun _ _ h => by cases h⟩
    | some c =>
      have h1 : t.call n .take = some (none, ⟨t.scanner.getPeeked c, c, none⟩) := by
        simp only [call, hp, Option.map_some]
      have h2 : t.reading.call n .take =
          some (none, ⟨t.scanner.view.getPeeked c.result, c.result, none⟩) := by
        simp only [Reading.call, reading, hp, Option.map_some]
      obtain ⟨hview, hw'⟩ := getPeeked_view hw c
      rw [h1, h2]
      refine ⟨rfl, fun r t' h _ => ?_⟩
      obtain ⟨rfl, rfl⟩ := Prod.mk.inj (Option.some.inj h)
      exact ⟨by simp only [hview, reading, Option.map_none], hw'⟩
  | unget =>
    have hlen : t.reading.view.unget.length = t.scanner.unget.length := List.length_map _
    unfold call Reading.call
    dsimp only
    rw [hlen]
    split_ifs with hn
    · exact ⟨rfl, fun _ _ h => by cases h⟩
    · refine ⟨rfl, fun r t' h _ => ?_⟩
      obtain ⟨rfl, rfl⟩ := Prod.mk.inj (Option.some.inj h)
      exact ⟨rfl, ⟨hw.direct, hw.decoded, hw.validated, hw.unpeek⟩⟩

/-- **A whole session** gives the same as with the view, if the trust is kept. -/
theorem run_reading {P : Session → Prop} (hP : ∀ t, P t → Trusty t)
    (hstep : ∀ t c r t', P t → Wf t.scanner → t.call n c = some (r, t') →
      r ≠ some .invalid → P t') :
    ∀ (cs : List Call) (t : Session), P t → Wf t.scanner → t.run n cs = t.reading.run n cs
  | [], _, _, _ => rfl
  | c :: cs, t, hp, hw => by
    obtain ⟨hr, hnext⟩ := call_reading (n := n) hw (hP t hp) c
    unfold run Reading.run
    cases hc : t.call n c with
    | none =>
      rw [hc] at hr
      rw [Option.map_eq_none_iff.mp hr.symm]
    | some p =>
      obtain ⟨r, t'⟩ := p
      rw [hc] at hr
      obtain ⟨q, hq, hqr⟩ := Option.map_eq_some_iff.mp hr.symm
      obtain ⟨r', u⟩ := q
      obtain rfl : r' = r := hqr
      dsimp only
      by_cases hne : r' = some .invalid
      · rw [hq, if_pos hne]
        exact congrArg (_ ++ ·) (if_pos hne).symm
      · obtain ⟨hu, hw'⟩ := hnext _ _ hc hne
        rw [hu, if_neg hne]
        dsimp only
        rw [if_neg hne, run_reading hP hstep cs t' (hstep t c _ t' hp hw hc hne) hw']

end Session

end Build2.Libbutl.CharScanner
