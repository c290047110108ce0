import Build2.Libbutl.Utf8.Encoding

/-! # Repairing a string

`to_utf8` replaces in place what is no valid UTF-8. The string in front of the current sequence has
been accepted at any time (`Repair.View`, `Stands`), so that the repaired string is accepted
(`utf8_toUtf8`), and a string that is accepted is left alone (`toUtf8_of_utf8`). -/

namespace Build2.Libbutl.Utf8

open Build2.Lib.ByteString

/-- The state of `to_utf8`: the string and the positions in it (the source position `i`, the
destination position `d`, and where the current destination sequence starts, `b`), and the state of
the validator. -/
structure Repair where
  buf : Bytes
  i : ℕ
  d : ℕ
  b : ℕ
  seq : Option Seq

namespace Repair

variable (repl c : UInt8) (last : Bool) (val : Validator)

/-- The lambda `replace_byte`. -/
def replaceByte (x : Repair) : Repair :=
  { x with buf := x.buf.set x.d repl, d := x.d + 1, b := x.d + 1 }

/-- `n` bytes from a position on are replaced. -/
def fill (buf : Bytes) (p : ℕ) : ℕ → Bytes
  | 0 => buf
  | n + 1 => fill (buf.set p repl) (p + 1) n

/-- The lambda `replace_sequence`. -/
def replaceSequence (x : Repair) : Repair :=
  { x with buf := fill repl x.buf x.b (x.d - x.b), b := x.d }

/-- The lambda `replace_codepoint`: "rewind to the beginning of the sequence." -/
def replaceCodepoint (x : Repair) : Repair := replaceByte repl { x with d := x.b }

/-- The lambda `append_byte`. -/
def appendByte (x : Repair) : Repair :=
  { x with buf := x.buf.set x.d c, d := x.d + 1, b := if last then x.d + 1 else x.b }

/-- `++i`, and the next state of the validator. -/
def advance (seq : Option Seq) (x : Repair) : Repair := { x with i := x.i + 1, seq := seq }

/-- A byte in the recovery cycle, with `utf8_validator::recover`, and whether to stay there. -/
def recover (x : Repair) : Repair × Bool :=
  if c &&& 0xC0 = 0x80 then (advance x.seq (replaceByte repl x), true)
  else
    match val.validate c none with
    | .part q => (advance (some q) (appendByte c false x), false)
    | .last _ => (advance none (appendByte c true x), false)
    | .undesired _ => (advance none (replaceCodepoint repl x), false)
    | .invalid _ => (advance none (replaceByte repl x), true)

/-- A byte outside of the recovery cycle. -/
def step (x : Repair) : Repair × Bool :=
  match val.validate c x.seq with
  | .part q => (advance (some q) (appendByte c false x), false)
  | .last _ => (advance none (appendByte c true x), false)
  | .undesired _ => (advance none (replaceCodepoint repl x), false)
  | .invalid _ => recover repl c val (replaceSequence repl x)

/-- The loops over the last `n` bytes of the string, in the recovery cycle or not. -/
def loop (repl : UInt8) (val : Validator) : ℕ → Repair × Bool → Repair
  | 0, (x, _) => x
  | n + 1, (x, recovering) =>
    let c := x.buf.getD x.i 0
    loop repl val n (if recovering then recover repl c val x else step repl c val x)

/-- "If the last byte sequence is incomplete, then replace its bytes", and shrink the string. -/
def finish (x : Repair) : Bytes :=
  let x := if x.b ≠ x.d then replaceSequence repl x else x
  x.buf.take x.d

end Repair

/-- `to_utf8`. -/
def toUtf8 (s : Bytes) (repl : UInt8) (val : Validator) : Bytes :=
  Repair.finish repl (Repair.loop repl val s.length (⟨s, 0, 0, 0, none⟩, false))

namespace Repair

/-! ### What the positions delimit -/

/-- The string consists of what is done, the current sequence, what is not used anymore, and the
source from the current position on. -/
structure View (x : Repair) (out cur rest : Bytes) : Prop where
  b : x.b = out.length
  d : x.d = (out ++ cur).length
  buf : ∃ gap, x.buf = out ++ cur ++ gap ++ rest ∧ x.i = (out ++ cur ++ gap).length

variable {repl c : UInt8} {val : Validator} {x : Repair} {out cur rest u w : Bytes}

theorem set_length (h : w ≠ []) : (u ++ w).set u.length c = u ++ c :: w.tail := by
  obtain ⟨b, w, rfl⟩ := List.exists_cons_of_ne_nil h
  simp

theorem fill_length (repl : UInt8) : ∀ (cur u w : Bytes),
    fill repl (u ++ cur ++ w) u.length cur.length = u ++ List.replicate cur.length repl ++ w
  | [], u, w => by simp [fill]
  | b :: cur, u, w => by
    have ih := fill_length repl cur (u ++ [repl]) w
    rw [List.length_append, List.length_singleton] at ih
    rw [List.length_cons, fill, List.append_assoc, set_length (by simp), List.replicate_succ]
    simpa using ih

theorem View.cursor (h : x.View out cur (c :: rest)) : x.buf.getD x.i 0 = c := by
  obtain ⟨gap, hb, hi⟩ := h.buf
  rw [hb, hi, List.getD_eq_getElem?_getD, List.getElem?_append_right (Nat.le_refl _), Nat.sub_self]
  rfl

theorem View.write (h : x.View out cur (c :: rest)) (a : UInt8) (seq : Option Seq) :
    ∃ gap, x.buf.set x.d a = out ++ cur ++ [a] ++ gap ++ rest ∧
      (advance seq x).i = (out ++ cur ++ [a] ++ gap).length := by
  obtain ⟨gap, hb, hi⟩ := h.buf
  have hg : x.buf = out ++ cur ++ (gap ++ [c] ++ rest) := by simp [hb]
  refine ⟨(gap ++ [c]).tail, ?_, ?_⟩
  · rw [h.d, hg, set_length (by simp), List.tail_append_of_ne_nil (by simp)]
    simp
  · show x.i + 1 = _
    rw [hi]
    simp only [List.length_append, List.length_tail, List.length_singleton]
    omega

theorem View.append (h : x.View out cur (c :: rest)) (seq : Option Seq) :
    (advance seq (appendByte c false x)).View out (cur ++ [c]) rest := by
  obtain ⟨gap, hb, hi⟩ := h.write c seq
  rw [List.append_assoc out] at hb hi
  refine ⟨h.b, ?_, gap, hb, hi⟩
  show x.d + 1 = _
  rw [h.d]
  simp [Nat.add_assoc]

theorem View.appendLast (h : x.View out cur (c :: rest)) (seq : Option Seq) :
    (advance seq (appendByte c true x)).View (out ++ cur ++ [c]) [] rest := by
  obtain ⟨gap, hb, hi⟩ := h.write c seq
  have hd : x.d + 1 = (out ++ cur ++ [c]).length := by
    rw [h.d]
    simp [Nat.add_assoc]
  exact ⟨hd, by rw [List.append_nil]; exact hd, gap, by rw [List.append_nil]; exact hb,
    by rw [List.append_nil]; exact hi⟩

theorem View.replaceByte (h : x.View out [] (c :: rest)) (seq : Option Seq) :
    (advance seq (replaceByte repl x)).View (out ++ [repl]) [] rest := by
  obtain ⟨gap, hb, hi⟩ := h.write repl seq
  have hd : x.d + 1 = (out ++ [repl]).length := by
    rw [h.d, List.append_nil]
    simp
  rw [List.append_nil] at hb hi
  exact ⟨hd, by rw [List.append_nil]; exact hd, gap, by rw [List.append_nil]; exact hb,
    by rw [List.append_nil]; exact hi⟩

theorem View.rewind (h : x.View out cur rest) : View { x with d := x.b } out [] rest := by
  obtain ⟨gap, hb, hi⟩ := h.buf
  exact ⟨h.b, by rw [List.append_nil]; exact h.b, cur ++ gap, by simp [hb], by simp [hi]⟩

theorem View.replaceCodepoint (h : x.View out cur (c :: rest)) (seq : Option Seq) :
    (advance seq (replaceCodepoint repl x)).View (out ++ [repl]) [] rest :=
  h.rewind.replaceByte seq

theorem View.replaceSequence (h : x.View out cur rest) :
    (replaceSequence repl x).View (out ++ List.replicate cur.length repl) [] rest := by
  obtain ⟨gap, hb, hi⟩ := h.buf
  have hd : x.d = (out ++ List.replicate cur.length repl).length := by simp [h.d]
  have hn : x.d - x.b = cur.length := by rw [h.d, h.b, List.length_append]; omega
  refine ⟨hd, by rw [List.append_nil]; exact hd, gap, ?_, by simp [hi, Repair.replaceSequence]⟩
  have hfill := fill_length repl cur out (gap ++ rest)
  show fill repl x.buf x.b (x.d - x.b) = _
  rw [hn, h.b, hb, List.append_nil, List.append_assoc _ gap rest, hfill]
  simp

theorem View.finish (h : x.View out cur []) :
    finish repl x = out ++ List.replicate cur.length repl := by
  have htake : ∀ {y : Repair} {out : Bytes}, y.View out [] [] → y.buf.take y.d = out := by
    intro y out hy
    obtain ⟨gap, hb, -⟩ := hy.buf
    rw [hb, hy.d]
    simp
  rw [Repair.finish]
  split_ifs with hbd
  · exact htake h.replaceSequence
  · have hcur : cur = [] := by
      rw [ne_eq, not_not, h.b, h.d, List.length_append] at hbd
      exact List.length_eq_zero_iff.mp (by omega)
    subst hcur
    rw [htake h]
    simp

/-! ### What has been accepted -/

/-- The string is accepted up to the current sequence, of which the validator knows unless the
string is being recovered (`r`). -/
structure Stands (val : Validator) (x : Repair) (r : Bool) (out cur : Bytes) : Prop where
  out : val.run none out = some none
  recovering : r = true → cur = []
  cur : r = false → val.run none cur = some x.seq ∧ (cur = [] ↔ x.seq = none)

theorem Stands.start (h : val.run none out = some none) (x : Repair) :
    Stands val (advance none x) false out [] :=
  ⟨h, fun _ => rfl, fun _ => ⟨rfl, by simp [advance]⟩⟩

theorem run_snoc {st : Option Seq} (h : val.run none u = some st) :
    val.run none (u ++ [c]) = (val.validate c st).next := by
  rw [Validator.run_append, h]
  show val.run st [c] = _
  rw [Validator.run]
  cases (val.validate c st).next <;> rfl

/-- Where a byte leads to. -/
def Leads (val : Validator) (rest : Bytes) (y : Repair × Bool) (out cur : Bytes) : Prop :=
  y.1.View out cur rest ∧ Stands val y.1 y.2 out cur

/-- **A byte in the recovery cycle.** -/
theorem recover_leads (hr : val.run none [repl] = some none) (h : x.View out [] (c :: rest))
    (ho : val.run none out = some none) :
    ∃ out' cur', Leads val rest (recover repl c val x) out' cur' := by
  have hrepl : val.run none (out ++ [repl]) = some none := by
    rw [Validator.run_append, ho]
    exact hr
  rw [recover]
  by_cases hc : c &&& 0xC0 = 0x80
  · rw [if_pos hc]
    exact ⟨_, _, h.replaceByte _, hrepl, fun _ => rfl, fun hf => by cases hf⟩
  rw [if_neg hc]
  have hrun : val.run none ([] ++ [c]) = (val.validate c none).next := run_snoc rfl
  cases hv : val.validate c none with
  | part q =>
    rw [hv] at hrun
    exact ⟨_, _, h.append _, ho, fun hf => (by cases hf), fun _ => ⟨hrun, by simp [advance]⟩⟩
  | last cp =>
    rw [hv] at hrun
    have hall := run_snoc (c := c) ho
    rw [hv] at hall
    rw [← List.append_nil out] at hall
    exact ⟨_, _, h.appendLast _, Stands.start hall _⟩
  | undesired what => exact ⟨_, _, h.replaceCodepoint _, Stands.start hrepl _⟩
  | invalid what => exact ⟨_, _, h.replaceByte _, hrepl, fun _ => rfl, fun hf => by cases hf⟩

theorem run_replicate (hr : val.run none [repl] = some none) (n : ℕ) :
    val.run none (List.replicate n repl) = some none := by
  induction n with
  | zero => rfl
  | succ n ih =>
    rw [List.replicate_succ', Validator.run_append, ih]
    exact hr

/-- **A byte outside of the recovery cycle.** If it is valid, it is kept. -/
theorem step_leads (hr : val.run none [repl] = some none) (h : x.View out cur (c :: rest))
    (hs : Stands val x false out cur) :
    ∃ out' cur', Leads val rest (step repl c val x) out' cur' ∧
      ∀ st, (val.validate c x.seq).next = some st →
        (step repl c val x).2 = false ∧ (step repl c val x).1.seq = st ∧
          out' ++ cur' = out ++ cur ++ [c] := by
  have hcur := (hs.cur rfl).1
  have hrun := run_snoc (c := c) hcur
  rw [step]
  cases hv : val.validate c x.seq with
  | part q =>
    rw [hv] at hrun
    refine ⟨out, cur ++ [c], ⟨h.append _, hs.out, fun hf => (by cases hf),
      fun _ => ⟨hrun, by simp [advance]⟩⟩, fun st hst => ?_⟩
    obtain rfl := Option.some.inj hst
    exact ⟨rfl, rfl, by rw [List.append_assoc]⟩
  | last cp =>
    rw [hv] at hrun
    have hall : val.run none (out ++ cur ++ [c]) = some none := by
      rw [List.append_assoc, Validator.run_append, hs.out]
      exact hrun
    refine ⟨_, _, ⟨h.appendLast _, Stands.start hall _⟩, fun st hst => ?_⟩
    obtain rfl := Option.some.inj hst
    exact ⟨rfl, rfl, by rw [List.append_nil]⟩
  | undesired what =>
    have hall : val.run none (out ++ [repl]) = some none := by
      rw [Validator.run_append, hs.out]
      exact hr
    exact ⟨_, _, ⟨h.replaceCodepoint _, Stands.start hall _⟩, fun st hst => by cases hst⟩
  | invalid what =>
    have hall : val.run none (out ++ List.replicate cur.length repl) = some none := by
      rw [Validator.run_append, hs.out]
      exact run_replicate hr _
    obtain ⟨out', cur', hl⟩ := recover_leads hr h.replaceSequence hall
    exact ⟨out', cur', hl, fun st hst => by cases hst⟩

/-- **The loops.** -/
theorem loop_leads (hr : val.run none [repl] = some none) {r : Bool} (h : x.View out cur rest)
    (hs : Stands val x r out cur) :
    ∃ out' cur', (loop repl val rest.length (x, r)).View out' cur' [] ∧
      val.run none out' = some none ∧
      (r = false → val.run x.seq rest = some none →
        out' ++ cur' = out ++ cur ++ rest ∧ cur' = []) := by
  induction rest generalizing x r out cur with
  | nil =>
    refine ⟨out, cur, h, hs.out, fun hf hrun => ⟨by simp, ?_⟩⟩
    exact (hs.cur hf).2.mpr (Option.some.inj hrun)
  | cons c rest ih =>
    rw [List.length_cons, loop, h.cursor]
    cases r with
    | true =>
      obtain rfl := hs.recovering rfl
      obtain ⟨out', cur', hv, hs'⟩ := recover_leads (c := c) hr h hs.out
      obtain ⟨out'', cur'', hv', ho, -⟩ := ih hv hs'
      exact ⟨out'', cur'', hv', ho, fun hf => by cases hf⟩
    | false =>
      obtain ⟨out', cur', ⟨hv, hs'⟩, hkeep⟩ := step_leads (c := c) hr h hs
      obtain ⟨out'', cur'', hv', ho, hall⟩ := ih hv hs'
      refine ⟨out'', cur'', hv', ho, fun _ hrun => ?_⟩
      rw [Validator.run] at hrun
      cases hn : (val.validate c x.seq).next with
      | none =>
        rw [hn] at hrun
        cases hrun
      | some st =>
        obtain ⟨h1, h2, h3⟩ := hkeep st hn
        rw [hn, ← h2] at hrun
        obtain ⟨he, hc⟩ := hall h1 hrun
        exact ⟨by rw [he, h3]; simp, hc⟩

end Repair

/-! ### The repaired string -/

variable {s : Bytes} {repl : UInt8} {val : Validator}

theorem toUtf8_eq (hr : val.utf8 [repl] = true) :
    val.run none (toUtf8 s repl val) = some none ∧
      (val.run none s = some none → toUtf8 s repl val = s) := by
  rw [Validator.utf8_iff] at hr
  have hview : Repair.View ⟨s, 0, 0, 0, none⟩ [] [] s := ⟨rfl, rfl, [], rfl, rfl⟩
  have hstands : Repair.Stands val ⟨s, 0, 0, 0, none⟩ false [] [] :=
    ⟨rfl, fun _ => rfl, fun _ => ⟨rfl, by simp⟩⟩
  obtain ⟨out, cur, hv, ho, hkeep⟩ := Repair.loop_leads hr hview hstands
  rw [toUtf8, hv.finish]
  refine ⟨?_, fun hs => ?_⟩
  · rw [Validator.run_append, ho]
    exact Repair.run_replicate hr _
  · obtain ⟨he, rfl⟩ := hkeep rfl hs
    simpa using he

/-- **The repaired string is accepted.** -/
theorem utf8_toUtf8 (s : Bytes) (hr : val.utf8 [repl] = true) :
    val.utf8 (toUtf8 s repl val) = true :=
  Validator.utf8_iff.mpr (toUtf8_eq hr).1

/-- **A string that is accepted is left alone.** -/
theorem toUtf8_of_utf8 (hr : val.utf8 [repl] = true) (hs : val.utf8 s = true) :
    toUtf8 s repl val = s :=
  (toUtf8_eq hr).2 (Validator.utf8_iff.mp hs)

/-- **Validation and repair**: the validator that lets all codepoints pass accepts just the
encodings of characters, and what `to_utf8` returns is accepted. -/
theorem validated_and_repaired :
    (∀ (wl : List UInt32) (s : Bytes),
      ((Validator.mk .any wl).utf8 s = true ↔
        ∃ cs : List Char, s = cs.flatMap String.utf8EncodeChar) ∧
      ∀ l, (Validator.mk .any wl).decode s = some l ↔
        ∃ cs : List Char, s = cs.flatMap String.utf8EncodeChar ∧ l = cs.map Char.val) ∧
    ∀ (val : Validator) (s : Bytes) (repl : UInt8), val.utf8 [repl] = true →
      val.utf8 (toUtf8 s repl val) = true ∧ (val.utf8 s = true → toUtf8 s repl val = s) ∧
        toUtf8 (toUtf8 s repl val) repl val = toUtf8 s repl val := by
  refine ⟨fun wl s => ?_, fun val s repl hr =>
    ⟨utf8_toUtf8 s hr, toUtf8_of_utf8 hr, toUtf8_of_utf8 hr (utf8_toUtf8 s hr)⟩⟩
  have hany : (Validator.mk .any wl).Any := rfl
  refine ⟨?_, fun l => hany.decode_eq_some_iff⟩
  rw [Validator.utf8_iff_decode]
  constructor
  · rintro ⟨l, hl⟩
    obtain ⟨cs, hs, -⟩ := hany.decode_eq_some_iff.mp hl
    exact ⟨cs, hs⟩
  · rintro ⟨cs, hs⟩
    exact ⟨_, hany.decode_eq_some_iff.mpr ⟨cs, hs, rfl⟩⟩

/-- A string that ends within a sequence. -/
theorem repaired_incomplete :
    (Validator.mk .any []).utf8 (toUtf8 [0x41, 0xC3] (ch '?') ⟨.any, []⟩) = true :=
  (validated_and_repaired.2 ⟨.any, []⟩ [0x41, 0xC3] (ch '?') (by decide)).1

end Build2.Libbutl.Utf8
