import Build2.Libbutl.Manifest.Layout

/-! # The pairs of a manifest stream

The calls of `next` return the manifests of a text one after the other, each between a pair with the
format version and a pair that ends it, and then a pair that ends the stream. One step of the parser
moves between the states so that this is all that it can return, and consumes something of the text
unless it ends. -/

namespace Build2.Libbutl.Manifest

open Build2.Lib.ByteString Build2.Lib.Stateful
open CharScanner (cr lf)

/-- The pairs that `next` returns before it throws, at most `n`, and what it throws. -/
def calls : ℕ → Parser → List NameValue × Option Fault
  | 0, _ => ([], none)
  | n + 1, p =>
    match p.parseNext with
    | .error e => ([], some e)
    | .ok (nv, p) => (nv :: (calls n p).1, (calls n p).2)

/-! ### Streams -/

/-- A name in a manifest. -/
structure IsName (name : Bytes) : Prop where
  ne_nil : name ≠ []
  chars : ∀ c ∈ name, c ≠ ch ':' ∧ isBlank c = false ∧ c ≠ lf

/-- The pairs of a manifest. -/
def manifest (body : List (Bytes × Bytes)) : List (Bytes × Bytes) :=
  ([], str ['1']) :: body ++ [([], [])]

/-- The pairs of manifests and the one at the end of the stream. -/
def stream (manifests : List (List (Bytes × Bytes))) : List (Bytes × Bytes) :=
  manifests.flatMap manifest ++ [([], [])]

/-- The pairs of a whole stream. -/
def IsStream (pairs : List (Bytes × Bytes)) : Prop :=
  ∃ manifests, pairs = stream manifests ∧ ∀ body ∈ manifests, ∀ nv ∈ body, IsName nv.1

/-- The pairs that are returned from a state on. -/
inductive Remainder : State → List (Bytes × Bytes) → Prop
  | finish : Remainder .start [([], [])]
  | stop : Remainder .ended [([], [])]
  | version {l : List (Bytes × Bytes)} (h : Remainder .body l) :
    Remainder .start (([], str ['1']) :: l)
  | pair {name value : Bytes} {l : List (Bytes × Bytes)} (hn : IsName name)
    (h : Remainder .body l) : Remainder .body ((name, value) :: l)
  | close {s : State} {l : List (Bytes × Bytes)} (h : Remainder s l) (hs : s ≠ .body) :
    Remainder .body (([], []) :: l)

/-- A remainder in the middle of a manifest starts with the rest of its pairs. -/
theorem Remainder.isStream {s : State} {l : List (Bytes × Bytes)} (h : Remainder s l) :
    if s = .body then ∃ body rest, l = body ++ ([], []) :: rest ∧ (∀ nv ∈ body, IsName nv.1) ∧
      IsStream rest
    else IsStream l := by
  induction h with
  | finish => exact ⟨[], rfl, by simp⟩
  | stop => exact ⟨[], rfl, by simp⟩
  | version h ih =>
    obtain ⟨body, rest, rfl, hbody, ms, rfl, hms⟩ := ih
    refine ⟨body :: ms, by simp [stream, manifest], fun b hb => ?_⟩
    obtain rfl | hb := List.mem_cons.mp hb
    · exact hbody
    · exact hms b hb
  | @pair name value l hn h ih =>
    obtain ⟨body, rest, rfl, hbody, hrest⟩ := ih
    refine ⟨(name, value) :: body, rest, rfl, fun nv hnv => ?_, hrest⟩
    obtain rfl | hnv := List.mem_cons.mp hnv
    · exact hn
    · exact hbody nv hnv
  | @close s l h hs ih =>
    rw [if_neg hs] at ih
    exact ⟨[], l, rfl, by simp, ih⟩

/-- Something can be returned from every state on. -/
theorem exists_remainder (s : State) : ∃ l, Remainder s l := by
  cases s with
  | start => exact ⟨_, .finish⟩
  | body => exact ⟨_, .close .finish (by simp)⟩
  | ended => exact ⟨_, .stop⟩

/-! ### One step -/

/-- How a pair moves the parser. -/
inductive Move : State → Bytes × Bytes → State → Prop
  | version : Move .start ([], str ['1']) .body
  | pair {name value : Bytes} (hn : IsName name) : Move .body (name, value) .body
  | close {s : State} (hs : s ≠ .body) : Move .body ([], []) s
  | finish : Move .start ([], []) .ended
  | still : Move .ended ([], []) .ended

/-- What the parser has read up to a point: a new line starts there, or the manifest whose colon
comes there. -/
structure Parser.Ready (text : Bytes) (p : Parser) : Prop where
  src : p.src = .of text
  suffix : ∃ u, p.src.chars = u ++ p.rest
  place : p.rest = [] ∨ (p.src.loc p.rest).column = 1 ∨ p.state ≠ .body ∧ hd p.rest = ch ':'
  version : p.version = [] ∨ p.version = str ['1']

/-- How many calls are left at most, but for the one at the end. -/
def Parser.measure (p : Parser) : ℕ :=
  match p.state with
  | .start => 2 * p.rest.length
  | .body => 2 * p.rest.length + 1
  | .ended => 0

/-- A call returns the next pair, and there is less left to return. -/
structure Parser.Advance (text : Bytes) (p : Parser) (r : NameValue × Parser) : Prop where
  move : Move p.state r.1.pair r.2.state
  ready : r.2.Ready text
  less : r.2.state = .ended ∨ r.2.measure < p.measure

section

variable {text name s : Bytes} {p : Parser}

theorem isNameChar_iff {c : UInt8} :
    isNameChar c = true ↔ c ≠ ch ':' ∧ isBlank c = false ∧ c ≠ lf := by
  simp only [isNameChar, isBlank, decide_eq_true_eq, Bool.or_eq_false_iff,
    decide_eq_false_iff_not]
  tauto

theorem isName_takeWhile (h : s.takeWhile isNameChar ≠ []) : IsName (s.takeWhile isNameChar) :=
  ⟨h, fun _ hc => isNameChar_iff.mp (List.mem_takeWhile_imp hc)⟩

theorem ends_accept (hstate : p.state ≠ .ended) (hversion : p.version = [] ∨ p.version = str ['1'])
    (nv : NameValue) (hname : p.state = .body → IsName nv.name) (r : Bytes) :
    Ends Fault.IsParsing
      (fun a => Move p.state a.1.pair .body ∧ a.2.src = p.src ∧ a.2.rest = r.tail ∧
        a.2.state = .body ∧ (a.2.version = [] ∨ a.2.version = str ['1']))
      (p.accept nv r) := by
  obtain ⟨src, rest, state, version⟩ := p
  unfold Parser.accept
  dsimp only at hstate hversion hname ⊢
  split_ifs with hs hn hv hp h1 hnil
  · exact ends_fail _ _ _
  · exact ends_fail _ _ _
  · -- the version of the manifest before
    obtain rfl := hs
    have hp := hversion.resolve_left hp
    refine ⟨?_, rfl, rfl, rfl, .inr hp⟩
    rw [NameValue.pair, not_not.mp hn, hp]
    exact .version
  · exact ends_fail _ _ _
  · obtain rfl := hs
    have hv := not_not.mp h1
    refine ⟨?_, rfl, rfl, rfl, .inr hv⟩
    rw [NameValue.pair, not_not.mp hn, hv]
    exact .version
  · cases state with
    | start => exact absurd rfl hs
    | body => exact absurd hnil (hname rfl).ne_nil
    | ended => exact absurd rfl hstate
  · cases state with
    | start => exact absurd rfl hs
    | body => exact ⟨.pair (hname rfl), rfl, rfl, rfl, hversion⟩
    | ended => exact absurd rfl hstate

theorem column_behind_newline {u r : Bytes} (h : (Source.of text).chars = u ++ r) (hr : r ≠ [])
    (hlf : hd r = lf) : ((Source.of text).loc r.tail).column = 1 := by
  obtain ⟨c, r, rfl⟩ := List.exists_cons_of_ne_nil hr
  obtain rfl : c = lf := hlf
  refine column_of_lineStart (u := u ++ [lf]) (by simpa using h) fun c hc => ?_
  simpa using hc.symm

theorem ends_parsePair (hp : p.Ready text) (hstate : p.state ≠ .ended)
    (hname : p.state = .body → IsName name ∨ s = []) (hs : ∃ u, p.src.chars = u ++ s)
    (hlen : s.length ≤ p.rest.length) (startPos : ℕ) (l : Loc) :
    Ends Fault.IsParsing (p.Advance text) (p.parsePair startPos l name s) := by
  unfold Parser.parsePair
  refine (ends_skipSpaces ..).bind fun ⟨s1, lp⟩ hs1 => ?_
  obtain ⟨w1, hw1⟩ := skipped_suffix ((p.src.loc s).column = 1) s
  dsimp only at hs1
  rw [← hs1] at hw1
  cases s1 with
  | nil =>
    dsimp only
    split_ifs with hn
    · exact ends_fail _ _ _
    · refine ⟨?_, ⟨hp.src, ⟨p.src.chars, by simp⟩, .inl rfl, hp.version⟩, .inl rfl⟩
      cases hst : p.state with
      | start => exact .finish
      | body => exact .close (by simp)
      | ended => exact absurd hst hstate
  | cons c s' =>
    dsimp only
    have hname : p.state = .body → IsName name := by
      intro hbody
      refine (hname hbody).resolve_right fun hnil => ?_
      rw [hnil] at hw1
      simp at hw1
    split_ifs with hc
    · exact ends_fail _ _ _
    refine (ends_skipSpaces ..).bind fun ⟨s2, lp2⟩ hs2 => ?_
    obtain ⟨w2, hw2⟩ := skipped_suffix ((p.src.loc s').column = 1) s'
    dsimp only at hs2
    rw [← hs2] at hw2
    refine (ends_parseValue ..).bind fun ⟨value, vl, r⟩ ⟨⟨w3, hw3⟩, hstop⟩ => ?_
    dsimp only at hw3 hstop ⊢
    rw [if_neg hstop]
    have hr : p.rest.length ≥ r.length + 1 := by
      rw [hw2, hw3] at hw1
      have hlen1 := congrArg List.length hw1
      simp only [List.length_append, List.length_cons] at hlen1
      omega
    refine (ends_accept hstate hp.version _ hname r).mono (fun _ h => h) ?_
    rintro ⟨nv, q⟩ ⟨hmove, hsrc, hrest, hbody, hversion⟩
    obtain ⟨u, hu⟩ := hs
    have hu' : p.src.chars = (u ++ w1 ++ [c] ++ w2 ++ w3) ++ r := by
      rw [hu, hw1, hw2, hw3]
      simp
    refine ⟨by rw [hbody]; exact hmove, ⟨hsrc.trans hp.src, ?_, ?_, hversion⟩, .inr ?_⟩
    · rw [hsrc, hrest]
      cases r with
      | nil => exact ⟨p.src.chars, by simp⟩
      | cons lf r => exact ⟨u ++ w1 ++ [c] ++ w2 ++ w3 ++ [lf], hu'.trans (by simp)⟩
    · rw [hsrc, hrest]
      by_cases hnil : r = []
      · exact .inl (by rw [hnil]; rfl)
      · have hlf : hd r = lf := by
          by_contra hlf
          exact hstop ⟨hnil, hlf⟩
        rw [hp.src] at hu' ⊢
        exact .inr (.inl (column_behind_newline hu' hnil hlf))
    · have htail : q.rest.length ≤ r.length := by
        rw [hrest, List.length_tail]
        omega
      unfold Parser.measure
      cases hst : p.state with
      | start =>
        rw [hbody]
        dsimp only
        omega
      | body =>
        rw [hbody]
        dsimp only
        omega
      | ended => exact absurd hst hstate

theorem Parser.Ready.head (hp : p.Ready text) {c : UInt8} {s' : Bytes}
    (h : skipped ((p.src.loc p.rest).column = 1) p.rest = c :: s') :
    isBlank c = false ∧ c ≠ lf := by
  obtain hnil | hcol | ⟨-, hcolon⟩ := hp.place
  · rw [hnil] at h
    simp [skipped] at h
  · rw [decide_eq_true hcol] at h
    have hstops := skipped_stops p.rest c (by rw [h]; rfl)
    exact ⟨(skipStep_eq_none.mp hstops).1, (skipStep_eq_none.mp hstops).2.1⟩
  · have hcons := eq_cons_of_hd hcolon (by decide)
    rw [skipped_of_not _ (by rw [hcolon]; rfl) (by rw [hcolon]; decide)
      (by rw [hcolon]; decide)] at h
    rw [hcons] at h
    obtain ⟨rfl, -⟩ := List.cons.inj h
    decide

/-- **One call.** It throws an exception or moves on. -/
theorem ends_parseNext (hp : p.Ready text) :
    Ends Fault.IsParsing (p.Advance text) p.parseNext := by
  unfold Parser.parseNext
  split_ifs with hended
  · refine ⟨?_, hp, .inl hended⟩
    change Move p.state ([], []) p.state
    rw [hended]
    exact .still
  refine (ends_skipSpaces ..).bind fun ⟨s, startPos⟩ hs => ?_
  dsimp only at hs ⊢
  obtain ⟨w, hw⟩ := skipped_suffix ((p.src.loc p.rest).column = 1) p.rest
  rw [← hs] at hw
  have hlen : s.length ≤ p.rest.length := by
    rw [hw, List.length_append]
    omega
  obtain ⟨u, hu⟩ := hp.suffix
  have hu' : p.src.chars = (u ++ w) ++ s := by
    rw [hu, List.append_assoc, ← hw]
  split_ifs with hcolon
  · refine ⟨?_, ⟨hp.src, ⟨_, hu'⟩, .inr (.inr ⟨by simp, hcolon.2⟩), hp.version⟩, .inr ?_⟩
    · change Move p.state ([], []) .start
      rw [hcolon.1]
      exact .close (by simp)
    · unfold Parser.measure
      rw [hcolon.1]
      dsimp only
      omega
  · refine (ends_parseName ..).bind fun ⟨name, s'⟩ hname => ?_
    obtain ⟨rfl, rfl⟩ := Prod.mk.inj hname
    refine ends_parsePair hp hended (fun hbody => ?_) ⟨u ++ w ++ s.takeWhile isNameChar, ?_⟩ ?_ _ _
    · by_cases hnil : s = []
      · exact .inr (by rw [hnil]; rfl)
      · obtain ⟨c, s', rfl⟩ := List.exists_cons_of_ne_nil hnil
        have hhead := hp.head hs.symm
        have hc : c ≠ ch ':' := fun hc => hcolon ⟨hbody, hc⟩
        refine .inl (isName_takeWhile ?_)
        rw [List.takeWhile_cons_of_pos (isNameChar_iff.mpr ⟨hc, hhead⟩)]
        exact List.cons_ne_nil _ _
    · rw [hu', List.append_assoc (u ++ w), List.takeWhile_append_dropWhile]
    · exact Nat.le_trans (List.dropWhile_suffix _).length_le hlen

end

/-! ### All the calls -/

section

variable {text : Bytes} {p : Parser}

theorem ready_ofText (text : Bytes) : (Parser.ofText text).Ready text where
  src := rfl
  suffix := ⟨[], rfl⟩
  place := .inr (.inl (column_of_lineStart (u := []) rfl (by simp)))
  version := .inl rfl

/-- How the calls end: with an exception after the start of a stream, or with a whole one. -/
def Concludes (Rest : List (Bytes × Bytes) → Prop) (c : List NameValue × Option Fault) : Prop :=
  (c.2 = none ∧ Rest (c.1.map NameValue.pair)) ∨
    ∃ line column description rest, c.2 = some (.parsing line column description) ∧
      Rest (c.1.map NameValue.pair ++ rest)

theorem Concludes.cons {Rest Rest' : List (Bytes × Bytes) → Prop}
    {c : List NameValue × Option Fault} (h : Concludes Rest c) {nv : NameValue}
    (hr : ∀ l, Rest l → Rest' (nv.pair :: l)) : Concludes Rest' (nv :: c.1, c.2) := by
  obtain ⟨h, hrest⟩ | ⟨line, column, description, rest, h, hrest⟩ := h
  · exact .inl ⟨h, hr _ hrest⟩
  · exact .inr ⟨line, column, description, rest, h, hr _ hrest⟩

theorem calls_succ {q : Parser} {v : NameValue} (h : p.parseNext = .ok (v, q)) (n : ℕ) :
    calls (n + 1) p = (v :: (calls n q).1, (calls n q).2) := by
  rw [calls, h]

theorem Remainder.of_move {s s' : State} {nv : Bytes × Bytes} (h : Move s nv s') (hs : s' ≠ .ended)
    {l : List (Bytes × Bytes)} (hl : Remainder s' l) : Remainder s (nv :: l) := by
  cases h with
  | version => exact .version hl
  | pair hn => exact .pair hn hl
  | close hb => exact .close hl hb
  | finish => exact absurd rfl hs
  | still => exact absurd rfl hs

/-- By induction on how much is left: as many calls as that, and one more, reach the end. -/
theorem exists_calls (m : ℕ) : ∀ p : Parser, p.Ready text → p.measure ≤ m →
    ∃ n, n ≤ m + 1 ∧ Concludes (Remainder p.state) (calls n p) := by
  induction m using Nat.strong_induction_on with
  | _ m ih =>
    intro p hp hm
    have hends := ends_parseNext hp
    cases hnext : p.parseNext with
    | error e =>
      rw [hnext] at hends
      obtain ⟨rest, hrest⟩ := exists_remainder p.state
      refine ⟨1, by omega, .inr ?_⟩
      cases e with
      | assertion => exact absurd rfl hends
      | parsing line column description =>
        exact ⟨line, column, description, rest, by rw [calls, hnext], by rwa [calls, hnext]⟩
    | ok a =>
      obtain ⟨nv, q⟩ := a
      rw [hnext] at hends
      obtain ⟨hmove, hready, hless⟩ := hends
      have hlast : calls 1 p = ([nv], none) := calls_succ hnext 0
      dsimp only at hmove hready hless
      by_cases hq : q.state = .ended
      · rw [hq] at hmove
        generalize hst : p.state = st at hmove
        generalize hpair : nv.pair = pair at hmove
        cases hmove with
        | finish =>
          refine ⟨1, by omega, .inl ⟨by rw [hlast], ?_⟩⟩
          rw [hlast, List.map_singleton, hpair]
          exact .finish
        | still =>
          refine ⟨1, by omega, .inl ⟨by rw [hlast], ?_⟩⟩
          rw [hlast, List.map_singleton, hpair]
          exact .stop
        | close hs =>
          -- the end of the text ends the manifest, and the next call the stream
          have hpos : 0 < m := by
            unfold Parser.measure at hm
            rw [hst] at hm
            dsimp only at hm
            omega
          obtain ⟨n, hn, hconc⟩ := ih 0 hpos q hready (by simp [Parser.measure, hq])
          refine ⟨n + 1, by omega, ?_⟩
          rw [calls_succ hnext]
          refine hconc.cons fun l hl => ?_
          rw [hpair]
          exact .close (s := q.state) hl (by rw [hq]; simp)
      · have hlt := hless.resolve_left hq
        obtain ⟨n, hn, hconc⟩ := ih (m - 1) (by omega) q hready (by omega)
        refine ⟨n + 1, by omega, ?_⟩
        rw [calls_succ hnext]
        exact hconc.cons fun l hl => .of_move hmove hq hl

theorem calls_ne_assertion (n : ℕ) :
    ∀ p : Parser, p.Ready text → (calls n p).2 ≠ some .assertion := by
  induction n with
  | zero => simp [calls]
  | succ n ih =>
    intro p hp
    have hends := ends_parseNext hp
    cases hnext : p.parseNext with
    | error e =>
      rw [hnext] at hends
      rw [calls, hnext]
      exact fun h => hends (Option.some.inj h)
    | ok a =>
      rw [hnext] at hends
      rw [calls_succ (q := a.2) (v := a.1) hnext]
      exact ih _ hends.ready

/-- **The calls of `next`.** For every text the end of the stream is reached after finitely many
calls, which have returned manifests between pairs with the format version and pairs that end them,
unless a `manifest_parsing` exception comes before; an assertion never fails. -/
theorem calls_stream (text : Bytes) :
    (∃ n, n ≤ 2 * (Source.of text).chars.length + 1 ∧
      Concludes IsStream (calls n (.ofText text))) ∧
    ∀ n, (calls n (.ofText text)).2 ≠ some .assertion := by
  refine ⟨?_, fun n => calls_ne_assertion n _ (ready_ofText text)⟩
  obtain ⟨n, hn, hconc⟩ := exists_calls _ _ (ready_ofText text) (Nat.le_refl _)
  refine ⟨n, hn, ?_⟩
  obtain ⟨h, hrest⟩ | ⟨line, column, description, rest, h, hrest⟩ := hconc
  · exact .inl ⟨h, hrest.isStream⟩
  · exact .inr ⟨line, column, description, rest, h, hrest.isStream⟩

end

end Build2.Libbutl.Manifest
