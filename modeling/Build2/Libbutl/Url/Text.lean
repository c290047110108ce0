import Build2.Libbutl.Url.Basic

/-! # The text of a URL

A URL is written in parts that its syntax determines (`exists_text`), and the constructor reads
every part for itself (`parseUrl_text`), whatever the traits. -/

namespace Build2.Libbutl.Url

open Build2.Lib.ByteString Build2.Lib.Decimal Build2.Lib.Percent Build2.Lib.Stateful

/-! ### Authority -/

/-- What is written for an authority. -/
structure AuthorityText where
  user : Option Bytes
  host : Bytes
  port : Option Bytes
  deriving DecidableEq

def userText : Option Bytes → Bytes
  | none => []
  | some u => u ++ [ch '@']

def portText : Option Bytes → Bytes
  | none => []
  | some p => ch ':' :: p

namespace AuthorityText

def text (x : AuthorityText) : Bytes := userText x.user ++ x.host ++ portText x.port

/-- The parts are the ones that the syntax takes the text apart into: the user goes to the first
`@`, the port starts at the last `:` if no `]` is behind it. -/
structure Fits (x : AuthorityText) : Prop where
  user : ∀ u ∈ x.user, ch '@' ∉ u
  noUser : x.user = none → ch '@' ∉ x.text
  port : ∀ p ∈ x.port, ∀ c ∈ p, isPortMark c = false
  noPort : x.port = none → ∀ a b, x.host = a ++ ch ':' :: b → ch ']' ∈ b

/-- What the parts mean. -/
def read (x : AuthorityText) : Except Fault Authority := do
  let port ← parsePort (x.port.getD [])
  if x.host = [] ∧ (x.user.getD [] ≠ [] ∨ port ≠ 0) then throw .invalidArgument
  let host ← Host.ofString x.host
  return ⟨x.user.getD [], host, port⟩

end AuthorityText

theorem splitLast_eq_none {p : UInt8 → Bool} {s : Bytes} (h : ∀ c ∈ s, p c = false) :
    splitLast p s = none := by
  induction s with
  | nil => rfl
  | cons c s ih =>
    rw [List.forall_mem_cons] at h
    rw [splitLast, ih h.2]
    simp [h.1]

theorem splitLast_append {p : UInt8 → Bool} (a : Bytes) {b : Bytes} {c : UInt8} (hc : p c = true)
    (hb : ∀ d ∈ b, p d = false) : splitLast p (a ++ c :: b) = some (a, c, b) := by
  induction a with
  | nil =>
    rw [List.nil_append, splitLast, splitLast_eq_none hb]
    simp [hc]
  | cons d a ih => rw [List.cons_append, splitLast, ih]

theorem exists_last (p : UInt8 → Bool) (s : Bytes) : (∀ c ∈ s, p c = false) ∨
    ∃ a c b, s = a ++ c :: b ∧ p c = true ∧ ∀ d ∈ b, p d = false := by
  induction s with
  | nil => exact Or.inl (by simp)
  | cons d s ih =>
    rcases ih with h | ⟨a, c, b, rfl, hc, hb⟩
    · cases hd : p d
      · exact Or.inl (List.forall_mem_cons.mpr ⟨hd, h⟩)
      · exact Or.inr ⟨[], d, s, rfl, hd, h⟩
    · exact Or.inr ⟨d :: a, c, b, rfl, hc, hb⟩

theorem isPortMark_iff {c : UInt8} : isPortMark c = true ↔ c = ch ']' ∨ c = ch ':' := by
  simp [isPortMark]

/-! What `splitUser` and `splitPort` make of a text. -/

theorem splitUser_none {a : Bytes} (h : ch '@' ∉ a) : splitUser a = ([], a) := by
  unfold splitUser
  rw [List.dropWhile_eq_nil_iff.mpr]
  intro c hc
  simpa using ne_of_mem_of_not_mem hc h

theorem splitUser_append {u : Bytes} (h : ch '@' ∉ u) (r : Bytes) :
    splitUser (u ++ ch '@' :: r) = (u, r) := by
  have hu : ∀ c ∈ u, decide (c ≠ ch '@') = true := fun c hc => by
    simpa using ne_of_mem_of_not_mem hc h
  unfold splitUser
  rw [dropWhile_run hu (by simp), takeWhile_run hu (by simp)]

theorem splitPort_append (h : Bytes) {p : Bytes} (hp : ∀ c ∈ p, isPortMark c = false) :
    splitPort (h ++ ch ':' :: p) = (h, p) := by
  unfold splitPort
  rw [splitLast_append h (by decide) hp]
  simp [show ch ':' ≠ ch ']' from by decide]

theorem splitPort_none {h : Bytes} (hn : ∀ a b, h = a ++ ch ':' :: b → ch ']' ∈ b) :
    splitPort h = (h, []) := by
  unfold splitPort
  rcases exists_last isPortMark h with hno | ⟨a, c, b, rfl, hc, hb⟩
  · rw [splitLast_eq_none hno]
  · rw [splitLast_append a hc hb]
    rcases isPortMark_iff.mp hc with rfl | rfl
    · rfl
    · exact absurd (hb _ (hn a b rfl)) (by decide)

namespace AuthorityText

variable {x : AuthorityText}

/-- **The syntax takes the text of an authority apart into its parts.** -/
theorem Fits.parse_eq (h : x.Fits) : parseAuthority x.text = x.read := by
  obtain ⟨user, host, port⟩ := x
  have hport : splitPort (host ++ portText port) = (host, port.getD []) := by
    cases port with
    | none => simpa [portText] using splitPort_none (h.noPort rfl)
    | some p => exact splitPort_append host (h.port p rfl)
  have huser : splitUser (text ⟨user, host, port⟩) = (user.getD [], host ++ portText port) := by
    cases user with
    | none => simpa [text, userText] using splitUser_none (h.noUser rfl)
    | some u => simpa [text, userText] using splitUser_append (h.user u rfl) (host ++ portText port)
  unfold parseAuthority
  rw [huser]
  simp only [hport]
  rfl

theorem exists_fits (a : Bytes) : ∃ x : AuthorityText, x.Fits ∧ x.text = a := by
  -- the host and the port, for a text behind the user
  have key : ∀ r : Bytes, ∃ h p, h ++ portText p = r ∧ (∀ q ∈ p, ∀ c ∈ q, isPortMark c = false) ∧
      (p = none → ∀ a b, h = a ++ ch ':' :: b → ch ']' ∈ b) := by
    intro r
    rcases exists_last isPortMark r with hno | ⟨h, c, p, rfl, hc, hp⟩
    · refine ⟨r, none, List.append_nil r, by simp, fun _ a b hab => ?_⟩
      exact absurd (hno (ch ':') (by rw [hab]; simp)) (by decide)
    · rcases isPortMark_iff.mp hc with rfl | rfl
      · refine ⟨h ++ ch ']' :: p, none, List.append_nil _, by simp, fun _ a b hab => ?_⟩
        have hmem : ch ':' ∉ ch ']' :: p := by
          rw [List.mem_cons, not_or]
          exact ⟨by decide, fun hm => absurd (hp _ hm) (by decide)⟩
        rcases List.append_eq_append_iff.mp hab with ⟨t, rfl, ht⟩ | ⟨t, rfl, ht⟩
        · exact absurd (by rw [ht]; simp) hmem
        · cases t with
          | nil => exact absurd (List.cons.inj ht).1 (by decide)
          | cons d t =>
            obtain ⟨-, rfl⟩ := List.cons.inj ht
            simp
      · exact ⟨h, some p, rfl, by simpa using hp, by simp⟩
  by_cases hat : ch '@' ∈ a
  · obtain ⟨u, r, rfl, hu⟩ := List.eq_append_cons_of_mem hat
    obtain ⟨h, p, rfl, hp, hn⟩ := key r
    exact ⟨⟨some u, h, p⟩, ⟨by simpa using hu, by simp, hp, hn⟩, by simp [text, userText]⟩
  · obtain ⟨h, p, rfl, hp, hn⟩ := key a
    exact ⟨⟨none, h, p⟩, ⟨by simp, fun _ => by simpa [text, userText] using hat, hp, hn⟩,
      by simp [text, userText]⟩

end AuthorityText

/-! ### URL -/

/-- A scheme: two characters at least, the first of them a letter. -/
structure SchemeText (sc : Bytes) : Prop where
  alpha : isAlpha (hd sc) = true
  rest : ∀ c ∈ sc.tail, schemeChar c = true
  tail : sc.tail ≠ []

/-- What is written for a URL. The path has its leading slash, if any. -/
structure UrlText where
  scheme : Bytes
  authority : Option AuthorityText
  path : Option Bytes
  query : Option Bytes
  fragment : Option Bytes
  deriving DecidableEq

def hierText : Option AuthorityText → Bytes
  | none => []
  | some x => ch '/' :: ch '/' :: x.text

def queryText : Option Bytes → Bytes
  | none => []
  | some q => ch '?' :: q

def fragmentText : Option Bytes → Bytes
  | none => []
  | some f => ch '#' :: f

def readHier : Option AuthorityText → Except Fault (Option Authority)
  | none => .ok none
  | some x => x.read.map some

def readPath {P : Type} (ofPath : Bytes → Except Fault P) :
    Option Bytes → Except Fault (Option P × Bool)
  | none => .ok (none, false)
  | some p =>
    let rootless := hd p ≠ ch '/'
    let text := if rootless then p else p.drop 1
    if !text.all (fun c => pathChar c || c = ch '%') then .error .invalidArgument
    else (ofPath text).map fun path => (some path, rootless)

namespace UrlText

def text (w : UrlText) : Bytes :=
  w.scheme ++ ch ':' ::
    (hierText w.authority ++ (w.path.getD [] ++ (queryText w.query ++ fragmentText w.fragment)))

/-- The parts are the ones that the syntax takes the text apart into. -/
structure Fits (w : UrlText) : Prop where
  scheme : SchemeText w.scheme
  authority : ∀ x ∈ w.authority, x.Fits ∧ ∀ c ∈ x.text, isDelim c = false
  path : ∀ p ∈ w.path, p ≠ [] ∧ ∀ c ∈ p, isPathEnd c = false
  behind : w.authority ≠ none → ∀ p ∈ w.path, hd p = ch '/'
  alone : w.authority = none → ∀ p ∈ w.path, ¬ [ch '/', ch '/'] <+: p
  query : ∀ q ∈ w.query, ch '#' ∉ q

/-- What the parts mean. -/
def read {H P : Type} (T : Traits H P) (w : UrlText) : Except Fault (BasicUrl H P) := do
  let authority ← readHier w.authority
  let (path, rootless) ← readPath T.ofPath w.path
  match ← T.ofScheme w.text w.scheme ⟨authority, path, w.query, w.fragment, rootless⟩ with
  | (some s, c) => return makeUrl s c
  | (none, _) => throw .assertion

end UrlText

section Parts

variable {H P : Type} {sc i j : Bytes}

theorem schemeChar_of_isAlpha {c : UInt8} (h : isAlpha c = true) : schemeChar c = true := by
  simp [schemeChar, isAlnum, h]

theorem scanScheme_append (hs : ∀ c ∈ sc, schemeChar c = true) (i : Bytes) :
    scanScheme false (sc ++ ch ':' :: i) = .ok (sc, ch ':' :: i) := by
  induction sc with
  | nil => simp [scanScheme]
  | cons c sc ih =>
    rw [List.forall_mem_cons] at hs
    have hc : c ≠ ch ':' := ne_of_class hs.1 (by decide)
    rw [List.cons_append, scanScheme, if_neg hc, ih hs.2]
    simp [hs.1, Except.map]

theorem parseScheme_append (h : SchemeText sc) (i : Bytes) :
    parseScheme (sc ++ ch ':' :: i) = .ok (sc, i) := by
  obtain ⟨ha, hr, ht⟩ := h
  cases sc with
  | nil => exact absurd rfl ht
  | cons c sc =>
    have hc : c ≠ ch ':' := ne_of_class ha (by decide)
    have hn : sc ≠ [] := ht
    rw [List.tail_cons] at hr
    have h1 : scanScheme true (c :: sc ++ ch ':' :: i) = .ok (c :: sc, ch ':' :: i) := by
      rw [List.cons_append, scanScheme, if_neg hc, scanScheme_append hr]
      simp only [hd_cons] at ha
      simp [ha, Except.map]
    unfold parseScheme
    rw [h1]
    simp [bind, Except.bind, pure, Except.pure, hn]

theorem scanScheme_eq_ok {first : Bool} {s : Bytes} (h : scanScheme first s = .ok (sc, i)) :
    s = sc ++ i ∧ (∀ c s', i = c :: s' → c = ch ':') ∧ (∀ c ∈ sc, schemeChar c = true) ∧
      (first = true → sc ≠ [] → isAlpha (hd sc) = true) := by
  induction s generalizing first sc with
  | nil =>
    cases h
    simp
  | cons c s ih =>
    rw [scanScheme] at h
    by_cases h1 : c = ch ':'
    · rw [if_pos h1] at h
      cases h
      refine ⟨rfl, fun d s' hd => ?_, by simp, fun _ hne => absurd rfl hne⟩
      rw [← (List.cons.inj hd).1, h1]
    · rw [if_neg h1] at h
      cases hc : (if first then isAlpha c else schemeChar c) with
      | false =>
        rw [hc] at h
        cases h
      | true =>
      rw [hc] at h
      cases hr : scanScheme false s with
      | error e =>
        rw [hr] at h
        cases h
      | ok r =>
        obtain ⟨sc', i'⟩ := r
        rw [hr] at h
        cases h
        obtain ⟨rfl, hi, hs, -⟩ := ih hr
        refine ⟨rfl, hi, List.forall_mem_cons.mpr ⟨?_, hs⟩, fun hf _ => ?_⟩
        · cases first
          · exact hc
          · exact schemeChar_of_isAlpha hc
        · rw [hf] at hc
          exact hc

theorem parseScheme_eq_ok {s : Bytes} (h : parseScheme s = .ok (sc, i)) :
    s = sc ++ ch ':' :: i ∧ SchemeText sc := by
  unfold parseScheme at h
  obtain ⟨⟨sc', r⟩, h1, h2⟩ := bind_eq_ok.mp h
  obtain ⟨rfl, hr, hs, ha⟩ := scanScheme_eq_ok h1
  by_cases hbad : sc' = [] ∨ r = [] ∨ sc'.length = 1
  · simp [hbad, bind, Except.bind, throw, throwThe, MonadExceptOf.throw] at h2
  · simp only [hbad, if_false] at h2
    cases h2
    rw [not_or, not_or] at hbad
    obtain ⟨c, r, rfl⟩ := List.exists_cons_of_ne_nil hbad.2.1
    obtain ⟨a, sc, rfl⟩ := List.exists_cons_of_ne_nil hbad.1
    obtain rfl := hr c r rfl
    refine ⟨rfl, ha rfl hbad.1, fun c hc => hs c (List.mem_cons_of_mem _ hc), ?_⟩
    rintro rfl
    exact hbad.2.2 rfl

/-- What may follow an authority: nothing, or a character that it does not go past. -/
theorem stops_isDelim_iff : Stops (fun c => !isDelim c) i ↔ ∀ c ∈ i.head?, isDelim c = true := by
  simp [Stops]

theorem parseHier_append {a : Option AuthorityText}
    (ha : ∀ x ∈ a, x.Fits ∧ ∀ c ∈ x.text, isDelim c = false)
    (hs : a ≠ none → Stops (fun c => !isDelim c) i)
    (hn : a = none → ¬ [ch '/', ch '/'] <+: i) :
    parseHier (hierText a ++ i) = (readHier a).map fun r => (r, i) := by
  cases a with
  | none =>
    unfold parseHier hierText
    rw [List.nil_append, if_neg (hn rfl)]
    rfl
  | some x =>
    obtain ⟨hx, hd⟩ := ha x rfl
    have hp : [ch '/', ch '/'] <+: hierText (some x) ++ i := ⟨x.text ++ i, rfl⟩
    have hd' : ∀ c ∈ x.text, (!isDelim c) = true := fun c hc => by simp [hd c hc]
    have hs' := hs (Option.some_ne_none x)
    unfold parseHier
    rw [if_pos hp]
    have hdrop : (hierText (some x) ++ i).drop 2 = x.text ++ i := rfl
    simp only [hdrop, takeWhile_run hd' hs', dropWhile_run hd' hs', hx.parse_eq, readHier]
    cases x.read <;> rfl

variable {T : Traits H P}

theorem parsePath_append {p : Option Bytes}
    (hp : ∀ q ∈ p, q ≠ [] ∧ ∀ c ∈ q, isPathEnd c = false)
    (hi : ∀ c ∈ i.head?, isPathEnd c = true) :
    parsePath T (p.getD [] ++ i) = (readPath T.ofPath p).map fun r => (r, i) := by
  have hs : Stops (fun c => !isPathEnd c) i := fun c hc => by simp [hi c hc]
  cases p with
  | none =>
    have h : i = [] ∨ isPathEnd (hd i) = true := by
      cases i with
      | nil => exact Or.inl rfl
      | cons c i => exact Or.inr (hi c rfl)
    unfold parsePath
    rw [Option.getD_none, List.nil_append, if_pos h]
    rfl
  | some q =>
    obtain ⟨hne, hq⟩ := hp q rfl
    obtain ⟨c, q, rfl⟩ := List.exists_cons_of_ne_nil hne
    have hne : ¬ (c :: q ++ i = [] ∨ isPathEnd (hd (c :: q ++ i)) = true) := by
      simp [hq c List.mem_cons_self]
    have hq' : ∀ d ∈ c :: q, (!isPathEnd d) = true := fun d hd => by simp [hq d hd]
    have htail : ∀ d ∈ q, (!isPathEnd d) = true := fun d hd => hq' d (List.mem_cons_of_mem _ hd)
    unfold parsePath
    rw [Option.getD_some, if_neg hne]
    by_cases hc : c = ch '/'
    · have hdrop : (c :: q ++ i).drop 1 = q ++ i := rfl
      simp only [List.cons_append, hd_cons, hc, ne_eq, not_true_eq_false, decide_false,
        if_false, List.drop_succ_cons, List.drop_zero,
        takeWhile_run htail hs, dropWhile_run htail hs, readPath]
      by_cases hall : q.all (fun c => pathChar c || c = ch '%') = true
      · simp only [hall, Bool.not_true, Bool.false_eq_true, if_false]
        cases T.ofPath q <;> rfl
      · simp only [hall, Bool.not_false, if_true]
        rfl
    · simp only [List.cons_append, hd_cons, hc, ne_eq, not_false_eq_true, decide_true, if_true,
        readPath]
      rw [← List.cons_append, takeWhile_run hq' hs, dropWhile_run hq' hs]
      by_cases hall : (c :: q).all (fun c => pathChar c || c = ch '%') = true
      · simp only [hall, Bool.not_true, Bool.false_eq_true, if_false]
        cases T.ofPath (c :: q) <;> rfl
      · simp only [hall, Bool.not_false, if_true]
        rfl

theorem parseQuery_append {q : Option Bytes} (hq : ∀ t ∈ q, ch '#' ∉ t) (f : Option Bytes) :
    parseQuery (queryText q ++ fragmentText f) = (q, fragmentText f) := by
  have hf : Stops (fun c => decide (c ≠ ch '#')) (fragmentText f) := by
    cases f <;> simp [fragmentText]
  cases q with
  | none => cases f <;> rfl
  | some t =>
    have ht : ∀ c ∈ t, decide (c ≠ ch '#') = true := fun c hc => by
      simpa using ne_of_mem_of_not_mem hc (hq t rfl)
    simp only [queryText, parseQuery, List.cons_append, hd_cons, if_true, List.drop_succ_cons,
      List.drop_zero, takeWhile_run ht hf, dropWhile_run ht hf]

theorem parseFragment_text (f : Option Bytes) : parseFragment (fragmentText f) = f := by
  cases f <;> rfl

theorem head_query (q f : Option Bytes) :
    ∀ c ∈ (queryText q ++ fragmentText f).head?, isPathEnd c = true := by
  cases q <;> cases f <;> simp [queryText, fragmentText] <;> decide

end Parts

namespace UrlText

variable {H P : Type} {T : Traits H P} {w : UrlText}

/-- **The constructor reads every part for itself.** -/
theorem Fits.parse_eq (h : w.Fits) : parseUrl T w.text = w.read T := by
  have hend : ∀ c ∈ (queryText w.query ++ fragmentText w.fragment).head?, isPathEnd c = true :=
    head_query _ _
  have hstop : w.authority ≠ none → Stops (fun c => !isDelim c)
      (w.path.getD [] ++ (queryText w.query ++ fragmentText w.fragment)) := by
    intro ha
    rw [stops_isDelim_iff]
    cases hp : w.path with
    | none =>
      intro c hc
      have := hend c hc
      revert this
      simp [isPathEnd, isDelim, or_assoc]
      tauto
    | some p =>
      intro c hc
      obtain ⟨d, p', rfl⟩ := List.exists_cons_of_ne_nil (h.path p hp).1
      obtain rfl : d = c := by simpa using hc
      have hd : d = ch '/' := h.behind ha _ hp
      rw [hd]
      decide
  have halone : w.authority = none → ¬ [ch '/', ch '/'] <+:
      w.path.getD [] ++ (queryText w.query ++ fragmentText w.fragment) := by
    rintro ha ⟨t, ht⟩
    have hslash : ∀ s : Bytes, queryText w.query ++ fragmentText w.fragment ≠ ch '/' :: s := by
      intro s hs
      have := hend (ch '/') (by rw [hs]; rfl)
      revert this
      decide
    cases hp : w.path with
    | none =>
      rw [hp] at ht
      exact hslash _ ht.symm
    | some p =>
      rw [hp] at ht
      rcases p with _ | ⟨c, _ | ⟨d, p⟩⟩
      · exact (h.path _ hp).1 rfl
      · exact hslash _ (List.cons.inj ht).2.symm
      · obtain ⟨rfl, h2⟩ := List.cons.inj ht
        obtain ⟨rfl, -⟩ := List.cons.inj h2
        exact h.alone ha _ hp ⟨p, rfl⟩
  have hne : w.text ≠ [] := by simp [text]
  unfold parseUrl
  rw [if_neg hne]
  unfold text
  rw [parseScheme_append h.scheme]
  simp only [bind, Except.bind, pure, Except.pure]
  rw [parseHier_append h.authority hstop halone]
  unfold read
  cases readHier w.authority with
  | error e => rfl
  | ok a =>
    simp only [Except.map, bind, Except.bind]
    rw [parsePath_append h.path hend]
    cases readPath T.ofPath w.path with
    | error e => rfl
    | ok r =>
      simp only [Except.map, parseQuery_append h.query, parseFragment_text]
      rfl

/-- **A text with a scheme is that of a URL.** -/
theorem exists_text {s sc i : Bytes} (hs : parseScheme s = .ok (sc, i)) :
    ∃ w : UrlText, w.Fits ∧ w.text = s := by
  obtain ⟨rfl, hsc⟩ := parseScheme_eq_ok hs
  -- the query and the fragment
  have htail : ∀ r : Bytes, (∀ c ∈ r.head?, isPathEnd c = true) →
      ∃ q f, queryText q ++ fragmentText f = r ∧ ∀ t ∈ q, ch '#' ∉ t := by
    intro r hr
    cases r with
    | nil => exact ⟨none, none, rfl, by simp⟩
    | cons c r =>
      have hc : c = ch '?' ∨ c = ch '#' := by simpa [isPathEnd] using hr c rfl
      rcases hc with rfl | rfl
      · obtain ⟨q, f, rfl, hq, hf⟩ := exists_run (fun c => decide (c ≠ ch '#')) r
        have hq' : ∀ t ∈ some q, ch '#' ∉ t := by
          rintro t ⟨⟩ hm
          simpa using hq _ hm
        cases f with
        | nil => exact ⟨some q, none, by simp [queryText, fragmentText], hq'⟩
        | cons d f =>
          obtain rfl : d = ch '#' := by simpa using hf
          exact ⟨some q, some f, rfl, hq'⟩
      · exact ⟨none, some r, rfl, by simp⟩
  -- the path and what is behind it
  have hpath : ∀ r : Bytes, ∃ p q f : Option Bytes,
      p.getD [] ++ (queryText q ++ fragmentText f) = r ∧
      (∀ t ∈ p, t ≠ [] ∧ ∀ c ∈ t, isPathEnd c = false) ∧ ∀ t ∈ q, ch '#' ∉ t := by
    intro r
    obtain ⟨p, r, rfl, hp, hr⟩ := exists_run (fun c => !isPathEnd c) r
    obtain ⟨q, f, rfl, hq⟩ := htail r fun c hc => by simpa using hr c hc
    by_cases hp0 : p = []
    · exact ⟨none, q, f, by simp [hp0], by simp, hq⟩
    · refine ⟨some p, q, f, rfl, ?_, hq⟩
      rintro t ⟨⟩
      exact ⟨hp0, fun c hc => by simpa using hp c hc⟩
  by_cases hh : [ch '/', ch '/'] <+: i
  · obtain ⟨r, rfl⟩ := hh
    obtain ⟨a, r, rfl, ha, hr⟩ := exists_run (fun c => !isDelim c) r
    obtain ⟨x, hx, rfl⟩ := AuthorityText.exists_fits a
    obtain ⟨p, q, f, rfl, hp, hq⟩ := hpath r
    refine ⟨⟨sc, some x, p, q, f⟩, ⟨hsc, ?_, hp, ?_, by simp, hq⟩, by simp [text, hierText]⟩
    · rintro y ⟨⟩
      exact ⟨hx, fun c hc => by simpa using ha c hc⟩
    · rintro - t ⟨⟩
      obtain ⟨hne, ht⟩ := hp t rfl
      obtain ⟨c, t, rfl⟩ := List.exists_cons_of_ne_nil hne
      have h1 : isDelim c = true := stops_isDelim_iff.mp hr c rfl
      have h2 : isPathEnd c = false := ht c List.mem_cons_self
      simp only [isDelim, isPathEnd, Bool.or_eq_true, decide_eq_true_eq, Bool.or_eq_false_iff,
        decide_eq_false_iff_not] at h1 h2
      tauto
  · obtain ⟨p, q, f, rfl, hp, hq⟩ := hpath i
    refine ⟨⟨sc, none, p, q, f⟩, ⟨hsc, by simp, hp, by simp, ?_, hq⟩, by simp [text, hierText]⟩
    rintro - t ⟨⟩ ⟨r, rfl⟩
    exact hh ⟨r ++ (queryText q ++ fragmentText f), rfl⟩

end UrlText

end Build2.Libbutl.Url
