import Build2.Libbutl.Url.Host

/-! # Reading a URL back

What `string` prints of a URL is read as the same URL exactly when the text it came from has none
of five forms (`UrlText.Distorts`): the host is decoded and hardly encoded again, brackets may hold
an `@` or nothing, and a slash at the start of the decoded path is not told from the one that the
syntax puts there. -/

namespace Build2.Libbutl.Url

open Build2.Lib.ByteString Build2.Lib.Decimal Build2.Lib.Percent Build2.Lib.Stateful

/-! ### The URL of strings -/

theorem ofString_eq (s : Bytes) : StringUrl.ofString s = parseUrl stringTraits s := by
  unfold StringUrl.ofString BasicUrl.ofString
  cases h : parseUrl stringTraits s with
  | ok u => rfl
  | error e => cases e <;> rfl

theorem UrlText.Fits.read_eq_ok {w : UrlText} (h : w.Fits) {u : StringUrl} :
    w.read stringTraits = .ok u ↔ readHier w.authority = .ok u.authority ∧
      readPath decodeUrl w.path = .ok (u.path, u.rootless) ∧ u.scheme = w.scheme ∧
      u.query = w.query ∧ u.fragment = w.fragment ∧ u.empty = false := by
  have hsc : w.scheme ≠ [] := fun he => h.scheme.tail (by rw [he]; rfl)
  unfold UrlText.read
  constructor
  · intro h
    obtain ⟨a, ha, h⟩ := bind_eq_ok.mp h
    obtain ⟨⟨p, r⟩, hp, h⟩ := bind_eq_ok.mp h
    simp only [stringTraits, hsc, ne_eq, not_false_eq_true, if_true, bind, Except.bind] at h
    cases h
    exact ⟨ha, hp, rfl, rfl, rfl, rfl⟩
  · obtain ⟨⟨a, p, q, f, r⟩, sc, e⟩ := u
    rintro ⟨ha, hp, rfl, rfl, rfl, rfl⟩
    have hp' : readPath stringTraits.ofPath w.path = .ok (p, r) := hp
    rw [ha, hp']
    simp only [stringTraits, hsc, ne_eq, not_false_eq_true, if_true, bind, Except.bind]
    rfl

/-- What a URL is shown as. -/
def StringUrl.shown (u : StringUrl) : UrlText where
  scheme := u.scheme
  authority := u.authority.map Authority.shown
  path := u.path.map fun p =>
    (if u.rootless then [] else [ch '/']) ++ encode (fun c => !pathChar c) p
  query := u.query
  fragment := u.fragment

theorem string_eq {u : StringUrl} (he : u.empty = false) (hs : u.scheme ≠ [])
    (ha : ∀ a ∈ u.authority, a.Printable) : u.string = .ok u.shown.text := by
  obtain ⟨⟨a, p, q, f, r⟩, sc, e⟩ := u
  obtain rfl : e = false := he
  have hs' : sc ≠ [] := hs
  unfold StringUrl.string BasicUrl.string StringUrl.shown UrlText.text
  simp only [stringTraits, Bool.false_eq_true, if_false, bind, Except.bind, pure, Except.pure,
    ne_eq, not_true_eq_false, hs', not_false_eq_true, if_true]
  cases a with
  | none =>
    cases p <;> cases q <;> cases f <;> cases r <;>
      simp [hierText, queryText, fragmentText]
  | some a =>
    have hstr : a.string = .ok a.shown.text := (ha a rfl).string_eq
    cases p <;> cases q <;> cases f <;> cases r <;>
      simp [hstr, hierText, queryText, fragmentText, Except.map]

/-! ### What is not read back -/

/-- An escape sequence of the text stands for a byte of a class. -/
def Escapes (p : UInt8 → Prop) (s : Bytes) : Prop :=
  ∃ t x y u, s = t ++ ch '%' :: x :: y :: u ∧ p (byte x y)

/-- A byte that a host name may not have and that is not encoded. -/
def isBare (c : UInt8) : Prop := nonAscii c = false ∧ hostChar c = false

inductive AuthorityText.Distorts (x : AuthorityText) : Prop
  /-- Brackets without an address. -/
  | empty (h : x.host = str ['[', ']'])
  /-- An `@` in brackets, and an empty user in front of them. -/
  | user (hu : x.user = some []) (hb : hd x.host = ch '[') (h : ch '@' ∈ x.host)
  /-- An escape sequence in a name for a byte that is not encoded again. -/
  | character (hb : hd x.host ≠ ch '[') (h : Escapes isBare x.host)
  /-- An IPv4 address written with an escape sequence. -/
  | address (hb : hd x.host ≠ ch '[') (hp : ch '%' ∈ x.host) (v : Bytes)
      (hv : decode x.host = some v) (h4 : isIpv4 v = true)

/-- The path starts with an escape sequence for a slash. -/
def SlashEscaped (p : Bytes) : Prop :=
  ∃ x y r, (p = ch '%' :: x :: y :: r ∨ p = ch '/' :: ch '%' :: x :: y :: r) ∧ byte x y = ch '/'

inductive UrlText.Distorts (w : UrlText) : Prop
  | authority (x : AuthorityText) (hx : w.authority = some x) (h : x.Distorts)
  | path (ha : w.authority = none) (p : Bytes) (hp : w.path = some p) (h : SlashEscaped p)

/-! ### What is read back -/

section Host

variable {x : AuthorityText} {a : Authority}

/-- A host that is not in brackets is shown as a text of host characters that is read back. -/
theorem shown_name (hx : ¬ x.Distorts) (hb : hd x.host ≠ ch '[')
    (h : Host.ofString x.host = .ok a.host) : (∀ c ∈ a.host.shown, hostChar c = true) ∧
      Host.ofString a.host.shown = .ok a.host ∧ (a.host.shown = [] → x.host = []) := by
  rcases Host.ofString_eq_ok.mp h with ⟨h1, -, -⟩ | ⟨-, h4, hh⟩ | ⟨-, h4, hc, w, hw, hh⟩
  · exact absurd h1 hb
  · have hs : a.host.shown = x.host := by rw [hh]; rfl
    rw [hs]
    exact ⟨fun c hc => (isIpv4_char h4 c hc).1, h, id⟩
  · have hs : a.host.shown = encode nonAscii w := by rw [hh]; rfl
    -- a byte that is written as it is stood in the text or behind an escape sequence
    have hall : ∀ c ∈ encode nonAscii w, hostChar c = true := by
      intro c hc'
      rcases mem_encode hc' with rfl | hx' | ⟨hcw, -, hn⟩
      · decide
      · exact hostChar_of_isXdigit hx'
      · rcases mem_decode hw hcw with ⟨hm, -⟩ | ⟨t, p, q, u, ht, rfl⟩
        · exact hc c hm
        · by_contra hbad
          exact hx (.character hb ⟨t, p, q, u, ht, hn, by simpa using hbad⟩)
    have hbr : hd (encode nonAscii w) ≠ ch '[' := by
      intro hh'
      have hm : encode nonAscii w = ch '[' :: (encode nonAscii w).tail :=
        eq_cons_of_hd hh' (by decide)
      exact absurd (hall (ch '[') (by rw [hm]; exact List.mem_cons_self)) (by decide)
    have h4' : isIpv4 (encode nonAscii w) = false := by
      by_contra h4'
      rw [Bool.not_eq_false] at h4'
      have hp : ch '%' ∉ encode nonAscii w := fun hm => (isIpv4_char h4' _ hm).2.1 rfl
      rw [eq_of_percent_not_mem hp] at h4'
      by_cases hpx : ch '%' ∈ x.host
      · exact hx (.address hb hpx w hw h4')
      · rw [decode_of_not_mem hpx] at hw
        cases hw
        rw [h4] at h4'
        cases h4'
    rw [hs]
    refine ⟨hall, Host.ofString_eq_ok.mpr (Or.inr (Or.inr
      ⟨hbr, h4', hall, w, decode_encode _ _, hh⟩)), fun he => ?_⟩
    obtain rfl := encode_eq_nil he
    exact decode_eq_nil hw

theorem shown_bracketed (hb : hd x.host = ch '[') (h : Host.ofString x.host = .ok a.host) :
    a.host.shown = x.host ∧ x.host.getLast? = some (ch ']') ∧ a.host.kind = .ipv6 := by
  rcases Host.ofString_eq_ok.mp h with ⟨h1, hl, hh⟩ | ⟨h1, -⟩ | ⟨h1, -⟩
  · refine ⟨?_, hl, by rw [hh]⟩
    rw [hh]
    exact (eq_bracketed h1 hl).symm
  · exact absurd hb h1
  · exact absurd hb h1

/-- What is needed of the text that a host is shown as. -/
structure ShowsHost (user : Bytes) (h : Host) : Prop where
  printable : h.kind = .name ∨ h.value ≠ []
  delim : ∀ c ∈ h.shown, isDelim c = false
  user : user = [] → ch '@' ∉ h.shown
  port : ∀ a b, h.shown = a ++ ch ':' :: b → ch ']' ∈ b
  read : Host.ofString h.shown = .ok h

theorem showsHost_of_hostChar {u : Bytes} {h : Host} (hp : h.kind = .name ∨ h.value ≠ [])
    (hc : ∀ c ∈ h.shown, hostChar c = true) (hr : Host.ofString h.shown = .ok h) :
    ShowsHost u h where
  printable := hp
  delim c hm := isDelim_of_hostChar (hc c hm)
  user _ := not_mem_of_class hc (by decide)
  port a b hab := by
    have : ch ':' ∉ h.shown := not_mem_of_class hc (by decide)
    exact absurd (by rw [hab]; simp) this
  read := hr

theorem showsHost (hf : x.Fits) (hdl : ∀ c ∈ x.text, isDelim c = false) (hx : ¬ x.Distorts)
    (h : Host.ofString x.host = .ok a.host) :
    ShowsHost (x.user.getD []) a.host ∧ (a.host.shown = [] → x.host = []) := by
  by_cases hb : hd x.host = ch '['
  · obtain ⟨hs, hl, hk⟩ := shown_bracketed hb h
    have hmem : ∀ c ∈ x.host, c ∈ x.text := fun c hc => by simp [AuthorityText.text, hc]
    refine ⟨⟨Or.inr fun hv => hx (.empty ?_), ?_, fun hu hm => ?_, fun s t hst => ?_, ?_⟩, ?_⟩
    · rw [← hs]
      unfold Host.shown
      rw [hk, hv]
      rfl
    · rw [hs]
      exact fun c hc => hdl c (hmem c hc)
    · rw [hs] at hm
      cases hxu : x.user with
      | none => exact hf.noUser hxu (hmem _ hm)
      | some u =>
        rw [hxu] at hu
        obtain rfl : u = [] := hu
        exact hx (.user hxu hb hm)
    · rw [hs] at hst
      rw [hst, List.getLast?_append, List.getLast?_cons, Option.some_or, Option.some.injEq] at hl
      cases ht : t.getLast? with
      | none =>
        rw [ht] at hl
        exact absurd hl (by decide)
      | some d =>
        rw [ht] at hl
        rw [← hl]
        exact List.mem_of_getLast? ht
    · rw [hs]
      exact h
    · rw [hs]
      exact id
  · obtain ⟨hc, hr, he⟩ := shown_name hx hb h
    refine ⟨showsHost_of_hostChar ?_ hc hr, he⟩
    rcases Host.ofString_eq_ok.mp h with ⟨h1, -, -⟩ | ⟨-, h4, hh⟩ | ⟨-, -, -, w, -, hh⟩
    · exact absurd h1 hb
    · rw [hh]
      exact Or.inr (isIpv4_ne_nil h4)
    · rw [hh]
      exact Or.inl rfl

end Host

section Authority

variable {x : AuthorityText} {a : Authority}

/-- **An authority is read back.** -/
theorem shown_authority (hf : x.Fits) (hdl : ∀ c ∈ x.text, isDelim c = false) (hx : ¬ x.Distorts)
    (h : x.read = .ok a) : a.Printable ∧ a.shown.Fits ∧
      (∀ c ∈ a.shown.text, isDelim c = false) ∧ a.shown.read = .ok a := by
  obtain ⟨hu, hp, hh, he⟩ := AuthorityText.read_eq_ok.mp h
  obtain ⟨hs, hnil⟩ := showsHost hf hdl hx hh
  rw [← hu] at hs
  obtain ⟨hport, -⟩ := parsePort_eq_ok hp
  -- the digits of the port
  have hdigit : ∀ p ∈ a.shown.port, ∀ c ∈ p, isDigit c = true := by
    intro p hp c hc
    unfold Authority.shown at hp
    by_cases h0 : a.port = 0
    · simp [h0] at hp
    · simp only [h0, if_false, Option.mem_def, Option.some.injEq] at hp
      subst hp
      exact isDigit_decimal c hc
  have hporttext : ∀ c ∈ portText a.shown.port, c = ch ':' ∨ isDigit c = true := by
    intro c hc
    cases hsp : a.shown.port with
    | none =>
      rw [hsp] at hc
      cases hc
    | some p =>
      rw [hsp] at hc
      exact (List.mem_cons.mp hc).imp_right (hdigit p hsp c)
  -- the user is the one that was written, if any
  have hxu : a.user ≠ [] → x.user = some a.user := by
    intro hne
    cases hxu : x.user with
    | none => exact absurd (by rw [hu, hxu]; rfl) hne
    | some u => rw [hu, hxu]; rfl
  have huser : ∀ u ∈ a.shown.user, a.user ≠ [] ∧ u = a.user := by
    intro u hu'
    unfold Authority.shown at hu'
    by_cases h0 : a.user = []
    · simp [h0] at hu'
    · simp only [h0, if_false, Option.mem_def, Option.some.injEq] at hu'
      exact ⟨h0, hu'.symm⟩
  have hmark : ∀ c, isDigit c = true → isPortMark c = false := fun c hc => by
    simp [isPortMark, ne_of_class hc (show isDigit (ch ']') = false by decide),
      ne_of_class hc (show isDigit (ch ':') = false by decide)]
  refine ⟨⟨hs.printable, fun hv => he (hnil ?_)⟩, ⟨?_, ?_, ?_, ?_⟩, ?_, ?_⟩
  · have hk : a.host.kind = .name := hs.printable.resolve_right (not_not.mpr hv)
    unfold Host.shown
    rw [hk, hv]
    rfl
  · intro u hu'
    obtain ⟨hne, rfl⟩ := huser u hu'
    exact hf.user a.user (hxu hne)
  · intro hnone
    have h0 : a.user = [] := by
      by_contra h0
      simp [Authority.shown, h0] at hnone
    rw [AuthorityText.text, hnone]
    simp only [userText, List.nil_append, List.mem_append, not_or]
    exact ⟨hs.user h0, fun hm => (hporttext _ hm).elim (by decide) (by decide)⟩
  · exact fun p hp c hc => hmark c (hdigit p hp c hc)
  · exact fun _ => hs.port
  · intro c hc
    simp only [AuthorityText.text, List.mem_append] at hc
    rcases hc with (hc | hc) | hc
    · cases hsu : a.shown.user with
      | none =>
        rw [hsu] at hc
        cases hc
      | some u =>
        obtain ⟨hne, rfl⟩ := huser u hsu
        rw [hsu] at hc
        refine hdl c ?_
        rw [AuthorityText.text, hxu hne]
        simp [hc]
    · exact hs.delim c hc
    · rcases hporttext c hc with rfl | hdig
      · decide
      · exact isDelim_of_hostChar (hostChar_of_isDigit hdig)
  · refine AuthorityText.read_eq_ok.mpr ⟨?_, ?_, hs.read, fun hnil' => he (hnil hnil')⟩
    · by_cases h0 : a.user = [] <;> simp [Authority.shown, h0]
    · by_cases h0 : a.port = 0
      · simp [Authority.shown, h0, parsePort]
      · simpa [Authority.shown, h0] using parsePort_decimal hport h0

end Authority

section Path

variable {p P : Bytes} {f : UInt8 → Bool} {r : Bool}

/-- A text that starts with a slash once encoded started with it before. -/
theorem eq_slash_of_encode {s : Bytes} (h : encode f P = ch '/' :: s) : ∃ P', P = ch '/' :: P' := by
  cases P with
  | nil => cases h
  | cons c P =>
    by_cases hc : c = ch '%' ∨ f c = true
    · rw [encode_cons_escape hc] at h
      exact absurd (List.cons.inj h).1 (by decide)
    · rw [not_or, Bool.not_eq_true] at hc
      rw [encode_cons_plain hc.1 hc.2] at h
      exact ⟨P, by rw [(List.cons.inj h).1]⟩

/-- A slash that comes first in a decoded text was written as it is or as an escape sequence. -/
theorem slash_of_decode {t : Bytes} (h : decode t = some (ch '/' :: P)) :
    (∃ t', t = ch '/' :: t') ∨ ∃ x y t', t = ch '%' :: x :: y :: t' ∧ byte x y = ch '/' := by
  rcases decode_cases h with ⟨-, h⟩ | ⟨c, s, w, rfl, -, hw, -⟩ | ⟨x, y, s, w, rfl, -, -, hw, -⟩
  · cases h
  · exact Or.inl ⟨s, by rw [(List.cons.inj hw).1]⟩
  · exact Or.inr ⟨x, y, s, rfl, (List.cons.inj hw).1.symm⟩

/-- The part of a path that is decoded. -/
def rootlessText (p : Bytes) : Bytes := if hd p ≠ ch '/' then p else p.drop 1

theorem readPath_eq_ok {p : Bytes} {q : Option Bytes} : readPath decodeUrl (some p) = .ok (q, r) ↔
    r = decide (hd p ≠ ch '/') ∧ (∀ c ∈ rootlessText p, (pathChar c || c = ch '%') = true) ∧
      ∃ P, q = some P ∧ decode (rootlessText p) = some P := by
  have hr : readPath decodeUrl (some p) =
      if !(rootlessText p).all (fun c => pathChar c || c = ch '%') then .error .invalidArgument
      else (decodeUrl (rootlessText p)).map fun P => (some P, decide (hd p ≠ ch '/')) := by
    unfold readPath rootlessText
    by_cases h : hd p = ch '/' <;> simp [h]
  rw [hr]
  by_cases hall : (rootlessText p).all (fun c => pathChar c || c = ch '%') = true
  · have hall' := List.all_eq_true.mp hall
    simp only [hall, Bool.not_true, Bool.false_eq_true, if_false]
    unfold decodeUrl
    cases hd : decode (rootlessText p) with
    | none => simp [Except.map]
    | some P =>
      simp only [Except.map, Except.ok.injEq, Prod.mk.injEq]
      constructor
      · rintro ⟨rfl, rfl⟩
        exact ⟨rfl, hall', P, rfl, rfl⟩
      · rintro ⟨rfl, -, P', rfl, h⟩
        cases h
        exact ⟨rfl, rfl⟩
  · have hall' : ¬ ∀ c ∈ rootlessText p, (pathChar c || c = ch '%') = true :=
      fun h => hall (List.all_eq_true.mpr h)
    simp only [hall, Bool.not_false, if_true, reduceCtorEq, false_iff]
    exact fun h => hall' h.2.1

/-- What a path is shown as, with its leading slash. -/
def shownPath (rootless : Bool) (P : Bytes) : Bytes :=
  (if rootless then [] else [ch '/']) ++ encode (fun c => !pathChar c) P

theorem mem_shownPath {c : UInt8} (h : c ∈ shownPath r P) : (pathChar c || c = ch '%') = true := by
  rcases List.mem_append.mp h with h | h
  · cases r
    · rw [List.mem_singleton.mp h]
      decide
    · cases h
  · rcases mem_encode h with rfl | h | ⟨-, -, h⟩
    · decide
    · rw [pathChar_of_isXdigit h]
      rfl
    · rw [show pathChar c = true by simpa using h]
      rfl

/-- **A path is read back** if it does not start with a slash where a rootless path would stand. -/
theorem shown_path (hp : p ≠ []) (ha : hd p ≠ ch '/' → ¬ SlashEscaped p)
    (h : readPath decodeUrl (some p) = .ok (some P, r)) :
    shownPath r P ≠ [] ∧ (∀ c ∈ shownPath r P, isPathEnd c = false) ∧
      (hd (shownPath r P) = ch '/' ↔ hd p = ch '/') ∧
      readPath decodeUrl (some (shownPath r P)) = .ok (some P, r) := by
  obtain ⟨rfl, hall, P', hP', hdec⟩ := readPath_eq_ok.mp h
  cases hP'
  have hend : ∀ c ∈ shownPath (decide (hd p ≠ ch '/')) P, isPathEnd c = false := by
    intro c hc
    rcases Bool.or_eq_true_iff.mp (mem_shownPath hc) with h | h
    · exact isPathEnd_of_pathChar h
    · rw [of_decide_eq_true h]
      decide
  by_cases hs : hd p = ch '/'
  · have hshow : shownPath (decide (hd p ≠ ch '/')) P =
        ch '/' :: encode (fun c => !pathChar c) P := by
      simp [shownPath, hs]
    rw [hshow] at hend ⊢
    refine ⟨List.cons_ne_nil _ _, hend, by simp [hs],
      readPath_eq_ok.mpr ⟨by simp [hs], ?_, P, rfl, ?_⟩⟩
    · intro c hc
      exact mem_shownPath (r := true) (P := P) (by simpa [shownPath, rootlessText] using hc)
    · simpa [rootlessText] using decode_encode _ P
  · have hshow : shownPath (decide (hd p ≠ ch '/')) P = encode (fun c => !pathChar c) P := by
      simp [shownPath, hs]
    have hroot : rootlessText p = p := by simp [rootlessText, hs]
    rw [hroot] at hdec
    -- a slash in front would have been escaped
    have hhd : hd (encode (fun c => !pathChar c) P) ≠ ch '/' := by
      intro h'
      obtain ⟨P', rfl⟩ := eq_slash_of_encode (eq_cons_of_hd h' (by decide))
      rcases slash_of_decode hdec with ⟨t, rfl⟩ | ⟨x, y, t, rfl, hxy⟩
      · exact hs rfl
      · exact ha hs ⟨x, y, t, Or.inl rfl, hxy⟩
    have hroot' : rootlessText (encode (fun c => !pathChar c) P) =
        encode (fun c => !pathChar c) P := by simp [rootlessText, hhd]
    rw [hshow] at hend ⊢
    refine ⟨fun he => ?_, hend, by simp [hs, hhd],
      readPath_eq_ok.mpr ⟨by simp [hs, hhd], ?_, P, rfl, ?_⟩⟩
    · obtain rfl := encode_eq_nil he
      exact hp (decode_eq_nil hdec)
    · rw [hroot']
      intro c hc
      exact mem_shownPath (r := true) (P := P) (by simpa [shownPath] using hc)
    · rw [hroot']
      exact decode_encode _ P

/-- Without an authority in front, it does not look like one. -/
theorem shown_path_alone (ha : ¬ SlashEscaped p) (hn : ¬ [ch '/', ch '/'] <+: p)
    (h : readPath decodeUrl (some p) = .ok (some P, r)) : ¬ [ch '/', ch '/'] <+: shownPath r P := by
  obtain ⟨rfl, -, P', hP', hdec⟩ := readPath_eq_ok.mp h
  cases hP'
  rintro ⟨s, hs⟩
  have hslash : ∀ s', encode (fun c => !pathChar c) P ≠ ch '/' :: s' := by
    intro s' hs'
    obtain ⟨P', rfl⟩ := eq_slash_of_encode hs'
    rcases slash_of_decode hdec with ⟨t, ht⟩ | ⟨x, y, t, ht, hxy⟩
    · by_cases h0 : hd p = ch '/'
      · have hp : p = ch '/' :: p.tail := eq_cons_of_hd h0 (by decide)
        have htail : p.tail = ch '/' :: t := by simpa [rootlessText, h0] using ht
        exact hn ⟨t, by rw [hp, htail]; rfl⟩
      · rw [rootlessText, if_pos h0] at ht
        exact h0 (by rw [ht]; rfl)
    · by_cases h0 : hd p = ch '/'
      · have hp : p = ch '/' :: p.tail := eq_cons_of_hd h0 (by decide)
        have htail : p.tail = ch '%' :: x :: y :: t := by simpa [rootlessText, h0] using ht
        exact ha ⟨x, y, t, Or.inr (by rw [hp, htail]), hxy⟩
      · rw [rootlessText, if_pos h0] at ht
        exact ha ⟨x, y, t, Or.inl ht, hxy⟩
  by_cases h0 : hd p = ch '/'
  · exact hslash s (by simpa [shownPath, h0] using hs.symm)
  · exact hslash (ch '/' :: s) (by simpa [shownPath, h0] using hs.symm)

end Path

section Url

variable {w : UrlText} {u : StringUrl}

theorem readHier_eq_ok {x : Option AuthorityText} {a : Option Authority} :
    readHier x = .ok a ↔
      (x = none ∧ a = none) ∨ ∃ y b, x = some y ∧ a = some b ∧ y.read = .ok b := by
  cases x with
  | none => simp [readHier, @eq_comm _ a]
  | some y =>
    unfold readHier
    cases hy : y.read with
    | error e => simp [hy, Except.map]
    | ok b => simp [hy, Except.map, @eq_comm _ a]

/-- **A URL whose text does not distort it is read back.** -/
theorem UrlText.Fits.reads_back (hf : w.Fits) (hw : ¬ w.Distorts)
    (h : w.read stringTraits = .ok u) :
    ∃ t, u.string = .ok t ∧ StringUrl.ofString t = .ok u := by
  obtain ⟨ha, hp, hs, hq, hfr, he⟩ := hf.read_eq_ok.mp h
  have hne : u.scheme ≠ [] := fun h0 => hf.scheme.tail (by rw [← hs, h0]; rfl)
  -- the authority
  have hauth : (∀ a ∈ u.authority, a.Printable) ∧
      (∀ x ∈ u.shown.authority, x.Fits ∧ ∀ c ∈ x.text, isDelim c = false) ∧
      readHier u.shown.authority = .ok u.authority ∧
      (w.authority = none ↔ u.shown.authority = none) := by
    rcases readHier_eq_ok.mp ha with ⟨hwa, hu⟩ | ⟨x, a, hwa, hu, hx⟩
    · simp [StringUrl.shown, hu, hwa, readHier]
    · obtain ⟨hxf, hxd⟩ := hf.authority x hwa
      obtain ⟨h1, h2, h3, h4⟩ := shown_authority hxf hxd (fun hx' => hw (.authority x hwa hx')) hx
      simpa [StringUrl.shown, hu, hwa, readHier, h1, h2, h4, Except.map] using h3
  obtain ⟨hprint, hafits, haread, hnone⟩ := hauth
  -- the path
  have hpath : (∀ p ∈ u.shown.path, p ≠ [] ∧ ∀ c ∈ p, isPathEnd c = false) ∧
      (w.authority ≠ none → ∀ p ∈ u.shown.path, hd p = ch '/') ∧
      (w.authority = none → ∀ p ∈ u.shown.path, ¬ [ch '/', ch '/'] <+: p) ∧
      readPath decodeUrl u.shown.path = .ok (u.path, u.rootless) := by
    cases hwp : w.path with
    | none =>
      rw [hwp] at hp
      cases hup : u.path with
      | none =>
        rw [hup] at hp
        simpa [StringUrl.shown, hup, readPath] using hp
      | some P =>
        rw [hup] at hp
        cases hp
    | some p =>
      rw [hwp] at hp
      obtain ⟨hr, hall, P, hP, hdec⟩ := readPath_eq_ok.mp hp
      have hshow : u.shown.path = some (shownPath u.rootless P) := by
        simp [StringUrl.shown, hP, shownPath]
      rw [hP] at hp
      have hesc : w.authority = none → ¬ SlashEscaped p := fun h0 h1 => hw (.path h0 p hwp h1)
      have hroot : hd p ≠ ch '/' → w.authority = none := fun h0 => by
        by_contra h1
        exact h0 (hf.behind h1 p hwp)
      obtain ⟨h1, h2, h3, h4⟩ := shown_path (hf.path p hwp).1 (fun h0 => hesc (hroot h0)) hp
      rw [hshow, hP]
      refine ⟨?_, ?_, ?_, h4⟩
      · rintro _ ⟨⟩
        exact ⟨h1, h2⟩
      · rintro h0 _ ⟨⟩
        exact h3.mpr (hf.behind h0 p hwp)
      · rintro h0 _ ⟨⟩
        exact shown_path_alone (hesc h0) (hf.alone h0 p hwp) hp
  obtain ⟨hpfits, hbehind, halone, hpread⟩ := hpath
  have hfits : u.shown.Fits := by
    refine ⟨?_, hafits, hpfits, fun h0 => hbehind (mt hnone.mp h0),
      fun h0 => halone (hnone.mpr h0), ?_⟩
    · rw [show u.shown.scheme = w.scheme from hs]
      exact hf.scheme
    · rw [show u.shown.query = w.query from hq]
      exact hf.query
  refine ⟨u.shown.text, string_eq he hne hprint, ?_⟩
  rw [ofString_eq, hfits.parse_eq, hfits.read_eq_ok]
  exact ⟨haread, hpread, rfl, rfl, rfl, he⟩

/-! ### What is not -/

theorem parts_of_parse {sc i : Bytes} (hs : SchemeText sc)
    (h : parseUrl stringTraits (sc ++ ch ':' :: i) = .ok u) :
    ∃ j k, parseHier i = .ok (u.authority, j) ∧
      parsePath stringTraits j = .ok ((u.path, u.rootless), k) := by
  have hsc : sc ≠ [] := fun h0 => hs.tail (by rw [h0]; rfl)
  unfold parseUrl at h
  rw [if_neg (by simp), parseScheme_append hs] at h
  obtain ⟨-, ⟨⟩, h⟩ := bind_eq_ok.mp h
  obtain ⟨⟨a, j⟩, ha, h⟩ := bind_eq_ok.mp h
  obtain ⟨⟨⟨p, rl⟩, k⟩, hp, h⟩ := bind_eq_ok.mp h
  simp only [stringTraits, hsc, ne_eq, not_false_eq_true, if_true, bind, Except.bind] at h
  cases h
  exact ⟨j, k, ha, hp⟩

theorem authority_of_parse {sc r : Bytes} (hs : SchemeText sc)
    (h : parseUrl stringTraits (sc ++ ch ':' :: ch '/' :: ch '/' :: r) = .ok u) :
    ∃ a, u.authority = some a ∧ parseAuthority (r.takeWhile fun c => !isDelim c) = .ok a := by
  obtain ⟨j, k, h1, -⟩ := parts_of_parse hs h
  unfold parseHier at h1
  rw [if_pos ⟨r, rfl⟩] at h1
  have hdrop : (ch '/' :: ch '/' :: r).drop 2 = r := rfl
  simp only [hdrop] at h1
  cases ha : parseAuthority (r.takeWhile fun c => !isDelim c) with
  | error e => simp [ha, Except.map] at h1
  | ok a =>
    simp only [ha, Except.map, Except.ok.injEq, Prod.mk.injEq] at h1
    exact ⟨a, h1.1.symm, rfl⟩

/-- What starts with a slash is not read as a rootless path. -/
theorem rooted_of_parse {sc r : Bytes} (hs : SchemeText sc)
    (h : parseUrl stringTraits (sc ++ ch ':' :: ch '/' :: r) = .ok u) :
    u.authority ≠ none ∨ u.rootless = false := by
  by_cases hr : [ch '/', ch '/'] <+: ch '/' :: r
  · obtain ⟨t, ht⟩ := hr
    rw [← ht] at h
    obtain ⟨a, ha, -⟩ := authority_of_parse hs h
    exact Or.inl (by simp [ha])
  · obtain ⟨j, k, h1, h2⟩ := parts_of_parse hs h
    unfold parseHier at h1
    rw [if_neg hr] at h1
    obtain ⟨hu, rfl⟩ := Prod.mk.inj (Except.ok.inj h1)
    right
    unfold parsePath at h2
    have hne : ¬ (ch '/' :: r = [] ∨ isPathEnd (hd (ch '/' :: r)) = true) := by
      rw [hd_cons, not_or]
      exact ⟨List.cons_ne_nil _ _, by decide⟩
    rw [if_neg hne] at h2
    simp only [hd_cons, ne_eq, not_true_eq_false, decide_false, if_false] at h2
    split_ifs at h2
    · cases h2
    · obtain ⟨P, -, h2⟩ := bind_eq_ok.mp h2
      exact (Prod.mk.inj (Prod.mk.inj (Except.ok.inj h2)).1).2.symm

theorem user_host_of_parse {auth : Bytes} {a : Authority} (h : parseAuthority auth = .ok a) :
    a.user = (splitUser auth).1 ∧
      Host.ofString (splitPort (splitUser auth).2).1 = .ok a.host := by
  unfold parseAuthority at h
  obtain ⟨n, -, h⟩ := bind_eq_ok.mp h
  split_ifs at h
  · cases h
  · obtain ⟨host, hh, h⟩ := bind_eq_ok.mp h
    cases h
    exact ⟨rfl, hh⟩

theorem splitPort_isPrefix (r : Bytes) : (splitPort r).1 <+: r := by
  rcases exists_last isPortMark r with hno | ⟨s, c, t, rfl, hc, ht⟩
  · unfold splitPort
    rw [splitLast_eq_none hno]
  · unfold splitPort
    rw [splitLast_append s hc ht]
    by_cases h : c = ch ']'
    · simp [h]
    · simp [h]

/-- A part of a text that is all of a class does not go past a run of the class. -/
theorem isPrefix_of_stops {α : Type} {q : α → Bool} {s t r : List α} (h : s <+: t ++ r)
    (hs : ∀ c ∈ s, q c = true) (hr : Stops q r) : s <+: t := by
  rcases List.prefix_or_prefix_of_prefix h (List.prefix_append t r) with h' | ⟨u, rfl⟩
  · exact h'
  · rw [List.prefix_append_right_inj] at h
    cases u with
    | nil => simp
    | cons c u =>
      obtain ⟨v, rfl⟩ := h
      have h1 : q c = true := hs c (by simp)
      have h2 : q c = false := hr c rfl
      rw [h1] at h2
      cases h2

/-- **The host that is read from what is shown of a name.** It does not go past it, also where an
`@` of the name was taken for the end of the user. -/
theorem name_of_parse {auth R w : Bytes} {a : Authority} (h : parseAuthority auth = .ok a)
    (hh : a.host = ⟨w, .name⟩) (hw : w ≠ [])
    (hp : auth <+: userText a.shown.user ++ (encode nonAscii w ++ R)) (hR : Stops hostChar R) :
    ∃ v, (∀ c ∈ v, hostChar c = true) ∧ isIpv4 v = false ∧ decode v = some w ∧
      v <+: encode nonAscii w := by
  obtain ⟨hu, hhost⟩ := user_host_of_parse h
  rw [hh] at hhost
  obtain ⟨hv4, hvc, hvd⟩ : isIpv4 (splitPort (splitUser auth).2).1 = false ∧
      (∀ c ∈ (splitPort (splitUser auth).2).1, hostChar c = true) ∧
      decode (splitPort (splitUser auth).2).1 = some w := by
    rcases Host.ofString_eq_ok.mp hhost with ⟨-, -, h1⟩ | ⟨-, -, h1⟩ | ⟨-, h1, h2, w', h3, h4⟩
    · cases h1
    · cases h1
    · cases h4
      exact ⟨h1, h2, h3⟩
  refine ⟨_, hvc, hv4, hvd, ?_⟩
  have hpre := splitPort_isPrefix (splitUser auth).2
  by_cases hat : ch '@' ∈ auth
  · obtain ⟨s, r, rfl, hs⟩ := List.eq_append_cons_of_mem hat
    rw [splitUser_append hs] at hu hpre hvc hvd ⊢
    by_cases h0 : a.user = []
    · -- the name starts with an `@`: what is read is shorter
      obtain rfl : s = [] := hu.symm.trans h0
      have hnone : a.shown.user = none := by simp [Authority.shown, h0]
      rw [hnone] at hp
      obtain ⟨c, w, rfl⟩ := List.exists_cons_of_ne_nil hw
      simp only [userText, List.nil_append] at hp
      exfalso
      by_cases hc : c = ch '%' ∨ nonAscii c = true
      · rw [encode_cons_escape hc] at hp
        exact absurd (List.cons_prefix_cons.mp hp).1 (by decide)
      · rw [not_or, Bool.not_eq_true] at hc
        rw [encode_cons_plain hc.1 hc.2] at hp
        have hr : r <+: encode nonAscii w ++ R := (List.cons_prefix_cons.mp hp).2
        have hlen := (decode_of_isPrefix (isPrefix_of_stops (hpre.trans hr) hvc hR) hvd).length_le
        simp at hlen
    · have hsome : a.shown.user = some s := by
        rw [Authority.shown, if_neg h0, hu]
      rw [hsome] at hp
      simp only [userText, List.append_assoc, List.singleton_append,
        List.prefix_append_right_inj, List.cons_prefix_cons, true_and] at hp
      exact isPrefix_of_stops (hpre.trans hp) hvc hR
  · rw [splitUser_none hat] at hu hpre hvc hvd ⊢
    have hnone : a.shown.user = none := by simp [Authority.shown, hu]
    rw [hnone] at hp
    exact isPrefix_of_stops (hpre.trans hp) hvc hR

theorem printable_of_string {t : Bytes} {a : Authority} (he : u.empty = false)
    (h : u.string = .ok t) (ha : u.authority = some a) :
    a.host.kind = .name ∨ a.host.value ≠ [] := by
  by_contra hbad
  have hstr : a.string = .error .assertion := by
    simp [Authority.string, Authority.empty, Host.empty, hbad, bind, Except.bind]
  simp [StringUrl.string, BasicUrl.string, stringTraits, he, ha, hstr, bind, Except.bind,
    Except.map] at h

/-- The name that a host with an escape sequence is read as. -/
theorem name_of_escape {v : Bytes} {h : Host} (hb : hd v ≠ ch '[') (hp : ch '%' ∈ v)
    (hh : Host.ofString v = .ok h) : ∃ w, decode v = some w ∧ w ≠ [] ∧ h = ⟨w, .name⟩ := by
  rcases Host.ofString_eq_ok.mp hh with ⟨h1, -, -⟩ | ⟨-, h4, -⟩ | ⟨-, -, -, w, hw, hh⟩
  · exact absurd h1 hb
  · exact absurd rfl (isIpv4_char h4 _ hp).2.1
  · refine ⟨w, hw, ?_, hh⟩
    rintro rfl
    rw [decode_eq_nil hw] at hp
    cases hp

/-- **An authority that is distorted is not read back**, whatever follows it. -/
theorem distorted_authority {x : AuthorityText} {a : Authority} {R : Bytes}
    (hdl : ∀ c ∈ x.text, isDelim c = false) (hx : x.Distorts) (h : x.read = .ok a)
    (hprint : a.host.kind = .name ∨ a.host.value ≠ []) (hR : Stops (fun c => !isDelim c) R) :
    parseAuthority ((a.shown.text ++ R).takeWhile fun c => !isDelim c) ≠ .ok a := by
  obtain ⟨hu, -, hh, -⟩ := AuthorityText.read_eq_ok.mp h
  intro hparse
  have hR' : Stops hostChar (portText a.shown.port ++ R) := by
    cases a.shown.port with
    | none =>
      intro c hc
      have h1 : isDelim c = true := stops_isDelim_iff.mp hR c hc
      by_contra h2
      rw [isDelim_of_hostChar (by simpa using h2)] at h1
      cases h1
    | some p => exact stops_cons.mpr (by decide)
  -- what follows from the name that is read
  have key : ∀ w, w ≠ [] → a.host = ⟨w, .name⟩ → ∃ v, (∀ c ∈ v, hostChar c = true) ∧
      isIpv4 v = false ∧ decode v = some w ∧ v <+: encode nonAscii w := by
    intro w hw hhost
    refine name_of_parse hparse hhost hw ((List.takeWhile_prefix _).trans ?_) hR'
    have hs : a.host.shown = encode nonAscii w := by rw [hhost]; rfl
    rw [← hs]
    exact ⟨[], by simp [AuthorityText.text, Authority.shown]⟩
  cases hx with
  | empty he =>
    rw [he, show Host.ofString (str ['[', ']']) = .ok ⟨[], .ipv6⟩ from rfl] at hh
    rw [← Except.ok.inj hh] at hprint
    simp at hprint
  | user hxu hb hm =>
    obtain ⟨hs, -, -⟩ := shown_bracketed hb hh
    have h0 : a.user = [] := by rw [hu, hxu]; rfl
    have hdx : ∀ c ∈ x.host, (!isDelim c) = true := fun c hc => by
      simp [hdl c (by simp [AuthorityText.text, hc])]
    have htext : a.shown.text ++ R = x.host ++ (portText a.shown.port ++ R) := by
      rw [AuthorityText.text, show a.shown.user = none by simp [Authority.shown, h0],
        show a.shown.host = x.host from hs]
      simp [userText]
    rw [htext, List.takeWhile_append_of_pos hdx] at hparse
    have hat : ch '@' ∈ x.host ++ (portText a.shown.port ++ R).takeWhile fun c => !isDelim c :=
      List.mem_append_left _ hm
    obtain ⟨s, r, hsr, hns⟩ := List.eq_append_cons_of_mem hat
    rw [hsr] at hparse
    have hus := (user_host_of_parse hparse).1
    rw [splitUser_append hns, h0] at hus
    obtain rfl : s = [] := hus.symm
    rw [eq_cons_of_hd hb (by decide)] at hsr
    exact absurd (List.cons.inj hsr).1 (by decide)
  | character hb hesc =>
    obtain ⟨t, p, q, r, ht, hn, hc⟩ := hesc
    obtain ⟨w, hw, hw0, hhost⟩ := name_of_escape hb (by rw [ht]; simp) hh
    obtain ⟨v, hvc, -, hvd, hvp⟩ := key w hw0 hhost
    rw [ht] at hw
    have hp : byte p q ≠ ch '%' := fun h => by
      rw [h] at hc
      revert hc
      decide
    obtain ⟨w1, w2, rfl⟩ := List.append_of_mem (byte_mem_decode hw)
    rw [encode_append, encode_cons_plain hp hn] at hvp
    have hlen := (decode_of_isPrefix
      (isPrefix_of_stops hvp hvc (stops_cons.mpr hc)) hvd).length_le
    simp at hlen
  | address hb hp v0 hv0 h4 =>
    obtain ⟨w, hw, hw0, hhost⟩ := name_of_escape hb hp hh
    rw [hv0] at hw
    cases hw
    obtain ⟨v, -, hv4, hvd, hvp⟩ := key _ hw0 hhost
    have hplain := isIpv4_char h4
    rw [encode_of_plain fun c hc => (hplain c hc).2] at hvp
    have hperc : ch '%' ∉ v := fun hm => (hplain _ (hvp.subset hm)).2.1 rfl
    rw [decode_of_not_mem hperc] at hvd
    cases hvd
    rw [h4] at hv4
    cases hv4

/-- **A URL whose text distorts it is not read back.** -/
theorem UrlText.Fits.not_read_back (hf : w.Fits) (hw : w.Distorts)
    (h : w.read stringTraits = .ok u) {t : Bytes} (ht : u.string = .ok t) :
    StringUrl.ofString t ≠ .ok u := by
  obtain ⟨ha, hp, hs, hq, hfr, he⟩ := hf.read_eq_ok.mp h
  have hne : u.scheme ≠ [] := fun h0 => hf.scheme.tail (by rw [← hs, h0]; rfl)
  have hsch : SchemeText u.scheme := by
    rw [hs]
    exact hf.scheme
  rw [ofString_eq]
  intro hback
  cases hw with
  | authority x hx hd =>
    obtain ⟨a, hua, hxa⟩ : ∃ a, u.authority = some a ∧ x.read = .ok a := by
      rcases readHier_eq_ok.mp ha with ⟨h1, -⟩ | ⟨y, a, h1, h2, h3⟩
      · rw [hx] at h1
        cases h1
      · rw [hx] at h1
        cases h1
        exact ⟨a, h2, h3⟩
    obtain ⟨-, hxd⟩ := hf.authority x hx
    have hprint := printable_of_string he ht hua
    have hpa : a.Printable := by
      refine ⟨hprint, fun hv => ?_⟩
      obtain ⟨-, -, hh, h0⟩ := AuthorityText.read_eq_ok.mp hxa
      rcases Host.ofString_eq_ok.mp hh with ⟨-, -, h1⟩ | ⟨-, h4, h1⟩ | ⟨-, -, -, v, hdv, h1⟩
      · rw [h1] at hprint hv
        exact absurd hv (hprint.resolve_left (by simp))
      · rw [h1] at hv
        exact absurd hv (isIpv4_ne_nil h4)
      · rw [h1] at hv
        obtain rfl : v = [] := hv
        exact h0 (decode_eq_nil hdv)
    have hall : ∀ b ∈ u.authority, b.Printable := by
      rw [hua]
      rintro _ ⟨⟩
      exact hpa
    rw [string_eq he hne hall] at ht
    cases ht
    have hR : Stops (fun c => !isDelim c) (u.shown.path.getD [] ++
        (queryText u.query ++ fragmentText u.fragment)) := by
      rw [stops_isDelim_iff]
      cases hup : u.path with
      | none =>
        intro c hc
        have h1 : isPathEnd c = true := head_query u.query u.fragment c
          (by simpa [StringUrl.shown, hup] using hc)
        simp only [isPathEnd, Bool.or_eq_true, decide_eq_true_eq] at h1
        rcases h1 with rfl | rfl <;> decide
      | some P =>
        have hroot : u.rootless = false := by
          cases hwp : w.path with
          | none =>
            rw [hwp, hup] at hp
            cases hp
          | some p =>
            rw [hwp] at hp
            have hslash := hf.behind (by simp [hx]) p hwp
            simpa [hslash] using (readPath_eq_ok.mp hp).1
        intro c hc
        obtain rfl : ch '/' = c := by simpa [StringUrl.shown, hup, hroot] using hc
        decide
    have htext : u.shown.text = u.scheme ++ ch ':' :: ch '/' :: ch '/' :: (a.shown.text ++
        (u.shown.path.getD [] ++ (queryText u.query ++ fragmentText u.fragment))) := by
      simp [UrlText.text, StringUrl.shown, hua, hierText]
    rw [htext] at hback
    obtain ⟨b, hb, hparse⟩ := authority_of_parse hsch hback
    rw [hua] at hb
    cases hb
    exact distorted_authority hxd hd hxa hprint hR hparse
  | path hno p hwp hd =>
    have hua : u.authority = none := by
      rw [hno] at ha
      exact (Except.ok.inj ha).symm
    rw [hwp] at hp
    obtain ⟨hr, -, P, hP, hdec⟩ := readPath_eq_ok.mp hp
    obtain ⟨x, y, r, hd, hxy⟩ := hd
    have hroot : rootlessText p = ch '%' :: x :: y :: r := by
      rcases hd with rfl | rfl
      · exact if_pos (by rw [hd_cons]; decide)
      · exact if_neg (by simp)
    obtain ⟨P', rfl⟩ : ∃ P', P = ch '/' :: P' := by
      rw [hroot] at hdec
      rcases decode_cases hdec with ⟨h1, -⟩ | ⟨c, s, v, h1, h2, -⟩ | ⟨c, d, s, v, h1, -, -, h2, -⟩
      · cases h1
      · exact absurd (List.cons.inj h1).1.symm h2
      · simp only [List.cons.injEq, true_and] at h1
        obtain ⟨rfl, rfl, -⟩ := h1
        exact ⟨v, by rw [h2, hxy]⟩
    have henc : encode (fun c => !pathChar c) (ch '/' :: P') =
        ch '/' :: encode (fun c => !pathChar c) P' := encode_cons_plain (by decide) (by decide)
    rw [string_eq he hne (by simp [hua])] at ht
    cases ht
    cases hrl : u.rootless with
    | true =>
      have htext : u.shown.text = u.scheme ++
        ch ':' :: ch '/' :: (encode (fun c => !pathChar c) P' ++
          (queryText u.query ++ fragmentText u.fragment)) := by
        simp [UrlText.text, StringUrl.shown, hua, hP, hrl, henc, hierText]
      rw [htext] at hback
      rcases rooted_of_parse hsch hback with h1 | h1
      · exact h1 hua
      · rw [hrl] at h1
        cases h1
    | false =>
      have htext : u.shown.text = u.scheme ++ ch ':' :: ch '/' :: ch '/' ::
          (encode (fun c => !pathChar c) P' ++
            (queryText u.query ++ fragmentText u.fragment)) := by
        simp [UrlText.text, StringUrl.shown, hua, hP, hrl, henc, hierText]
      rw [htext] at hback
      obtain ⟨a, h1, -⟩ := authority_of_parse hsch hback
      rw [hua] at h1
      cases h1

theorem exists_fits_of_parse {s : Bytes} (h : StringUrl.ofString s = .ok u) :
    ∃ w : UrlText, w.Fits ∧ w.text = s ∧ w.read stringTraits = .ok u := by
  rw [ofString_eq] at h
  have h' := h
  unfold parseUrl at h'
  split_ifs at h'
  · cases h'
  · obtain ⟨⟨sc, i⟩, hsc, -⟩ := bind_eq_ok.mp h'
    obtain ⟨w, hf, rfl⟩ := UrlText.exists_text hsc
    exact ⟨w, hf, rfl, by rw [← hf.parse_eq, h]⟩

/-- **A URL is read back from what `string` prints** exactly when its text does not distort it. -/
theorem round_trip (s : Bytes) (u : StringUrl) (h : StringUrl.ofString s = .ok u) :
    (∃ t, u.string = .ok t ∧ StringUrl.ofString t = .ok u) ↔
      ¬ ∃ w : UrlText, w.Fits ∧ w.text = s ∧ w.Distorts := by
  constructor
  · rintro ⟨t, ht, hback⟩ ⟨w, hf, rfl, hw⟩
    rw [ofString_eq, hf.parse_eq] at h
    exact hf.not_read_back hw h ht hback
  · intro hno
    obtain ⟨w, hf, rfl, hr⟩ := exists_fits_of_parse h
    exact hf.reads_back (fun hw => hno ⟨w, hf, rfl, hw⟩) hr

theorem round_trip_rootless :
    (∃ t,
      StringUrl.string ⟨⟨none, some (str ['i', 'd']), none, none, true⟩, str ['p', 'k'], false⟩ =
        .ok t ∧ StringUrl.ofString t =
      .ok ⟨⟨none, some (str ['i', 'd']), none, none, true⟩, str ['p', 'k'], false⟩) ↔
      ¬ ∃ w : UrlText, w.Fits ∧ w.text = str ['p', 'k', ':', 'i', 'd'] ∧ w.Distorts :=
  round_trip _ _ rfl

/-- An escaped slash at the start of a rootless path: `ab:%2Fc` prints as `ab:/c`, where the slash
is not a part of the path. -/
theorem escaped_slash_not_read_back : ¬ ∀ s u, StringUrl.ofString s = .ok u →
    ∃ t, u.string = .ok t ∧ StringUrl.ofString t = .ok u := by
  intro h
  obtain ⟨t, h1, h2⟩ := h (str ['a', 'b', ':', '%', '2', 'F', 'c'])
    ⟨⟨none, some (str ['/', 'c']), none, none, true⟩, str ['a', 'b'], false⟩ rfl
  have h3 : StringUrl.string
      ⟨⟨none, some (str ['/', 'c']), none, none, true⟩, str ['a', 'b'], false⟩ =
    .ok (str ['a', 'b', ':', '/', 'c']) := rfl
  rw [h3] at h1
  cases h1
  have h4 : StringUrl.ofString (str ['a', 'b', ':', '/', 'c']) =
      .ok ⟨⟨none, some (str ['c']), none, none, false⟩, str ['a', 'b'], false⟩ := rfl
  rw [h4] at h2
  simp at h2

end Url

end Build2.Libbutl.Url
