import Build2.Libbutl.Url.Text

/-! # Hosts and authorities

What a host is read from (`Host.ofString_eq_ok`) and what it is shown as. The characters of a host
name are neither delimiters nor marks, so a text made of them is the host of an authority as it
is. -/

namespace Build2.Libbutl.Url

open Build2.Lib.ByteString Build2.Lib.Decimal Build2.Lib.Percent Build2.Lib.Stateful

/-! ### Characters -/

theorem hostChar_of_isDigit {c : UInt8} (h : isDigit c = true) : hostChar c = true := by
  simp [hostChar, unreserved, isAlnum, h]

theorem isAlnum_of_isXdigit {c : UInt8} (h : isXdigit c = true) : isAlnum c = true := by
  rw [isXdigit_iff] at h
  simp only [isAlnum, isAlpha, isDigit, Bool.or_eq_true, Bool.and_eq_true, decide_eq_true_eq,
    UInt8.le_iff_toNat_le]
  have h0 : (ch '0').toNat = 48 := rfl
  have h9 : (ch '9').toNat = 57 := rfl
  have ha : (ch 'a').toNat = 97 := rfl
  have hz : (ch 'z').toNat = 122 := rfl
  have hA : (ch 'A').toNat = 65 := rfl
  have hZ : (ch 'Z').toNat = 90 := rfl
  omega

theorem hostChar_of_isXdigit {c : UInt8} (h : isXdigit c = true) : hostChar c = true := by
  simp [hostChar, unreserved, isAlnum_of_isXdigit h]

theorem pathChar_of_isXdigit {c : UInt8} (h : isXdigit c = true) : pathChar c = true := by
  simp [pathChar, unreserved, isAlnum_of_isXdigit h]

theorem not_mem_of_class {p : UInt8 → Bool} {s : Bytes} {d : UInt8} (hs : ∀ c ∈ s, p c = true)
    (hd : p d = false) : d ∉ s := fun h => ne_of_class (hs d h) hd rfl

theorem isDelim_of_hostChar {c : UInt8} (h : hostChar c = true) : isDelim c = false := by
  have h1 : c ≠ ch '/' := ne_of_class h (by decide)
  have h2 : c ≠ ch '?' := ne_of_class h (by decide)
  have h3 : c ≠ ch '#' := ne_of_class h (by decide)
  simp [isDelim, h1, h2, h3]

theorem isPathEnd_of_pathChar {c : UInt8} (h : pathChar c = true) : isPathEnd c = false := by
  have h2 : c ≠ ch '?' := ne_of_class h (by decide)
  have h3 : c ≠ ch '#' := ne_of_class h (by decide)
  simp [isPathEnd, h2, h3]

/-! ### IPv4 addresses -/

theorem Octets.step_char {t u : Octets} {c : UInt8} (h : t.step c = some u) :
    hostChar c = true ∧ c ≠ ch '%' ∧ nonAscii c = false := by
  unfold step at h
  by_cases hd : isDigit c = true
  · refine ⟨hostChar_of_isDigit hd, ne_of_class hd (by decide), ?_⟩
    have := isDigit_iff.mp hd
    simp only [nonAscii, decide_eq_false_iff_not, UInt8.le_iff_toNat_le]
    have h80 : (0x80 : UInt8).toNat = 128 := rfl
    omega
  · by_cases hc : c = ch '.'
    · subst hc
      decide
    · simp [hd, hc] at h

theorem foldlM_char {v : Bytes} {t u : Octets} (h : v.foldlM Octets.step t = some u) :
    ∀ c ∈ v, hostChar c = true ∧ c ≠ ch '%' ∧ nonAscii c = false := by
  induction v generalizing t with
  | nil => simp
  | cons c v ih =>
    rw [List.foldlM_cons, Option.bind_eq_bind, Option.bind_eq_some_iff] at h
    obtain ⟨t', h1, h2⟩ := h
    exact List.forall_mem_cons.mpr ⟨Octets.step_char h1, ih h2⟩

/-- An IPv4 address is made of characters that are written as they are. -/
theorem isIpv4_char {v : Bytes} (h : isIpv4 v = true) :
    ∀ c ∈ v, hostChar c = true ∧ c ≠ ch '%' ∧ nonAscii c = false := by
  unfold isIpv4 at h
  cases ht : v.foldlM Octets.step {} with
  | none =>
    rw [ht] at h
    cases h
  | some t => exact foldlM_char ht

theorem isIpv4_ne_nil {v : Bytes} (h : isIpv4 v = true) : v ≠ [] := by
  rintro rfl
  cases h

/-! ### Hosts -/

/-- **What a host is read from.** -/
theorem Host.ofString_eq_ok {v : Bytes} {h : Host} : Host.ofString v = .ok h ↔
    (hd v = ch '[' ∧ v.getLast? = some (ch ']') ∧ h = ⟨(v.drop 1).take (v.length - 2), .ipv6⟩) ∨
    (hd v ≠ ch '[' ∧ isIpv4 v = true ∧ h = ⟨v, .ipv4⟩) ∨
    (hd v ≠ ch '[' ∧ isIpv4 v = false ∧ (∀ c ∈ v, hostChar c = true) ∧
      ∃ w, decode v = some w ∧ h = ⟨w, .name⟩) := by
  unfold Host.ofString
  by_cases hb : hd v = ch '['
  · by_cases hl : v.getLast? = some (ch ']')
    · simp [hb, hl, @eq_comm _ h]
    · simp [hb, hl]
  · by_cases h4 : isIpv4 v = true
    · simp [hb, h4, @eq_comm _ h]
    · rw [if_neg hb, if_neg h4]
      rw [Bool.not_eq_true] at h4
      by_cases hall : v.all hostChar = true
      · rw [if_pos hall]
        rw [List.all_eq_true] at hall
        by_cases hp : ch '%' ∈ v
        · rw [if_pos hp]
          unfold decodeUrl
          cases hw : decode v with
          | none => simp [Except.map, hb, h4]
          | some w => simpa [Except.map, hb, h4, @eq_comm _ h] using fun _ => hall
        · rw [if_neg hp]
          simpa [decode_of_not_mem hp, hb, h4, @eq_comm _ h] using fun _ => hall
      · rw [if_neg hall]
        have hall' : ¬ ∀ c ∈ v, hostChar c = true := by simpa using hall
        simp [hb, h4, hall']

theorem eq_bracketed {v : Bytes} (h1 : hd v = ch '[') (h2 : v.getLast? = some (ch ']')) :
    v = ch '[' :: ((v.drop 1).take (v.length - 2) ++ [ch ']']) := by
  obtain ⟨s, rfl⟩ : ∃ s, v = ch '[' :: s := ⟨_, eq_cons_of_hd h1 (by decide)⟩
  cases s using List.reverseRecOn with
  | nil =>
    simp only [List.getLast?_singleton, Option.some.injEq] at h2
    exact absurd h2 (by decide)
  | append_singleton s b =>
    rw [← List.cons_append, List.getLast?_append] at h2
    have hb : b = ch ']' := by simpa using h2
    simp [hb]

/-- What a host is shown as. -/
def Host.shown (h : Host) : Bytes :=
  match h.kind with
  | .ipv4 => h.value
  | .ipv6 => ch '[' :: (h.value ++ [ch ']'])
  | .name => encode nonAscii h.value

theorem Host.string_eq {h : Host} (hh : h.kind = .name ∨ h.value ≠ []) :
    h.string = .ok h.shown := by
  obtain ⟨v, k⟩ := h
  unfold Host.string Host.empty
  rw [if_pos hh]
  by_cases hv : v = []
  · subst hv
    obtain rfl : k = .name := by simpa using hh
    rfl
  · simp only [hv, decide_false, bind, Except.bind]
    cases k <;> rfl

/-! ### Authorities -/

def Authority.shown (a : Authority) : AuthorityText where
  user := if a.user = [] then none else some a.user
  host := a.host.shown
  port := if a.port = 0 then none else some (decimal a.port)

/-- What `string` relies on: the user and the port come with a host, and the host that is not a
name is not empty. -/
structure Authority.Printable (a : Authority) : Prop where
  host : a.host.kind = .name ∨ a.host.value ≠ []
  alone : a.host.value = [] → a.user = [] ∧ a.port = 0

theorem Authority.Printable.string_eq {a : Authority} (h : a.Printable) :
    a.string = .ok a.shown.text := by
  have hempty : a.host.empty = .ok (decide (a.host.value = [])) := by
    unfold Host.empty
    rw [if_pos h.host]
  unfold Authority.string Authority.empty
  simp only [hempty, bind, Except.bind, Host.string_eq h.host]
  by_cases hv : a.host.value = []
  · obtain ⟨hu, hp⟩ := h.alone hv
    have hk : a.host.kind = .name := h.host.resolve_right (not_not.mpr hv)
    have hs : a.host.shown = [] := by
      unfold Host.shown
      rw [hk, hv]
      rfl
    simp [hv, hu, hp, shown, AuthorityText.text, userText, portText, hs, pure, Except.pure]
  · have huser : userText (if a.user = [] then none else some a.user) =
        if a.user ≠ [] then a.user ++ [ch '@'] else [] := by
      by_cases hu : a.user = [] <;> simp [hu, userText]
    have hport : portText (if a.port = 0 then none else some (decimal a.port)) =
        if a.port ≠ 0 then ch ':' :: decimal a.port else [] := by
      by_cases hp : a.port = 0 <;> simp [hp, portText]
    simp [hv, shown, AuthorityText.text, huser, hport, pure, Except.pure]

theorem parsePort_eq_ok {p : Bytes} {n : ℕ} (h : parsePort p = .ok n) :
    n ≤ 65535 ∧ (p = [] ∧ n = 0 ∨ Numeral p ∧ n ≠ 0) := by
  unfold parsePort at h
  split_ifs at h with h1 h2 h3 h4
  · cases h
    exact ⟨by omega, Or.inl ⟨h1, rfl⟩⟩
  · cases h
    rw [not_or] at h4
    refine ⟨by omega, Or.inr ⟨⟨h1, ?_⟩, h4.1⟩⟩
    simpa using h2

theorem parsePort_decimal {n : ℕ} (h : n ≤ 65535) (hn : n ≠ 0) : parsePort (decimal n) = .ok n := by
  have hall : (decimal n).all isDigit = true := List.all_eq_true.mpr isDigit_decimal
  unfold parsePort
  rw [if_neg (decimal_ne_nil n), hall, value_decimal]
  simp only [Bool.not_true, Bool.false_eq_true, if_false]
  rw [if_neg (by omega), if_neg (by omega)]

theorem AuthorityText.read_eq_ok {x : AuthorityText} {a : Authority} : x.read = .ok a ↔
    a.user = x.user.getD [] ∧ parsePort (x.port.getD []) = .ok a.port ∧
      Host.ofString x.host = .ok a.host ∧ (x.host = [] → a.user = [] ∧ a.port = 0) := by
  unfold AuthorityText.read
  constructor
  · intro h
    obtain ⟨n, hn, h⟩ := bind_eq_ok.mp h
    by_cases hb : x.host = [] ∧ (x.user.getD [] ≠ [] ∨ n ≠ 0)
    · simp [hb, bind, Except.bind, throw, throwThe, MonadExceptOf.throw] at h
    · simp only [hb, if_false] at h
      obtain ⟨host, hh, h⟩ := bind_eq_ok.mp h
      cases h
      refine ⟨rfl, hn, hh, fun he => ?_⟩
      simp only [he, true_and, not_or, not_not] at hb
      exact hb
  · rintro ⟨hu, hp, hh, he⟩
    have hb : ¬ (x.host = [] ∧ (x.user.getD [] ≠ [] ∨ a.port ≠ 0)) := by
      rintro ⟨h1, h2⟩
      obtain ⟨h3, h4⟩ := he h1
      rw [← hu] at h2
      exact h2.elim (fun h => h h3) (fun h => h h4)
    rw [← hu] at hb ⊢
    rw [hp, hh]
    simp only [bind, Except.bind, if_neg hb]
    rfl

end Build2.Libbutl.Url
