import Build2.Libbutl.Url.RoundTrip

/-! # How the constructor of a URL fails

`basic_url` throws `std::invalid_argument`, except for a port whose digits are a number that
`stoull` cannot return (`fails_iff`). -/

namespace Build2.Libbutl.Url

open Build2.Lib.ByteString Build2.Lib.Decimal Build2.Lib.Percent Build2.Lib.Stateful

variable {s sc i : Bytes} {e : Fault}

theorem map_error {α β : Type} {f : α → β} {x : Except Fault α} (h : x.map f = .error e) :
    x = .error e := by
  cases x with
  | error e' =>
    obtain rfl : e' = e := Except.error.inj h
    rfl
  | ok a => cases h

/-! ### The parts -/

theorem decodeUrl_error (h : decodeUrl s = .error e) : e = .invalidArgument := by
  unfold decodeUrl at h
  cases hd : decode s with
  | none => rw [hd] at h; exact (Except.error.inj h).symm
  | some w => rw [hd] at h; cases h

theorem Host.ofString_error (h : Host.ofString s = .error e) : e = .invalidArgument := by
  unfold Host.ofString at h
  split_ifs at h with h1 h2 h3 h4 h5
  · exact (Except.error.inj h).symm
  · exact decodeUrl_error (map_error h)
  · exact (Except.error.inj h).symm

/-- **A port fails with `std::out_of_range`** if its number is too large for `stoull`. -/
theorem parsePort_error {p : Bytes} (h : parsePort p = .error e) :
    e = if Numeral p ∧ 2 ^ 64 ≤ value p then .outOfRange else .invalidArgument := by
  unfold parsePort at h
  split_ifs at h with h1 h2 h3 h4
  · obtain rfl := Except.error.inj h
    rw [if_neg]
    rintro ⟨hn, -⟩
    simp only [Bool.not_eq_true', ← Bool.not_eq_true, List.all_eq_true] at h2
    exact h2 hn.2
  · obtain rfl := Except.error.inj h
    rw [if_pos ⟨⟨h1, by simpa using h2⟩, h3⟩]
  · obtain rfl := Except.error.inj h
    rw [if_neg fun hf => h3 hf.2]

theorem AuthorityText.read_error {x : AuthorityText} (h : x.read = .error e) :
    e = .invalidArgument ∨ ∃ p, x.port = some p ∧ Numeral p ∧ 2 ^ 64 ≤ value p := by
  unfold read at h
  cases hp : parsePort (x.port.getD []) with
  | error e' =>
    have he := parsePort_error hp
    rw [hp] at h
    obtain rfl : e' = e := Except.error.inj h
    split_ifs at he with hn
    · cases hx : x.port with
      | none =>
        rw [hx] at hn
        exact absurd rfl hn.1.1
      | some p =>
        rw [hx] at hn
        exact Or.inr ⟨p, rfl, hn⟩
    · exact Or.inl he
  | ok n =>
    left
    rw [hp] at h
    simp only [bind, Except.bind] at h
    split_ifs at h
    · exact (Except.error.inj h).symm
    · cases hh : Host.ofString x.host with
      | error e' =>
        rw [hh] at h
        rw [← Except.error.inj h]
        exact Host.ofString_error hh
      | ok host => rw [hh] at h; cases h

theorem readPath_error {p : Option Bytes} (h : readPath decodeUrl p = .error e) :
    e = .invalidArgument := by
  unfold readPath at h
  cases p with
  | none => cases h
  | some p =>
    dsimp only at h
    split_ifs at h
    · exact (Except.error.inj h).symm
    · exact decodeUrl_error (map_error h)
    · exact (Except.error.inj h).symm
    · exact decodeUrl_error (map_error h)

theorem scanScheme_error {first : Bool} (h : scanScheme first s = .error e) :
    e = .invalidArgument := by
  induction s generalizing first with
  | nil => cases h
  | cons c s ih =>
    rw [scanScheme] at h
    split_ifs at h
    · exact (Except.error.inj h).symm
    · exact ih (map_error h)
    · exact (Except.error.inj h).symm
    · exact ih (map_error h)

theorem parseScheme_error (h : parseScheme s = .error e) : e = .invalidArgument := by
  unfold parseScheme at h
  cases hs : scanScheme true s with
  | error e' =>
    rw [hs] at h
    obtain rfl : e' = e := Except.error.inj h
    exact scanScheme_error hs
  | ok r =>
    rw [hs] at h
    simp only [bind, Except.bind] at h
    split_ifs at h
    · exact (Except.error.inj h).symm
    · cases h

/-! ### The URL -/

/-- **The text has an authority whose port is too large a number for `stoull`.** -/
def Overflows (s : Bytes) : Prop :=
  ∃ (w : UrlText) (x : AuthorityText) (p : Bytes), w.Fits ∧ w.text = s ∧ w.authority = some x ∧
    x.port = some p ∧ Numeral p ∧ 2 ^ 64 ≤ value p

theorem UrlText.Fits.read_error {w : UrlText} (hw : w.Fits)
    (h : w.read stringTraits = .error e) : e = .invalidArgument ∨ Overflows w.text := by
  have hsc : w.scheme ≠ [] := fun he => hw.scheme.tail (by rw [he]; rfl)
  unfold read at h
  cases ha : readHier w.authority with
  | error e' =>
    rw [ha] at h
    obtain rfl : e' = e := Except.error.inj h
    cases hx : w.authority with
    | none =>
      rw [hx] at ha
      cases ha
    | some x =>
      rw [hx] at ha
      rcases AuthorityText.read_error (map_error ha) with he | ⟨p, hp, hn⟩
      · exact Or.inl he
      · exact Or.inr ⟨w, x, p, hw, rfl, hx, hp, hn⟩
  | ok a =>
    rw [ha] at h
    cases hp : readPath stringTraits.ofPath w.path with
    | error e' =>
      rw [hp] at h
      obtain rfl : e' = e := Except.error.inj h
      exact Or.inl (readPath_error hp)
    | ok r =>
      rw [hp] at h
      simp [stringTraits, hsc, bind, Except.bind, pure, Except.pure] at h

theorem ofString_of_overflows (h : Overflows s) : StringUrl.ofString s = .error .outOfRange := by
  obtain ⟨w, x, p, hw, rfl, hx, hp, hn, hv⟩ := h
  have hport : parsePort (x.port.getD []) = .error .outOfRange := by
    have hd : p.all isDigit = true := List.all_eq_true.mpr hn.2
    rw [hp, Option.getD_some, parsePort, if_neg hn.1, hd, if_neg (by simp), if_pos hv]
  rw [ofString_eq, hw.parse_eq, UrlText.read, hx]
  simp only [readHier, AuthorityText.read, hport]
  rfl

/-- **The constructor throws only `std::invalid_argument`** if the port does not overflow. -/
theorem fails_iff (s : Bytes) :
    (∀ e, StringUrl.ofString s = .error e → e = .invalidArgument) ↔ ¬Overflows s := by
  constructor
  · intro h ho
    cases h _ (ofString_of_overflows ho)
  · intro ho e h
    rw [ofString_eq] at h
    cases hs : parseScheme s with
    | error e' =>
      unfold parseUrl at h
      rw [hs] at h
      by_cases h0 : s = []
      · rw [if_pos h0] at h
        exact (Except.error.inj h).symm
      · rw [if_neg h0] at h
        obtain rfl : e' = e := Except.error.inj h
        exact parseScheme_error hs
    | ok r =>
      obtain ⟨w, hw, rfl⟩ := UrlText.exists_text hs
      rw [hw.parse_eq] at h
      exact (hw.read_error h).resolve_right ho

/-- `http://a:18446744073709551616`. -/
theorem port_out_of_range :
    ¬∀ e, StringUrl.ofString (str ['h', 't', 't', 'p', ':', '/', '/', 'a', ':', '1', '8', '4', '4',
      '6', '7', '4', '4', '0', '7', '3', '7', '0', '9', '5', '5', '1', '6', '1', '6']) = .error e →
      e = .invalidArgument := by
  intro h
  have he := h .outOfRange (by decide +kernel)
  cases he

end Build2.Libbutl.Url
