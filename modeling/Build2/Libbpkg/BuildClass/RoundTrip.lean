import Build2.Libbpkg.BuildClass.Expr

/-! # The representation of a build class expression

What the parser accepts has valid names, and a parenthesized expression in it is not empty and
starts with `+` (`parseExpr_valid`). The parser sees a text only through its words (`parse_terms`),
and the representation of such an expression has the words it was parsed from (`words_toText`). -/

namespace Build2.Libbpkg.BuildClass

open Build2.Lib.ByteString Build2.Lib.Words

/-! ### Words and names -/

/-- A word. -/
structure IsWord (w : Bytes) : Prop where
  ne_nil : w ≠ []
  plain : ∀ b ∈ w, isDelim b = false

theorem words_of_isWord {w : Bytes} (h : IsWord w) : words isDelim w = [w] :=
  words_word h.ne_nil h.plain

theorem words_nextWord_none {s : Bytes} (h : nextWord s = none) : words isDelim s = [] := by
  rw [nextWord] at h
  rw [← words_dropWhile]
  split at h
  · next hd => rw [hd, words_nil]
  · cases h

theorem nextWord_some {s w t : Bytes} (h : nextWord s = some (w, t)) :
    IsWord w ∧ words isDelim s = w :: words isDelim t ∧ t.length < s.length := by
  rw [nextWord] at h
  split at h
  · cases h
  · next b u hd =>
    obtain ⟨rfl, rfl⟩ := Prod.mk.inj (Option.some.inj h)
    have hb : isDelim b = false := by
      have := stops_dropWhile (p := isDelim) s
      rw [hd] at this
      exact stops_cons.mp this
    have hw : IsWord (b :: u.takeWhile fun c => !isDelim c) := by
      refine ⟨List.cons_ne_nil _ _, fun c hc => ?_⟩
      rcases List.mem_cons.mp hc with rfl | hc
      · exact hb
      · simpa using List.mem_takeWhile_imp hc
    refine ⟨hw, ?_, ?_⟩
    · rw [← words_append hw.ne_nil hw.plain (stops_dropWhile u), List.cons_append,
        List.takeWhile_append_dropWhile, ← hd, words_dropWhile]
    · have h1 : (u.dropWhile fun c => !isDelim c).length ≤ u.length :=
        (List.dropWhile_suffix _).length_le
      have h2 : (s.dropWhile isDelim).length ≤ s.length := (List.dropWhile_suffix _).length_le
      rw [hd, List.length_cons] at h2
      omega

/-- **The next word** is the first of the words. -/
theorem nextWord_of_words {s w : Bytes} {ws : List Bytes} (h : words isDelim s = w :: ws) :
    ∃ t, nextWord s = some (w, t) ∧ words isDelim t = ws := by
  cases hn : nextWord s with
  | none => rw [words_nextWord_none hn] at h; cases h
  | some x =>
    obtain ⟨-, hw, -⟩ := nextWord_some (w := x.1) (t := x.2) hn
    obtain ⟨h1, h2⟩ := List.cons.inj (hw.symm.trans h)
    exact ⟨x.2, congrArg some (Prod.ext h1 rfl), h2⟩

theorem nextWord_of_words_nil {s : Bytes} (h : words isDelim s = []) : nextWord s = none := by
  cases hn : nextWord s with
  | none => rfl
  | some x =>
    rw [(nextWord_some (w := x.1) (t := x.2) hn).2.1] at h
    cases h

/-- A class name. -/
def IsName (n : Bytes) : Prop := ∃ reserved, validateName n = .ok reserved

theorem isName_iff {n : Bytes} :
    IsName n ↔ n ≠ [] ∧ (isAlnum (hd n) || hd n = ch '_') = true ∧
      ∀ b ∈ n.tail, isNameChar b = true := by
  unfold IsName validateName
  constructor
  · rintro ⟨r, h⟩
    split_ifs at h with h1 h2
    split at h
    · cases h
    · next h3 => exact ⟨h1, eq_true_of_ne_false fun e => h2 (by rw [e]; rfl), by simpa using h3⟩
  · rintro ⟨h1, h2, h3⟩
    have h4 : (n.tail.find? fun c => !isNameChar c) = none := by simpa using h3
    refine ⟨decide (hd n = ch '_'), ?_⟩
    rw [if_neg h1, h2, Bool.not_true, if_neg Bool.false_ne_true, h4]

theorem isDelim_of_isNameChar {b : UInt8} (h : isNameChar b = true) : isDelim b = false := by
  have h1 : b ≠ ch ' ' := fun e => by rw [e] at h; revert h; decide
  have h2 : b ≠ 0 := fun e => by rw [e] at h; revert h; decide
  simp [isDelim, h1, h2]

/-- The characters that begin something else than a name do not begin a name. -/
theorem IsName.hd_ne {n : Bytes} (h : IsName n) {b : UInt8}
    (hb : (isAlnum b || b = ch '_') = false) : hd n ≠ b := fun e => by
  have := (isName_iff.mp h).2.1
  rw [e, hb] at this
  cases this

theorem IsName.isWord {n : Bytes} (h : IsName n) : IsWord n := by
  obtain ⟨h1, h2, h3⟩ := isName_iff.mp h
  refine ⟨h1, fun b hb => isDelim_of_isNameChar ?_⟩
  obtain ⟨c, t, rfl⟩ := List.exists_cons_of_ne_nil h1
  rcases List.mem_cons.mp hb with rfl | hb
  · rw [hd_cons, Bool.or_eq_true] at h2
    rcases h2 with h2 | h2 <;> simp [isNameChar, h2]
  · exact h3 b hb

/-! ### Expressions and their words -/

/-- The first term, if there is one, is added. -/
def StartsPlus (ts : List Term) : Prop := ∀ t ∈ ts.head?, t.operation = .plus

mutual

/-- A term that the parser accepts. -/
def Term.Valid : Term → Prop
  | .simple _ _ n => IsName n
  | .compound _ _ e => AllValid e ∧ e ≠ [] ∧ StartsPlus e

def AllValid : List Term → Prop
  | [] => True
  | t :: ts => t.Valid ∧ AllValid ts

end

theorem allValid_snoc {t : Term} : ∀ {ts : List Term},
    AllValid ts → t.Valid → AllValid (ts ++ [t])
  | [], _, ht => ⟨ht, trivial⟩
  | _ :: _, hts, ht => ⟨hts.1, allValid_snoc hts.2 ht⟩

theorem startsPlus_snoc {t : Term} {ts : List Term} (hts : StartsPlus ts)
    (ht : ts = [] → t.operation = .plus) : StartsPlus (ts ++ [t]) := by
  intro u hu
  cases ts with
  | nil => rw [← Option.some.inj hu]; exact ht rfl
  | cons v ts => exact hts u hu

/-- The beginning of a term. -/
def opening (o : Operation) (i : Bool) (nm : Bytes) : Bytes :=
  o.char :: ((if i then [ch '!'] else []) ++ nm)

mutual

/-- The words of a term. -/
def Term.words : Term → List Bytes
  | .simple o i n => [opening o i n]
  | .compound o i e => opening o i [ch '('] :: (exprWords e ++ [[ch ')']])

def exprWords : List Term → List Bytes
  | [] => []
  | t :: ts => t.words ++ exprWords ts

end

theorem isWord_opening {nm : Bytes} (o : Operation) (i : Bool) (h : IsWord nm) :
    IsWord (opening o i nm) := by
  refine ⟨List.cons_ne_nil _ _, fun b hb => ?_⟩
  rcases List.mem_cons.mp hb with rfl | hb
  · cases o <;> decide
  · rcases List.mem_append.mp hb with hb | hb
    · cases i
      · cases hb
      · rw [List.mem_singleton.mp hb]
        decide
    · exact h.plain b hb

theorem isWord_singleton {b : UInt8} (h : isDelim b = false) : IsWord [b] :=
  ⟨List.cons_ne_nil _ _, fun c hc => by rw [List.mem_singleton.mp hc, h]⟩

theorem words_spaced (r w : Bytes) :
    words isDelim (spaced r w) = words isDelim r ++ words isDelim w := by
  unfold spaced
  split_ifs with h
  · rw [List.isEmpty_iff.mp h, words_nil, List.nil_append]
  · exact words_append_cons (by decide)

mutual

theorem Term.words_toText : ∀ t : Term, t.Valid → Lib.Words.words isDelim t.toText = t.words
  | .simple o i n, h => words_of_isWord (isWord_opening o i h.isWord)
  | .compound o i e, h => by
    have hsp : isDelim (ch ' ') = true := by decide
    have ht : (Term.compound o i e).toText =
        opening o i [ch '('] ++ ch ' ' :: (toText [] e ++ ch ' ' :: [ch ')']) := by
      simp [Term.toText, opening]
    rw [ht, words_append_cons hsp, words_append_cons hsp, words_toText e [] h.1,
      words_of_isWord (isWord_opening o i (isWord_singleton (by decide))),
      words_of_isWord (isWord_singleton (by decide)), words_nil]
    rfl

/-- **The words of the text** of the terms. -/
theorem words_toText : ∀ (ts : List Term) (r : Bytes), AllValid ts →
    words isDelim (toText r ts) = words isDelim r ++ exprWords ts
  | [], r, _ => (List.append_nil _).symm
  | t :: ts, r, h => by
    rw [toText, words_toText ts _ h.2, words_spaced, Term.words_toText t h.1, List.append_assoc]
    rfl

end

/-! ### Reading the words of an expression -/

theorem Operation.ofChar_char (o : Operation) : ofChar o.char = some o := by cases o <;> rfl

theorem termHead_opening {first : Bool} {o : Operation} {i : Bool} {nm : Bytes}
    (hf : first = true → o = .plus) (hnm : hd nm ≠ ch '!') :
    termHead first (opening o i nm) = .ok (o, i, nm) := by
  have ho : Operation.ofChar (hd (opening o i nm)) = some o := Operation.ofChar_char o
  have hne : ¬ (o ≠ .plus ∧ first = true) := fun h => h.1 (hf h.2)
  rw [termHead, ho]
  dsimp only
  rw [if_neg hne]
  cases i
  · exact if_neg hnm
  · exact if_pos rfl

theorem opening_ne {o : Operation} {i : Bool} {nm : Bytes} : opening o i nm ≠ [ch ')'] := by
  intro h
  have := (List.cons.inj h).1
  cases o <;> exact absurd this (by decide)

section Reading

variable {root : Bool} {r : List Term} {s : Bytes} {ws : List Bytes} {n : ℕ}

theorem parseExpr_simple {o : Operation} {i : Bool} {nm : Bytes} (hnm : IsName nm)
    (hs : root = false → r = [] → o = .plus)
    (hw : words isDelim s = opening o i nm :: ws) :
    ∃ s', words isDelim s' = ws ∧
      parseExpr (n + 1) root r s = parseExpr n root (r ++ [.simple o i nm]) s' := by
  obtain ⟨s', hn, hws⟩ := nextWord_of_words hw
  have ⟨b, hv⟩ := hnm
  have hh : termHead (r.isEmpty && !root) (opening o i nm) = .ok (o, i, nm) := by
    refine termHead_opening (fun h => ?_) (hnm.hd_ne (by decide))
    rw [Bool.and_eq_true, List.isEmpty_iff, Bool.not_eq_true'] at h
    exact hs h.2 h.1
  have hp : nm ≠ [ch '('] := fun h => hnm.hd_ne (b := ch '(') (by decide) (by rw [h]; rfl)
  refine ⟨s', hws, ?_⟩
  rw [parseExpr, hn]
  dsimp only
  rw [if_neg opening_ne, hh]
  dsimp only
  rw [if_neg hp, hv]

theorem parseExpr_compound {o : Operation} {i : Bool} {s₁ s₂ : Bytes} {e : List Term}
    (hs : root = false → r = [] → o = .plus)
    (hn : nextWord s = some (opening o i [ch '('], s₁))
    (he : parseExpr n false [] s₁ = .ok (e, s₂)) :
    parseExpr (n + 1) root r s = parseExpr n root (r ++ [.compound o i e]) s₂ := by
  have hh : termHead (r.isEmpty && !root) (opening o i [ch '(']) = .ok (o, i, [ch '(']) := by
    refine termHead_opening (fun h => ?_) (by decide)
    rw [Bool.and_eq_true, List.isEmpty_iff, Bool.not_eq_true'] at h
    exact hs h.2 h.1
  rw [parseExpr, hn]
  dsimp only
  rw [if_neg opening_ne, hh]
  dsimp only
  rw [if_pos rfl, he]

theorem parseExpr_closing (hr : r ≠ []) (hw : words isDelim s = [ch ')'] :: ws) :
    ∃ s', words isDelim s' = ws ∧ parseExpr (n + 1) false r s = .ok (r, s') := by
  obtain ⟨s', hn, hws⟩ := nextWord_of_words hw
  refine ⟨s', hws, ?_⟩
  rw [parseExpr, hn]
  dsimp only
  rw [if_pos rfl, if_neg Bool.false_ne_true, if_neg (by simpa using hr)]

end Reading

mutual

theorem parse_term : ∀ (t : Term) (root : Bool) (r : List Term) {s : Bytes} {ws : List Bytes}
    {n : ℕ}, t.Valid → (root = false → r = [] → t.operation = .plus) →
    words isDelim s = t.words ++ ws → (words isDelim s).length < n →
    ∃ m s', words isDelim s' = ws ∧ ws.length < m ∧
      parseExpr n root r s = parseExpr m root (r ++ [t]) s'
  | .simple o i nm, root, r, s, ws, n, ht, hs, hw, hn => by
    obtain ⟨m, rfl⟩ : ∃ m, n = m + 1 := ⟨n - 1, by omega⟩
    obtain ⟨s', hws, h⟩ := parseExpr_simple (n := m) ht hs hw
    rw [hw] at hn
    exact ⟨m, s', hws, by simpa [Term.words] using hn, h⟩
  | .compound o i e, root, r, s, ws, n, ht, hs, hw, hn => by
    obtain ⟨m, rfl⟩ : ∃ m, n = m + 1 := ⟨n - 1, by omega⟩
    rw [hw] at hn
    have hlen : (exprWords e ++ [ch ')'] :: ws).length < m := by
      simp only [Term.words, List.cons_append, List.append_assoc, List.length_cons,
        List.length_append, List.length_nil] at hn ⊢
      omega
    obtain ⟨s₁, hn₁, hw₁⟩ := nextWord_of_words hw
    have hw₁ : words isDelim s₁ = exprWords e ++ [ch ')'] :: ws := by simpa using hw₁
    obtain ⟨k, s₂, hw₂, hk, h₂⟩ := parse_terms e false [] ht.1 (fun _ _ => ht.2.2)
      hw₁ (by rw [hw₁]; exact hlen)
    obtain ⟨k, rfl⟩ : ∃ l, k = l + 1 := ⟨k - 1, by omega⟩
    obtain ⟨s₃, hw₃, h₃⟩ := parseExpr_closing (n := k) (r := [] ++ e) (by simpa using ht.2.1) hw₂
    refine ⟨m, s₃, hw₃, ?_, parseExpr_compound hs hn₁ (h₂.trans h₃)⟩
    simp only [List.length_append, List.length_cons] at hlen
    omega

/-- **The words of an expression are read as that expression.** -/
theorem parse_terms : ∀ (ts : List Term) (root : Bool) (r : List Term) {s : Bytes} {ws : List Bytes}
    {n : ℕ}, AllValid ts → (root = false → r = [] → StartsPlus ts) →
    words isDelim s = exprWords ts ++ ws → (words isDelim s).length < n →
    ∃ m s', words isDelim s' = ws ∧ ws.length < m ∧
      parseExpr n root r s = parseExpr m root (r ++ ts) s'
  | [], root, r, s, ws, n, _, _, hw, hn => by
    rw [hw] at hn
    exact ⟨n, s, hw, hn, by rw [List.append_nil]⟩
  | t :: ts, root, r, s, ws, n, hts, hs, hw, hn => by
    have hw : words isDelim s = t.words ++ (exprWords ts ++ ws) := by
      rw [hw, ← List.append_assoc]
      rfl
    obtain ⟨m, s₁, hw₁, hm, h₁⟩ := parse_term t root r hts.1 (fun h1 h2 => hs h1 h2 t rfl) hw hn
    obtain ⟨k, s₂, hw₂, hk, h₂⟩ := parse_terms ts root (r ++ [t]) hts.2
      (fun _ h => absurd h (by simp)) hw₁ (by rw [hw₁]; exact hm)
    exact ⟨k, s₂, hw₂, hk, by rw [h₁, h₂, List.append_assoc, List.singleton_append]⟩

end

/-! ### What the parser accepts -/

theorem termHead_ok {first : Bool} {t nm : Bytes} {o : Operation} {i : Bool}
    (h : termHead first t = .ok (o, i, nm)) : first = true → o = .plus := by
  intro hf
  rw [termHead] at h
  split at h
  · cases h
  · next op _ =>
    split_ifs at h with h1 h2
    all_goals
      obtain ⟨rfl, -⟩ := Prod.mk.inj (Except.ok.inj h)
      by_contra hne
      exact h1 ⟨hne, hf⟩

theorem invalidArgument_of_validateName {nm : Bytes} {f : Fault} (h : validateName nm = .error f) :
    ∃ w, f = .invalidArgument w := by
  rw [validateName] at h
  split_ifs at h
  · exact ⟨_, (Except.error.inj h).symm⟩
  · exact ⟨_, (Except.error.inj h).symm⟩
  · split at h
    · exact ⟨_, (Except.error.inj h).symm⟩
    · cases h

theorem invalidArgument_of_termHead {first : Bool} {t : Bytes} {f : Fault}
    (h : termHead first t = .error f) : ∃ w, f = .invalidArgument w := by
  rw [termHead] at h
  split at h
  · exact ⟨_, (Except.error.inj h).symm⟩
  · split_ifs at h
    exact ⟨_, (Except.error.inj h).symm⟩

/-- What a step of the loop comes to. -/
inductive Step (n : ℕ) (root : Bool) (r : List Term) (s : Bytes) :
    Except Fault (List Term × Bytes) → Prop
  | fail (w : Bytes) : Step n root r s (.error (.invalidArgument w))
  | done (s' : Bytes) : (root = false → r ≠ []) → s'.length ≤ s.length →
      Step n root r s (.ok (r, s'))
  | simple (o : Operation) (i : Bool) (nm s₁ : Bytes) : s₁.length < s.length → IsName nm →
      (root = false → r = [] → o = .plus) →
      Step n root r s (parseExpr n root (r ++ [.simple o i nm]) s₁)
  | inner (s₁ : Bytes) (f : Fault) : s₁.length < s.length → parseExpr n false [] s₁ = .error f →
      Step n root r s (.error f)
  | compound (o : Operation) (i : Bool) (s₁ s₂ : Bytes) (e : List Term) : s₁.length < s.length →
      parseExpr n false [] s₁ = .ok (e, s₂) → (root = false → r = [] → o = .plus) →
      Step n root r s (parseExpr n root (r ++ [.compound o i e]) s₂)

theorem parseExpr_step (n : ℕ) (root : Bool) (r : List Term) (s : Bytes) :
    Step n root r s (parseExpr (n + 1) root r s) := by
  rw [parseExpr]
  cases hn : nextWord s with
  | none =>
    dsimp only
    split_ifs with hr
    · exact .done [] (fun h => absurd hr (by rw [h]; exact Bool.false_ne_true)) (Nat.zero_le _)
    · exact .fail _
  | some x =>
    have hlt : x.2.length < s.length := (nextWord_some (w := x.1) (t := x.2) hn).2.2
    dsimp only
    split_ifs with ht hr he
    · exact .fail _
    · exact .fail _
    · exact .done x.2 (fun _ h => he (List.isEmpty_iff.mpr h)) hlt.le
    · cases hh : termHead (r.isEmpty && !root) x.1 with
      | error f =>
        obtain ⟨w, rfl⟩ := invalidArgument_of_termHead hh
        exact .fail w
      | ok y =>
        obtain ⟨o, i, nm⟩ := y
        have hs : root = false → r = [] → o = .plus := fun h1 h2 =>
          termHead_ok hh (by rw [h1, h2]; rfl)
        dsimp only
        split_ifs
        · cases he : parseExpr n false [] x.2 with
          | error f => exact .inner x.2 f hlt he
          | ok z => exact .compound o i x.2 z.2 z.1 hlt he hs
        · cases hv : validateName nm with
          | error f =>
            obtain ⟨w, rfl⟩ := invalidArgument_of_validateName hv
            exact .fail w
          | ok b => exact .simple o i nm x.2 hlt ⟨b, hv⟩ hs

/-- The loop does not go back, and what it accepts is valid. -/
theorem parseExpr_valid {n : ℕ} : ∀ {root : Bool} {r e : List Term} {s s' : Bytes},
    parseExpr n root r s = .ok (e, s') → AllValid r → (root = false → StartsPlus r) →
    AllValid e ∧ (root = false → e ≠ [] ∧ StartsPlus e) ∧ s'.length ≤ s.length := by
  induction n with
  | zero => intro root r e s s' h; cases h
  | succ n ih =>
    intro root r e s s' h hr hs
    have hstep := parseExpr_step n root r s
    rw [h] at hstep
    generalize hx : (Except.ok (e, s') : Except Fault (List Term × Bytes)) = x at hstep
    have hsnoc : ∀ {t : Term}, (root = false → r = [] → t.operation = .plus) →
        root = false → StartsPlus (r ++ [t]) := fun ht h0 => startsPlus_snoc (hs h0) (ht h0)
    cases hstep with
    | fail w => cases hx
    | inner s₁ f _ _ => cases hx
    | done s'' hne hle =>
      obtain ⟨rfl, rfl⟩ := Prod.mk.inj (Except.ok.inj hx)
      exact ⟨hr, fun h0 => ⟨hne h0, hs h0⟩, hle⟩
    | simple o i nm s₁ hlt hnm ho =>
      obtain ⟨h1, h2, h3⟩ := ih hx.symm (allValid_snoc hr hnm) (hsnoc ho)
      exact ⟨h1, h2, by omega⟩
    | compound o i s₁ s₂ e₁ hlt he ho =>
      obtain ⟨a1, a2, a3⟩ := ih he trivial fun _ _ ht => by cases ht
      have ht : (Term.compound o i e₁).Valid := ⟨a1, a2 rfl⟩
      obtain ⟨h1, h2, h3⟩ := ih hx.symm (allValid_snoc hr ht) (hsnoc ho)
      exact ⟨h1, h2, by omega⟩

/-- The length of the text is enough fuel. -/
theorem parseExpr_ne_exhausted {n : ℕ} : ∀ {root : Bool} {r : List Term} {s : Bytes},
    s.length < n → parseExpr n root r s ≠ .error .exhausted := by
  induction n with
  | zero => intro root r s hlt; omega
  | succ n ih =>
    intro root r s hlt h
    have hstep := parseExpr_step n root r s
    rw [h] at hstep
    generalize hx : (Except.error Fault.exhausted : Except Fault (List Term × Bytes)) = x at hstep
    cases hstep with
    | fail w => cases hx
    | done s' _ _ => cases hx
    | simple o i nm s₁ hlt₁ _ _ => exact ih (by omega) hx.symm
    | inner s₁ f hlt₁ he => exact ih (by omega) (he.trans hx.symm)
    | compound o i s₁ s₂ e₁ hlt₁ he _ =>
      have hle := (parseExpr_valid he trivial fun _ _ ht => by cases ht).2.2
      exact ih (by omega) hx.symm

/-! ### The underlying classes -/

theorem ofChar_eq_none {b : UInt8} (h : (isAlnum b || b = ch '_') = true) :
    Operation.ofChar b = none := by
  have hne : ∀ c : UInt8, (isAlnum c || c = ch '_') = false → b ≠ c := fun c hc e => by
    rw [e, hc] at h
    cases h
  rw [Operation.ofChar, if_neg (hne _ (by decide)), if_neg (hne _ (by decide)),
    if_neg (hne _ (by decide))]

theorem parseUnderlying_name {n : ℕ} (us : List Bytes) {ws : List Bytes} {nm s : Bytes}
    (hnm : IsName nm) (hw : words isDelim s = nm :: ws) :
    ∃ s', words isDelim s' = ws ∧
      parseUnderlying (n + 1) us s = parseUnderlying n (us ++ [nm]) s' := by
  obtain ⟨s', hn, hws⟩ := nextWord_of_words hw
  have ⟨b, hv⟩ := hnm
  have ho : (Operation.ofChar (hd nm)).isSome = false := by
    rw [ofChar_eq_none (isName_iff.mp hnm).2.1]
    rfl
  have hc : nm ≠ [ch ':'] := fun h => hnm.hd_ne (b := ch ':') (by decide) (by rw [h]; rfl)
  refine ⟨s', hws, ?_⟩
  rw [parseUnderlying, hn]
  dsimp only
  rw [ho, if_neg Bool.false_ne_true, if_neg hc, hv]

theorem parseUnderlying_names : ∀ (vs us : List Bytes) {ws : List Bytes} {s : Bytes} {n : ℕ},
    (∀ v ∈ vs, IsName v) → words isDelim s = vs ++ ws → (words isDelim s).length < n →
    ∃ m s', words isDelim s' = ws ∧ ws.length < m ∧
      parseUnderlying n us s = parseUnderlying m (us ++ vs) s'
  | [], us, ws, s, n, _, hw, hn => ⟨n, s, hw, by rw [hw] at hn; exact hn, by rw [List.append_nil]⟩
  | v :: vs, us, ws, s, n, hvs, hw, hn => by
    obtain ⟨m, rfl⟩ : ∃ m, n = m + 1 := ⟨n - 1, by omega⟩
    obtain ⟨s₁, hw₁, h₁⟩ := parseUnderlying_name (n := m) us (hvs v List.mem_cons_self) hw
    have hm : (words isDelim s₁).length < m := by
      rw [hw] at hn
      rw [hw₁]
      exact Nat.lt_of_succ_lt_succ hn
    obtain ⟨k, s₂, hw₂, hk, h₂⟩ := parseUnderlying_names vs (us ++ [v])
      (fun u hu => hvs u (List.mem_cons_of_mem _ hu)) hw₁ hm
    exact ⟨k, s₂, hw₂, hk, by rw [h₁, h₂, List.append_assoc, List.singleton_append]⟩

/-- The underlying classes are names, and the loop has enough fuel. -/
theorem parseUnderlying_ok {n : ℕ} : ∀ {us : List Bytes} {s : Bytes}, s.length < n →
    (∀ u ∈ us, IsName u) →
    parseUnderlying n us s ≠ .error .exhausted ∧
      ∀ vs s', parseUnderlying n us s = .ok (vs, s') → ∀ v ∈ vs, IsName v := by
  induction n with
  | zero => intro us s hlt; omega
  | succ n ih =>
    intro us s hlt hus
    rw [parseUnderlying]
    cases hn : nextWord s with
    | none => exact ⟨by rintro ⟨⟩, by rintro _ _ ⟨⟩; exact hus⟩
    | some x =>
      have hx : x.2.length < s.length := (nextWord_some (w := x.1) (t := x.2) hn).2.2
      dsimp only
      split_ifs
      · exact ⟨by rintro ⟨⟩, by rintro _ _ ⟨⟩; exact hus⟩
      · exact ⟨by rintro ⟨⟩, by rintro _ _ ⟨⟩⟩
      · exact ⟨by rintro ⟨⟩, by rintro _ _ ⟨⟩⟩
      · exact ⟨by rintro ⟨⟩, by rintro _ _ ⟨⟩; exact hus⟩
      · cases hv : validateName x.1 with
        | error f =>
          obtain ⟨w, rfl⟩ := invalidArgument_of_validateName hv
          exact ⟨by rintro ⟨⟩, by rintro _ _ ⟨⟩⟩
        | ok b =>
          refine ih (by omega) fun u hu => ?_
          rcases List.mem_append.mp hu with hu | hu
          · exact hus u hu
          · rw [List.mem_singleton.mp hu]
            exact ⟨b, hv⟩

/-! ### The whole representation -/

theorem length_words_lt (s : Bytes) : (words isDelim s).length < s.length + 1 := by
  induction hk : s.length using Nat.strong_induction_on generalizing s with
  | _ k ih =>
    cases hn : nextWord s with
    | none =>
      rw [words_nextWord_none hn]
      exact Nat.succ_pos k
    | some x =>
      obtain ⟨-, hw, hlt⟩ := nextWord_some (w := x.1) (t := x.2) hn
      have := ih x.2.length (by omega) x.2 rfl
      rw [hw, List.length_cons]
      omega

theorem words_nextWord_append {s w t : Bytes} (h : nextWord s = some (w, t)) :
    words isDelim (w ++ t) = words isDelim s := by
  rw [nextWord] at h
  rw [← words_dropWhile s]
  split at h
  · cases h
  · next b u hd =>
    obtain ⟨rfl, rfl⟩ := Prod.mk.inj (Option.some.inj h)
    rw [hd, List.cons_append, List.takeWhile_append_dropWhile]

/-- An expression that the constructor makes. -/
structure Expr.Valid (e : Expr) : Prop where
  names : ∀ u ∈ e.underlyingClasses, IsName u
  terms : AllValid e.expr
  nonempty : e.underlyingClasses = [] → e.expr ≠ []

theorem ofString_valid {s c : Bytes} {e : Expr} (h : Expr.ofString s c = .ok e) :
    e.Valid ∧ e.comment = c := by
  rw [Expr.ofString] at h
  split at h
  · cases h
  · next us t hu =>
    split at h
    · cases h
    · next ts _ ht =>
      split_ifs at h with hne
      obtain rfl := Except.ok.inj h
      have hus := (parseUnderlying_ok (Nat.lt_succ_self s.length) fun u hu => by cases hu).2 us t hu
      have hts := (parseExpr_valid ht trivial fun h => by cases h).1
      exact ⟨⟨hus, hts, fun h1 h2 => hne ⟨List.isEmpty_iff.mpr h2, List.isEmpty_iff.mpr h1⟩⟩, rfl⟩

/-- **There is always enough fuel.** -/
theorem ofString_ne_exhausted (s c : Bytes) : Expr.ofString s c ≠ .error .exhausted := by
  intro h
  rw [Expr.ofString] at h
  split at h
  · next f hu =>
    obtain rfl := Except.error.inj h
    exact (parseUnderlying_ok (Nat.lt_succ_self s.length) (fun u hu => by cases hu)).1 hu
  · next us t hu =>
    split at h
    · next f ht =>
      obtain rfl := Except.error.inj h
      exact parseExpr_ne_exhausted (Nat.lt_succ_self t.length) ht
    · split_ifs at h
      exact absurd (Except.error.inj h) (by rintro ⟨⟩)

theorem words_foldl_spaced : ∀ (us : List Bytes) (r : Bytes), (∀ u ∈ us, IsName u) →
    words isDelim (us.foldl spaced r) = words isDelim r ++ us
  | [], r, _ => (List.append_nil _).symm
  | u :: us, r, h => by
    rw [List.foldl_cons, words_foldl_spaced us _ fun v hv => h v (List.mem_cons_of_mem _ hv),
      words_spaced, words_of_isWord (h u List.mem_cons_self).isWord, List.append_assoc,
      List.singleton_append]

/-- The words of the representation after the underlying classes. -/
def Expr.tailWords (e : Expr) : List Bytes :=
  if e.expr = [] then []
  else if e.underlyingClasses = [] then exprWords e.expr
  else [ch ':'] :: exprWords e.expr

theorem words_string {e : Expr} (h : e.Valid) :
    words isDelim e.string = e.underlyingClasses ++ e.tailWords := by
  have hsp : isDelim (ch ' ') = true := by decide
  have hr := words_foldl_spaced e.underlyingClasses [] h.names
  have hnil : e.underlyingClasses.foldl spaced [] = [] ↔ e.underlyingClasses = [] := by
    constructor
    · intro h0
      rw [h0, words_nil, List.nil_append] at hr
      exact hr.symm
    · intro h0
      rw [h0]
      rfl
  rw [words_nil, List.nil_append] at hr
  simp only [Expr.string, Expr.tailWords, List.isEmpty_iff, hnil]
  split_ifs with h1 h2
  · rw [hr, List.append_nil]
  · rw [words_toText _ _ h.terms, words_nil, h2]
  · have hc : IsWord [ch ':'] := isWord_singleton (by decide)
    have hcolon := words_append_cons (s := [ch ':']) (t := toText [] e.expr) hsp
    rw [List.singleton_append, words_of_isWord hc] at hcolon
    rw [words_append_cons hsp, hr, hcolon, words_toText _ _ h.terms, words_nil]
    rfl

/-- The words of a valid expression are read as that expression, and nothing follows it. -/
theorem parseExpr_words {ts : List Term} {t : Bytes} (h : AllValid ts)
    (hw : words isDelim t = exprWords ts) : parseExpr (t.length + 1) true [] t = .ok (ts, []) := by
  have hw' : words isDelim t = exprWords ts ++ [] := by rw [hw, List.append_nil]
  obtain ⟨m, s', hs', hm, hp⟩ := parse_terms ts true [] h (fun h => by cases h) hw'
    (length_words_lt t)
  obtain ⟨m, rfl⟩ : ∃ k, m = k + 1 := ⟨m - 1, by simp only [List.length_nil] at hm; omega⟩
  rw [hp, parseExpr, nextWord_of_words_nil hs']
  rfl

/-- The underlying classes are read back, and the expression is what is left. -/
theorem parseUnderlying_words {e : Expr} (h : e.Valid) {s : Bytes}
    (hw : words isDelim s = e.underlyingClasses ++ e.tailWords) :
    ∃ t, parseUnderlying (s.length + 1) [] s = .ok (e.underlyingClasses, t) ∧
      words isDelim t = exprWords e.expr := by
  obtain ⟨m, s', hs', hm, hp⟩ := parseUnderlying_names e.underlyingClasses [] h.names hw
    (length_words_lt s)
  obtain ⟨m, rfl⟩ : ∃ k, m = k + 1 := ⟨m - 1, by omega⟩
  rw [hp, List.nil_append, parseUnderlying]
  unfold Expr.tailWords at hs'
  split_ifs at hs' with h1 h2
  · rw [nextWord_of_words_nil hs', h1]
    exact ⟨[], rfl, rfl⟩
  · obtain ⟨t, ts, he⟩ := List.exists_cons_of_ne_nil h1
    obtain ⟨o, i, nm, ws, hws⟩ : ∃ o i nm ws, exprWords e.expr = opening o i nm :: ws := by
      rw [he]
      cases t with
      | simple o i n => exact ⟨o, i, n, _, rfl⟩
      | compound o i e => exact ⟨o, i, [ch '('], _, rfl⟩
    rw [hws] at hs'
    obtain ⟨s'', hn, hs''⟩ := nextWord_of_words hs'
    have ho : (Operation.ofChar (hd (opening o i nm))).isSome = true := by
      rw [show Operation.ofChar (hd (opening o i nm)) = some o from Operation.ofChar_char o]
      rfl
    rw [hn, h2]
    dsimp only
    rw [if_pos ho]
    exact ⟨_, rfl, by rw [words_nextWord_append hn, hs', hws]⟩
  · obtain ⟨s'', hn, hs''⟩ := nextWord_of_words hs'
    have hne : e.underlyingClasses.isEmpty = false := by simpa using h2
    rw [hn]
    dsimp only
    rw [if_neg (by decide), if_pos rfl, hne, if_neg Bool.false_ne_true]
    exact ⟨s'', rfl, hs''⟩

/-- **The representation of an expression is read back.** -/
theorem ofString_string {e : Expr} (h : e.Valid) (c : Bytes) :
    Expr.ofString e.string c = .ok { e with comment := c } := by
  obtain ⟨t, hu, ht⟩ := parseUnderlying_words h (words_string h)
  have hne : ¬ (e.expr.isEmpty = true ∧ e.underlyingClasses.isEmpty = true) := fun hc =>
    h.nonempty (List.isEmpty_iff.mp hc.2) (List.isEmpty_iff.mp hc.1)
  rw [Expr.ofString, hu]
  dsimp only
  rw [parseExpr_words h.terms ht]
  exact if_neg hne

end Build2.Libbpkg.BuildClass
