import Build2.Libbutl.Regex.Replace
import Mathlib.Tactic.Ring

/-! # The replacement format

The documented reading of a format as a list of tokens and their expansions, and what the code reads
and expands. A format is read as documented where no dollar sign stands before two zeros and no
dropped backslash stands before a reference (`Clean`). What is read otherwise weighs less
(`agree`). -/

namespace Build2.Libbutl.Regex

open Build2.Lib.ByteString

/-! ### The documented expansions -/

/-- A part of a match. -/
inductive Ref
  | whole
  | before
  | after
  | group (n : ℕ)
  deriving DecidableEq, Repr

/-- A character, a part of the match or a change of the character case. -/
inductive Token
  | chr (c : UInt8)
  | ref (r : Ref)
  | case (k : CaseConv)
  deriving DecidableEq, Repr

/-- What a dollar sign starts together with the text after it, and the length of this text. -/
def dollarSeq : Bytes → Option (Token × ℕ)
  | [] => none
  | c :: t =>
    if c = ch '$' then some (.chr c, 1)
    else if c = ch '&' then some (.ref .whole, 1)
    else if c = backquote then some (.ref .before, 1)
    else if c = quote then some (.ref .after, 1)
    else
      match digit c, t.head?.bind digit with
      | some i, some d => if 0 < i * 10 + d then some (.ref (.group (i * 10 + d)), 2) else none
      | some i, none => if 0 < i then some (.ref (.group i), 1) else none
      | none, _ => none

/-- What a backslash starts together with the next character. -/
def backslashSeq (c : UInt8) : Option Token :=
  if c = ch '\\' then some (.chr c)
  else if c = ch 'n' then some (.chr (ch '\n'))
  else if c = ch 'u' then some (.case .upperOnce)
  else if c = ch 'l' then some (.case .lowerOnce)
  else if c = ch 'U' then some (.case .upper)
  else if c = ch 'L' then some (.case .lower)
  else if c = ch 'E' then some (.case .none)
  else
    match digit c with
    | some i => if 0 < i then some (.ref (.group i)) else none
    | none => none

/-- The tokens of a format. A dollar sign that starts no sequence stands for itself; a backslash
that starts none is dropped, and the next character stands for itself. -/
def tokens (s : Bytes) : List Token :=
  match _h : s with
  | [] => []
  | c :: t =>
    if c = ch '$' then
      match dollarSeq t with
      | some (k, n) => k :: tokens (t.drop n)
      | none => .chr c :: tokens t
    else if c = ch '\\' then
      match _h' : t with
      | [] => []
      | d :: u => (backslashSeq d).getD (.chr d) :: tokens u
    else .chr c :: tokens t
termination_by s.length
decreasing_by all_goals simp only [List.length_cons, List.length_drop]; omega

section

variable (x : Bytes) (m : Results)

/-- The text of a part of the match, nothing if it did not take part in it. -/
def Ref.text : Ref → Bytes
  | whole => m.whole.text x
  | before => m.before.text x
  | after => m.after.text x
  | group n =>
    match (m.whole :: m.groups)[n]? with
    | some g => if g.matched then g.text x else []
    | none => []

end

/-! The documented case sequences: `\u` and `\l` are for the next character, `\U` and `\L` for all
that follow up to `\E`, except for one that `\u` or `\l` is for. -/

inductive Letter
  | upper
  | lower
  deriving DecidableEq, Repr

/-- A character in upper or lower case, or as it is. -/
def convert (l : Locale) : Option Letter → UInt8 → UInt8
  | none, c => c
  | some .upper, c => l.upper c
  | some .lower, c => l.lower c

/-- How case sequences work: the state says what the next character is converted to, and changes
with it and with a sequence. Only the first character makes a difference. -/
structure CaseModes (σ : Type) where
  letter : σ → Option Letter
  next : σ → σ
  set : σ → CaseConv → σ
  next_next : ∀ s, next (next s) = next s

/-- The mode of the next character and that of those that follow. -/
structure Modes where
  once : Option Letter := none
  sticky : Option Letter := none
  deriving DecidableEq, Repr

def documentedModes : CaseModes Modes where
  letter d := d.once.or d.sticky
  next d := { d with once := none }
  set d k := match k with
    | .upperOnce => { d with once := some .upper }
    | .lowerOnce => { d with once := some .lower }
    | .upper => { d with sticky := some .upper }
    | .lower => { d with sticky := some .lower }
    | .none => {}
  next_next _ := rfl

section

variable {σ : Type} (M : CaseModes σ) (l : Locale) (text : Ref → Bytes)

/-- A text is converted. -/
def CaseModes.convert : σ → Bytes → Bytes
  | _, [] => []
  | s, c :: t => Regex.convert l (M.letter s) c :: CaseModes.convert (M.next s) t

/-- The state after a text. -/
def CaseModes.after (s : σ) (t : Bytes) : σ := if t = [] then s else M.next s

/-- The expansion of tokens from a state on. -/
def CaseModes.expand : σ → List Token → Bytes
  | _, [] => []
  | s, .chr c :: ts => Regex.convert l (M.letter s) c :: CaseModes.expand (M.next s) ts
  | s, .ref r :: ts => M.convert l s (text r) ++ CaseModes.expand (M.after s (text r)) ts
  | s, .case k :: ts => CaseModes.expand (M.set s k) ts

end

/-- The documented replacement. -/
def documented (l : Locale) (x : Bytes) (m : Results) (fmt : Bytes) : Bytes :=
  documentedModes.expand l (Ref.text x m) {} (tokens fmt)

/-! ### What the code reads -/

/-- Two zeros, which are no index. -/
def zeros (t : Bytes) : Bool := t.take 2 = [ch '0', ch '0']

/-- How many characters are passed by after a dollar sign that starts no sequence. -/
def passedBy (t : Bytes) : ℕ := if zeros t then 1 else 0

/-- The tokens that the code expands. After a dollar sign before two zeros one of them is passed by,
and what follows a dropped backslash is read again. -/
def codeTokens (s : Bytes) : List Token :=
  match _h : s with
  | [] => []
  | c :: t =>
    if c = ch '$' then
      match dollarSeq t with
      | some (k, n) => k :: codeTokens (t.drop n)
      | none => .chr c :: codeTokens (t.drop (passedBy t))
    else if c = ch '\\' then
      match _h' : t with
      | [] => []
      | d :: u =>
        match backslashSeq d with
        | some k => k :: codeTokens u
        | none => codeTokens (d :: u)
    else .chr c :: codeTokens t
termination_by s.length
decreasing_by all_goals simp only [List.length_cons, List.length_drop]; omega

/-- The one mode of the code, which every sequence sets. -/
def codeModes : CaseModes CaseConv where
  letter k := match k with
    | .none => none
    | .upper | .upperOnce => some .upper
    | .lower | .lowerOnce => some .lower
  next k := match k with
    | .upperOnce | .lowerOnce => .none
    | k => k
  set _ k := k
  next_next k := by cases k <;> rfl

section

variable (l : Locale) (x : Bytes) (m : Results)

/-- The effect of a token on the state. -/
def apply (st : State) : Token → State
  | .chr c => appendChr l st c
  | .ref r => appendStr l st (r.text x m)
  | .case k => ⟨k, st.r⟩

end

section

variable {l : Locale} {x : Bytes} {m : Results} {st : State}

theorem appendGroup_eq (n : ℕ) : appendGroup l x m st n = apply l x m st (.ref (.group n)) := by
  have hnil : st = appendStr l st [] := by
    unfold appendStr
    split_ifs <;> simp
  unfold appendGroup apply Ref.text
  cases hg : (m.whole :: m.groups)[n]? with
  | none => simpa [hg] using hnil
  | some g =>
    by_cases h : g.matched = true
    · simp [hg, h]
    · simpa [hg, h] using hnil

theorem peek_one (a : UInt8) (t : Bytes) : peek (a :: t) 1 = some (hd t) := by
  cases t <;> simp [peek]

theorem peek_two (a c : UInt8) (t : Bytes) : peek (a :: c :: t) 2 = some (hd t) := by
  cases t <;> simp [peek]

theorem digit_zero : digit 0 = none := by decide

theorem digit_hd (t : Bytes) : digit (hd t) = t.head?.bind digit := by
  cases t with
  | nil => exact digit_zero
  | cons c t => rfl

theorem digit_eq_some {c : UInt8} {i : ℕ} (h : digit c = some i) : c.toNat = 48 + i ∧ i ≤ 9 := by
  unfold digit at h
  split_ifs at h with hc
  have h0 : (ch '0').toNat = 48 := rfl
  have h9 : (ch '9').toNat = 57 := rfl
  simp only [UInt8.le_iff_toNat_le, Option.some.injEq] at hc h
  omega

theorem digit_eq_zero {c : UInt8} {i : ℕ} (h : digit c = some i) : i = 0 ↔ c = ch '0' := by
  obtain ⟨hc, -⟩ := digit_eq_some h
  have h0 : (ch '0').toNat = 48 := rfl
  rw [← UInt8.toNat_inj]
  omega

theorem zeros_digits {c d : UInt8} {t : Bytes} {i j : ℕ} (hc : digit c = some i)
    (hd : digit d = some j) : zeros (c :: d :: t) = true ↔ ¬ 0 < i * 10 + j := by
  have h1 := digit_eq_zero hc
  have h2 := digit_eq_zero hd
  simp only [zeros, List.take_succ_cons, List.take_zero, decide_eq_true_eq, List.cons.injEq,
    and_true, ← h1, ← h2]
  omega

theorem zeros_of_digit {t : Bytes}
    (h : t.head?.bind digit = none ∨ t.tail.head?.bind digit = none) : zeros t = false := by
  refine eq_false_of_ne_true fun hz => ?_
  have h0 : digit (ch '0') = some 0 := by decide
  match t, hz with
  | [], hz => cases hz
  | [c], hz => simp [zeros] at hz
  | c :: d :: u, hz =>
    simp only [zeros, List.take_succ_cons, List.take_zero, decide_eq_true_eq, List.cons.injEq,
      and_true] at hz
    obtain ⟨rfl, rfl⟩ := hz
    simp [h0] at h

theorem dollar_eq (t : Bytes) : dollar l x m st (ch '$' :: t) =
    match dollarSeq t with
    | some (k, n) => some (apply l x m st k, n)
    | none => some (appendChr l st (ch '$'), passedBy t) := by
  unfold dollar
  rw [peek_one]
  cases t with
  | nil => rfl
  | cons c u =>
    simp only [Option.bind_eq_bind, Option.bind_some, hd_cons, dollarSeq]
    by_cases h1 : c = ch '$'
    · rw [if_pos h1, if_pos h1]
      rfl
    by_cases h2 : c = ch '&'
    · rw [if_neg h1, if_pos h2, if_neg h1, if_pos h2]
      rfl
    by_cases h3 : c = backquote
    · rw [if_neg h1, if_neg h2, if_pos h3, if_neg h1, if_neg h2, if_pos h3]
      rfl
    by_cases h4 : c = quote
    · rw [if_neg h1, if_neg h2, if_neg h3, if_pos h4, if_neg h1, if_neg h2, if_neg h3, if_pos h4]
      rfl
    rw [if_neg h1, if_neg h2, if_neg h3, if_neg h4, if_neg h1, if_neg h2, if_neg h3, if_neg h4]
    cases hc : digit c with
    | none =>
      have hz : zeros (c :: u) = false := zeros_of_digit (Or.inl hc)
      simp [hz, passedBy]
    | some i =>
      rw [peek_two]
      simp only [Option.bind_some, digit_hd]
      cases hu : u.head?.bind digit with
      | none =>
        have hz : zeros (c :: u) = false := zeros_of_digit (Or.inr hu)
        by_cases hi : 0 < i
        · simp [hi, appendGroup_eq]
        · simp [hi, hz, passedBy]
      | some d =>
        obtain ⟨e, v, rfl⟩ : ∃ e v, u = e :: v := by
          cases u with
          | nil => cases hu
          | cons e v => exact ⟨e, v, rfl⟩
        have hz := zeros_digits (t := v) hc hu
        by_cases hi : 0 < i * 10 + d
        · simp [hi, appendGroup_eq]
        · simp [hi, hz.mpr hi, passedBy]

theorem backslash_eq (t : Bytes) : backslash l x m st (ch '\\' :: t) =
    match t.head?.bind backslashSeq with
    | some k => some (apply l x m st k, 1)
    | none => some (st, 0) := by
  unfold backslash
  rw [peek_one]
  cases t with
  | nil => rfl
  | cons c u =>
    simp only [Option.bind_eq_bind, Option.bind_some, hd_cons, List.head?_cons, backslashSeq]
    split_ifs
    all_goals try rfl
    cases hc : digit c with
    | none => rfl
    | some i =>
      by_cases hi : 0 < i
      · simp [hi, appendGroup_eq]
      · simp [hi]

theorem loop_cons (c : UInt8) (t : Bytes) :
    loop l x m st (c :: t) =
      (step l x m st (c :: t)).bind fun p => loop l x m p.1 (t.drop p.2) := by
  rw [loop]

/-- **The loop expands the tokens that it reads**, and reads nothing after the end of the format. -/
theorem loop_eq (l : Locale) (x : Bytes) (m : Results) (s : Bytes) : ∀ st,
    loop l x m st s = some ((codeTokens s).foldl (apply l x m) st) := by
  have hstep : ∀ st t, step l x m st (ch '$' :: t) = dollar l x m st (ch '$' :: t) :=
    fun st t => if_pos rfl
  have hstep' : ∀ st t, step l x m st (ch '\\' :: t) = backslash l x m st (ch '\\' :: t) :=
    fun st t => (if_neg (by decide : ¬ ch '\\' = ch '$')).trans (if_pos rfl)
  fun_induction codeTokens s with
  | case1 => exact fun st => by rw [loop]; rfl
  | case2 t k n hk ih =>
    intro st
    rw [loop_cons, hstep, dollar_eq, hk]
    exact ih _
  | case3 t hk ih =>
    intro st
    rw [loop_cons, hstep, dollar_eq, hk]
    exact ih _
  | case4 =>
    intro st
    rw [loop_cons, hstep', backslash_eq]
    show loop l x m st [] = _
    rw [loop]
    rfl
  | case5 d u k hk _ ih =>
    intro st
    rw [loop_cons, hstep', backslash_eq, List.head?_cons, Option.bind_some, hk]
    exact ih _
  | case6 d u hk _ ih =>
    intro st
    rw [loop_cons, hstep', backslash_eq, List.head?_cons, Option.bind_some, hk]
    exact ih _
  | case7 c t hc hc' ih =>
    intro st
    have hplain : step l x m st (c :: t) = some (appendChr l st c, 0) :=
      (if_neg hc).trans (if_neg hc')
    rw [loop_cons, hplain]
    exact ih _

theorem convChr_eq (k : CaseConv) (c : UInt8) :
    convChr l k c = (convert l (codeModes.letter k) c, codeModes.next k) := by
  cases k <;> rfl

theorem CaseModes.after_cons {σ : Type} (M : CaseModes σ) (s : σ) (c : UInt8) (t : Bytes) :
    M.after s (c :: t) = M.after (M.next s) t := by
  unfold CaseModes.after
  rw [if_neg (List.cons_ne_nil c t), M.next_next, ite_self]

theorem codeModes_none (l : Locale) (t : Bytes) :
    codeModes.convert l .none t = t ∧ codeModes.after .none t = .none := by
  refine ⟨?_, ite_self _⟩
  induction t with
  | nil => rfl
  | cons c t ih => exact congrArg (List.cons c) ih

theorem appendStr_eq (st : State) (t : Bytes) :
    appendStr l st t = ⟨codeModes.after st.mode t, st.r ++ codeModes.convert l st.mode t⟩ := by
  have hfold : ∀ (t : Bytes) (st : State), t.foldl (appendChr l) st =
      ⟨codeModes.after st.mode t, st.r ++ codeModes.convert l st.mode t⟩ := by
    intro t
    induction t with
    | nil => exact fun st => by simp [CaseModes.convert, CaseModes.after]
    | cons c t ih =>
      intro st
      rw [List.foldl_cons, ih, CaseModes.after_cons]
      simp [appendChr, convChr_eq, CaseModes.convert]
  unfold appendStr
  split_ifs with h
  · rw [h, (codeModes_none l t).1, (codeModes_none l t).2]
  · exact hfold t st

/-- The text appended for tokens is their expansion. -/
theorem foldl_apply (ts : List Token) : ∀ st, (ts.foldl (apply l x m) st).r =
    st.r ++ codeModes.expand l (Ref.text x m) st.mode ts := by
  induction ts with
  | nil => exact fun st => (List.append_nil _).symm
  | cons k ts ih =>
    intro st
    rw [List.foldl_cons, ih]
    cases k with
    | chr c => simp [apply, appendChr, convChr_eq, CaseModes.expand]
    | ref r => simp [apply, appendStr_eq, CaseModes.expand]
    | case k => rfl

/-- **What the code appends** is the expansion of the tokens that it reads, in its one mode. -/
theorem replaceMatchResults_eq (l : Locale) (x : Bytes) (m : Results) (fmt : Bytes) :
    replaceMatchResults l x m fmt =
      some (codeModes.expand l (Ref.text x m) .none (codeTokens fmt)) := by
  unfold replaceMatchResults
  rw [loop_eq, Option.map_some, foldl_apply]
  rfl

end

/-! ### Formats that are read as documented -/

/-- A dollar sign before `t` that stands for itself is read as such: what follows is an even number
of dollar signs, and the last one starts no sequence and is not before two zeros. -/
def plain : Bytes → Bool
  | c :: d :: t =>
    if c = ch '$' then d = ch '$' && plain t
    else !((dollarSeq (c :: d :: t)).isSome || zeros (c :: d :: t))
  | t => !(dollarSeq t).isSome

/-- **A format that is read as documented**: no dollar sign stands before two zeros, and a dollar
sign after a dropped backslash is plain. -/
def Clean (s : Bytes) : Prop :=
  match _h : s with
  | [] => True
  | c :: t =>
    if c = ch '$' then
      match dollarSeq t with
      | some (_, n) => Clean (t.drop n)
      | none => zeros t = false ∧ Clean t
    else if c = ch '\\' then
      match _h' : t with
      | [] => True
      | d :: u => (d = ch '$' → plain u = true) ∧ Clean u
    else Clean t
termination_by s.length
decreasing_by all_goals simp only [List.length_cons, List.length_drop]; omega

/-- Two ways to convert characters in which tokens come out the same, if the parts of the match that
are not empty are the `full` ones. -/
def Alike {σ τ : Type} (M : CaseModes σ) (N : CaseModes τ) (l : Locale) (full : Ref → Bool) :
    σ → τ → List Token → Prop
  | _, _, [] => True
  | s, t, .chr c :: ts =>
    convert l (M.letter s) c = convert l (N.letter t) c ∧
      Alike M N l full (M.next s) (N.next t) ts
  | s, t, .ref r :: ts =>
    if full r then
      (∀ c, convert l (M.letter s) c = convert l (N.letter t) c) ∧
        (∀ c, convert l (M.letter (M.next s)) c = convert l (N.letter (N.next t)) c) ∧
        Alike M N l full (M.next s) (N.next t) ts
    else Alike M N l full s t ts
  | s, t, .case k :: ts => Alike M N l full (M.set s k) (N.set t k) ts

/-- **A format that is expanded as documented**: it is read so, and the one mode of the code
converts every character as the documented modes do. -/
def AsDocumented (l : Locale) (fmt : Bytes) : Prop :=
  Clean fmt ∧ ∀ full, Alike codeModes documentedModes l full .none {} (tokens fmt)

section

variable {c : UInt8} {r t u : Bytes} {k : Token} {n : ℕ}

theorem tokens_nil : tokens [] = [] := by rw [tokens]

theorem codeTokens_nil : codeTokens [] = [] := by rw [codeTokens]

theorem clean_nil : Clean [] := by
  rw [Clean]
  trivial

theorem tokens_seq (h : dollarSeq t = some (k, n)) :
    tokens (ch '$' :: t) = k :: tokens (t.drop n) ∧
      codeTokens (ch '$' :: t) = k :: codeTokens (t.drop n) ∧
      (Clean (ch '$' :: t) ↔ Clean (t.drop n)) := by
  refine ⟨?_, ?_, ?_⟩
  · rw [tokens.eq_def]
    simp only [if_true, h]
  · rw [codeTokens.eq_def]
    simp only [if_true, h]
  · rw [Clean.eq_def]
    simp only [if_true, h]

theorem tokens_dollar (h : dollarSeq t = none) :
    tokens (ch '$' :: t) = .chr (ch '$') :: tokens t ∧
      codeTokens (ch '$' :: t) = .chr (ch '$') :: codeTokens (t.drop (passedBy t)) ∧
      (Clean (ch '$' :: t) ↔ zeros t = false ∧ Clean t) := by
  refine ⟨?_, ?_, ?_⟩
  · rw [tokens.eq_def]
    simp only [if_true, h]
  · rw [codeTokens.eq_def]
    simp only [if_true, h]
  · rw [Clean.eq_def]
    simp only [if_true, h]

theorem tokens_chr (h : c ≠ ch '$') (h' : c ≠ ch '\\') :
    tokens (c :: t) = .chr c :: tokens t ∧ codeTokens (c :: t) = .chr c :: codeTokens t ∧
      (Clean (c :: t) ↔ Clean t) := by
  refine ⟨?_, ?_, ?_⟩
  · rw [tokens.eq_def]
    simp only [h, h', if_false]
  · rw [codeTokens.eq_def]
    simp only [h, h', if_false]
  · rw [Clean.eq_def]
    simp only [h, h', if_false]

theorem tokens_backslash (d : UInt8) (u : Bytes) :
    tokens (ch '\\' :: d :: u) = (backslashSeq d).getD (.chr d) :: tokens u ∧
      codeTokens (ch '\\' :: d :: u) = (match backslashSeq d with
        | some k => k :: codeTokens u
        | none => codeTokens (d :: u)) ∧
      (Clean (ch '\\' :: d :: u) ↔ (d = ch '$' → plain u = true) ∧ Clean u) := by
  have hne : ¬ ch '\\' = ch '$' := by decide
  refine ⟨?_, ?_, ?_⟩
  · rw [tokens, if_neg hne, if_pos rfl]
  · rw [codeTokens, if_neg hne, if_pos rfl]
  · rw [Clean, if_neg hne, if_pos rfl]

theorem tokens_backslash_nil : tokens [ch '\\'] = [] ∧ codeTokens [ch '\\'] = [] ∧
    Clean [ch '\\'] := by
  have hne : ¬ ch '\\' = ch '$' := by decide
  refine ⟨?_, ?_, ?_⟩
  · rw [tokens, if_neg hne, if_pos rfl]
  · rw [codeTokens, if_neg hne, if_pos rfl]
  · rw [Clean, if_neg hne, if_pos rfl]
    trivial

theorem digit_ne {i : ℕ} (h : digit c = some i) : c ≠ ch '$' ∧ c ≠ ch '\\' := by
  have h1 : digit (ch '$') = none := by decide
  have h2 : digit (ch '\\') = none := by decide
  constructor
  · rintro rfl
    rw [h1] at h
    cases h
  · rintro rfl
    rw [h2] at h
    cases h

theorem dollarSeq_ref (h : dollarSeq r = some (k, n)) (hd : hd r ≠ ch '$') :
    ∃ p, k = .ref p ∧ ∃ a b, r = a ++ b ∧ r.drop n = b ∧ 1 ≤ a.length ∧ a.length ≤ 2 ∧
      ∀ c ∈ a, c ≠ ch '$' ∧ c ≠ ch '\\' := by
  cases r with
  | nil => cases h
  | cons c t =>
    have hone : ∀ p, k = .ref p → n = 1 → (c ≠ ch '$' ∧ c ≠ ch '\\') →
        ∃ p, k = .ref p ∧ ∃ a b, c :: t = a ++ b ∧ (c :: t).drop n = b ∧ 1 ≤ a.length ∧
          a.length ≤ 2 ∧ ∀ c ∈ a, c ≠ ch '$' ∧ c ≠ ch '\\' := by
      rintro p hk rfl hc
      exact ⟨p, hk, [c], t, rfl, rfl, by simp, by simp, by simpa using hc⟩
    have hc : ¬ c = ch '$' := hd
    simp only [dollarSeq] at h
    rw [if_neg hc] at h
    split_ifs at h with h1 h2 h3
    · cases h
      exact hone _ rfl rfl ⟨hd, by rw [h1]; decide⟩
    · cases h
      exact hone _ rfl rfl ⟨hd, by rw [h2]; decide⟩
    · cases h
      exact hone _ rfl rfl ⟨hd, by rw [h3]; decide⟩
    · cases hc : digit c with
      | none => simp [hc] at h
      | some i =>
        have hci := digit_ne hc
        cases hu : t.head?.bind digit with
        | none =>
          simp only [hc, hu] at h
          split_ifs at h
          cases h
          exact hone _ rfl rfl hci
        | some d =>
          simp only [hc, hu] at h
          split_ifs at h
          cases h
          cases t with
          | nil => cases hu
          | cons e u =>
            refine ⟨_, rfl, [c, e], u, rfl, rfl, by simp, by simp, ?_⟩
            simpa using ⟨hci, digit_ne hu⟩

theorem tokens_append : ∀ {a : Bytes}, (∀ c ∈ a, c ≠ ch '$' ∧ c ≠ ch '\\') →
    tokens (a ++ r) = a.map .chr ++ tokens r ∧ codeTokens (a ++ r) = a.map .chr ++ codeTokens r
  | [], _ => ⟨rfl, rfl⟩
  | c :: a, h => by
    obtain ⟨h1, h2⟩ := h c (by simp)
    obtain ⟨ih1, ih2⟩ := tokens_append (a := a) fun c hc => h c (List.mem_cons_of_mem _ hc)
    obtain ⟨ht, hc, -⟩ := tokens_chr (t := a ++ r) h1 h2
    exact ⟨by rw [List.cons_append, ht, ih1]; rfl, by rw [List.cons_append, hc, ih2]; rfl⟩

end

/-- Three for a part of the match and for a dollar sign, one for another character. -/
def weight : Token → ℕ
  | .chr c => if c = ch '$' then 3 else 1
  | .ref _ => 3
  | .case _ => 0

def weights (ks : List Token) : ℕ := (ks.map weight).sum

/-- The tokens are the same if `C` holds, and else the first ones weigh less. -/
def Agree (C : Prop) (ks ls : List Token) : Prop := C ∧ ks = ls ∨ ¬ C ∧ weights ks < weights ls

section

variable {C D : Prop} {ks ls : List Token} {s : Bytes}

theorem weights_cons (k : Token) (ks : List Token) : weights (k :: ks) = weight k + weights ks := by
  simp [weights]

theorem weights_append (ks ls : List Token) : weights (ks ++ ls) = weights ks + weights ls := by
  simp [weights]

theorem weights_chars : ∀ {a : Bytes}, (∀ c ∈ a, c ≠ ch '$' ∧ c ≠ ch '\\') →
    weights (a.map .chr) = a.length
  | [], _ => rfl
  | c :: a, h => by
    have ih := weights_chars (a := a) fun c hc => h c (List.mem_cons_of_mem _ hc)
    have hc : weight (.chr c) = 1 := if_neg (h c (by simp)).1
    rw [List.map_cons, weights_cons, ih, hc, List.length_cons]
    omega

theorem Agree.le (h : Agree C ks ls) : weights ks ≤ weights ls := by
  rcases h with ⟨-, rfl⟩ | ⟨-, h⟩
  · exact le_rfl
  · exact h.le

theorem Agree.cons (h : Agree C ks ls) (k : Token) : Agree C (k :: ks) (k :: ls) := by
  rcases h with ⟨hc, rfl⟩ | ⟨hc, h⟩
  · exact Or.inl ⟨hc, rfl⟩
  · exact Or.inr ⟨hc, by rw [weights_cons, weights_cons]; omega⟩

theorem Agree.congr (h : Agree C ks ls) (hiff : D ↔ C) : Agree D ks ls := by
  unfold Agree
  rw [hiff]
  exact h

/-- A dollar sign that stands for itself before `r`, read by the code. -/
def AgreeAfter (r : Bytes) : Prop :=
  Agree (plain r = true ∧ Clean r) (codeTokens (ch '$' :: r)) (.chr (ch '$') :: tokens r)

def AgreeOn (s : Bytes) : Prop := Agree (Clean s) (codeTokens s) (tokens s)

theorem plain_of_ne {r : Bytes} (hd : hd r ≠ ch '$') :
    plain r = !((dollarSeq r).isSome || zeros r) := by
  match r with
  | [] => rfl
  | [c] => simp [plain, zeros]
  | c :: d :: t => exact if_neg hd

theorem agreeAfter_of_ne {r : Bytes} (hd : hd r ≠ ch '$') (hr : AgreeOn r)
    (hlt : ∀ t, t.length < r.length → AgreeOn t) : AgreeAfter r := by
  have hplain := plain_of_ne hd
  cases hs : dollarSeq r with
  | some p =>
    obtain ⟨k, n⟩ := p
    obtain ⟨p, rfl, a, b, rfl, hb, h1, h2, ha⟩ := dollarSeq_ref hs hd
    refine Or.inr ⟨by simp [hplain, hs], ?_⟩
    have hle := (hlt b (by simp; omega)).le
    rw [(tokens_seq hs).2.1, hb, (tokens_append ha).1]
    simp only [weights_cons, weights_append, weights_chars ha, weight, if_true]
    omega
  | none =>
    obtain ⟨-, hcode, -⟩ := tokens_dollar hs
    cases hz : zeros r with
    | true =>
      refine Or.inr ⟨by simp [hplain, hz], ?_⟩
      obtain ⟨t, rfl⟩ : ∃ t, r = ch '0' :: ch '0' :: t := by
        match r, hz with
        | [], hz => simp [zeros] at hz
        | [c], hz => simp [zeros] at hz
        | c :: d :: t, hz =>
          simp only [zeros, List.take_succ_cons, List.take_zero, decide_eq_true_eq, List.cons.injEq,
            and_true] at hz
          exact ⟨t, by rw [hz.1, hz.2]⟩
      have h0 : ∀ c ∈ [ch '0', ch '0'], c ≠ ch '$' ∧ c ≠ ch '\\' := by decide
      have hle := (hlt t (by simp only [List.length_cons]; omega)).le
      have ht := (tokens_append (r := t) h0).1
      have hc := (tokens_append (r := t) (a := [ch '0']) (by decide)).2
      simp only [List.cons_append, List.nil_append] at ht hc
      have hp : passedBy (ch '0' :: ch '0' :: t) = 1 := if_pos hz
      rw [hcode, hp, List.drop_one, List.tail_cons, hc, ht]
      simp only [List.map_cons, List.map_nil, List.cons_append, List.nil_append, weights_cons]
      have hw : weight (.chr (ch '0')) = 1 := by decide
      omega
    | false =>
      have hp : passedBy r = 0 := if_neg (by simp [hz])
      rw [AgreeAfter, hcode, hp, List.drop_zero]
      exact (hr.cons _).congr (by simp [hplain, hs, hz])

theorem agreeAfter_dollar {r : Bytes} (hr : AgreeOn r)
    (hlt : ∀ t, t.length < r.length → AgreeOn t ∧ AgreeAfter t) : AgreeAfter (ch '$' :: r) := by
  have hself : ∀ t, dollarSeq (ch '$' :: t) = some (.chr (ch '$'), 1) := fun t => by
    simp [dollarSeq]
  have hcode := (tokens_seq (hself r)).2.1
  rw [List.drop_one, List.tail_cons] at hcode
  by_cases hd : hd r = ch '$'
  · obtain ⟨t, rfl⟩ : ∃ t, r = ch '$' :: t := ⟨_, eq_cons_of_hd hd (by decide)⟩
    obtain ⟨ht, -, hclean⟩ := tokens_seq (hself t)
    rw [List.drop_one, List.tail_cons] at ht hclean
    have hplain : plain (ch '$' :: ch '$' :: t) = plain t := by simp [plain]
    rw [AgreeAfter, hcode, ht, hplain, hclean]
    exact (hlt t (by simp)).2.cons _
  · have hplain : plain (ch '$' :: r) = false := by
      cases r with
      | nil => rfl
      | cons d t =>
        have hne : ¬ d = ch '$' := hd
        simp [plain, hne]
    refine Or.inr ⟨by simp [hplain], ?_⟩
    rw [hcode, weights_cons, weights_cons]
    have hw : weight (.chr (ch '$')) = 3 := by simp [weight]
    cases hs : dollarSeq r with
    | some p =>
      obtain ⟨k, n⟩ := p
      obtain ⟨p, rfl, a, b, rfl, hb, h1, h2, ha⟩ := dollarSeq_ref hs hd
      have hle := (hlt b (by simp; omega)).1.le
      rw [(tokens_seq hs).1, hb, (tokens_append ha).2, weights_cons, weights_append,
        weights_chars ha]
      have hk : weight (.ref p) = 3 := rfl
      omega
    | none =>
      have hle := hr.le
      rw [(tokens_dollar hs).1, weights_cons]
      omega

/-- The code's reading of the rest of a format, also after a dollar sign that stands for itself. -/
theorem agree (n : ℕ) : ∀ s : Bytes, s.length ≤ n → AgreeOn s ∧ AgreeAfter s := by
  induction n with
  | zero =>
    intro s hs
    obtain rfl := List.length_eq_zero_iff.mp (Nat.le_zero.mp hs)
    have hnil : AgreeOn [] := Or.inl ⟨clean_nil, by rw [codeTokens_nil, tokens_nil]⟩
    exact ⟨hnil, agreeAfter_of_ne (by decide) hnil (by simp)⟩
  | succ n ih =>
    intro s hs
    have hlt : ∀ t : Bytes, t.length < s.length → AgreeOn t ∧ AgreeAfter t :=
      fun t ht => ih t (by omega)
    suffices hon : AgreeOn s by
      refine ⟨hon, ?_⟩
      by_cases hd : hd s = ch '$'
      · obtain ⟨t, rfl⟩ : ∃ t, s = ch '$' :: t := ⟨_, eq_cons_of_hd hd (by decide)⟩
        exact agreeAfter_dollar (hlt t (by simp)).1 fun u hu =>
          hlt u (by simp only [List.length_cons]; omega)
      · exact agreeAfter_of_ne hd hon fun t ht => (hlt t ht).1
    cases s with
    | nil => exact Or.inl ⟨clean_nil, by rw [codeTokens_nil, tokens_nil]⟩
    | cons c t =>
      by_cases hc : c = ch '$'
      · subst hc
        cases hseq : dollarSeq t with
        | some p =>
          obtain ⟨k, m⟩ := p
          obtain ⟨h1, h2, h3⟩ := tokens_seq hseq
          rw [AgreeOn, h1, h2]
          have hm : (t.drop m).length < (ch '$' :: t).length := by
            simp only [List.length_cons, List.length_drop]
            omega
          exact ((hlt (t.drop m) hm).1.cons k).congr h3
        | none =>
          obtain ⟨h1, -, h3⟩ := tokens_dollar hseq
          have hd : hd t ≠ ch '$' := by
            intro hd
            rw [eq_cons_of_hd hd (by decide)] at hseq
            simp [dollarSeq] at hseq
          rw [AgreeOn, h1]
          exact (hlt t (by simp)).2.congr (h3.trans (by simp [plain_of_ne hd, hseq]))
      by_cases hb : c = ch '\\'
      · subst hb
        cases t with
        | nil =>
          obtain ⟨h1, h2, h3⟩ := tokens_backslash_nil
          exact Or.inl ⟨h3, h2.trans h1.symm⟩
        | cons d u =>
          obtain ⟨h1, h2, h3⟩ := tokens_backslash d u
          obtain ⟨hu, hafter⟩ := hlt u (by simp only [List.length_cons]; omega)
          rw [AgreeOn, h1, h2]
          cases hesc : backslashSeq d with
          | some k =>
            have hne : d ≠ ch '$' := by
              rintro rfl
              have hnone : backslashSeq (ch '$') = none := by decide
              rw [hnone] at hesc
              cases hesc
            exact (hu.cons k).congr (h3.trans (by simp [hne]))
          | none =>
            simp only [Option.getD_none]
            by_cases hd : d = ch '$'
            · subst hd
              exact hafter.congr (h3.trans (by simp))
            · have hne : d ≠ ch '\\' := by
                rintro rfl
                cases hesc
              rw [(tokens_chr (t := u) hd hne).2.1]
              exact (hu.cons _).congr (h3.trans (by simp [hd]))
      · obtain ⟨h1, h2, h3⟩ := tokens_chr (t := t) hc hb
        rw [AgreeOn, h1, h2]
        exact ((hlt t (by simp)).1.cons _).congr h3

end

end Build2.Libbutl.Regex
