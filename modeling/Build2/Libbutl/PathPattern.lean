import Build2.Lib.ByteString
import Build2.Lib.Wildcard

/-! # Path patterns

Wildcard matching of `libbutl`: the iterator over the terms of a pattern, the two matchers, one for
patterns without `[` that anchors the suffix and the prefix, and `path_match` on strings. Characters
are compared as on systems other than Windows, where `char` is signed. -/

namespace Build2.Libbutl.PathPattern

open Build2.Lib.ByteString Build2.Lib.Wildcard

/-! ### Terms -/

/-- `path_pattern_term_type`. -/
inductive TermType
  | literal
  | question
  | star
  | bracket
  deriving DecidableEq, Repr

/-- `path_pattern_term`, with its characters from `begin` to `end`. -/
structure Term where
  type : TermType
  text : Bytes
  deriving DecidableEq, Repr

/-- The bracket expression after its `[`, and what follows it. Its first character is taken
literally, also if it is `]`. -/
def bracketEnd (s : Bytes) : Option (Bytes × Bytes) :=
  let i := if hd s = ch '!' then s.tail else s
  if i = [] then none
  else
    let t := i.tail.dropWhile (· ≠ ch ']')
    if t = [] then none else some (s.take (s.length - t.tail.length), t.tail)

/-- `path_pattern_iterator::next`: the next term and the position after it. -/
def next : Bytes → Option (Term × Bytes)
  | [] => none
  | c :: s =>
    if c = ch '?' then some (⟨.question, [c]⟩, s)
    else if c = ch '*' then some (⟨.star, [c]⟩, s)
    else if c = ch '[' then
      match bracketEnd s with
      | some (e, t) => some (⟨.bracket, c :: e⟩, t)
      | none => some (⟨.literal, [c]⟩, s)
    else some (⟨.literal, [c]⟩, s)

/-! ### Matching a character -/

/-- The loop of `match_bracket`, after the character `prev`. -/
def bracketLoop (c : UInt8) : Option UInt8 → Bytes → Bool
  | _, [] => false
  | some prev, bc :: mx :: s =>
    if bc = ch '-' then
      -- the range left endpoint has been matched already
      (prev.toInt8 < c.toInt8 && c.toInt8 ≤ mx.toInt8) || bracketLoop c (some mx) s
    else c = bc || bracketLoop c (some bc) (mx :: s)
  | _, bc :: s => c = bc || bracketLoop c (some bc) s

/-- `match_bracket`, for the characters of a bracket term. -/
def matchBracket (c : UInt8) (text : Bytes) : Bool :=
  let i := text.tail.dropLast
  let invert := hd i = ch '!'
  bracketLoop c none (if invert then i.tail else i) != invert

/-- `match (c, pt)`. -/
def matchTerm (c : UInt8) (pt : Term) : Bool :=
  match pt.type with
  | .star | .question => true
  | .bracket => matchBracket c pt.text
  | .literal => c = hd pt.text

/-! ### Patterns without brackets -/

/-- The loop over the leading characters: up to a star or to the end of either. -/
def matchChars : Bytes → Bytes → Option (Bytes × Bytes)
  | pc :: p, c :: n =>
    if pc = ch '*' then some (pc :: p, c :: n)
    else if c ≠ pc ∧ pc ≠ ch '?' then none
    else matchChars p n
  | p, n => some (p, n)

theorem length_matchChars : ∀ {p n p' n' : Bytes}, matchChars p n = some (p', n') →
    p'.length ≤ p.length
  | [], n, p', n', h => by
    rw [matchChars] at h
    · cases h
      exact le_rfl
    · nofun
  | pc :: p, [], p', n', h => by
    cases h
    exact le_rfl
  | pc :: p, c :: n, p', n', h => by
    rw [matchChars] at h
    split_ifs at h
    · cases h
      exact le_rfl
    · exact (length_matchChars h).trans (Nat.le_succ _)

/-- `match_no_brackets`. -/
def matchNoBrackets (p n : Bytes) : Bool :=
  match _hsuffix : matchChars p.reverse n.reverse with
  | none => false
  | some ([], rn) => rn = []
  | some (pc :: rp, rn) =>
    if pc ≠ ch '*' then false
    else
      match _hleading : matchChars (pc :: rp).reverse rn.reverse with
      | none => false
      | some ([], _) => false
      | some (pc :: p', n') =>
        if pc ≠ ch '*' then false
        else if p' = [] then true
        else n'.tails.any fun n => matchNoBrackets p' n
termination_by p.length
decreasing_by
  have h1 := length_matchChars _hsuffix
  have h2 := length_matchChars _hleading
  simp only [List.length_reverse, List.length_cons] at h1 h2 ⊢
  omega

/-! ### All patterns -/

theorem length_bracketEnd {s e t : Bytes} (h : bracketEnd s = some (e, t)) :
    t.length < s.length := by
  unfold bracketEnd at h
  simp only at h
  split_ifs at h with h1 h2 h3 h4
  · cases h
    have := (List.dropWhile_sublist (fun b => b ≠ ch ']') (l := s.tail.tail)).length_le
    have hpos := List.length_pos_of_ne_nil h3
    simp only [List.length_tail] at *
    omega
  · cases h
    have := (List.dropWhile_sublist (fun b => b ≠ ch ']') (l := s.tail)).length_le
    have hpos := List.length_pos_of_ne_nil h4
    simp only [List.length_tail] at *
    omega

theorem length_next : ∀ {p : Bytes} {pt : Term} {p' : Bytes}, next p = some (pt, p') →
    p'.length < p.length
  | c :: s, pt, p', h => by
    simp only [next] at h
    split_ifs at h
    · cases h
      exact Nat.lt_succ_self _
    · cases h
      exact Nat.lt_succ_self _
    · cases hb : bracketEnd s with
      | none =>
        rw [hb] at h
        cases h
        exact Nat.lt_succ_self _
      | some r =>
        obtain ⟨e, t⟩ := r
        rw [hb] at h
        cases h
        exact (length_bracketEnd hb).trans (Nat.lt_succ_self _)
    · cases h
      exact Nat.lt_succ_self _

/-- The terms of a pattern, from left to right. -/
def terms (p : Bytes) : List Term :=
  match _h : next p with
  | none => []
  | some (pt, p') => pt :: terms p'
termination_by p.length
decreasing_by exact length_next _h

/-- The loop over the leading terms: up to a star or to the end of either. -/
def matchTerms (p n : Bytes) : Option (Bytes × Bytes) :=
  match _h : next p with
  | none => some (p, n)
  | some (pt, p') =>
    if pt.type = .star then some (p, n)
    else
      match n with
      | [] => some (p, [])
      | c :: n => if matchTerm c pt then matchTerms p' n else none
termination_by p.length
decreasing_by exact length_next _h

theorem length_matchTerms {p n p' n' : Bytes} (h : matchTerms p n = some (p', n')) :
    p'.length ≤ p.length := by
  fun_induction matchTerms p n with
  | case1 p n hp =>
    cases h
    exact le_rfl
  | case2 p n pt q hp hstar =>
    cases h
    exact le_rfl
  | case3 p pt q hp hstar =>
    cases h
    exact le_rfl
  | case4 p pt q hp hstar c n hc ih => exact (ih h).trans (length_next hp).le
  | case5 p pt q hp hstar c n hc => cases h

/-- `match`: patterns without `[` are left to `match_no_brackets`. -/
def matchPattern (p n : Bytes) : Bool :=
  if ch '[' ∉ p then matchNoBrackets p n
  else
    match _hleading : matchTerms p n with
    | none => false
    | some (p', n') =>
      match _hnext : next p' with
      | none => n' = []
      | some (pt, rest) =>
        if pt.type ≠ .star then false
        else if rest = [] then true
        else n'.tails.any fun n => matchPattern rest n
termination_by p.length
decreasing_by exact (length_next _hnext).trans_le (length_matchTerms _hleading)

/-- The string ends with a separator, as directories do. -/
def isDir (s : Bytes) : Bool := s.getLast? = some (ch '/')

/-- The string without a trailing separator. -/
def withoutSeparator (s : Bytes) : Bytes := if isDir s then s.dropLast else s

/-- `path_match (name, pattern)`. -/
def pathMatch (name pattern : Bytes) : Bool :=
  if isDir pattern ≠ isDir name then false
  else matchPattern (withoutSeparator pattern) (withoutSeparator name)

/-! ### The meaning of a pattern -/

/-- What a term stands for. -/
def Term.item (pt : Term) : Item UInt8 :=
  match pt.type with
  | .star => .star
  | .question => .one fun _ => true
  | .bracket => .one fun c => matchBracket c pt.text
  | .literal => .one fun c => c = hd pt.text

/-- The name can be split according to the terms. -/
def Splits (pts : List Term) (n : Bytes) : Prop := Matches (pts.map Term.item) n

/-- What a character stands for in a pattern without brackets. -/
def charItem (c : UInt8) : Item UInt8 :=
  if c = ch '*' then .star
  else if c = ch '?' then .one fun _ => true
  else .one fun b => b = c

section

variable {p n p' n' : Bytes} {c : UInt8}

@[simp] theorem charItem_star : charItem (ch '*') = .star := rfl

theorem matches_charItem (h : c ≠ ch '*') {b : UInt8} {ps : List (Item UInt8)} {s : Bytes} :
    Matches (charItem c :: ps) (b :: s) ↔ ¬ (b ≠ c ∧ c ≠ ch '?') ∧ Matches ps s := by
  unfold charItem
  rw [if_neg h]
  split_ifs with hq
  · simp [hq]
  · simp [hq]

theorem matches_charItem_nil (h : c ≠ ch '*') {ps : List (Item UInt8)} :
    ¬ Matches (charItem c :: ps) [] := by
  unfold charItem
  rw [if_neg h]
  split_ifs <;> simp

/-- Where the loop over the leading characters stops. -/
def Halted (p n : Bytes) : Prop := p = [] ∨ (∃ q, p = ch '*' :: q) ∨ n = []

/-- **The loop over the leading characters** takes off what a match takes off. -/
theorem matchChars_iff : ∀ {p n : Bytes}, Matches (p.map charItem) n ↔
    ∃ p' n', matchChars p n = some (p', n') ∧ Halted p' n' ∧ Matches (p'.map charItem) n'
  | [], n => by
    have h : matchChars [] n = some ([], n) := by
      rw [matchChars]
      nofun
    rw [h]
    simp [Halted]
  | pc :: p, [] => by
    have h : matchChars (pc :: p) [] = some (pc :: p, []) := rfl
    rw [h]
    simp [Halted]
  | pc :: p, c :: n => by
    rw [matchChars]
    by_cases hs : pc = ch '*'
    · rw [if_pos hs]
      simp [Halted, hs]
    rw [if_neg hs, List.map_cons, matches_charItem hs]
    by_cases hm : c ≠ pc ∧ pc ≠ ch '?'
    · rw [if_pos hm]
      simp [hm]
    · rw [if_neg hm, matchChars_iff]
      simp [hm]

theorem not_matches_of_none (h : matchChars p n = none) : ¬ Matches (p.map charItem) n := by
  rw [matchChars_iff, h]
  rintro ⟨_, _, h, -⟩
  cases h

theorem matches_of_some (h : matchChars p n = some (p', n')) :
    Matches (p.map charItem) n ↔ Halted p' n' ∧ Matches (p'.map charItem) n' := by
  rw [matchChars_iff, h]
  constructor
  · rintro ⟨_, _, he, h⟩
    cases he
    exact h
  · exact fun h => ⟨_, _, rfl, h⟩

/-- Stopped at a character other than a star, the pattern goes on behind the end of the name. -/
theorem not_matches_of_ne_star (hc : c ≠ ch '*') :
    ¬ (Halted (c :: p) n ∧ Matches ((c :: p).map charItem) n) := by
  rintro ⟨h | ⟨q, h⟩ | rfl, hm⟩
  · cases h
  · exact hc (List.cons.inj h).1
  · exact matches_charItem_nil hc hm

theorem star_mem_of_some : ∀ {p n p' n' : Bytes}, matchChars p n = some (p', n') → ch '*' ∈ p →
    ch '*' ∈ p'
  | pc :: p, [], p', n', h, hs => by
    cases h
    exact hs
  | pc :: p, c :: n, p', n', h, hs => by
    rw [matchChars] at h
    split_ifs at h with h1 h2
    · cases h
      exact hs
    · exact star_mem_of_some h (List.mem_of_ne_of_mem (Ne.symm h1) hs)

theorem matches_map_reverse :
    Matches (p.reverse.map charItem) n.reverse ↔ Matches (p.map charItem) n := by
  rw [List.map_reverse, matches_reverse_iff]

/-- The suffix taken off, the pattern ends with its last star. -/
theorem matches_of_suffix {pc : UInt8} {rp rn : Bytes}
    (hs : matchChars p.reverse n.reverse = some (pc :: rp, rn)) (hc : pc = ch '*') :
    Matches (p.map charItem) n ↔ Matches ((pc :: rp).reverse.map charItem) rn.reverse := by
  rw [← matches_map_reverse, matches_of_some hs, matches_map_reverse]
  exact and_iff_right (Or.inr (Or.inl ⟨rp, by rw [hc]⟩))

/-- **The anchored matcher is right**, by induction on the pattern between the outermost stars. -/
theorem matchNoBrackets_iff (p n : Bytes) :
    matchNoBrackets p n = true ↔ Matches (p.map charItem) n := by
  fun_induction matchNoBrackets p n with
  | case1 p n hs =>
    rw [← matches_map_reverse]
    exact iff_of_false nofun (not_matches_of_none hs)
  | case2 p n rn hs =>
    rw [← matches_map_reverse, matches_of_some hs]
    simp [Halted]
  | case3 p n pc rp rn hs hc =>
    rw [← matches_map_reverse, matches_of_some hs]
    exact iff_of_false nofun (not_matches_of_ne_star hc)
  | case4 p n pc rp rn hs hc hl =>
    rw [matches_of_suffix hs (not_not.mp hc)]
    exact iff_of_false nofun (not_matches_of_none hl)
  | case5 p n pc rp rn hs hc n' hl =>
    have hstar : ch '*' ∈ (pc :: rp).reverse := by simp [not_not.mp hc]
    exact absurd (star_mem_of_some hl hstar) (by simp)
  | case6 p n pc rp rn hs hc pc' p' n' hl hc' =>
    rw [matches_of_suffix hs (not_not.mp hc), matches_of_some hl]
    exact iff_of_false nofun (not_matches_of_ne_star hc')
  | case7 p n pc rp rn hs hc pc' n' hc' hl =>
    rw [matches_of_suffix hs (not_not.mp hc), matches_of_some hl, not_not.mp hc']
    simp [Halted]
  | case8 p n pc rp rn hs hc pc' p' n' hl hc' hp ih =>
    rw [matches_of_suffix hs (not_not.mp hc), matches_of_some hl, not_not.mp hc']
    simp only [Halted, List.map_cons, charItem_star, matches_star, List.any_eq_true, ih]
    simp

/-! ### Terms and characters -/

theorem terms_of_none (h : next p = none) : terms p = [] := by
  rw [terms]
  split
  · rfl
  · rename_i h'
    rw [h] at h'
    cases h'

theorem terms_of_some {pt : Term} (h : next p = some (pt, p')) : terms p = pt :: terms p' := by
  rw [terms]
  split
  · rename_i h'
    rw [h] at h'
    cases h'
  · rename_i h'
    rw [h] at h'
    cases h'
    rfl

/-- Without brackets a term is a character. -/
theorem terms_of_noBrackets : ∀ {p : Bytes}, ch '[' ∉ p →
    (terms p).map Term.item = p.map charItem
  | [], _ => by rw [terms_of_none rfl]; rfl
  | c :: p, h => by
    rw [List.mem_cons, not_or] at h
    have ih := terms_of_noBrackets h.2
    by_cases hq : c = ch '?'
    · rw [terms_of_some (show next (c :: p) = some (⟨.question, [c]⟩, p) from if_pos hq),
        List.map_cons, List.map_cons, ih, hq]
      rfl
    by_cases hs : c = ch '*'
    · rw [terms_of_some (show next (c :: p) = some (⟨.star, [c]⟩, p) by
        rw [next, if_neg hq, if_pos hs]), List.map_cons, List.map_cons, ih, hs]
      rfl
    · rw [terms_of_some (show next (c :: p) = some (⟨.literal, [c]⟩, p) by
        rw [next, if_neg hq, if_neg hs, if_neg (Ne.symm h.1)]), List.map_cons, List.map_cons, ih]
      unfold charItem
      rw [if_neg hs, if_neg hq]
      rfl

/-! ### Patterns with brackets -/

theorem matches_item {pt : Term} (h : pt.type ≠ .star) {ps : List (Item UInt8)} {s : Bytes} :
    Matches (pt.item :: ps) (c :: s) ↔ matchTerm c pt = true ∧ Matches ps s := by
  unfold Term.item matchTerm
  cases hpt : pt.type with
  | star => exact absurd hpt h
  | question => simp
  | bracket => simp
  | literal => simp

theorem not_matches_item_nil {pt : Term} (h : pt.type ≠ .star) {ps : List (Item UInt8)} :
    ¬ Matches (pt.item :: ps) [] := by
  unfold Term.item
  cases hpt : pt.type with
  | star => exact absurd hpt h
  | question => simp
  | bracket => simp
  | literal => simp

theorem item_star {pt : Term} (h : pt.type = .star) : pt.item = .star := by
  unfold Term.item
  rw [h]

/-- **The loop over the leading terms** takes off what a match takes off. -/
theorem splits_iff_matchTerms (p n : Bytes) : Splits (terms p) n ↔
    ∃ p' n', matchTerms p n = some (p', n') ∧
      (∀ pt q, next p' = some (pt, q) → pt.type ≠ .star → n' = []) ∧ Splits (terms p') n' := by
  fun_induction matchTerms p n with
  | case1 p n hp => simp [hp]
  | case2 p n pt q hp hstar => simp [hp, hstar]
  | case3 p pt q hp hstar => simp
  | case4 p pt q hp hstar c n hc ih =>
    rw [← ih, terms_of_some hp]
    unfold Splits
    rw [List.map_cons, matches_item hstar]
    simp [hc]
  | case5 p pt q hp hstar c n hc =>
    rw [terms_of_some hp]
    unfold Splits
    rw [List.map_cons, matches_item hstar]
    simp [hc]

theorem splits_of_some (h : matchTerms p n = some (p', n')) : Splits (terms p) n ↔
    (∀ pt q, next p' = some (pt, q) → pt.type ≠ .star → n' = []) ∧ Splits (terms p') n' := by
  rw [splits_iff_matchTerms, h]
  constructor
  · rintro ⟨_, _, he, h⟩
    cases he
    exact h
  · exact fun h => ⟨_, _, rfl, h⟩

/-- **The matcher is right**, by induction on the pattern after the first star. -/
theorem matchPattern_iff (p n : Bytes) : matchPattern p n = true ↔ Splits (terms p) n := by
  fun_induction matchPattern p n with
  | case1 p n hb =>
    rw [matchNoBrackets_iff, Splits, terms_of_noBrackets hb]
  | case2 p n hb hl =>
    rw [splits_iff_matchTerms, hl]
    exact iff_of_false nofun fun ⟨_, _, h, _⟩ => nomatch h
  | case3 p n hb p' n' hl hn =>
    rw [splits_of_some hl, terms_of_none hn, hn]
    simp [Splits]
  | case4 p n hb p' n' hl pt rest hn hs =>
    rw [splits_of_some hl, terms_of_some hn]
    refine iff_of_false nofun fun ⟨hend, hm⟩ => ?_
    rw [hend pt rest hn hs] at hm
    exact not_matches_item_nil hs hm
  | case5 p n hb p' n' hl pt hs hn =>
    have hstar := item_star (not_not.mp hs)
    have hend : ∀ pt' q, next p' = some (pt', q) → pt'.type ≠ .star → n' = [] := by
      intro pt' q h hne
      rw [hn] at h
      cases h
      exact absurd hne hs
    rw [splits_of_some hl, terms_of_some hn, terms_of_none rfl, and_iff_right hend]
    unfold Splits
    rw [List.map_cons, hstar]
    simp
  | case6 p n hb p' n' hl pt rest hn hs hr ih =>
    have hstar := item_star (not_not.mp hs)
    have hend : ∀ pt' q, next p' = some (pt', q) → pt'.type ≠ .star → n' = [] := by
      intro pt' q h hne
      rw [hn] at h
      cases h
      exact absurd hne hs
    rw [splits_of_some hl, terms_of_some hn, and_iff_right hend]
    unfold Splits at ih ⊢
    rw [List.map_cons, hstar, matches_star]
    simp only [List.any_eq_true, ih]

end

/-! ### Names and patterns -/

/-- The matcher from left to right, without anchoring: a star tries all final parts of the name. -/
def leftToRight : List Term → Bytes → Bool
  | [], n => n = []
  | pt :: pts, n =>
    if pt.type = .star then n.tails.any fun n => leftToRight pts n
    else
      match n with
      | [] => false
      | c :: n => matchTerm c pt && leftToRight pts n

theorem leftToRight_iff : ∀ (pts : List Term) (n : Bytes),
    leftToRight pts n = true ↔ Splits pts n := by
  intro pts
  induction pts with
  | nil =>
    intro n
    simp [leftToRight, Splits]
  | cons pt pts ih =>
    intro n
    unfold Splits at ih ⊢
    rw [List.map_cons]
    by_cases hs : pt.type = .star
    · rw [item_star hs, matches_star]
      simp only [leftToRight, hs, if_true, List.any_eq_true, ih]
    · cases n with
      | nil =>
        refine iff_of_false ?_ (not_matches_item_nil hs)
        simp [leftToRight, hs]
      | cons c n =>
        rw [matches_item hs, ← ih]
        simp [leftToRight, hs]

/-- **Wildcard matching meets its definition**: a name matches a pattern of its type if and only if
it can be split according to the terms, and without brackets the anchored matcher gives the answer
of the straightforward one. -/
theorem pathMatch_iff_splits :
    (∀ name pattern, pathMatch name pattern = true ↔ isDir pattern = isDir name ∧
      Splits (terms (withoutSeparator pattern)) (withoutSeparator name)) ∧
    ∀ p n, ch '[' ∉ p → matchNoBrackets p n = leftToRight (terms p) n := by
  refine ⟨fun name pattern => ?_, fun p n hb => ?_⟩
  · unfold pathMatch
    by_cases hd : isDir pattern = isDir name
    · rw [if_neg (not_not.mpr hd), matchPattern_iff, and_iff_right hd]
    · rw [if_pos hd]
      exact iff_of_false nofun fun h => hd h.1
  · rw [Bool.eq_iff_iff, matchNoBrackets_iff, leftToRight_iff, Splits, terms_of_noBrackets hb]

end Build2.Libbutl.PathPattern
