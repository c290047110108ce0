import Build2.Lib.Decimal

/-! # Conditions of the C preprocessor

The value of a controlling expression of names, integers, comparisons, `&&`, `||` and parentheses:
the text is cut into tokens, and an operator waits until one that does not bind more tightly
follows. The value of a name is that of the macro. -/

namespace Build2.Lib.Preprocessor

open Build2.Lib.ByteString Build2.Lib.Decimal

/-! ### Tokens -/

/-- The binary operators. -/
inductive Op
  | or
  | and
  | eq
  | lt
  | le
  | gt
  | ge
  deriving DecidableEq, Repr

inductive Token
  | name (s : Bytes)
  | number (n : ℕ)
  | op (o : Op)
  | lparen
  | rparen
  deriving DecidableEq, Repr

/-- A character of a name or a number. -/
def isWord (c : UInt8) : Bool := isAlnum c || c = ch '_'

/-- A name: it does not start with a digit. -/
def IsName (s : Bytes) : Prop := s ≠ [] ∧ isDigit (hd s) = false ∧ ∀ c ∈ s, isWord c = true

instance (s : Bytes) : Decidable (IsName s) := inferInstanceAs (Decidable (_ ∧ _ ∧ _))

/-- A decimal integer without a suffix or an `unsigned long long` one. -/
def ofWord (s : Bytes) : Option Token :=
  if isDigit (hd s) then
    let ds := s.takeWhile isDigit
    let suffix := s.dropWhile isDigit
    if (hd ds = ch '0' ∧ ds ≠ [ch '0']) ∨ (suffix ≠ [] ∧ suffix ≠ str ['U', 'L', 'L']) then none
    else some (.number (value ds))
  else some (.name s)

/-- The token that a text starts with and the rest of the text. -/
def nextToken (s : Bytes) : Option (Token × Bytes) :=
  if isWord (hd s) then (ofWord (s.takeWhile isWord)).map fun t => (t, s.dropWhile isWord)
  else if s.take 2 = str ['|', '|'] then some (.op .or, s.drop 2)
  else if s.take 2 = str ['&', '&'] then some (.op .and, s.drop 2)
  else if s.take 2 = str ['=', '='] then some (.op .eq, s.drop 2)
  else if s.take 2 = str ['<', '='] then some (.op .le, s.drop 2)
  else if s.take 2 = str ['>', '='] then some (.op .ge, s.drop 2)
  else if hd s = ch '<' then some (.op .lt, s.drop 1)
  else if hd s = ch '>' then some (.op .gt, s.drop 1)
  else if hd s = ch '(' then some (.lparen, s.drop 1)
  else if hd s = ch ')' then some (.rparen, s.drop 1)
  else none

theorem nextToken_nil : nextToken [] = none := by decide

theorem nextToken_length {s r : Bytes} {t : Token} (h : nextToken s = some (t, r)) :
    r.length < s.length := by
  cases s with
  | nil =>
    rw [nextToken_nil] at h
    cases h
  | cons c s =>
    unfold nextToken at h
    by_cases hw : isWord (hd (c :: s)) = true
    · have hle := (List.dropWhile_sublist (l := s) isWord).length_le
      rw [if_pos hw] at h
      cases ho : ofWord ((c :: s).takeWhile isWord) with
      | none => simp [ho] at h
      | some t =>
        rw [ho, Option.map_some, Option.some.injEq, Prod.mk.injEq] at h
        have hdrop : (c :: s).dropWhile isWord = s.dropWhile isWord := List.dropWhile_cons_of_pos hw
        rw [← h.2, hdrop, List.length_cons]
        omega
    · rw [if_neg hw] at h
      split_ifs at h
      all_goals
        simp only [Option.some.injEq, Prod.mk.injEq] at h
        rw [← h.2, List.length_drop, List.length_cons]
        omega

/-- The tokens of a text. -/
def tokens (s : Bytes) : Option (List Token) :=
  match _h : s with
  | [] => some []
  | c :: t =>
    if isSpace c then tokens t
    else
      match _hn : nextToken (c :: t) with
      | none => none
      | some (k, r) => (tokens r).map (k :: ·)
termination_by s.length
decreasing_by
  · simp
  · exact nextToken_length _hn

/-! ### Values -/

namespace Op

/-- How tightly an operator binds. -/
def level : Op → ℕ
  | or => 1
  | and => 2
  | eq => 3
  | _ => 4

def holds (o : Op) (x y : ℕ) : Bool :=
  match o with
  | or => x ≠ 0 || y ≠ 0
  | and => x ≠ 0 && y ≠ 0
  | eq => x = y
  | lt => x < y
  | le => x ≤ y
  | gt => y < x
  | ge => y ≤ x

/-- The result is 1 or 0. -/
def apply (o : Op) (x y : ℕ) : ℕ := (o.holds x y).toNat

end Op

/-- What waits for its right operand or its end. -/
inductive Pending
  | op (o : Op)
  | paren
  deriving DecidableEq, Repr

/-- The operands and what is pending, the last ones first, and whether an operand comes next. -/
structure State where
  operands : List ℕ
  pending : List Pending
  operand : Bool
  deriving DecidableEq, Repr

/-- Apply the pending operators that bind at least as tightly. -/
def reduce (l : ℕ) : List ℕ → List Pending → Option (List ℕ × List Pending)
  | xs, .op o :: ps =>
    if l ≤ o.level then
      match xs with
      | y :: x :: xs => reduce l (o.apply x y :: xs) ps
      | _ => none
    else some (xs, .op o :: ps)
  | xs, ps => some (xs, ps)

def step (env : Bytes → ℕ) (s : State) : Token → Option State
  | .name n => if s.operand then some ⟨env n :: s.operands, s.pending, false⟩ else none
  | .number n => if s.operand then some ⟨n :: s.operands, s.pending, false⟩ else none
  | .lparen => if s.operand then some ⟨s.operands, .paren :: s.pending, true⟩ else none
  | .op o =>
    if s.operand then none
    else (reduce o.level s.operands s.pending).map fun p => ⟨p.1, .op o :: p.2, true⟩
  | .rparen =>
    if s.operand then none
    else
      match reduce 0 s.operands s.pending with
      | some (xs, .paren :: ps) => some ⟨xs, ps, false⟩
      | _ => none

/-- The value when all tokens have been read. -/
def result (s : State) : Option ℕ :=
  if s.operand then none
  else
    match reduce 0 s.operands s.pending with
    | some ([x], []) => some x
    | _ => none

/-- The value of an expression. -/
def valueOf (env : Bytes → ℕ) (ts : List Token) : Option ℕ :=
  (ts.foldlM (step env) ⟨[], [], true⟩).bind result

/-- The value of a condition. -/
def evaluate (env : Bytes → ℕ) (s : Bytes) : Option ℕ := (tokens s).bind (valueOf env)

/-! ### Cutting a text -/

variable {s t : Bytes} {c : UInt8} {k : Token}

theorem tokens_nil : tokens [] = some [] := by
  rw [tokens]

theorem tokens_space (h : isSpace c = true) : tokens (c :: t) = tokens t := by
  rw [tokens, if_pos h]

theorem tokens_next (hs : isSpace (hd s) = false) (h : nextToken s = some (k, t)) :
    tokens s = (tokens t).map (k :: ·) := by
  cases s with
  | nil =>
    rw [nextToken_nil] at h
    cases h
  | cons c s =>
    rw [tokens, if_neg (by simpa using hs)]
    split
    · rename_i heq
      rw [h] at heq
      cases heq
    · rename_i heq
      rw [h] at heq
      cases heq
      rfl

theorem isSpace_of_isWord (h : isWord c = true) : isSpace c = false := by
  simp only [isWord, Bool.or_eq_true, decide_eq_true_eq] at h
  rcases h with h | rfl
  · exact isSpace_of_isAlnum h
  · decide

theorem tokens_word (hne : s ≠ []) (hw : ∀ c ∈ s, isWord c = true) (ht : Stops isWord t)
    (h : ofWord s = some k) : tokens (s ++ t) = (tokens t).map (k :: ·) := by
  have hhd : isWord (hd (s ++ t)) = true := by
    obtain ⟨c, s, rfl⟩ := List.exists_cons_of_ne_nil hne
    exact hw c (by simp)
  refine tokens_next (isSpace_of_isWord hhd) ?_
  rw [nextToken, if_pos hhd, takeWhile_run hw ht, dropWhile_run hw ht, h]
  rfl

theorem tokens_name (hs : IsName s) (ht : Stops isWord t) :
    tokens (s ++ t) = (tokens t).map (.name s :: ·) :=
  tokens_word hs.1 hs.2.2 ht (by simp [ofWord, hs.2.1])

/-- A number as it is written. -/
def literal (n : ℕ) : Bytes := decimal n ++ str ['U', 'L', 'L']

theorem ofWord_literal (n : ℕ) : ofWord (literal n) = some (.number n) := by
  have hst : Stops isDigit (str ['U', 'L', 'L']) := stops_cons.mpr (by decide)
  have hhd : isDigit (hd (literal n)) = true := by
    unfold literal
    rw [hd_append (decimal_ne_nil n)]
    exact (numeral_decimal n).isDigit_hd
  have h0 : ¬(hd (decimal n) = ch '0' ∧ decimal n ≠ [ch '0']) := fun h => h.2 (decimal_of_hd h.1)
  unfold ofWord
  rw [if_pos hhd]
  simp only [literal, takeWhile_run isDigit_decimal hst, dropWhile_run isDigit_decimal hst]
  rw [if_neg (by simp [h0]), value_decimal]

theorem tokens_literal (n : ℕ) (ht : Stops isWord t) :
    tokens (literal n ++ t) = (tokens t).map (.number n :: ·) := by
  refine tokens_word (by simp [literal, str]) (fun c hc => ?_) ht (ofWord_literal n)
  rcases List.mem_append.mp hc with hc | hc
  · simp [isWord, isAlnum_of_isDigit (isDigit_decimal c hc)]
  · have hword : ∀ c ∈ str ['U', 'L', 'L'], isWord c = true := by decide
    exact hword c hc

/-! ### The tokens of the parts of a condition -/

/-- A text is cut into these tokens, whatever comes after it but the rest of a word. -/
def Cuts (s : Bytes) (ks : List Token) : Prop :=
  ∀ t, Stops isWord t → tokens (s ++ t) = (tokens t).map (ks ++ ·)

/-- An operator between two spaces. -/
def Op.text : Op → Bytes
  | or => str [' ', '|', '|', ' ']
  | and => str [' ', '&', '&', ' ']
  | eq => str [' ', '=', '=', ' ']
  | lt => str [' ', '<', ' ']
  | le => str [' ', '<', '=', ' ']
  | gt => str [' ', '>', ' ']
  | ge => str [' ', '>', '=', ' ']

theorem tokens_op (o : Op) (t : Bytes) : tokens (o.text ++ t) = (tokens t).map (.op o :: ·) := by
  have hsp : isSpace (ch ' ') = true := by decide
  cases o <;> simp only [Op.text, str, List.map_cons, List.map_nil, List.cons_append,
    List.nil_append] <;> rw [tokens_space hsp] <;>
    exact (tokens_next rfl rfl).trans (congrArg _ (tokens_space hsp))

theorem stops_op (o : Op) (t : Bytes) : Stops isWord (o.text ++ t) := by
  cases o <;> exact stops_cons.mpr (by decide)

theorem cuts_name (h : IsName s) : Cuts s [.name s] := fun _ ht => tokens_name h ht

theorem cuts_literal (n : ℕ) : Cuts (literal n) [.number n] := fun _ ht => tokens_literal n ht

section

variable {a b : Bytes} {ks ls : List Token}

theorem Cuts.op (ha : Cuts a ks) (hb : Cuts b ls) (o : Op) :
    Cuts (a ++ (o.text ++ b)) (ks ++ .op o :: ls) := by
  intro t ht
  rw [List.append_assoc, List.append_assoc, ha _ (stops_op o _), tokens_op, hb t ht]
  simp [Option.map_map, Function.comp_def]

theorem Cuts.parens (ha : Cuts a ks) :
    Cuts (ch '(' :: (a ++ [ch ')'])) (.lparen :: (ks ++ [.rparen])) := by
  intro t ht
  have hopen : tokens (ch '(' :: (a ++ ch ')' :: t)) =
      (tokens (a ++ ch ')' :: t)).map (.lparen :: ·) := tokens_next rfl rfl
  have hclose : tokens (ch ')' :: t) = (tokens t).map (.rparen :: ·) :=
    tokens_next rfl rfl
  rw [List.cons_append, List.append_assoc, List.singleton_append, hopen,
    ha _ (stops_cons.mpr (by decide)), hclose]
  simp [Option.map_map, Function.comp_def]

end

/-! ### Precedence -/

/-- The last pending operator binds less tightly than level `l`. -/
def Below (l : ℕ) : List Pending → Prop
  | .op o :: _ => o.level < l
  | _ => True

/-- Tokens whose operators outside of parentheses have a level from `l` on, with the value `x`:
they only wait for the operands that are put together to `x`. -/
def Reads (env : Bytes → ℕ) (l : ℕ) (ks : List Token) (x : ℕ) : Prop :=
  ∀ xs ps, Below l ps → ∃ xs' ps', ks.foldlM (step env) ⟨xs, ps, true⟩ = some ⟨xs', ps', false⟩ ∧
    ∀ m ≤ l, reduce m xs' ps' = reduce m (x :: xs) ps

section

variable {env : Bytes → ℕ} {l m x y : ℕ} {ks ls : List Token} {ps : List Pending}

theorem Below.mono (h : Below l ps) (hlm : l ≤ m) : Below m ps := by
  cases ps with
  | nil => trivial
  | cons p ps =>
    cases p with
    | op o => exact lt_of_lt_of_le h hlm
    | paren => trivial

theorem reduce_below (h : Below l ps) (xs : List ℕ) : reduce l xs ps = some (xs, ps) := by
  cases ps with
  | nil => rfl
  | cons p ps =>
    cases p with
    | op o =>
      have hlt : ¬ l ≤ o.level := Nat.not_le.mpr h
      unfold reduce
      rw [if_neg hlt]
    | paren => rfl

theorem Reads.mono (h : Reads env m ks x) (hlm : l ≤ m) : Reads env l ks x := by
  intro xs ps hb
  obtain ⟨xs', ps', hf, hr⟩ := h xs ps (hb.mono hlm)
  exact ⟨xs', ps', hf, fun k hk => hr k (hk.trans hlm)⟩

theorem reads_name (n : Bytes) : Reads env l [.name n] (env n) :=
  fun xs ps _ => ⟨env n :: xs, ps, rfl, fun _ _ => rfl⟩

theorem reads_number (n : ℕ) : Reads env l [.number n] n :=
  fun xs ps _ => ⟨n :: xs, ps, rfl, fun _ _ => rfl⟩

/-- The operators associate to the left. -/
theorem Reads.op {o : Op} (ha : Reads env o.level ks x) (hb : Reads env (o.level + 1) ls y) :
    Reads env o.level (ks ++ .op o :: ls) (o.apply x y) := by
  intro xs ps hps
  obtain ⟨xs₁, ps₁, hf₁, hr₁⟩ := ha xs ps hps
  obtain ⟨xs₂, ps₂, hf₂, hr₂⟩ := hb (x :: xs) (.op o :: ps) (Nat.lt_succ_self _)
  have hstep : step env ⟨xs₁, ps₁, false⟩ (.op o) = some ⟨x :: xs, .op o :: ps, true⟩ := by
    have hred := (hr₁ o.level le_rfl).trans (reduce_below hps _)
    simp [step, hred]
  refine ⟨xs₂, ps₂, ?_, fun m hm => ?_⟩
  · rw [List.foldlM_append, hf₁]
    show (step env ⟨xs₁, ps₁, false⟩ (.op o)).bind _ = _
    rw [hstep]
    exact hf₂
  · rw [hr₂ m (Nat.le_succ_of_le hm), reduce, if_pos hm]

theorem Reads.parens (h : Reads env l ks x) : Reads env m (.lparen :: (ks ++ [.rparen])) x := by
  intro xs ps _
  obtain ⟨xs', ps', hf, hr⟩ := h xs (.paren :: ps) trivial
  refine ⟨x :: xs, ps, ?_, fun _ _ => rfl⟩
  have hclose : step env ⟨xs', ps', false⟩ .rparen = some ⟨x :: xs, ps, false⟩ := by
    have hred : reduce 0 xs' ps' = some (x :: xs, .paren :: ps) := hr 0 (Nat.zero_le l)
    simp [step, hred]
  show (ks ++ [Token.rparen]).foldlM (step env) ⟨xs, .paren :: ps, true⟩ = _
  rw [List.foldlM_append, hf]
  show (step env ⟨xs', ps', false⟩ .rparen).bind _ = _
  rw [hclose]
  rfl

theorem Reads.valueOf (h : Reads env l ks x) : valueOf env ks = some x := by
  obtain ⟨xs, ps, hf, hr⟩ := h [] [] trivial
  have hred : reduce 0 xs ps = some ([x], []) := hr 0 (Nat.zero_le l)
  simp [Preprocessor.valueOf, hf, result, hred]

end

/-! ### The meaning of a text -/

/-- A condition whose operators outside of parentheses have a level from `l` on, and its value. -/
def Means (env : Bytes → ℕ) (l : ℕ) (s : Bytes) (x : ℕ) : Prop :=
  ∃ ks, Cuts s ks ∧ Reads env l ks x

section

variable {env : Bytes → ℕ} {l m x y : ℕ} {a b : Bytes}

theorem means_name (h : IsName a) : Means env l a (env a) := ⟨_, cuts_name h, reads_name a⟩

theorem means_literal (n : ℕ) : Means env l (literal n) n := ⟨_, cuts_literal n, reads_number n⟩

theorem Means.mono (h : Means env m a x) (hlm : l ≤ m) : Means env l a x := by
  obtain ⟨ks, hc, hr⟩ := h
  exact ⟨ks, hc, hr.mono hlm⟩

theorem Means.op {o : Op} (ha : Means env o.level a x) (hb : Means env (o.level + 1) b y) :
    Means env o.level (a ++ (o.text ++ b)) (o.apply x y) := by
  obtain ⟨ks, hc, hr⟩ := ha
  obtain ⟨ls, hc', hr'⟩ := hb
  exact ⟨_, hc.op hc' o, hr.op hr'⟩

theorem Means.parens (h : Means env l a x) : Means env m (ch '(' :: (a ++ [ch ')'])) x := by
  obtain ⟨ks, hc, hr⟩ := h
  exact ⟨_, hc.parens, hr.parens⟩

/-- **The value of a condition** follows from its parts. -/
theorem Means.evaluate (h : Means env l a x) : evaluate env a = some x := by
  obtain ⟨ks, hc, hr⟩ := h
  have ht := hc [] stops_nil
  rw [List.append_nil, tokens_nil] at ht
  simp [Preprocessor.evaluate, ht, hr.valueOf]

theorem apply_ne_zero (o : Op) (x y : ℕ) : o.apply x y ≠ 0 ↔ o.holds x y = true := by
  cases h : o.holds x y <;> simp [Op.apply, h]

end

end Build2.Lib.Preprocessor
