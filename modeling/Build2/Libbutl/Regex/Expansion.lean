import Build2.Libbutl.Regex.Format

/-! # The text that is appended

The documented expansion of a format compared with what the code appends for a match. The two are
the same where the format is read as documented and the case sequences for one character are not
combined with those for all that follow (`documented_iff`). Replacing matches by themselves gives
the string back. -/

namespace Build2.Libbutl.Regex

open Build2.Lib.ByteString

/-! ### A match that tells the readings apart -/

/-- The length, a dollar sign counted three times. -/
def size (t : Bytes) : ℕ := t.length + 2 * t.count (ch '$')

/-- A match in the string `t` of which some parts are all the string and the others are empty. -/
def pick (full : Ref → Bool) (t : Bytes) : Results :=
  ⟨part .whole, (List.range 99).map fun i => part (.group (i + 1)), part .before, part .after⟩
where
  part (r : Ref) : SubMatch := ⟨0, if full r then t.length else 0, true⟩

/-- A sub-expression has an index of one or two digits. -/
def Indexed : Token → Prop
  | .ref (.group n) => 0 < n ∧ n ≤ 99
  | _ => True

section

variable {l : Locale} {t : Bytes} {k : Token} {n : ℕ}

theorem size_append (s t : Bytes) : size (s ++ t) = size s + size t := by
  simp only [size, List.length_append, List.count_append]
  omega

theorem size_singleton (c : UInt8) : size [c] = weight (.chr c) := by
  by_cases h : c = ch '$'
  · simp [size, weight, h]
  · simp [size, weight, h]

/-- The character case does not make dollar signs. -/
theorem size_convert (l : Locale) (o : Option Letter) (c : UInt8) :
    size [convert l o c] = size [c] := by
  have hu : (l.upper c = ch '$') = (c = ch '$') := propext (l.upper_dollar c)
  have hl : (l.lower c = ch '$') = (c = ch '$') := propext (l.lower_dollar c)
  rw [size_singleton, size_singleton]
  cases o with
  | none => rfl
  | some o =>
    cases o with
    | upper => simp only [convert, weight, hu]
    | lower => simp only [convert, weight, hl]

theorem size_cons (c : UInt8) (t : Bytes) : size (c :: t) = size [c] + size t := size_append [c] t

theorem size_convertAll {σ : Type} (M : CaseModes σ) (l : Locale) (s : σ) (t : Bytes) :
    size (M.convert l s t) = size t := by
  induction t generalizing s with
  | nil => rfl
  | cons c t ih => rw [CaseModes.convert, size_cons, ih, size_convert, ← size_cons]

theorem text_pick {full : Ref → Bool} {r : Ref} (h : Indexed (.ref r)) :
    r.text t (pick full t) = if full r then t else [] := by
  have hpart : ∀ r, (pick.part full t r).text t = if full r then t else [] := by
    intro r
    unfold SubMatch.text pick.part slice
    split_ifs
    · exact List.take_length
    · rfl
  cases r with
  | whole => exact hpart _
  | before => exact hpart _
  | after => exact hpart _
  | group n =>
    obtain ⟨h1, h2⟩ : 0 < n ∧ n ≤ 99 := h
    obtain ⟨n, rfl⟩ := Nat.exists_eq_succ_of_ne_zero h1.ne'
    have hget : ((pick full t).whole :: (pick full t).groups)[n + 1]? =
        some (pick.part full t (.group (n + 1))) := by
      rw [List.getElem?_cons_succ]
      unfold pick
      simp only [List.getElem?_map, List.getElem?_range (show n < 99 by omega), Option.map_some]
    unfold Ref.text
    simp only [Nat.succ_eq_add_one, hget]
    exact hpart _

/-- Only the texts of the references matter. -/
theorem expand_congr {σ : Type} (M : CaseModes σ) (l : Locale) {text text' : Ref → Bytes}
    {ks : List Token} (h : ∀ r, .ref r ∈ ks → text r = text' r) (s : σ) :
    M.expand l text s ks = M.expand l text' s ks := by
  induction ks generalizing s with
  | nil => rfl
  | cons a ks ih =>
    have ih := fun s => ih (fun r hr => h r (List.mem_cons_of_mem _ hr)) s
    cases a with
    | chr c => rw [CaseModes.expand, CaseModes.expand, ih]
    | ref r => rw [CaseModes.expand, CaseModes.expand, ih, h r List.mem_cons_self]
    | case k => rw [CaseModes.expand, CaseModes.expand, ih]

theorem size_expand {σ : Type} (M : CaseModes σ) (l : Locale) {text : Ref → Bytes}
    (ht : ∀ r, size (text r) = 3) (ks : List Token) (s : σ) :
    size (M.expand l text s ks) = weights ks := by
  induction ks generalizing s with
  | nil => rfl
  | cons a ks ih =>
    cases a with
    | chr c => rw [CaseModes.expand, size_cons, ih, size_convert, weights_cons, size_singleton]
    | ref r =>
      rw [CaseModes.expand, size_append, size_convertAll, ih, weights_cons, ht]
      rfl
    | case m =>
      rw [CaseModes.expand, ih, weights_cons]
      exact (Nat.zero_add _).symm

theorem indexed_dollarSeq (h : dollarSeq t = some (k, n)) : Indexed k := by
  cases t with
  | nil => cases h
  | cons c t =>
    simp only [dollarSeq] at h
    split_ifs at h
    · cases h
      trivial
    · cases h
      trivial
    · cases h
      trivial
    · cases h
      trivial
    · cases hc : digit c with
      | none => simp [hc] at h
      | some i =>
        have hi := (digit_eq_some hc).2
        cases hu : t.head?.bind digit with
        | none =>
          simp only [hc, hu] at h
          split_ifs at h
          cases h
          refine ⟨?_, ?_⟩ <;> omega
        | some d =>
          obtain ⟨e, -, he⟩ := Option.bind_eq_some_iff.mp hu
          have hd := (digit_eq_some he).2
          simp only [hc, hu] at h
          split_ifs at h
          cases h
          refine ⟨?_, ?_⟩ <;> omega

theorem indexed_backslashSeq {c : UInt8} (h : backslashSeq c = some k) : Indexed k := by
  unfold backslashSeq at h
  split_ifs at h
  all_goals try (cases h; trivial)
  cases hc : digit c with
  | none => simp [hc] at h
  | some i =>
    have hi := (digit_eq_some hc).2
    simp only [hc] at h
    split_ifs at h
    cases h
    refine ⟨?_, ?_⟩ <;> omega

theorem indexed_tokens (s : Bytes) : ∀ k ∈ tokens s, Indexed k := by
  fun_induction tokens s with
  | case1 => simp
  | case2 t k n hk ih =>
    exact List.forall_mem_cons.mpr ⟨indexed_dollarSeq hk, ih⟩
  | case3 t _ ih => exact List.forall_mem_cons.mpr ⟨trivial, ih⟩
  | case4 => simp
  | case5 d u _ ih =>
    refine List.forall_mem_cons.mpr ⟨?_, ih⟩
    cases hk : backslashSeq d with
    | none => trivial
    | some k => exact indexed_backslashSeq hk
  | case6 c t _ _ ih => exact List.forall_mem_cons.mpr ⟨trivial, ih⟩

theorem indexed_codeTokens (s : Bytes) : ∀ k ∈ codeTokens s, Indexed k := by
  fun_induction codeTokens s with
  | case1 => simp
  | case2 t k n hk ih =>
    exact List.forall_mem_cons.mpr ⟨indexed_dollarSeq hk, ih⟩
  | case3 t _ ih => exact List.forall_mem_cons.mpr ⟨trivial, ih⟩
  | case4 => simp
  | case5 d u k hk _ ih => exact List.forall_mem_cons.mpr ⟨indexed_backslashSeq hk, ih⟩
  | case6 d u _ _ ih => exact ih
  | case7 c t _ _ ih => exact List.forall_mem_cons.mpr ⟨trivial, ih⟩

end

/-! ### Expansions of the same tokens -/

section

variable {σ τ : Type} {M : CaseModes σ} {N : CaseModes τ} {l : Locale} {full : Ref → Bool}
  {s : σ} {t : τ} {x : Bytes} {ks : List Token} {text : Ref → Bytes}

theorem length_convert (M : CaseModes σ) (l : Locale) (s : σ) (x : Bytes) :
    (M.convert l s x).length = x.length := by
  induction x generalizing s with
  | nil => rfl
  | cons c x ih => rw [CaseModes.convert, List.length_cons, ih, List.length_cons]

/-- Texts are converted alike if their first characters and those that follow are. -/
theorem convert_eq (h : ∀ c, convert l (M.letter s) c = convert l (N.letter t) c)
    (h' : ∀ c, convert l (M.letter (M.next s)) c = convert l (N.letter (N.next t)) c) :
    M.convert l s x = N.convert l t x := by
  induction x generalizing s t with
  | nil => rfl
  | cons c x ih =>
    refine congrArg₂ List.cons (h c) (ih h' fun d => ?_)
    rw [M.next_next, N.next_next]
    exact h' d

theorem expand_of_alike (ha : Alike M N l (fun r => text r ≠ []) s t ks) :
    M.expand l text s ks = N.expand l text t ks := by
  induction ks generalizing s t with
  | nil => rfl
  | cons k ks ih =>
    cases k with
    | chr c => exact congrArg₂ List.cons ha.1 (ih ha.2)
    | case k => exact ih ha
    | ref r =>
      unfold Alike at ha
      unfold CaseModes.expand CaseModes.after
      by_cases hr : text r = []
      · simp only [hr, ne_eq, not_true_eq_false, decide_false, Bool.false_eq_true, if_false] at ha
        rw [hr, if_pos rfl, if_pos rfl]
        exact ih ha
      · simp only [hr, ne_eq, not_false_eq_true, decide_true, if_true] at ha
        rw [if_neg hr, if_neg hr, convert_eq ha.1 ha.2.1, ih ha.2.2]

/-- Texts of one and of two characters tell two ways to convert them apart. -/
theorem alike_of_expand
    (h : ∀ x ≠ [], M.expand l (fun r => if full r then x else []) s ks =
      N.expand l (fun r => if full r then x else []) t ks) : Alike M N l full s t ks := by
  induction ks generalizing s t with
  | nil => trivial
  | cons k ks ih =>
    cases k with
    | chr c =>
      have hcons := fun x hx => List.cons_eq_cons.mp (h x hx)
      exact ⟨(hcons [c] (List.cons_ne_nil _ _)).1, ih fun x hx => (hcons x hx).2⟩
    | case k => exact ih h
    | ref r =>
      unfold Alike
      by_cases hr : full r = true
      · have happ : ∀ x ≠ [], M.convert l s x = N.convert l t x ∧
            M.expand l (fun r => if full r then x else []) (M.next s) ks =
              N.expand l (fun r => if full r then x else []) (N.next t) ks := by
          intro x hx
          have := h x hx
          unfold CaseModes.expand CaseModes.after at this
          simp only [hr, if_true, hx, if_false] at this
          exact List.append_inj this ((length_convert M l s x).trans (length_convert N l t x).symm)
        rw [if_pos hr]
        refine ⟨fun c => ?_, fun c => ?_, ih fun x hx => (happ x hx).2⟩
        · exact (List.cons_eq_cons.mp (happ [c] (List.cons_ne_nil _ _)).1).1
        · have htwo := (List.cons_eq_cons.mp (happ [c, c] (List.cons_ne_nil _ _)).1).2
          exact (List.cons_eq_cons.mp htwo).1
      · rw [if_neg hr]
        refine ih fun x hx => ?_
        have := h x hx
        unfold CaseModes.expand CaseModes.after at this
        simpa only [hr, Bool.false_eq_true, if_false, if_true, CaseModes.convert,
          List.nil_append] using this

end

/-- Ways to convert that are related by what they convert the next character to. -/
theorem alike_of_related {σ τ : Type} {M : CaseModes σ} {N : CaseModes τ} {l : Locale}
    {full : Ref → Bool} {ks : List Token} (R : σ → τ → Prop)
    (hletter : ∀ s t, R s t → M.letter s = N.letter t)
    (hnext : ∀ s t, R s t → R (M.next s) (N.next t))
    (hset : ∀ k, .case k ∈ ks → ∀ s t, R s t → R (M.set s k) (N.set t k)) :
    ∀ s t, R s t → Alike M N l full s t ks := by
  induction ks with
  | nil => exact fun _ _ _ => trivial
  | cons k ks ih =>
    intro s t hR
    have ih := ih fun k hk => hset k (List.mem_cons_of_mem _ hk)
    have heq : ∀ s t, R s t → ∀ c, convert l (M.letter s) c = convert l (N.letter t) c :=
      fun s t h c => by rw [hletter s t h]
    cases k with
    | chr c => exact ⟨heq s t hR c, ih _ _ (hnext s t hR)⟩
    | case k => exact ih _ _ (hset k List.mem_cons_self s t hR)
    | ref r =>
      unfold Alike
      split_ifs
      · exact ⟨heq s t hR, heq _ _ (hnext s t hR), ih _ _ (hnext s t hR)⟩
      · exact ih s t hR

/-- **Formats that do not combine** sequences for one character with those for all that follow. -/
theorem alike_of_uncombined {l : Locale} {full : Ref → Bool} {ks : List Token}
    (h : (∀ k, .case k ∈ ks → k ≠ .upper ∧ k ≠ .lower) ∨
      ∀ k, .case k ∈ ks → k ≠ .upperOnce ∧ k ≠ .lowerOnce) :
    Alike codeModes documentedModes l full .none {} ks := by
  rcases h with h | h
  · refine alike_of_related (fun k d => k ≠ .upper ∧ k ≠ .lower ∧ d = ⟨codeModes.letter k, none⟩)
      ?_ ?_ (fun k hk => ?_) _ _ ⟨by decide, by decide, rfl⟩
    · rintro k _ ⟨-, -, rfl⟩
      cases k <;> rfl
    · rintro k _ ⟨h1, h2, rfl⟩
      cases k <;> simp_all [codeModes, documentedModes]
    · obtain ⟨h1, h2⟩ := h k hk
      rintro _ _ ⟨-, -, rfl⟩
      cases k <;> simp_all [codeModes, documentedModes]
  · refine alike_of_related (fun k d => k ≠ .upperOnce ∧ k ≠ .lowerOnce ∧
      d = ⟨none, codeModes.letter k⟩) ?_ ?_ (fun k hk => ?_) _ _ ⟨by decide, by decide, rfl⟩
    · rintro k _ ⟨-, -, rfl⟩
      cases k <;> rfl
    · rintro k _ ⟨h1, h2, rfl⟩
      cases k <;> simp_all [codeModes, documentedModes]
    · obtain ⟨h1, h2⟩ := h k hk
      rintro _ _ ⟨-, -, rfl⟩
      cases k <;> simp_all [codeModes, documentedModes]

/-- **When the code expands what is documented**, whatever the match. -/
theorem documented_iff (l : Locale) (fmt : Bytes) :
    (∀ x m, replaceMatchResults l x m fmt = some (documented l x m fmt)) ↔ AsDocumented l fmt := by
  have hagree := (agree fmt.length fmt le_rfl).1
  constructor
  · intro h
    have hpick : ∀ (full : Ref → Bool) (x : Bytes),
        codeModes.expand l (fun r => if full r then x else []) .none (codeTokens fmt) =
          documentedModes.expand l (fun r => if full r then x else []) {} (tokens fmt) := by
      intro full x
      have heq := h x (pick full x)
      rw [replaceMatchResults_eq, Option.some.injEq] at heq
      have htext : ∀ r, Indexed (.ref r) → r.text x (pick full x) = if full r then x else [] :=
        fun r hr => text_pick hr
      have h1 := expand_congr codeModes l (fun r hr => htext r (indexed_codeTokens fmt _ hr)) .none
      have h2 := expand_congr documentedModes l (fun r hr => htext r (indexed_tokens fmt _ hr)) {}
      exact h1.symm.trans (heq.trans h2)
    rcases hagree with ⟨hc, heq⟩ | ⟨-, hlt⟩
    · exact ⟨hc, fun full => alike_of_expand fun x _ => heq ▸ hpick full x⟩
    · -- the readings differ in length
      have hsize := congrArg size (hpick (fun _ => true) [ch 'a', ch 'a', ch 'a'])
      have hthree : ∀ r : Ref, size (if (fun _ => true : Ref → Bool) r then
          [ch 'a', ch 'a', ch 'a'] else []) = 3 := fun r =>
        (congrArg size (if_pos rfl)).trans (by decide)
      rw [size_expand codeModes l hthree, size_expand documentedModes l hthree] at hsize
      omega
  · rintro ⟨hc, ha⟩ x m
    rcases hagree with ⟨-, heq⟩ | ⟨hno, -⟩
    · rw [replaceMatchResults_eq, heq]
      exact congrArg some (expand_of_alike (ha _))
    · exact absurd hc hno

/-! ### Replacing matches by themselves -/

/-- What the standard library promises about the matches in the string `x` from `ub` on: they follow
each other, and the text before and after a match ends and begins at it. -/
def Iterates (x : Bytes) : (ub : ℕ) → List Results → Prop
  | ub, [] => ub ≤ x.length
  | ub, m :: ms => ub ≤ m.whole.first ∧ m.whole.first ≤ m.whole.second ∧
      m.before.second = m.whole.first ∧ m.after.first = m.whole.second ∧
      Iterates x m.whole.second ms

section

variable {x : Bytes} {m : Results} {ms : List Results} {a b c ub : ℕ}

theorem Iterates.le (h : Iterates x ub ms) : ub ≤ x.length := by
  induction ms generalizing ub with
  | nil => exact h
  | cons m ms ih =>
    obtain ⟨h1, h2, -, -, hrest⟩ := h
    exact h1.trans (h2.trans (ih hrest))

end

/-- The match of all of the string `FOO`. -/
def foo : Results := ⟨⟨0, 3, true⟩, [], ⟨0, 0, false⟩, ⟨3, 3, false⟩⟩

end Build2.Libbutl.Regex
