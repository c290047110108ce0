import Build2.Lib.Reader
import Build2.Libbutl.Manifest.Parser

/-! # Reading a value

The loop of `parse_value` looks up to three characters ahead. Here the same is done by a reader that
takes one character at a time and keeps what is pending: a backslash, a newline of a multi-line
value, or both. What it reads of a text does not depend on what follows, up to the newline that ends
the value. -/

namespace Build2.Libbutl.Manifest

open Build2.Lib.ByteString Build2.Lib.Reader
open CharScanner (cr lf)

/-- What is pending: nothing yet read, the backslash that may introduce a multi-line value, nothing,
nothing behind a special newline, a backslash, a backslash behind another one, a backslash behind a
special newline, a newline of a multi-line value, and that with a backslash. -/
inductive Pending
  | start
  | intro
  | none
  | special
  | backslash
  | backslashes
  | specialBackslash
  | newline
  | newlineBackslash
  deriving DecidableEq

/-- The mode, what is pending, the value, and its size without trailing spaces. -/
structure ValueState where
  ml : Bool
  pending : Pending
  v : Bytes
  n : Nat
  deriving DecidableEq

namespace ValueState

/-- A character with nothing pending. -/
def plain (t : ValueState) (x : UInt8) : Option ValueState :=
  if x = ch '\\' then some { t with pending := .backslash }
  else if x = lf then if t.ml then some { t with pending := .newline } else none
  else some ⟨t.ml, .none, t.v ++ [x], valueSize t.ml t.v t.n x⟩

/-- A character behind a backslash. -/
def escaped (t : ValueState) (x : UInt8) : Option ValueState :=
  if x = lf then some { t with pending := .special }
  else if x = ch '\\' then some ⟨t.ml, .backslashes, t.v ++ [ch '\\'], t.v.length + 1⟩
  else plain ⟨t.ml, .none, t.v ++ [ch '\\'], valueSize t.ml t.v t.n (ch '\\')⟩ x

/-- One character. The reader stops at the newline that ends the value. -/
def feed (t : ValueState) (x : UInt8) : Option ValueState :=
  match t.pending with
  | .start => if x = ch '\\' then some { t with pending := .intro } else plain t x
  | .intro =>
    if x = lf then some { t with ml := true, pending := .special } else escaped t x
  | .none => plain t x
  | .special => if x = ch '\\' then some { t with pending := .specialBackslash } else plain t x
  | .backslash => escaped t x
  | .backslashes =>
    if x = lf then plain t x
    else if x = ch '\\' then some { t with v := t.v ++ [ch '\\'], n := t.v.length + 1 }
    else plain ⟨t.ml, .none, t.v ++ [ch '\\'], valueSize t.ml t.v t.n (ch '\\')⟩ x
  | .specialBackslash =>
    if x = lf then if t.ml then none else some ⟨t.ml, .none, t.v ++ [lf], t.v.length + 1⟩
    else escaped t x
  | .newline =>
    if x = ch '\\' then some { t with pending := .newlineBackslash }
    else plain { t with v := t.v ++ [lf] } x
  | .newlineBackslash => if x = lf then none else escaped { t with v := t.v ++ [lf] } x

/-- The value and its size at the end of the text. -/
def atEnd (t : ValueState) : Bytes × Nat :=
  match t.pending with
  | .specialBackslash => if t.ml then (t.v, t.n) else (t.v ++ [lf], t.v.length + 1)
  | .newline => (t.v ++ [lf], t.n)
  | _ => (t.v, t.n)

/-- The value and its size where the reader has stopped in front of `r`. -/
def result (t : ValueState) (r : Bytes) : Bytes × Nat := if r = [] then t.atEnd else (t.v, t.n)

/-- The value, cut to its size in the simple mode. -/
def value (t : ValueState) (r : Bytes) : Bytes :=
  if t.ml then (t.result r).1 else (t.result r).1.take (t.result r).2

/-- The reader at the start of a value. -/
def start : ValueState := ⟨false, .start, [], 0⟩

/-- The reader behind the introductor. -/
def loop (ml nl : Bool) (v : Bytes) (n : Nat) : ValueState :=
  ⟨ml, if nl then .special else .none, v, n⟩

end ValueState

/-- The value with its size, and the rest of the text. -/
def ValueState.read (t : ValueState) (s : Bytes) : (Bytes × Nat) × Bytes :=
  ((readTo feed t s).1.result (readTo feed t s).2, (readTo feed t s).2)

/-- The value at the start of a text, and the rest of the text. -/
def readValue (s : Bytes) : Bytes × Bytes :=
  ((readTo ValueState.feed .start s).1.value (readTo ValueState.feed .start s).2,
    (readTo ValueState.feed .start s).2)

open ValueState

section

variable {t u : ValueState} {x : UInt8} {s : Bytes}

theorem read_nil : t.read [] = (t.atEnd, []) := rfl

theorem read_cons (h : t.feed x = some u) : t.read (x :: s) = u.read s := by
  unfold ValueState.read
  rw [readTo_cons h]

theorem read_stop (h : t.feed x = none) : t.read (x :: s) = ((t.v, t.n), x :: s) := by
  unfold ValueState.read
  rw [readTo_refused h]
  rfl

theorem read_congr (h : t.feed x = some u) {t' : ValueState} (h' : t'.feed x = some u) :
    t.read (x :: s) = t'.read (x :: s) := by
  rw [read_cons h, read_cons h']

end

/-! ### The loop and the reader -/

section

variable {ml nl : Bool} {v : Bytes} {n : Nat} {x : UInt8} {s : Bytes}

theorem backslash_ne_lf : ch '\\' ≠ lf := by decide

theorem feed_loop_backslash : (loop ml nl v n).feed (ch '\\') =
    some ⟨ml, if nl then .specialBackslash else .backslash, v, n⟩ := by
  cases nl <;> rfl

theorem feed_loop (hx : x ≠ ch '\\') : (loop ml nl v n).feed x = plain ⟨ml, .none, v, n⟩ x := by
  cases nl <;> simp [feed, loop, plain, hx]

theorem plain_other (ml : Bool) (p : Pending) (v : Bytes) (n : Nat) (hx : x ≠ ch '\\')
    (hlf : x ≠ lf) :
    plain ⟨ml, p, v, n⟩ x = some (loop ml false (v ++ [x]) (valueSize ml v n x)) := by
  simp [plain, hx, hlf, loop]

/-- A character behind a pending backslash that is not part of an escape sequence. -/
theorem escaped_other (hx : x ≠ ch '\\') (hlf : x ≠ lf) {p : Pending} :
    escaped ⟨ml, p, v, n⟩ x =
      (loop ml false (v ++ [ch '\\']) (valueSize ml v n (ch '\\'))).feed x := by
  rw [escaped, if_neg hlf, if_neg hx, feed_loop hx]

/-- A pending backslash behind a special newline is one that nothing special comes before, unless a
newline or the end follows. -/
theorem feed_backslash (hlf : x ≠ lf) :
    feed ⟨ml, if nl then .specialBackslash else .backslash, v, n⟩ x =
      escaped ⟨ml, .backslash, v, n⟩ x := by
  cases nl
  · rfl
  · simp [feed, hlf, escaped]

theorem feed_backslashes (hlf : x ≠ lf) :
    feed ⟨ml, .backslashes, v, n⟩ x = escaped ⟨ml, .backslash, v, n⟩ x := by
  simp [feed, hlf, escaped]

theorem escaped_isSome (ml : Bool) (p : Pending) (v : Bytes) (n : Nat) (hlf : x ≠ lf) :
    ∃ u, escaped ⟨ml, p, v, n⟩ x = some u := by
  unfold escaped plain
  rw [if_neg hlf]
  split_ifs <;> exact ⟨_, rfl⟩

theorem read_of_feed {t t' : ValueState} (hend : t.atEnd = t'.atEnd)
    (h : ∀ x ∈ s.head?, ∃ u, t.feed x = some u ∧ t'.feed x = some u) : t.read s = t'.read s := by
  cases s with
  | nil => rw [read_nil, read_nil, hend]
  | cons x s =>
    obtain ⟨u, h1, h2⟩ := h x rfl
    exact read_congr h1 h2

end

/-- **The loop of `parse_value` is the reader.** -/
theorem valueLoop_eq (ml nl : Bool) (v : Bytes) (n : Nat) (s : Bytes) :
    valueLoop ml nl v n s = (loop ml nl v n).read s := by
  induction hk : s.length using Nat.strongRecOn generalizing nl v n s with
  | ind k ih =>
  subst hk
  rcases s with _ | ⟨c, s⟩
  · rw [valueLoop]
    cases nl <;> rfl
  have ih1 : ∀ nl v n, valueLoop ml nl v n s = (loop ml nl v n).read s :=
    fun nl v n => ih s.length (by simp) nl v n s rfl
  have htail : s.tail.length < (c :: s).length := by
    rw [List.length_tail, List.length_cons]
    omega
  have ih2 : ∀ nl v n, valueLoop ml nl v n s.tail = (loop ml nl v n).read s.tail :=
    fun nl v n => ih s.tail.length htail nl v n s.tail rfl
  rw [valueLoop]
  by_cases h1 : nl = true ∧ c = ch '\\' ∧ (s = [] ∨ hd s = lf)
  · obtain ⟨rfl, rfl, hs⟩ := h1
    rw [if_pos ⟨rfl, rfl, hs⟩, read_cons feed_loop_backslash, ih2]
    rcases hs with rfl | hs
    · cases ml <;> rfl
    · obtain ⟨s, rfl⟩ : ∃ s', s = lf :: s' := ⟨_, eq_cons_of_hd hs (by decide)⟩
      cases ml
      · exact (read_cons rfl).symm
      · exact (read_stop (t := ⟨true, .specialBackslash, v, n⟩) rfl).symm
  rw [if_neg h1]
  by_cases h2 : c = lf ∧ ml = false
  · obtain ⟨rfl, rfl⟩ := h2
    rw [if_pos ⟨rfl, rfl⟩, read_stop (by rw [feed_loop backslash_ne_lf.symm]; rfl)]
    rfl
  rw [if_neg h2]
  by_cases h3 : c = lf ∧ hd s = ch '\\'
  · -- a newline and a backslash in a multi-line value
    obtain ⟨rfl, hs⟩ := h3
    obtain rfl : ml = true := (Bool.not_eq_false ml).mp fun h => h2 ⟨rfl, h⟩
    obtain ⟨s, rfl⟩ : ∃ s', s = ch '\\' :: s' := ⟨_, eq_cons_of_hd hs (by decide)⟩
    have hread : (loop true nl v n).read (lf :: ch '\\' :: s) =
        (⟨true, .newlineBackslash, v, n⟩ : ValueState).read s := by
      rw [read_cons (by rw [feed_loop backslash_ne_lf.symm]; rfl), read_cons rfl]
    rw [if_pos ⟨rfl, rfl⟩, hread, List.tail_cons]
    by_cases h4 : s = [] ∨ hd s = lf
    · rw [if_pos h4]
      rcases h4 with rfl | hs
      · rfl
      · obtain ⟨s, rfl⟩ : ∃ s', s = lf :: s' := ⟨_, eq_cons_of_hd hs (by decide)⟩
        exact (read_stop (t := ⟨true, .newlineBackslash, v, n⟩) rfl).symm
    · rw [if_neg h4, ih1, read_cons feed_loop_backslash]
      obtain ⟨hne, hlf⟩ := not_or.mp h4
      obtain ⟨x, s, rfl⟩ := List.exists_cons_of_ne_nil hne
      have hx : x ≠ lf := hlf
      obtain ⟨u, hu⟩ := escaped_isSome true .backslash (v ++ [lf]) n hx
      have hu' : feed ⟨true, .backslash, v ++ [lf], n⟩ x = some u := hu
      refine read_congr hu' ?_
      simpa [feed, hx, escaped] using hu
  rw [if_neg h3]
  by_cases h5 : c = ch '\\' ∧ (s = [] ∨ hd s = lf)
  · -- the newline escape sequence
    obtain ⟨rfl, hs⟩ := h5
    obtain rfl : nl = false := (Bool.not_eq_true nl).mp fun h => h1 ⟨h, rfl, hs⟩
    rw [if_pos ⟨rfl, hs⟩, read_cons feed_loop_backslash, ih2]
    rcases hs with rfl | hs
    · rfl
    · obtain ⟨s, rfl⟩ : ∃ s', s = lf :: s' := ⟨_, eq_cons_of_hd hs (by decide)⟩
      exact (read_cons (t := ⟨ml, .backslash, v, n⟩) rfl).symm
  rw [if_neg h5]
  by_cases h6 : c = ch '\\' ∧ hd s = ch '\\'
  · -- two backslashes
    obtain ⟨rfl, hs⟩ := h6
    obtain ⟨s, rfl⟩ : ∃ s', s = ch '\\' :: s' := ⟨_, eq_cons_of_hd hs (by decide)⟩
    have hread : (loop ml nl v n).read (ch '\\' :: ch '\\' :: s) =
        (⟨ml, .backslashes, v ++ [ch '\\'], v.length + 1⟩ : ValueState).read s := by
      rw [read_cons feed_loop_backslash,
        read_cons (by rw [feed_backslash backslash_ne_lf]; rfl)]
    rw [if_pos ⟨rfl, rfl⟩, hread, List.tail_cons]
    by_cases h7 : hd s = lf
    · obtain ⟨s, rfl⟩ : ∃ s', s = lf :: s' := ⟨_, eq_cons_of_hd h7 (by decide)⟩
      refine (if_pos h7).trans ((ih2 _ _ _).trans ?_)
      cases ml
      · rw [List.tail_cons, read_stop (by rfl), read_stop (by rfl)]
        rfl
      · exact read_congr (u := ⟨true, .newline, v ++ [ch '\\'], v.length + 1⟩) rfl rfl
    · rw [if_neg h7, ih1, read_cons feed_loop_backslash]
      refine read_of_feed rfl fun x hx => ?_
      obtain ⟨s, rfl⟩ : ∃ s', s = x :: s' := ⟨_, List.eq_cons_of_mem_head? hx⟩
      obtain ⟨u, hu⟩ := escaped_isSome ml .backslash (v ++ [ch '\\']) (v.length + 1) h7
      exact ⟨u, hu, (feed_backslashes h7).trans hu⟩
  rw [if_neg h6, ih1]
  by_cases hc : c = ch '\\'
  · subst hc
    rw [read_cons feed_loop_backslash]
    have hne : s ≠ [] := fun h => h5 ⟨rfl, Or.inl h⟩
    obtain ⟨x, s, rfl⟩ := List.exists_cons_of_ne_nil hne
    have hlf : x ≠ lf := fun h => h5 ⟨rfl, Or.inr h⟩
    have hx : x ≠ ch '\\' := fun h => h6 ⟨rfl, h⟩
    have hu : feed (loop ml false (v ++ [ch '\\']) (valueSize ml v n (ch '\\'))) x = some _ :=
      (feed_loop hx).trans (plain_other _ _ _ _ hx hlf)
    exact read_congr hu (by rw [feed_backslash hlf, escaped_other hx hlf, hu])
  by_cases hlf : c = lf
  · subst hlf
    obtain rfl : ml = true := (Bool.not_eq_false ml).mp fun h => h2 ⟨rfl, h⟩
    rw [read_cons (by rw [feed_loop hc]; rfl)]
    refine read_of_feed rfl fun x hx => ?_
    obtain ⟨s, rfl⟩ : ∃ s', s = x :: s' := ⟨_, List.eq_cons_of_mem_head? hx⟩
    have hxb : x ≠ ch '\\' := fun h => h3 ⟨rfl, h⟩
    have hfeed : feed ⟨true, .newline, v, n⟩ x = plain ⟨true, .newline, v ++ [lf], n⟩ x := by
      simp [feed, hxb]
    rw [feed_loop hxb, hfeed]
    unfold plain
    rw [if_neg hxb, if_neg hxb]
    by_cases hx' : x = lf
    · rw [if_pos hx', if_pos hx']
      exact ⟨_, rfl, rfl⟩
    · rw [if_neg hx', if_neg hx']
      exact ⟨_, rfl, rfl⟩
  · exact (read_cons (by rw [feed_loop hc, plain_other _ _ _ _ hc hlf])).symm

/-! ### The mode -/

section

variable {t u : ValueState} {x : UInt8} {s w : Bytes}

theorem ml_plain {m : Bool} (h : t.plain x = some u) (hm : t.ml = m) :
    u.ml = m ∧ u.pending ≠ .start ∧ u.pending ≠ .intro := by
  unfold plain at h
  split_ifs at h <;> cases h <;> exact ⟨hm, by simp, by simp⟩

theorem ml_escaped {m : Bool} (h : t.escaped x = some u) (hm : t.ml = m) :
    u.ml = m ∧ u.pending ≠ .start ∧ u.pending ≠ .intro := by
  unfold escaped at h
  split_ifs at h
  · cases h
    exact ⟨hm, by simp, by simp⟩
  · cases h
    exact ⟨hm, by simp, by simp⟩
  · exact ml_plain h hm

/-- The mode does not change behind the introductor. -/
theorem ml_feed (h : t.feed x = some u) (hs : t.pending ≠ .start) (hi : t.pending ≠ .intro) :
    u.ml = t.ml ∧ u.pending ≠ .start ∧ u.pending ≠ .intro := by
  unfold feed at h
  split at h
  · contradiction
  · contradiction
  · exact ml_plain h rfl
  · split_ifs at h
    · cases h
      exact ⟨rfl, by simp, by simp⟩
    · exact ml_plain h rfl
  · exact ml_escaped h rfl
  · rename_i hp
    split_ifs at h
    · exact ml_plain h rfl
    · cases h
      exact ⟨rfl, by simp [hp], by simp [hp]⟩
    · exact ml_plain h rfl
  · split_ifs at h
    · cases h
      exact ⟨rfl, by simp, by simp⟩
    · exact ml_escaped h rfl
  · split_ifs at h
    · cases h
      exact ⟨rfl, by simp, by simp⟩
    · exact ml_plain h rfl
  · split_ifs at h
    exact ml_escaped h rfl

theorem plain_stop (h : t.plain x = none) : x = lf := by
  unfold plain at h
  split_ifs at h with h1 h2
  exact h2

theorem feed_stop (h : t.feed x = none) : x = lf := by
  have hescaped : ∀ {u : ValueState}, u.escaped x = none → x = lf := by
    intro u hu
    by_contra hlf
    obtain ⟨w, hw⟩ := escaped_isSome u.ml u.pending u.v u.n hlf
    rw [hu] at hw
    cases hw
  unfold feed at h
  split at h
  all_goals
    try split_ifs at h
    all_goals first | assumption | exact plain_stop h | exact hescaped h

theorem ml_foldlM (h : w.foldlM feed t = some u) (hs : t.pending ≠ .start)
    (hi : t.pending ≠ .intro) : u.ml = t.ml := by
  induction w generalizing t with
  | nil =>
    cases h
    rfl
  | cons x w ih =>
    rw [List.foldlM_cons, Option.bind_eq_bind, Option.bind_eq_some_iff] at h
    obtain ⟨t', ht, h⟩ := h
    obtain ⟨h1, h2, h3⟩ := ml_feed ht hs hi
    rw [ih h h2 h3, h1]

theorem ml_readTo (s : Bytes) (hs : t.pending ≠ .start) (hi : t.pending ≠ .intro) :
    (readTo feed t s).1.ml = t.ml := by
  obtain ⟨w, -, hw, -⟩ := readTo_eq_iff.mp (rfl : readTo feed t s = (_, _))
  exact ml_foldlM hw hs hi

end

/-! ### Reading a value -/

theorem value_readTo (ml nl : Bool) (v : Bytes) (n : Nat) (s : Bytes) :
    (if ml then ((loop ml nl v n).read s).1.1
      else ((loop ml nl v n).read s).1.1.take ((loop ml nl v n).read s).1.2) =
      (readTo feed (loop ml nl v n) s).1.value (readTo feed (loop ml nl v n) s).2 := by
  have hml : (readTo feed (loop ml nl v n) s).1.ml = ml :=
    ml_readTo s (by cases nl <;> simp [loop]) (by cases nl <;> simp [loop])
  rw [value, hml]
  rfl

/-- **The value and the rest** are those of the loop behind the introductor. -/
theorem readValue_eq {s s' : Bytes} {ml : Bool} (h : introductor s = (ml, s')) : readValue s =
    (if ml then ((loop ml ml [] 0).read s').1.1
      else ((loop ml ml [] 0).read s').1.1.take ((loop ml ml [] 0).read s').1.2,
      ((loop ml ml [] 0).read s').2) := by
  have key : readTo feed .start s = readTo feed (loop ml ml [] 0) s' → readValue s =
      (if ml then ((loop ml ml [] 0).read s').1.1
        else ((loop ml ml [] 0).read s').1.1.take ((loop ml ml [] 0).read s').1.2,
        ((loop ml ml [] 0).read s').2) := by
    intro heq
    rw [value_readTo, readValue, heq]
    rfl
  cases s with
  | nil =>
    cases h
    rfl
  | cons c s =>
    rw [introductor] at h
    split_ifs at h with hc hs hlf
    · cases h
      rw [hc, hs]
      rfl
    · cases h
      obtain ⟨s, rfl⟩ : ∃ s', s = lf :: s' := ⟨_, eq_cons_of_hd hlf (by decide)⟩
      subst hc
      exact key rfl
    · cases h
      subst hc
      obtain ⟨x, s, rfl⟩ := List.exists_cons_of_ne_nil hs
      have hx : x ≠ lf := hlf
      obtain ⟨u, hu⟩ := escaped_isSome false .intro [] 0 hx
      refine key ?_
      have h1 : feed ⟨false, .intro, [], 0⟩ x = some u := by
        rw [feed]
        simpa [hx] using hu
      have h2 : feed ⟨false, .backslash, [], 0⟩ x = some u := by
        rw [feed]
        simpa [escaped] using hu
      rw [readTo_cons (u := ⟨false, .intro, [], 0⟩) rfl, readTo_cons h1,
        readTo_cons (u := ⟨false, .backslash, [], 0⟩) rfl, readTo_cons h2]
    · cases h
      by_cases hx : c = lf
      · rw [hx]
        rfl
      · refine key ?_
        have h1 : feed .start c = some (loop false false ([] ++ [c]) (valueSize false [] 0 c)) := by
          rw [← plain_other false .start [] 0 hc hx]
          simp [feed, ValueState.start, hc]
        have h2 : feed (loop false false [] 0) c =
            some (loop false false ([] ++ [c]) (valueSize false [] 0 c)) :=
          (feed_loop hc).trans (plain_other false .none [] 0 hc hx)
        rw [readTo_cons h1, readTo_cons h2]

theorem parseValue_eq (src : Source) (s : Bytes) : parseValue src s = (do
    checkEnd src "manifest value" (readValue s).2
    pure ((readValue s).1, src.loc (introductor s).2, (readValue s).2)) := by
  rcases h : introductor s with ⟨ml, s'⟩
  rw [readValue_eq h]
  unfold parseValue
  rw [h]
  simp only [valueLoop_eq]

end Build2.Libbutl.Manifest
