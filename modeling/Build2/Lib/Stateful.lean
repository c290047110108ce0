import Mathlib.Tactic.Common

/-! # Computations on a state that survives failure

A call that may fail with an error and reads and writes a state which outlives the call whether it
fails or not (a per-thread error variable, a log, a cache) is a `Comp`. Seen from one state `s`, a
computation that returns only with `s` unchanged (`Steady s`) is an ordinary fallible function:
`eval_bind` sequences two of them without mentioning the state. -/

namespace Build2.Lib.Stateful

variable {σ ε α β : Type}

/-- A fallible computation on a state that survives failure. -/
def Comp (σ ε α : Type) : Type := σ → Except ε α × σ

namespace Comp

/-- Return a value. -/
def ret (a : α) : Comp σ ε α := fun s => (.ok a, s)

/-- Fail, keeping the state. -/
def fail (e : ε) : Comp σ ε α := fun s => (.error e, s)

/-- Run one computation and, if it returns, the next one from the state it leaves. -/
def andThen (x : Comp σ ε α) (f : α → Comp σ ε β) : Comp σ ε β := fun s =>
  match x s with
  | (.ok a, s') => f a s'
  | (.error e, s') => (.error e, s')

/-- Run a computation and, if it fails, the handler from the state it leaves. -/
def handle (x : Comp σ ε α) (h : ε → Comp σ ε α) : Comp σ ε α := fun s =>
  match x s with
  | (.ok a, s') => (.ok a, s')
  | (.error e, s') => h e s'

instance : Monad (Comp σ ε) where
  pure := ret
  bind := andThen

instance : MonadExceptOf ε (Comp σ ε) where
  throw := fail
  tryCatch := handle

/-- Report a failure as another one. -/
def mapError {ε' : Type} (x : Comp σ ε α) (g : ε → ε') : Comp σ ε' α := fun s =>
  match x s with
  | (.ok a, s') => (.ok a, s')
  | (.error e, s') => (.error (g e), s')

/-- Whether a computation returned, and what. -/
def attempt {ε' : Type} (x : Comp σ ε α) : Comp σ ε' (Option α) := fun s =>
  match x s with
  | (.ok a, s') => (.ok (some a), s')
  | (.error _, s') => (.ok none, s')

/-- The outcome of a computation from one state. -/
def eval (x : Comp σ ε α) (s : σ) : Except ε α := (x s).1

/-- Calls made one after the other, from a first state: their outcomes and the state left. -/
def runs : List (Comp σ ε α) → σ → List (Except ε α) × σ
  | [], s => ([], s)
  | x :: xs, s => ((x s).1 :: (runs xs (x s).2).1, (runs xs (x s).2).2)

/-- A computation that returns from whatever state returns the same from `s` and leaves `s`. -/
def Steady (s : σ) (x : Comp σ ε α) : Prop := ∀ s₁ a s₂, x s₁ = (.ok a, s₂) → x s = (.ok a, s)

section

variable {s : σ} {x : Comp σ ε α} {f : α → Comp σ ε β}

@[simp] theorem eval_pure (a : α) : (pure a : Comp σ ε α).eval s = .ok a := rfl

theorem steady_pure (a : α) : Steady s (pure a : Comp σ ε α) := fun _ _ _ h => by
  cases h; rfl

theorem steady_throw (e : ε) : Steady s (throw e : Comp σ ε α) := fun _ _ _ h => by
  cases h

theorem steady_bind (hx : Steady s x) (hf : ∀ a, Steady s (f a)) : Steady s (x >>= f) := by
  intro s₁ b s₂ h
  have h' : andThen x f s₁ = (.ok b, s₂) := h
  unfold andThen at h'
  rcases hxs : x s₁ with ⟨a | a, s₃⟩
  · rw [hxs] at h'; cases h'
  · rw [hxs] at h'
    show andThen x f s = _
    unfold andThen
    rw [hx s₁ a s₃ hxs]
    exact hf a s₃ b s₂ h'

theorem steady_ite {c : Prop} [Decidable c] {y : Comp σ ε α} (hx : Steady s x) (hy : Steady s y) :
    Steady s (if c then x else y) := by
  split_ifs
  · exact hx
  · exact hy

theorem steady_mapError {ε' : Type} (hx : Steady s x) (g : ε → ε') : Steady s (x.mapError g) := by
  intro s₁ a s₂ h
  unfold mapError at h
  rcases hxs : x s₁ with ⟨e | b, s₃⟩
  · rw [hxs] at h; cases h
  · rw [hxs] at h
    unfold mapError
    rw [hx s₁ b s₃ hxs]
    cases h
    rfl

/-- What a steady computation returns from some state, it returns from `s`. -/
theorem Steady.eval_eq_ok (hx : Steady s x) {s₁ : σ} {a : α} (h : x.eval s₁ = .ok a) :
    x.eval s = .ok a := by
  unfold eval at h ⊢
  rw [hx s₁ a (x s₁).2 (by rw [← h])]

/-- **Sequencing, seen from one state.** -/
theorem eval_bind (hx : Steady s x) :
    (x >>= f).eval s = x.eval s >>= fun a => (f a).eval s := by
  show (andThen x f s).1 = _
  unfold andThen eval
  rcases hxs : x s with ⟨e | a, s'⟩
  · rfl
  · have hs := hx s a s' hxs
    rw [hxs] at hs
    cases hs
    rfl

theorem eval_bind_of_error {e : ε} (h : x.eval s = .error e) : (x >>= f).eval s = .error e := by
  show (andThen x f s).1 = _
  unfold eval at h
  unfold andThen
  rcases hxs : x s with ⟨e' | a, s'⟩
  · rw [hxs] at h
    exact congrArg _ (Except.error.inj h)
  · rw [hxs] at h
    cases h

theorem eval_bind_eq_ok (hx : Steady s x) {b : β} :
    (x >>= f).eval s = .ok b ↔ ∃ a, x.eval s = .ok a ∧ (f a).eval s = .ok b := by
  rw [eval_bind hx]
  cases h : x.eval s with
  | error e =>
    refine ⟨fun h' => (by cases h'), ?_⟩
    rintro ⟨a, h', -⟩
    cases h'
  | ok a =>
    refine ⟨fun h' => ⟨a, rfl, h'⟩, ?_⟩
    rintro ⟨a', h', h''⟩
    cases h'
    exact h''

theorem bind_run {b : β} (h : (x >>= f).eval s = .ok b) :
    ∃ a s', x s = (.ok a, s') ∧ (f a).eval s' = .ok b := by
  have h' : (andThen x f s).1 = .ok b := h
  unfold andThen at h'
  rcases hx : x s with ⟨e | a, s'⟩
  · rw [hx] at h'
    cases h'
  · rw [hx] at h'
    exact ⟨a, s', rfl, h'⟩

theorem bind_fails {e : ε} (h : (x >>= f).eval s = .error e) : x.eval s = .error e ∨
    ∃ a s', x s = (.ok a, s') ∧ (f a).eval s' = .error e := by
  have h' : (andThen x f s).1 = .error e := h
  unfold andThen at h'
  rcases hx : x s with ⟨e' | a, s'⟩
  · rw [hx] at h'
    have he : e' = e := by
      cases h'
      rfl
    exact Or.inl (he ▸ congrArg Prod.fst hx)
  · rw [hx] at h'
    exact Or.inr ⟨a, s', rfl, h'⟩

/-- What the handler never returns is returned without it. -/
theorem handle_run {g : ε → Comp σ ε α} {s' : σ} {a : α} (h : handle x g s = (.ok a, s'))
    (hg : ∀ e s₁ s₂, g e s₁ ≠ (.ok a, s₂)) : x s = (.ok a, s') := by
  unfold handle at h
  rcases hx : x s with ⟨e | b, s₁⟩
  · rw [hx] at h
    exact absurd h (hg e s₁ s')
  · rw [hx] at h
    exact h

theorem eval_mapError {ε' : Type} (g : ε → ε') :
    (x.mapError g).eval s = (x.eval s).mapError g := by
  show (mapError x g s).1 = (x s).1.mapError g
  unfold mapError
  cases x s with
  | mk o s' => cases o <;> rfl

theorem eval_mapError_eq_ok {ε' : Type} {g : ε → ε'} {a : α} :
    (x.mapError g).eval s = .ok a ↔ x.eval s = .ok a := by
  rw [eval_mapError]
  cases x.eval s with
  | error e => exact ⟨fun h => (by cases h), fun h => (by cases h)⟩
  | ok b => exact ⟨fun h => (by cases h; rfl), fun h => (by cases h; rfl)⟩

end

/-! ### Failures that do not occur -/

/-- From `s`, a computation does not fail with `e`. -/
def Avoids (s : σ) (e : ε) (x : Comp σ ε α) : Prop := x.eval s ≠ .error e

section

variable {s : σ} {e : ε} {x y : Comp σ ε α} {f : α → Comp σ ε β}

theorem avoids_pure (a : α) : Avoids s e (pure a : Comp σ ε α) := nofun

theorem avoids_fail {e' : ε} (h : e' ≠ e) : Avoids s e (fail e' : Comp σ ε α) := fun h' => by
  cases h'
  exact h rfl

theorem avoids_ite {c : Prop} [Decidable c] (hx : c → Avoids s e x) (hy : ¬ c → Avoids s e y) :
    Avoids s e (if c then x else y) := by
  split_ifs with h
  · exact hx h
  · exact hy h

theorem avoids_bind (hs : Steady s x) (hx : Avoids s e x)
    (hf : ∀ a, x.eval s = .ok a → Avoids s e (f a)) : Avoids s e (x >>= f) := by
  unfold Avoids
  rw [eval_bind hs]
  cases h : x.eval s with
  | error e' => exact fun h' => hx (by rw [h]; cases h'; rfl)
  | ok a => exact hf a h

theorem avoids_mapError {ε' : Type} {g : ε → ε'} {e' : ε'}
    (h : ∀ e, x.eval s = .error e → g e ≠ e') :
    Avoids s e' (x.mapError g) := by
  unfold Avoids
  rw [eval_mapError]
  cases hx : x.eval s with
  | error e => exact fun h' => h e hx (by cases h'; rfl)
  | ok a => nofun

end

/-! ### What a computation returns -/

/-- From whatever state, a computation returns only what is in `Q`. -/
def Returns (Q : α → Prop) (x : Comp σ ε α) : Prop := ∀ s a, x.eval s = .ok a → Q a

section

variable {Q : α → Prop} {x y : Comp σ ε α}

theorem returns_fail (e : ε) : Returns Q (fail e : Comp σ ε α) := nofun

theorem returns_ite {c : Prop} [Decidable c] (hx : c → Returns Q x) (hy : ¬ c → Returns Q y) :
    Returns Q (if c then x else y) := by
  split_ifs with h
  · exact hx h
  · exact hy h

theorem Returns.bind {P : β → Prop} {z : Comp σ ε β} {f : β → Comp σ ε α} (hz : Returns P z)
    (h : ∀ b, P b → Returns Q (f b)) : Returns Q (z >>= f) := by
  intro s a ha
  obtain ⟨b, s', hzb, hb⟩ := bind_run ha
  exact h b (hz s b (congrArg Prod.fst hzb)) s' a hb

theorem returns_bind {z : Comp σ ε β} {f : β → Comp σ ε α} (h : ∀ b, Returns Q (f b)) :
    Returns Q (z >>= f) :=
  Returns.bind (fun _ _ _ => trivial) fun b _ => h b

theorem returns_pure {a : α} (h : Q a) : Returns Q (pure a : Comp σ ε α) := fun _ _ ha => by
  cases ha
  exact h

theorem returns_mapError {ε' : Type} (g : ε → ε') (h : Returns Q x) :
    Returns Q (x.mapError g) :=
  fun s a ha => h s a (eval_mapError_eq_ok.mp ha)

end

/-! ### Computations that spoil the state -/

/-- From `s`, a computation leaves another state behind. -/
def Spoils (s : σ) (x : Comp σ ε α) : Prop := (x s).2 ≠ s

section

variable {s : σ} {x y : Comp σ ε α} {f : α → Comp σ ε β}

@[simp] theorem spoils_pure (a : α) : ¬ Spoils s (pure a : Comp σ ε α) := fun h => h rfl

@[simp] theorem spoils_fail (e : ε) : ¬ Spoils s (fail e : Comp σ ε α) := fun h => h rfl

theorem spoils_ite {c : Prop} [Decidable c] :
    Spoils s (if c then x else y) ↔ c ∧ Spoils s x ∨ ¬ c ∧ Spoils s y := by
  by_cases h : c <;> simp [h]

theorem spoils_bind (hx : Steady s x) :
    Spoils s (x >>= f) ↔ Spoils s x ∨ ∃ a, x.eval s = .ok a ∧ Spoils s (f a) := by
  have hb : (x >>= f) s = andThen x f s := rfl
  unfold Spoils eval
  rw [hb]
  unfold andThen
  rcases hxs : x s with ⟨e | a, s'⟩
  · simp
  · have hs := hx s a s' hxs
    rw [hxs] at hs
    cases hs
    simp

theorem spoils_mapError {ε' : Type} {g : ε → ε'} : Spoils s (x.mapError g) ↔ Spoils s x := by
  have h : (x.mapError g s).2 = (x s).2 := by
    unfold mapError
    rcases x s with ⟨e | a, s'⟩ <;> rfl
  unfold Spoils
  rw [h]

end

/-! ### Runs of calls -/

/-- **Calls that each leave the state alone do not see one another.** -/
theorem runs_of_keep {s : σ} : ∀ {xs : List (Comp σ ε α)}, (∀ x ∈ xs, (x s).2 = s) →
    runs xs s = (xs.map fun x => x.eval s, s)
  | [], _ => rfl
  | x :: xs, h => by
    have h1 := h x (by simp)
    have h2 := runs_of_keep fun y hy => h y (List.mem_cons_of_mem _ hy)
    simp only [runs, h1, h2, List.map_cons, eval]

/-- **When calls do not see one another**, if a state `t` that they may leave instead of `s` stays:
no call that spoils `s` comes before one with another outcome from `t`. -/
theorem runs_eq_iff {s t : σ} : ∀ {xs : List (Comp σ ε α)},
    (∀ x ∈ xs, (x s).2 = s ∨ (x s).2 = t) → (∀ x ∈ xs, (x t).2 = t) →
    ((runs xs s).1 = xs.map (fun x => x.eval s) ↔
      xs.Pairwise fun x y => Spoils s x → y.eval t = y.eval s)
  | [], _, _ => by simp [runs]
  | x :: xs, hs, ht => by
    have hs' : ∀ y ∈ xs, (y s).2 = s ∨ (y s).2 = t := fun y hy => hs y (List.mem_cons_of_mem _ hy)
    have ht' : ∀ y ∈ xs, (y t).2 = t := fun y hy => ht y (List.mem_cons_of_mem _ hy)
    have ih := runs_eq_iff hs' ht'
    simp only [runs, List.map_cons, List.pairwise_cons, List.cons.injEq, eval, true_and]
    by_cases hx : Spoils s x
    · -- the later calls all start from `t`
      rw [(hs x (by simp)).resolve_left hx, runs_of_keep ht', List.map_inj_left]
      simp only [hx, forall_const]
      exact ⟨fun h => ⟨h, List.Pairwise.imp_of_mem (fun _ hb _ _ => h _ hb)
        (List.pairwise_of_forall (fun _ _ => trivial))⟩, fun h => h.1⟩
    · have hx' : (x s).2 = s := not_not.mp hx
      rw [hx']
      simp only [hx, false_imp_iff, implies_true, true_and]
      exact ih

end Comp

/-! ### Fallible functions -/

theorem bind_eq_ok {x : Except ε α} {f : α → Except ε β} {b : β} :
    x >>= f = .ok b ↔ ∃ a, x = .ok a ∧ f a = .ok b := by
  cases x with
  | error e => exact ⟨fun h => (by cases h), fun ⟨_, h, _⟩ => (by cases h)⟩
  | ok a => exact ⟨fun h => ⟨a, rfl, h⟩, fun ⟨_, h, h'⟩ => by cases h; exact h'⟩

theorem bind_eq_error {x : Except ε α} {f : α → Except ε β} {e : ε} :
    (x >>= f) = .error e ↔ x = .error e ∨ ∃ a, x = .ok a ∧ f a = .error e := by
  cases x with
  | error e' =>
    refine ⟨fun h => Or.inl (congrArg _ (Except.error.inj h)), ?_⟩
    rintro (h | ⟨a, ha, -⟩)
    · exact congrArg _ (Except.error.inj h)
    · cases ha
  | ok a =>
    refine ⟨fun h => Or.inr ⟨a, rfl, h⟩, ?_⟩
    rintro (h | ⟨a', ha, h⟩)
    · cases h
    · exact Except.ok.inj ha ▸ h

theorem mem_of_filterM {f : α → Except ε Bool} {l r : List α} (h : l.filterM f = .ok r) {a : α}
    (ha : a ∈ r) : a ∈ l ∧ f a = .ok true := by
  have haux : ∀ (l acc r : List α), List.filterAuxM f l acc = .ok r →
      ∀ a ∈ r, a ∈ l ∧ f a = .ok true ∨ a ∈ acc := by
    intro l
    induction l with
    | nil =>
      intro acc r h a ha
      cases h
      exact Or.inr ha
    | cons x l ih =>
      intro acc r h a ha
      obtain ⟨b, hb, h⟩ := bind_eq_ok.mp h
      rcases ih _ _ h a ha with hl | hacc
      · exact Or.inl ⟨List.mem_cons_of_mem _ hl.1, hl.2⟩
      · cases b with
        | true =>
          rcases List.mem_cons.mp hacc with rfl | hacc
          · exact Or.inl ⟨List.mem_cons_self, hb⟩
          · exact Or.inr hacc
        | false => exact Or.inr hacc
  obtain ⟨r', hr, h⟩ := bind_eq_ok.mp h
  cases h
  simpa using haux l [] r' hr a (List.mem_reverse.mp ha)

theorem mem_filterM_iff {f : α → Except ε Bool} {l r : List α} (h : l.filterM f = .ok r) {a : α} :
    a ∈ r ↔ a ∈ l ∧ f a = .ok true := by
  refine ⟨mem_of_filterM h, fun ha => ?_⟩
  have haux : ∀ (l acc r : List α), List.filterAuxM f l acc = .ok r →
      ∀ a, a ∈ l ∧ f a = .ok true ∨ a ∈ acc → a ∈ r := by
    intro l
    induction l with
    | nil =>
      intro acc r h a ha
      cases h
      exact ha.resolve_left fun h => by cases h.1
    | cons x l ih =>
      intro acc r h a ha
      obtain ⟨b, hb, h⟩ := bind_eq_ok.mp h
      refine ih _ _ h a ?_
      rcases ha with ⟨hmem, hpass⟩ | hacc
      · rcases List.mem_cons.mp hmem with rfl | hmem
        · rw [hb] at hpass
          cases hpass
          exact Or.inr List.mem_cons_self
        · exact Or.inl ⟨hmem, hpass⟩
      · cases b with
        | true => exact Or.inr (List.mem_cons_of_mem _ hacc)
        | false => exact Or.inr hacc
  obtain ⟨r', hr, h⟩ := bind_eq_ok.mp h
  cases h
  exact List.mem_reverse.mpr (haux l [] r' hr a (Or.inl ha))

theorem findSomeM_eq_none {f : α → Except ε (Option β)} {l : List α}
    (h : l.findSomeM? f = .ok none) : ∀ a ∈ l, f a = .ok none := by
  induction l with
  | nil => nofun
  | cons x l ih =>
    rw [List.findSomeM?_cons] at h
    obtain ⟨o, ho, h⟩ := bind_eq_ok.mp h
    cases o with
    | none =>
      intro a ha
      rcases List.mem_cons.mp ha with rfl | ha
      · exact ho
      · exact ih h a ha
    | some c => cases h

theorem exists_of_findSomeM {f : α → Except ε (Option β)} {l : List α} {b : β}
    (h : l.findSomeM? f = .ok (some b)) : ∃ a ∈ l, f a = .ok (some b) := by
  induction l with
  | nil => cases h
  | cons x l ih =>
    rw [List.findSomeM?_cons] at h
    obtain ⟨o, ho, h⟩ := bind_eq_ok.mp h
    cases o with
    | none =>
      obtain ⟨a, ha, hb⟩ := ih h
      exact ⟨a, List.mem_cons_of_mem _ ha, hb⟩
    | some c =>
      cases h
      exact ⟨x, List.mem_cons_self, ho⟩

/-- The function returns and the result passes a test. -/
def okAnd (f : α → Bool) : Except ε α → Bool
  | .ok a => f a
  | .error _ => false

theorem okAnd_iff {f : α → Bool} {x : Except ε α} :
    okAnd f x = true ↔ ∃ a, x = .ok a ∧ f a = true := by
  cases x with
  | error e => exact ⟨fun h => (by cases h), fun ⟨_, h, _⟩ => (by cases h)⟩
  | ok a => exact ⟨fun h => ⟨a, rfl, h⟩, fun ⟨_, h, h'⟩ => by cases h; exact h'⟩

/-- A fallible function ends with a failure in `E` or with a result in `Q`. -/
def Ends (E : ε → Prop) (Q : α → Prop) : Except ε α → Prop
  | .ok a => Q a
  | .error e => E e

section

variable {E E' : ε → Prop} {Q Q' : α → Prop} {R : β → Prop} {x : Except ε α} {f : α → Except ε β}

theorem Ends.bind (hx : Ends E Q x) (hf : ∀ a, Q a → Ends E R (f a)) : Ends E R (x >>= f) := by
  cases x with
  | error e => exact hx
  | ok a => exact hf a hx

theorem Ends.mono (hx : Ends E Q x) (hE : ∀ e, E e → E' e) (hQ : ∀ a, Q a → Q' a) :
    Ends E' Q' x := by
  cases x with
  | error e => exact hE e hx
  | ok a => exact hQ a hx

end

/-- The failure. -/
def failure : Except ε α → Option ε
  | .ok _ => none
  | .error e => some e

theorem failure_eq_some {x : Except ε α} {e : ε} : failure x = some e ↔ x = .error e := by
  cases x with
  | error _ =>
    exact ⟨fun h => congrArg _ (Option.some.inj h), fun h => congrArg _ (Except.error.inj h)⟩
  | ok a => exact ⟨fun h => (by cases h), fun h => (by cases h)⟩

/-- A fallible function fails in `E` only. -/
def Fails (E : ε → Prop) (x : Except ε α) : Prop := ∀ e, x = .error e → E e

section

variable {E E' : ε → Prop} {x y : Except ε α} {f : α → Except ε β}

theorem fails_ok (a : α) : Fails E (.ok a : Except ε α) := fun e h => (by cases h)

theorem fails_error {e : ε} (h : E e) : Fails E (.error e : Except ε α) :=
  fun _ h' => Except.error.inj h' ▸ h

theorem fails_bind (hx : Fails E x) (hf : ∀ a, x = .ok a → Fails E (f a)) :
    Fails E (x >>= f) := by
  cases x with
  | error e => exact fun e' h => hx e' (congrArg _ (Except.error.inj h))
  | ok a => exact hf a rfl

theorem fails_ite {c : Prop} [Decidable c] (h : c → Fails E x) (h' : ¬ c → Fails E y) :
    Fails E (if c then x else y) := by
  split_ifs with hc
  · exact h hc
  · exact h' hc

theorem Fails.mono (h : Fails E x) (hE : ∀ e, E e → E' e) : Fails E' x :=
  fun e he => hE e (h e he)

end

end Build2.Lib.Stateful
