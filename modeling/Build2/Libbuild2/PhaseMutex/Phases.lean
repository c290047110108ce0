import Build2.Libbuild2.PhaseMutex.Basic

/-! # The phases of the threads

Every thread is counted for at most one phase, and a thread that has got past its wait is counted
for the current phase. The phase changes only when nobody is counted for it any more, so that no
thread is in it and none waits for it. -/

namespace Build2.Libbuild2.PhaseMutex

open Build2.Lib.Census

/-- The phase that a thread is counted for. -/
def Place.counted : Place → Option RunPhase
  | .idle | .notifying _ none => none
  | .waiting p _ | .passed p _ | .holding p _ | .notifying p (some _) => some p
  | .leaving _ => some .load

/-- The phase that a thread is in: it does not wait for it any more. -/
def Place.inside : Place → Option RunPhase
  | .waiting _ _ => none
  | t => t.counted

/-- What `lock` or `relock` is about to return, if it is not for the load phase. -/
def Place.result : Place → Option Bool
  | .passed _ r => some r
  | .notifying _ r => r
  | _ => none

/-- What a thread counts for. -/
def share (p : RunPhase) (t : Place) : ℕ := if t.counted = some p then 1 else 0

/-- The thread is inside a load section. -/
def loads : Place → ℕ
  | .holding .load _ => 1
  | _ => 0

/-- How often something holds. -/
def flag (b : Bool) : ℕ := if b then 1 else 0

/-! ### The invariant -/

/-- What holds at every point of a run. -/
structure Inv (s : State) : Prop where
  count : ∀ p, s.mutex.count p = census (share p) s.threads
  inside : ∀ (i : ℕ) (t : Place), s.threads[i]? = some t →
    ∀ p, t.inside = some p → s.mutex.phase = p
  current : ∀ p, s.mutex.count p ≠ 0 → s.mutex.count s.mutex.phase ≠ 0
  free : (∀ p, s.mutex.count p = 0) → s.mutex.phase = .load
  load : census loads s.threads = flag s.mutex.loadLocked
  failed : s.mutex.fail = true → ∀ (i : ℕ) (t : Place), s.threads[i]? = some t →
    t.result = some true → t.inside = some .load
  notified : ∀ (i : ℕ) p, s.threads[i]? = some (.waiting p false) → s.mutex.phase = p →
    ∃ (j : ℕ) (r : Option Bool), s.threads[j]? = some (.notifying p r)

/-- A step of a thread that is right for the invariant. -/
structure Moves (m : RunPhaseMutex) (t : Place) (m' : RunPhaseMutex) (t' : Place) : Prop where
  count : ∀ p, m'.count p + share p t = m.count p + share p t'
  load : flag m'.loadLocked + loads t = flag m.loadLocked + loads t'
  fail : m'.fail = m.fail
  inside : ∀ p, t'.inside = some p → m'.phase = p
  phase : m'.phase = m.phase ∨ m.count m.phase = share m.phase t ∧ ∀ p b, t' ≠ .waiting p b
  current : ∀ p, m'.count p ≠ 0 → m'.count m'.phase ≠ 0
  free : (∀ p, m'.count p = 0) → m'.phase = .load
  result : m.fail = true → t'.result = some true → t'.inside = some .load
  waits : ∀ p, t' = .waiting p false → m'.phase ≠ p
  notifies : m'.phase ≠ m.phase → m.count m'.phase ≠ 0 → ∃ r, t' = .notifying m'.phase r

theorem share_of_counted {t : Place} {p : RunPhase} (h : t.counted = some p) (q : RunPhase) :
    share q t = if q = p then 1 else 0 := by
  unfold share
  rw [h]
  by_cases hq : q = p
  · simp [hq]
  · simp [hq, Ne.symm hq]

theorem counted_of_inside {t : Place} {p : RunPhase} (h : t.inside = some p) :
    t.counted = some p := by
  unfold Place.inside at h
  split at h
  · simp at h
  · exact h

section
variable {s : State} {i : ℕ} {t t' : Place} {m' : RunPhaseMutex}

theorem Inv.share_le (h : Inv s) (ht : s.threads[i]? = some t) (p : RunPhase) :
    share p t ≤ s.mutex.count p := by
  rw [h.count]
  exact le_census _ ht

/-- If a thread is the only one that is counted for the phase, no other one is in it or waits for
it. -/
theorem Inv.alone (h : Inv s) (ht : s.threads[i]? = some t)
    (ha : s.mutex.count s.mutex.phase = share s.mutex.phase t) {j : ℕ} {u : Place}
    (hu : s.threads[j]? = some u) (hij : i ≠ j) : u.counted ≠ some s.mutex.phase := by
  have hadd := add_le_census (share s.mutex.phase) ht hu hij
  rw [← h.count, ha] at hadd
  intro hc
  rw [share_of_counted hc, if_pos rfl] at hadd
  omega

theorem Inv.moves (h : Inv s) (ht : s.threads[i]? = some t) (hm : Moves s.mutex t m' t')
    (hq : ∀ p r, t = .notifying p r → ∀ j : ℕ, s.threads[j]? ≠ some (.waiting p false)) :
    Inv ⟨m', s.threads.set i t'⟩ := by
  have hget {j : ℕ} {u : Place} (hu : (s.threads.set i t')[j]? = some u) :
      j = i ∧ u = t' ∨ j ≠ i ∧ s.threads[j]? = some u := by
    by_cases hij : j = i
    · obtain rfl := hij
      rw [List.getElem?_set_self (List.getElem?_eq_some_iff.mp ht).1] at hu
      exact .inl ⟨rfl, (Option.some.inj hu).symm⟩
    · rw [List.getElem?_set_ne (Ne.symm hij)] at hu
      exact .inr ⟨hij, hu⟩
  refine ⟨fun p => ?_, fun j u hu p hp => ?_, hm.current, hm.free, ?_, fun hf j u hu hr => ?_,
    fun j p hu hp => ?_⟩
  · have hset := census_set (share p) ht t'
    have hc := hm.count p
    rw [h.count p] at hc
    dsimp only
    omega
  · obtain ⟨-, rfl⟩ | ⟨hij, hu⟩ := hget hu
    · exact hm.inside p hp
    · have hphase := h.inside j u hu p hp
      obtain hsame | ⟨halone, -⟩ := hm.phase
      · exact hsame.trans hphase
      · exact absurd (hphase ▸ counted_of_inside hp) (h.alone ht halone hu (Ne.symm hij))
  · have hset := census_set loads ht t'
    have hl := hm.load
    rw [← h.load] at hl
    dsimp only
    omega
  · obtain ⟨-, rfl⟩ | ⟨-, hu⟩ := hget hu
    · exact hm.result (hm.fail ▸ hf) hr
    · exact h.failed (hm.fail ▸ hf) j u hu hr
  · obtain ⟨-, hu⟩ | ⟨-, hu⟩ := hget hu
    · exact absurd hp (hm.waits p hu.symm)
    · by_cases hsame : m'.phase = s.mutex.phase
      · obtain ⟨k, r, hk⟩ := h.notified j p hu (hsame ▸ hp)
        refine ⟨k, r, ?_⟩
        have hki : i ≠ k := by
          rintro rfl
          rw [ht] at hk
          exact hq p r (Option.some.inj hk) j hu
        rwa [List.getElem?_set_ne hki]
      · have hcount := h.share_le hu m'.phase
        rw [share_of_counted (p := p) rfl, if_pos hp] at hcount
        obtain ⟨r, rfl⟩ := hm.notifies hsame (by omega)
        refine ⟨i, r, ?_⟩
        rw [List.getElem?_set_self (List.getElem?_eq_some_iff.mp ht).1, ← hp]

end

/-! ### The steps -/

section
variable {m : RunPhaseMutex} {p n : RunPhase} {t : Place}

theorem RunPhaseMutex.count_enter (m : RunPhaseMutex) (p q : RunPhase) :
    (m.enter p).count q = m.count q + if q = p then 1 else 0 := by
  by_cases h : q = p
  · simp [enter, h]
  · simp [enter, h]

theorem RunPhaseMutex.count_leave (m : RunPhaseMutex) (p q : RunPhase) :
    (m.leave p).count q = m.count q - if q = p then 1 else 0 := by
  by_cases h : q = p
  · simp [leave, h]
  · simp [leave, h]

/-- After a failure only failures are passed on. -/
theorem result_passed (hf : m.fail = true) : (Place.passed p (!m.fail)).result ≠ some true := by
  simp [Place.result, hf]

theorem lock_moves (hcur : ∀ q, m.count q ≠ 0 → m.count m.phase ≠ 0) :
    Moves m .idle (lock m p).1 (lock m p).2 := by
  have hcount : ∀ q, (m.enter p).count q + share q .idle =
      m.count q + share q (.waiting p false) := by
    intro q
    rw [m.count_enter, share_of_counted (t := .waiting p false) rfl]
    rfl
  have hpos : (m.enter p).count p ≠ 0 := by
    rw [m.count_enter, if_pos rfl]
    omega
  unfold lock
  dsimp only
  split_ifs with hu hphase
  · have hzero : ∀ q, m.count q = 0 := by
      simp only [decide_eq_true_eq] at hu
      intro q
      cases q
      · exact hu.1
      · exact hu.2.1
      · exact hu.2.2
    exact {
      count := hcount
      load := rfl
      fail := rfl
      inside := fun q hq => Option.some.inj hq
      phase := .inr ⟨hzero _, fun _ _ => by simp⟩
      current := fun _ _ => hpos
      free := fun h => absurd (h p) hpos
      result := fun hf hr => absurd hr (result_passed hf)
      waits := fun q h => by simp at h
      notifies := fun _ h => absurd (hzero _) h }
  · have hne : m.count m.phase ≠ 0 := by
      simp only [decide_eq_true_eq, not_and_or] at hu
      obtain h | h | h := hu
      · exact hcur _ h
      · exact hcur _ h
      · exact hcur _ h
    exact {
      count := hcount
      load := rfl
      fail := rfl
      inside := fun q hq => by simp [Place.inside] at hq
      phase := .inl rfl
      current := fun _ _ => by
        rw [m.count_enter]
        exact Nat.ne_of_gt (Nat.lt_of_lt_of_le (Nat.pos_of_ne_zero hne) (Nat.le_add_right _ _))
      free := fun h => absurd (h p) hpos
      result := fun hf hr => by simp [Place.result] at hr
      waits := fun q h => by
        obtain ⟨rfl, -⟩ := Place.waiting.inj h
        exact hphase
      notifies := fun h => absurd rfl h }
  · have hphase : m.phase = p := not_not.mp hphase
    exact {
      count := hcount
      load := rfl
      fail := rfl
      inside := fun q hq => hphase.trans (Option.some.inj hq)
      phase := .inl rfl
      current := fun _ _ => by
        change (m.enter p).count m.phase ≠ 0
        rwa [hphase]
      free := fun h => absurd (h p) hpos
      result := fun hf hr => absurd hr (result_passed hf)
      waits := fun q h => by simp at h
      notifies := fun h => absurd rfl h }

theorem pick_eq_some {v : RunPhase} (h : pick m = some v) : m.count v ≠ 0 := by
  unfold pick at h
  split_ifs at h with h1 h2 h3
  · exact Option.some.inj h ▸ h1
  · exact Option.some.inj h ▸ h2
  · exact Option.some.inj h ▸ h3

theorem pick_eq_none (h : pick m = none) (q : RunPhase) : m.count q = 0 := by
  unfold pick at h
  split_ifs at h with h1 h2 h3
  cases q
  · exact not_not.mp h1
  · exact not_not.mp h2
  · exact not_not.mp h3

/-- A thread that is in its phase, outside a load section. -/
structure Outside (m : RunPhaseMutex) (p : RunPhase) (t : Place) : Prop where
  phase : m.phase = p
  counted : t.counted = some p
  pos : m.count p ≠ 0
  loads : loads t = 0

theorem Outside.count_leave (h : Outside m p t) (q : RunPhase) :
    (m.leave p).count q + share q t = m.count q := by
  have hpos := h.pos
  rw [m.count_leave, share_of_counted h.counted]
  by_cases hq : q = p
  · rw [if_pos hq, hq]
    omega
  · rw [if_neg hq]
    omega

theorem Outside.alone (h : Outside m p t) (hz : (m.leave p).count p = 0) :
    m.count m.phase = share m.phase t := by
  have hc := h.count_leave p
  rw [h.phase, ← hc, hz, Nat.zero_add]

theorem unlock_moves (h : Outside m p t) : Moves m t (unlock m p).1 (unlock m p).2 := by
  have hcount : ∀ q, (m.leave p).count q + share q t = m.count q + 0 := h.count_leave
  have hload : flag m.loadLocked + loads t = flag m.loadLocked + 0 := by rw [h.loads]
  unfold unlock
  dsimp only
  split_ifs with hz
  · cases hpick : pick (m.leave p) with
    | some v =>
      exact {
        count := hcount
        load := hload
        fail := rfl
        inside := fun q hq => by simp [Place.inside, Place.counted] at hq
        phase := .inr ⟨h.alone hz, fun _ _ => by simp⟩
        current := fun _ _ => pick_eq_some hpick
        free := fun h => absurd (h v) (pick_eq_some hpick)
        result := fun hf hr => by simp [Place.result] at hr
        waits := fun q h => by simp at h
        notifies := fun _ _ => ⟨none, rfl⟩ }
    | none =>
      have hnone := pick_eq_none hpick
      refine {
        count := hcount
        load := hload
        fail := rfl
        inside := fun q hq => by simp [Place.inside, Place.counted] at hq
        phase := .inr ⟨h.alone hz, fun _ _ => by simp⟩
        current := fun q hq => absurd (hnone q) hq
        free := fun _ => rfl
        result := fun hf hr => by simp [Place.result] at hr
        waits := fun q h => by simp at h
        notifies := fun hne hc => ?_ }
      -- nobody else is counted for the load phase
      have hl := hnone .load
      rw [m.count_leave, if_neg (fun hp => hne (hp.trans h.phase.symm)), Nat.sub_zero] at hl
      exact absurd hl hc
  · exact {
      count := hcount
      load := hload
      fail := rfl
      inside := fun q hq => by simp [Place.inside, Place.counted] at hq
      phase := .inl rfl
      current := fun _ _ => by
        change (m.leave p).count m.phase ≠ 0
        rwa [h.phase]
      free := fun hfree => absurd (hfree p) hz
      result := fun hf hr => by simp [Place.result] at hr
      waits := fun q h => by simp at h
      notifies := fun h => absurd rfl h }

theorem relock_moves (h : Outside m p t) (hne : p ≠ n) :
    Moves m t (relock m p n).1 (relock m p n).2 := by
  have hcount (q : RunPhase) : ((m.leave p).enter n).count q + share q t =
      m.count q + share q (.waiting n false) := by
    have hc := h.count_leave q
    rw [RunPhaseMutex.count_enter, share_of_counted (t := .waiting n false) rfl]
    omega
  have hpos : ((m.leave p).enter n).count n ≠ 0 := by
    rw [RunPhaseMutex.count_enter, if_pos rfl]
    omega
  have hload : flag m.loadLocked + loads t = flag m.loadLocked + 0 := by rw [h.loads]
  unfold relock
  dsimp only
  split_ifs with hu hv
  · exact {
      count := hcount
      load := hload
      fail := rfl
      inside := fun q hq => Option.some.inj hq
      phase := .inr ⟨h.alone (by simpa using hu), fun _ _ => by simp⟩
      current := fun _ _ => hpos
      free := fun hfree => absurd (hfree n) hpos
      result := fun hf hr => absurd hr (result_passed (p := n) hf)
      waits := fun q h => by simp at h
      notifies := fun _ _ => ⟨_, rfl⟩ }
  · have hn : m.count n = 0 := by
      simp only [hu, decide_eq_true_eq, not_or, not_not] at hv
      have hv := hv.1
      rwa [m.count_leave, if_neg hne.symm, Nat.sub_zero] at hv
    exact {
      count := hcount
      load := hload
      fail := rfl
      inside := fun q hq => Option.some.inj hq
      phase := .inr ⟨h.alone (by simpa using hu), fun _ _ => by simp⟩
      current := fun _ _ => hpos
      free := fun hfree => absurd (hfree n) hpos
      result := fun hf hr => absurd hr (result_passed hf)
      waits := fun q h => by simp at h
      notifies := fun _ h => absurd hn h }
  · exact {
      count := hcount
      load := hload
      fail := rfl
      inside := fun q hq => by simp [Place.inside] at hq
      phase := .inl rfl
      current := fun _ _ => by
        change ((m.leave p).enter n).count m.phase ≠ 0
        rw [h.phase, RunPhaseMutex.count_enter, if_neg hne]
        simpa using hu
      free := fun hfree => absurd (hfree n) hpos
      result := fun hf hr => by simp [Place.result] at hr
      waits := fun q hq => by
        obtain ⟨rfl, -⟩ := Place.waiting.inj hq
        exact fun hp => hne (h.phase.symm.trans hp)
      notifies := fun h => absurd rfl h }

theorem same_moves {u : Place} {b : Bool} (h : ∀ q, m.count q ≠ 0 → m.count m.phase ≠ 0)
    (hfree : (∀ q, m.count q = 0) → m.phase = .load) (hcounted : u.counted = t.counted)
    (hload : flag b + loads t = flag m.loadLocked + loads u)
    (hin : ∀ q, u.inside = some q → m.phase = q)
    (hres : m.fail = true → u.result = some true → u.inside = some .load)
    (hwait : ∀ q, u = .waiting q false → m.phase ≠ q) :
    Moves m t { m with loadLocked := b } u where
  count q := by
    unfold share
    rw [hcounted]
  load := hload
  fail := rfl
  inside := hin
  phase := .inl rfl
  current := h
  free := hfree
  result := hres
  waits := hwait
  notifies h := absurd rfl h

end

section
variable {s : State} {i : ℕ} {t t' : Place} {m' : RunPhaseMutex}

theorem Inv.outside (h : Inv s) (ht : s.threads[i]? = some t) {p : RunPhase}
    (hp : t.inside = some p) (hl : loads t = 0) : Outside s.mutex p t := by
  have hc := counted_of_inside hp
  have hle := h.share_le ht p
  rw [share_of_counted hc, if_pos rfl] at hle
  exact ⟨h.inside i t ht p hp, hc, by omega, hl⟩

theorem loads_holding {p : RunPhase} (hp : p ≠ .load) (r : Bool) : loads (.holding p r) = 0 := by
  cases p
  · exact absurd rfl hp
  · rfl
  · rfl

theorem Inv.loadLocked (h : Inv s) {r : Bool} (ht : s.threads[i]? = some (.holding .load r)) :
    s.mutex.loadLocked = true := by
  have hle := le_census loads ht
  rw [h.load] at hle
  by_contra hb
  rw [Bool.not_eq_true] at hb
  rw [hb] at hle
  simp [loads, flag] at hle

theorem Inv.moves_region (h : Inv s) (ht : s.threads[i]? = some t) {a : Step}
    (ha : a ≠ .notify) (hf : a ≠ .fail) (hr : region s.mutex a t = some (m', t')) :
    Moves s.mutex t m' t' ∧ ∀ p r, t ≠ .notifying p r := by
  have hsame {u : Place} {b : Bool} := same_moves (t := t) (u := u) (b := b) h.current h.free
  cases a with
  | notify => exact absurd rfl ha
  | fail => exact absurd rfl hf
  | lock p =>
    cases t with
    | idle =>
      obtain ⟨rfl, rfl⟩ := Prod.mk.inj (Option.some.inj hr)
      exact ⟨lock_moves h.current, fun _ _ => by simp⟩
    | _ => simp [region] at hr
  | wake =>
    cases t with
    | waiting p b =>
      obtain ⟨rfl, rfl⟩ := Prod.mk.inj (Option.some.inj hr)
      refine ⟨?_, fun _ _ => by simp⟩
      unfold wake
      split_ifs with hp
      · exact hsame rfl rfl (fun q hq => by simp [Place.inside] at hq)
          (fun _ hr => by simp [Place.result] at hr) fun q hq => (Place.waiting.inj hq).1 ▸ hp
      · exact hsame rfl rfl (fun q hq => (not_not.mp hp).trans (Option.some.inj hq))
          (fun hf hr => absurd hr (result_passed hf)) fun q hq => by simp at hq
    | _ => simp [region] at hr
  | proceed =>
    cases t with
    | passed p r =>
      have hphase := h.inside i _ ht p rfl
      simp only [region] at hr
      refine ⟨?_, fun _ _ => by simp⟩
      split_ifs at hr with hp hl
      · obtain ⟨rfl, rfl⟩ := Prod.mk.inj (Option.some.inj hr)
        subst hp
        refine hsame rfl ?_ (fun q hq => hphase.trans (Option.some.inj hq))
          (fun _ hr => by simp [Place.result] at hr) fun q hq => by simp at hq
        rw [Bool.eq_false_iff.mpr hl]
        rfl
      · obtain ⟨rfl, rfl⟩ := Prod.mk.inj (Option.some.inj hr)
        refine hsame rfl ?_ (fun q hq => hphase.trans (Option.some.inj hq))
          (fun _ hr => by simp [Place.result] at hr) fun q hq => by simp at hq
        rw [loads_holding hp]
        rfl
    | _ => simp [region] at hr
  | unlock =>
    cases t with
    | holding p r =>
      have hphase := h.inside i _ ht p rfl
      simp only [region] at hr
      refine ⟨?_, fun _ _ => by simp⟩
      split_ifs at hr with hp
      · obtain ⟨rfl, rfl⟩ := Prod.mk.inj (Option.some.inj hr)
        subst hp
        refine hsame rfl ?_ (fun q hq => hphase.trans (Option.some.inj hq))
          (fun _ hr => by simp [Place.result] at hr) fun q hq => by simp at hq
        rw [h.loadLocked ht]
        rfl
      · obtain ⟨rfl, rfl⟩ := Prod.mk.inj (Option.some.inj hr)
        exact unlock_moves (h.outside ht rfl (loads_holding hp r))
    | _ => simp [region] at hr
  | relock n =>
    cases t with
    | holding p r =>
      have hphase := h.inside i _ ht p rfl
      simp only [region] at hr
      refine ⟨?_, fun _ _ => by simp⟩
      split_ifs at hr with hn hp
      · obtain ⟨rfl, rfl⟩ := Prod.mk.inj (Option.some.inj hr)
        subst hp
        refine hsame rfl ?_ (fun q hq => hphase.trans (Option.some.inj hq))
          (fun _ hr => by simp [Place.result] at hr) fun q hq => by simp at hq
        rw [h.loadLocked ht]
        rfl
      · obtain ⟨rfl, rfl⟩ := Prod.mk.inj (Option.some.inj hr)
        exact relock_moves (h.outside ht rfl (loads_holding hp r)) hn
    | _ => simp [region] at hr
  | leave =>
    cases t with
    | leaving n =>
      have hout := h.outside ht rfl rfl
      refine ⟨?_, fun _ _ => by simp⟩
      cases n with
      | none =>
        obtain ⟨rfl, rfl⟩ := Prod.mk.inj (Option.some.inj hr)
        exact unlock_moves hout
      | some n =>
        simp only [region] at hr
        split_ifs at hr with hn
        obtain ⟨rfl, rfl⟩ := Prod.mk.inj (Option.some.inj hr)
        exact relock_moves hout (Ne.symm hn)
    | _ => simp [region] at hr

end

/-! ### Notifications -/

section
variable {p : RunPhase} {u : Place}

@[simp] theorem counted_notified (p : RunPhase) (u : Place) :
    (u.notified p).counted = u.counted := by
  cases u <;> rfl

@[simp] theorem inside_notified (p : RunPhase) (u : Place) : (u.notified p).inside = u.inside := by
  cases u <;> rfl

@[simp] theorem result_notified (p : RunPhase) (u : Place) : (u.notified p).result = u.result := by
  cases u <;> rfl

@[simp] theorem loads_notified (p : RunPhase) (u : Place) : loads (u.notified p) = loads u := by
  cases u <;> rfl

theorem notified_eq_waiting {q : RunPhase} (h : u.notified p = .waiting q false) :
    u = .waiting q false ∧ q ≠ p := by
  cases u with
  | waiting q' b =>
    simp only [Place.notified, Place.waiting.injEq, Bool.or_eq_false_iff,
      decide_eq_false_iff_not] at h
    obtain ⟨rfl, hne, rfl⟩ := h
    exact ⟨rfl, hne⟩
  | _ => simp [Place.notified] at h

theorem Inv.map_notified {s : State} (h : Inv s) (p : RunPhase) :
    Inv ⟨s.mutex, s.threads.map (Place.notified p)⟩ := by
  have hget {j : ℕ} {u : Place} (hu : (s.threads.map (Place.notified p))[j]? = some u) :
      ∃ v, s.threads[j]? = some v ∧ v.notified p = u := by
    rwa [List.getElem?_map, Option.map_eq_some_iff] at hu
  refine ⟨fun q => ?_, fun j u hu q hq => ?_, h.current, h.free, ?_, fun hf j u hu hr => ?_,
    fun j q hu hq => ?_⟩
  · rw [h.count, census_map]
    exact census_congr fun u _ => by simp [share]
  · obtain ⟨v, hv, rfl⟩ := hget hu
    exact h.inside j v hv q (by simpa using hq)
  · rw [← h.load, census_map]
    exact census_congr fun u _ => by simp
  · obtain ⟨v, hv, rfl⟩ := hget hu
    rw [inside_notified]
    exact h.failed hf j v hv (by simpa using hr)
  · obtain ⟨v, hv, heq⟩ := hget hu
    obtain ⟨rfl, -⟩ := notified_eq_waiting heq
    obtain ⟨k, r, hk⟩ := h.notified j q hv hq
    exact ⟨k, r, by simp [hk, Place.notified]⟩

end

section
variable {s : State} {i : ℕ} {t : Place}

theorem Inv.notify (h : Inv s) {p : RunPhase} {r : Option Bool}
    (ht : s.threads[i]? = some (.notifying p r)) {t' : Place} (hcounted : t'.counted =
      (Place.notifying p r).counted) (hin : t'.inside = (Place.notifying p r).inside)
    (hres : t'.result = (Place.notifying p r).result) (hl : loads t' = 0)
    (hw : ∀ q b, t' ≠ .waiting q b) :
    Inv ⟨s.mutex, (s.threads.map (Place.notified p)).set i t'⟩ := by
  have ht' : (s.threads.map (Place.notified p))[i]? = some (.notifying p r) := by
    simp [ht, Place.notified]
  refine (h.map_notified p).moves ht' ?_ fun q r' hq j hj => ?_
  · refine same_moves h.current h.free hcounted ?_ (fun q hq => ?_) (fun hf hr => ?_)
      fun q hq => absurd hq (hw q false)
    · rw [hl]
      rfl
    · exact h.inside i _ ht q (hin ▸ hq)
    · rw [hin]
      exact h.failed hf i _ ht (hres ▸ hr)
  · obtain ⟨rfl, -⟩ := Place.notifying.inj hq
    rw [List.getElem?_map, Option.map_eq_some_iff] at hj
    obtain ⟨v, -, hv⟩ := hj
    exact absurd rfl (notified_eq_waiting hv).2

/-- The load section of a thread fails, while no other thread is past the wait for another phase. -/
theorem Inv.fail (h : Inv s) {r : Bool} (ht : s.threads[i]? = some (.holding .load r)) :
    Inv ⟨{ s.mutex with fail := true }, s.threads⟩ := by
  refine ⟨h.count, h.inside, h.current, h.free, h.load, fun _ j u hu hr => ?_, h.notified⟩
  have hphase := h.inside i _ ht .load rfl
  cases u with
  | passed p r' => rw [← h.inside j _ hu p rfl, hphase]; rfl
  | notifying p r' =>
    obtain rfl : r' = some true := hr
    rw [← h.inside j _ hu p rfl, hphase]
    rfl
  | _ => simp [Place.result] at hr

theorem set_self {l : List Place} (ht : l[i]? = some t) : l.set i t = l := by
  refine List.ext_getElem? fun j => ?_
  by_cases hij : i = j
  · obtain rfl := hij
    rw [List.getElem?_set_self (List.getElem?_eq_some_iff.mp ht).1, ht]
  · rw [List.getElem?_set_ne hij]

theorem others_eq_id {a : Step} (ha : a ≠ .notify) : others t a = id := by
  unfold others
  split
  · exact absurd rfl ha
  · rfl

theorem others_eq_holding {a : Step} {u : Place} {p : RunPhase} {r : Bool}
    (h : others t a u = .holding p r) : u = .holding p r := by
  unfold others at h
  split at h
  · cases u with
    | holding p' r' => exact h
    | _ => simp [Place.notified] at h
  · exact h

/-- **A step** keeps the invariant. -/
theorem inv_step (h : Inv s) (i : ℕ) (a : Step) : Inv (step s i a) := by
  unfold step
  cases ht : s.threads[i]? with
  | none => exact h
  | some t =>
    dsimp only
    cases hr : region s.mutex a t with
    | none => exact h
    | some r =>
      obtain ⟨m', t'⟩ := r
      dsimp only
      by_cases hn : a = .notify
      · subst hn
        cases t with
        | notifying p r =>
          cases r with
          | none =>
            obtain ⟨rfl, rfl⟩ := Prod.mk.inj (Option.some.inj hr)
            exact h.notify ht rfl rfl rfl rfl (by simp)
          | some r =>
            obtain ⟨rfl, rfl⟩ := Prod.mk.inj (Option.some.inj hr)
            exact h.notify ht rfl rfl rfl rfl (by simp)
        | _ => simp [region] at hr
      by_cases hf : a = .fail
      · subst hf
        cases t with
        | holding p r =>
          cases p with
          | load =>
            obtain ⟨rfl, rfl⟩ := Prod.mk.inj (Option.some.inj hr)
            rw [show others (.holding .load r) .fail = id from rfl, List.map_id, set_self ht]
            exact h.fail ht
          | _ => simp [region] at hr
        | _ => simp [region] at hr
      rw [others_eq_id hn, List.map_id]
      obtain ⟨hm, hq⟩ := h.moves_region ht hn hf hr
      exact h.moves ht hm fun p r hpr => absurd hpr (hq p r)

end

theorem inv_init (n : ℕ) : Inv { threads := List.replicate n .idle } := by
  have hget {j : ℕ} {u : Place} (hu : (List.replicate n Place.idle)[j]? = some u) : u = .idle :=
    List.eq_of_mem_replicate (List.mem_of_getElem? hu)
  refine ⟨fun p => ?_, fun j u hu p hp => ?_, fun p hp => absurd rfl hp, fun _ => rfl, ?_,
    fun hf => by simp at hf, fun j p hu => ?_⟩
  · rw [census_replicate]
    simp [share, Place.counted]
  · rw [hget hu] at hp
    simp [Place.inside, Place.counted] at hp
  · rw [census_replicate]
    simp [loads, flag]
  · exact absurd (hget hu) (by simp)

theorem inv_foldl (steps : List (ℕ × Step)) :
    ∀ s, Inv s → Inv (steps.foldl (fun s a => step s a.1 a.2) s) := by
  induction steps with
  | nil => exact fun _ h => h
  | cons a steps ih => exact fun s h => ih _ (inv_step h a.1 a.2)

theorem inv_run (n : ℕ) (steps : List (ℕ × Step)) : Inv (run n steps) :=
  inv_foldl steps _ (inv_init n)

/-! ### The phases -/

/-- What the mutex promises at any time. -/
structure Safe (s : State) : Prop where
  /-- All threads hold it for the current phase. -/
  same : ∀ (i : ℕ) (p : RunPhase) (r : Bool),
    s.threads[i]? = some (.holding p r) → s.mutex.phase = p
  /-- One thread at a time is inside a load section. -/
  exclusive : ∀ (i j : ℕ) (r r' : Bool), s.threads[i]? = some (.holding .load r) →
    s.threads[j]? = some (.holding .load r') → i = j
  /-- The counters are those of the threads. -/
  count : ∀ p, s.mutex.count p = census (share p) s.threads
  /-- No thread is counted while the current phase is free. -/
  current : ∀ p, s.mutex.count p ≠ 0 → s.mutex.count s.mutex.phase ≠ 0
  /-- Nobody waits for the current phase without having been notified or being about to be. -/
  notified : ∀ (i : ℕ) p, s.threads[i]? = some (.waiting p false) → s.mutex.phase = p →
    ∃ (j : ℕ) (r : Option Bool), s.threads[j]? = some (.notifying p r)

/-- What the mutex promises of a step. -/
structure SafeStep (s s' : State) : Prop where
  /-- A phase is not left while a thread waits for it. -/
  stays : s'.mutex.phase ≠ s.mutex.phase →
    ∀ (j : ℕ) (b : Bool), s'.threads[j]? ≠ some (.waiting s.mutex.phase b)
  /-- A failure is for good. -/
  fails : s.mutex.fail = true → s'.mutex.fail = true
  /-- After a failure every acquisition fails. -/
  failed : s.mutex.fail = true → ∀ (j : ℕ) (p : RunPhase) (r : Bool),
    s'.threads[j]? = some (.holding p r) → s.threads[j]? = some (.holding p r) ∨ r = false

section
variable {s : State}

theorem Inv.safe (h : Inv s) : Safe s where
  same i p r ht := h.inside i _ ht p rfl
  exclusive i j r r' hi hj := by
    by_contra hij
    have hadd := add_le_census loads hi hj hij
    rw [h.load] at hadd
    unfold flag at hadd
    split_ifs at hadd <;> simp [loads] at hadd
  count := h.count
  current := h.current
  notified := h.notified

theorem lock_ne_holding (m : RunPhaseMutex) (p q : RunPhase) (r : Bool) :
    (lock m p).2 ≠ .holding q r := by
  unfold lock
  dsimp only
  split_ifs <;> simp

theorem wake_ne_holding (m : RunPhaseMutex) (p q : RunPhase) (r : Bool) :
    wake m p ≠ .holding q r := by
  unfold wake
  split_ifs <;> simp

theorem unlock_ne_holding (m : RunPhaseMutex) (p q : RunPhase) (r : Bool) :
    (unlock m p).2 ≠ .holding q r := by
  unfold unlock
  dsimp only
  split_ifs
  · split <;> simp
  · simp

theorem relock_ne_holding (m : RunPhaseMutex) (o n q : RunPhase) (r : Bool) :
    (relock m o n).2 ≠ .holding q r := by
  unfold relock
  dsimp only
  split_ifs <;> simp

/-- How a thread gets to hold the mutex. -/
theorem region_holding {m m' : RunPhaseMutex} {a : Step} {t : Place} {p : RunPhase} {r : Bool}
    (hr : region m a t = some (m', .holding p r)) :
    a = .fail ∨ r = !m.fail ∨ t = .passed p r ∧ p ≠ .load := by
  unfold region at hr
  split at hr
  · exact absurd (congrArg Prod.snd (Option.some.inj hr)) (lock_ne_holding _ _ _ _)
  · exact absurd (congrArg Prod.snd (Option.some.inj hr)) (wake_ne_holding _ _ _ _)
  · split_ifs at hr with hp hl
    · obtain ⟨-, heq⟩ := Prod.mk.inj (Option.some.inj hr)
      exact .inr (.inl (Place.holding.inj heq).2.symm)
    · obtain ⟨-, heq⟩ := Prod.mk.inj (Option.some.inj hr)
      obtain ⟨rfl, rfl⟩ := Place.holding.inj heq
      exact .inr (.inr ⟨rfl, hp⟩)
  · split_ifs at hr
    · simp at hr
    · exact absurd (congrArg Prod.snd (Option.some.inj hr)) (unlock_ne_holding _ _ _ _)
  · split_ifs at hr
    · simp at hr
    · exact absurd (congrArg Prod.snd (Option.some.inj hr)) (relock_ne_holding _ _ _ _ _)
  · exact absurd (congrArg Prod.snd (Option.some.inj hr)) (unlock_ne_holding _ _ _ _)
  · split_ifs at hr
    exact absurd (congrArg Prod.snd (Option.some.inj hr)) (relock_ne_holding _ _ _ _ _)
  · simp at hr
  · simp at hr
  · exact .inl rfl
  · simp at hr

theorem Inv.result_region (h : Inv s) (hfail : s.mutex.fail = true) {i : ℕ} {t : Place}
    (ht : s.threads[i]? = some t) {a : Step} (ha : a ≠ .fail) {m' : RunPhaseMutex} {p : RunPhase}
    {r : Bool} (hr : region s.mutex a t = some (m', .holding p r)) : r = false := by
  obtain hf | rfl | ⟨rfl, hp⟩ := region_holding hr
  · exact absurd hf ha
  · rw [hfail]
    rfl
  · by_contra hb
    rw [Bool.not_eq_false] at hb
    subst hb
    exact hp (Option.some.inj (h.failed hfail i _ ht rfl))

theorem Inv.stays (h : Inv s) {i : ℕ} {t t' : Place} {m' : RunPhaseMutex}
    (ht : s.threads[i]? = some t) (hm : Moves s.mutex t m' t') (hne : m'.phase ≠ s.mutex.phase)
    (j : ℕ) (b : Bool) : (s.threads.set i t')[j]? ≠ some (.waiting s.mutex.phase b) := by
  obtain hsame | ⟨halone, hwait⟩ := hm.phase
  · exact absurd hsame hne
  · intro hj
    by_cases hij : i = j
    · obtain rfl := hij
      rw [List.getElem?_set_self (List.getElem?_eq_some_iff.mp ht).1] at hj
      exact hwait _ b (Option.some.inj hj)
    · rw [List.getElem?_set_ne hij] at hj
      exact h.alone ht halone hj hij rfl

theorem Inv.safeStep (h : Inv s) (i : ℕ) (a : Step) : SafeStep s (step s i a) := by
  unfold step
  cases ht : s.threads[i]? with
  | none => exact ⟨fun hne => absurd rfl hne, id, fun _ j p r hj => .inl hj⟩
  | some t =>
    dsimp only
    cases hr : region s.mutex a t with
    | none => exact ⟨fun hne => absurd rfl hne, id, fun _ j p r hj => .inl hj⟩
    | some r =>
      obtain ⟨m', t'⟩ := r
      dsimp only
      by_cases hf : a = .fail
      · subst hf
        cases t with
        | holding p r =>
          cases p with
          | load =>
            obtain ⟨rfl, rfl⟩ := Prod.mk.inj (Option.some.inj hr)
            rw [show others (.holding .load r) .fail = id from rfl, List.map_id, set_self ht]
            exact ⟨fun hne => absurd rfl hne, fun _ => rfl, fun _ j p r hj => .inl hj⟩
          | _ => simp [region] at hr
        | _ => simp [region] at hr
      have hfailed : s.mutex.fail = true → ∀ (j : ℕ) (p : RunPhase) (r : Bool),
          ((s.threads.map (others t a)).set i t')[j]? = some (.holding p r) →
            s.threads[j]? = some (.holding p r) ∨ r = false := by
        intro hfail j p r hj
        by_cases hij : i = j
        · obtain rfl := hij
          have hlen := (List.getElem?_eq_some_iff.mp ht).1
          rw [List.getElem?_set_self (by simpa using hlen)] at hj
          obtain rfl := Option.some.inj hj
          exact .inr (h.result_region hfail ht hf hr)
        · rw [List.getElem?_set_ne hij, List.getElem?_map, Option.map_eq_some_iff] at hj
          obtain ⟨u, hu, huj⟩ := hj
          refine .inl (hu.trans (congrArg some ?_))
          exact others_eq_holding huj
      by_cases hn : a = .notify
      · subst hn
        cases t with
        | notifying p r =>
          have hmutex : m' = s.mutex := by
            cases r <;> exact (congrArg Prod.fst (Option.some.inj hr)).symm
          subst hmutex
          exact ⟨fun hne => absurd rfl hne, id, hfailed⟩
        | _ => simp [region] at hr
      · obtain ⟨hm, -⟩ := h.moves_region ht hn hf hr
        refine ⟨fun hne => ?_, fun hfail => hm.fail.trans hfail, hfailed⟩
        rw [others_eq_id hn, List.map_id]
        exact h.stays ht hm hne

end

/-- **The phases.** Any number of threads and any interleaving of their steps. -/
theorem phases (n : ℕ) (steps : List (ℕ × Step)) (i : ℕ) (a : Step) :
    Safe (run n steps) ∧ SafeStep (run n steps) (step (run n steps) i a) :=
  ⟨(inv_run n steps).safe, (inv_run n steps).safeStep i a⟩

end Build2.Libbuild2.PhaseMutex
