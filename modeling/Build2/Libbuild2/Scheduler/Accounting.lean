import Build2.Libbuild2.Scheduler.Basic

/-! # The accounting of the threads

Every thread counts for something in the counters by its place, and a thread that creates a helper
also counts for this. A step changes the counters by what the thread counts for after it and does
not any more, which is all that is needed for the counters to stay right. -/

namespace Build2.Libbuild2.Scheduler

open Build2.Lib.Census

/-- The names of the counters. -/
inductive Count
  | helpers
  | active
  | idle
  | waiting
  | ready
  | starting
  | external

/-- A counter by its name. -/
def Counters.of (c : Counters) : Count → ℕ
  | .helpers => c.helpers
  | .active => c.active
  | .idle => c.idle
  | .waiting => c.waiting
  | .ready => c.ready
  | .starting => c.starting
  | .external => c.external

/-- What a thread counts for in a counter. -/
def share (t : Thread) : Count → ℕ
  | .helpers =>
    (if t.helper = true ∧ t.place ≠ .exited then 1 else 0) +
      match t.place with
      | .creating _ => 1
      | _ => 0
  | .active =>
    match t.place with
    | .active | .creating none => 1
    | _ => 0
  | .idle =>
    match t.place with
    | .idle => 1
    | _ => 0
  | .waiting =>
    match t.place with
    | .waiting _ | .creating (some _) => 1
    | _ => 0
  | .ready =>
    match t.place with
    | .ready => 1
    | _ => 0
  | .starting =>
    match t.place with
    | .starting | .creating _ => 1
    | _ => 0
  | .external =>
    match t.place with
    | .waiting true | .creating (some true) => 1
    | _ => 0

/-- The counters are what the threads count for. -/
def Counted (c : Counters) (l : List Thread) : Prop :=
  ∀ n, c.of n = census (fun t => share t n) l

/-- The counters change by what a thread counts for instead of what it has counted for. -/
def Moves (c : Counters) (v : Count → ℕ) (c' : Counters) (v' : Count → ℕ) : Prop :=
  ∀ n, c'.of n + v n = c.of n + v' n

theorem Counted.set {c c' : Counters} {l : List Thread} {i : ℕ} {t t' : Thread}
    (h : Counted c l) (ht : l[i]? = some t) (hm : Moves c (share t) c' (share t')) :
    Counted c' (l.set i t') := by
  intro n
  have hset := census_set (fun t => share t n) ht t'
  have hc := h n
  have hm := hm n
  omega

/-- There is what the thread counts for. -/
def Covers (c : Counters) (v : Count → ℕ) : Prop := ∀ n, v n ≤ c.of n

theorem Counted.covers {c : Counters} {l : List Thread} {i : ℕ} {t : Thread} (h : Counted c l)
    (ht : l[i]? = some t) : Covers c (share t) := fun n => h n ▸ le_census (fun t => share t n) ht

/-! ### Steps -/

/-- Until shutdown there are no more active threads than there may be. -/
def Bounded (cfg : Config) (c : Counters) : Prop := c.shutdown = false → c.active ≤ cfg.maxActive

/-- Only helpers start, wait for tasks and exit. -/
def Proper (t : Thread) : Prop :=
  t.place = .starting ∨ t.place = .idle ∨ t.place = .exited → t.helper = true

/-- What a step comes to of a thread that has counted for `v`: no counter becomes negative, and the
counters change with the place of the thread. -/
def Accounts (cfg : Config) (c : Counters) (v : Count → ℕ) (h : Bool)
    (r : Except Stop (Counters × Place)) : Prop :=
  ∃ c' p, r = .ok (c', p) ∧ Moves c v c' (share ⟨h, p⟩) ∧ Proper ⟨h, p⟩ ∧
    (Bounded cfg c → Bounded cfg c')

variable {cfg : Config} {c d : Counters} {h : Bool} {v v' : Count → ℕ}
  {r : Except Stop (Counters × Place)}

theorem Moves.accounts (hm : Moves c v d v') (hb : Bounded cfg c → Bounded cfg d)
    (hr : Accounts cfg d v' h r) : Accounts cfg c v h r := by
  obtain ⟨c', p, hrp, hm', hp, hb'⟩ := hr
  refine ⟨c', p, hrp, fun n => ?_, hp, fun h => hb' (hb h)⟩
  have h1 := hm n
  have h2 := hm' n
  omega

theorem Moves.covers (hm : Moves c v d v') (hc : Covers c v) : Covers d v' := fun n => by
  have h1 := hm n
  have h2 := hc n
  omega

theorem dec_of_pos {n : ℕ} (h : 1 ≤ n) : dec n = .ok (n - 1) := by
  cases n with
  | zero => omega
  | succ n => rfl

theorem activateHelper_cases (cfg : Config) (c : Counters) (q : Bool) :
    activateHelper cfg c q = (c, .none) ∨ activateHelper cfg c q = (c, .notified) ∨
      activateHelper cfg c q = (createHelper c, .creating) := by
  unfold activateHelper
  split_ifs <;> simp

theorem deactivate_accounts {e q q' : Bool} (hc : Covers c (share ⟨h, .active⟩)) :
    Accounts cfg c (share ⟨h, .active⟩) h (deactivate cfg c e q q') := by
  have ha : 1 ≤ c.active := hc .active
  set d : Counters := { c with
    active := c.active - 1
    waiting := c.waiting + 1
    external := if e then c.external + 1 else c.external } with hd
  have hb : Bounded cfg c → Bounded cfg d := fun hb hs =>
    Nat.le_trans (Nat.sub_le _ _) (hb hs)
  have hwait : Moves c (share ⟨h, .active⟩) d (share ⟨h, .waiting e⟩) := by
    intro n
    cases n <;> cases e <;> simp [hd, Counters.of, share] <;> omega
  have hcreate : Moves c (share ⟨h, .active⟩) (createHelper d) (share ⟨h, .creating (some e)⟩) := by
    intro n
    cases n <;> cases e <;> simp [hd, createHelper, Counters.of, share] <;> omega
  have hret : Accounts cfg c (share ⟨h, .active⟩) h (.ok (d, .waiting e)) :=
    ⟨d, _, rfl, hwait, by simp [Proper], hb⟩
  simp only [deactivate, dec_of_pos ha, bind, Except.bind, pure, Except.pure, ← hd]
  split_ifs
  · exact hret
  · rcases activateHelper_cases cfg d q' with hh | hh | hh <;> rw [hh]
    · exact hret
    · exact hret
    · exact ⟨_, _, rfl, hcreate, by simp [Proper], hb⟩
  · exact hret

theorem async_accounts {q : Bool} :
    Accounts cfg c (share ⟨h, .active⟩) h (.ok (async cfg c q)) := by
  have hret : Accounts cfg c (share ⟨h, .active⟩) h (.ok (c, .active)) :=
    ⟨c, _, rfl, fun _ => rfl, by simp [Proper], id⟩
  have hcreate : Moves c (share ⟨h, .active⟩) (createHelper c) (share ⟨h, .creating none⟩) := by
    intro n
    cases n <;> simp [createHelper, Counters.of, share]
    omega
  unfold async
  split_ifs
  · rcases activateHelper_cases cfg c q with hh | hh | hh <;> rw [hh]
    · exact hret
    · exact hret
    · exact ⟨_, _, rfl, hcreate, by simp [Proper], id⟩
  · exact hret

theorem becomeActive_accounts (hc : Covers c (share ⟨h, .ready⟩)) :
    Accounts cfg c (share ⟨h, .ready⟩) h (becomeActive cfg c) := by
  have hr : 1 ≤ c.ready := hc .ready
  unfold becomeActive
  split_ifs with hw
  · exact ⟨c, _, rfl, fun _ => rfl, by simp [Proper], id⟩
  · simp only [dec_of_pos hr, bind, Except.bind]
    refine ⟨_, _, rfl, fun n => ?_, by simp [Proper], fun _ hs => ?_⟩
    · cases n <;> simp [Counters.of, share]
      omega
    · -- the condition of the wait
      simp only [Bool.and_eq_true, Bool.not_eq_true', decide_eq_true_eq, not_and] at hw
      exact Nat.lt_of_not_le (hw hs)

theorem activate_accounts {e : Bool} (hc : Covers c (share ⟨h, .waiting e⟩)) :
    Accounts cfg c (share ⟨h, .waiting e⟩) h (activate cfg c e) := by
  have hw : 1 ≤ c.waiting := hc .waiting
  set d : Counters := { c with
    external := if e then c.external - 1 else c.external
    waiting := c.waiting - 1
    ready := c.ready + 1 } with hd
  have hm : Moves c (share ⟨h, .waiting e⟩) d (share ⟨h, .ready⟩) := by
    intro n
    have he := hc .external
    cases n <;> cases e <;> simp [hd, Counters.of, share] at he ⊢ <;> omega
  have hact : activate cfg c e = becomeActive cfg d := by
    have he := hc .external
    cases e
    · simp [activate, dec_of_pos hw, bind, Except.bind, hd]
    · simp only [share, Counters.of] at he
      simp [activate, dec_of_pos hw, dec_of_pos he, bind, Except.bind, hd]
  rw [hact]
  exact hm.accounts (fun hb => hb) (becomeActive_accounts (hm.covers hc))

theorem createFailed_accounts {e : Option Bool} (hc : Covers c (share ⟨h, .creating e⟩)) :
    Accounts cfg c (share ⟨h, .creating e⟩) h ((restore c).map fun c => (c, afterCreating e)) := by
  have hh : 1 ≤ c.helpers := by
    have hn := hc .helpers
    simp only [share, Counters.of] at hn
    omega
  have hs : 1 ≤ c.starting := hc .starting
  simp only [restore, dec_of_pos hh, dec_of_pos hs, bind, Except.bind, pure,
    Except.pure, Except.map]
  refine ⟨_, _, rfl, fun n => ?_, ?_, fun hb => hb⟩
  · rcases e with _ | _ | _ <;> cases n <;> simp [Counters.of, share, afterCreating] <;> omega
  · rcases e with _ | _ <;> simp [Proper, afterCreating]

/-- What a helper counts for in between, while it holds the mutex. -/
def between : Count → ℕ
  | .helpers => 1
  | _ => 0

theorem lookForWork_accounts {q : Bool} (hc : Covers c (share ⟨true, .active⟩)) :
    Accounts cfg c (share ⟨true, .active⟩) true (lookForWork c q) := by
  have ha : 1 ≤ c.active := hc .active
  unfold lookForWork
  split_ifs
  · exact ⟨c, _, rfl, fun _ => rfl, by simp [Proper], id⟩
  · simp only [dec_of_pos ha, bind, Except.bind]
    refine ⟨_, _, rfl, fun n => ?_, by simp [Proper], fun hb hs => ?_⟩
    · cases n <;> simp [Counters.of, share]
      omega
    · exact Nat.le_trans (Nat.sub_le _ _) (hb hs)

theorem helperLoop_accounts {q : Bool} (hc : Covers c between) :
    Accounts cfg c between true (helperLoop cfg c q) := by
  have hh : 1 ≤ c.helpers := hc .helpers
  unfold helperLoop
  split_ifs with hs ha
  · simp only [dec_of_pos hh, bind, Except.bind]
    refine ⟨_, _, rfl, fun n => ?_, by simp [Proper], fun hb hs => hb hs⟩
    cases n <;> simp [Counters.of, share, between]
    omega
  · have hm : Moves c between { c with active := c.active + 1 } (share ⟨true, .active⟩) := by
      intro n
      cases n <;> simp [Counters.of, share, between]
    exact hm.accounts (fun _ _ => ha) (lookForWork_accounts (hm.covers hc))
  · refine ⟨_, _, rfl, fun n => ?_, by simp [Proper], fun hb => hb⟩
    cases n <;> simp [Counters.of, share, between]

theorem helper_accounts {q : Bool} (hc : Covers c (share ⟨true, .starting⟩)) :
    Accounts cfg c (share ⟨true, .starting⟩) true (helper cfg c q) := by
  have hs : 1 ≤ c.starting := hc .starting
  have hm : Moves c (share ⟨true, .starting⟩) { c with starting := c.starting - 1 } between := by
    intro n
    cases n <;> simp [Counters.of, share, between]; omega
  simp only [helper, dec_of_pos hs, bind, Except.bind]
  exact hm.accounts (fun hb => hb) (helperLoop_accounts (hm.covers hc))

theorem wakeHelper_accounts {q : Bool} (hc : Covers c (share ⟨true, .idle⟩)) :
    Accounts cfg c (share ⟨true, .idle⟩) true (wakeHelper cfg c q) := by
  have hi : 1 ≤ c.idle := hc .idle
  have hm : Moves c (share ⟨true, .idle⟩) { c with idle := c.idle - 1 } between := by
    intro n
    cases n <;> simp [Counters.of, share, between]; omega
  simp only [wakeHelper, dec_of_pos hi, bind, Except.bind]
  exact hm.accounts (fun hb => hb) (helperLoop_accounts (hm.covers hc))

/-! ### Runs -/

/-- The counters are right, and only helpers are where only helpers can be. -/
structure Invariant (cfg : Config) (s : State) : Prop where
  counted : Counted s.counters s.threads
  bounded : Bounded cfg s.counters
  proper : ∀ t ∈ s.threads, Proper t
  masters : census (fun t => if t.helper then 0 else 1) s.threads = cfg.initActive

theorem invariant_startup (cfg : Config) : Invariant cfg (startup cfg) where
  counted n := by cases n <;> simp [startup, Counters.of, share]
  bounded _ := cfg.initActive_le
  proper t ht := by
    rw [(List.mem_replicate.mp ht).2]
    simp [Proper]
  masters := by simp [startup]

theorem Invariant.next {cfg : Config} {s : State} (hs : Invariant cfg s) {i : ℕ} {t : Thread}
    (ht : s.threads[i]? = some t) {c : Counters} {p : Place}
    (hc : Counted c (s.threads.set i { t with place := p })) (hb : Bounded cfg c)
    (hp : Proper { t with place := p }) :
    Invariant cfg ⟨c, s.threads.set i { t with place := p }⟩ where
  counted := hc
  bounded := hb
  proper u hu := by
    rcases List.mem_or_eq_of_mem_set hu with hu | rfl
    · exact hs.proper u hu
    · exact hp
  masters := by
    have hset := census_set (fun t => if t.helper then 0 else 1) ht { t with place := p }
    rw [← hs.masters]
    exact Nat.add_right_cancel hset

/-- The thread that creates a helper no longer counts for it once it exists. -/
theorem Invariant.created {cfg : Config} {s : State} (hs : Invariant cfg s) {i : ℕ} {t : Thread}
    (ht : s.threads[i]? = some t) {d : Option Bool} (hd : t.place = .creating d) :
    Invariant cfg ⟨s.counters,
      s.threads.set i { t with place := afterCreating d } ++ [⟨true, .starting⟩]⟩ where
  counted n := by
    have hset := census_set (fun t => share t n) ht { t with place := afterCreating d }
    have hc := hs.counted n
    have hn : share t n =
        share { t with place := afterCreating d } n + share ⟨true, .starting⟩ n := by
      obtain ⟨h, p⟩ := t
      obtain rfl : p = .creating d := hd
      rcases d with _ | _ | _ <;> cases n <;> simp [share, afterCreating]
    change s.counters.of n = _
    rw [census_append, census_cons, census_nil]
    omega
  bounded := hs.bounded
  proper u hu := by
    rcases List.mem_append.mp hu with hu | hu
    · rcases List.mem_or_eq_of_mem_set hu with hu | rfl
      · exact hs.proper u hu
      · rcases d with _ | _ <;> simp [Proper, afterCreating]
    · rw [List.mem_singleton.mp hu]
      simp [Proper]
  masters := by
    have hset := census_set (fun t => if t.helper then 0 else 1) ht
      { t with place := afterCreating d }
    have hset := Nat.add_right_cancel hset
    simpa [← hs.masters] using hset

theorem region_cases (cfg : Config) {t : Thread} (hc : Covers c (share t))
    (hp : Proper t) (a : Step) :
    region cfg c t a = none ∨
      (∃ r, region cfg c t a = some (r.map fun r => (r.1, r.2, [])) ∧
        Accounts cfg c (share t) t.helper r) ∨
      ∃ d, t.place = .creating d ∧
        region cfg c t a = some (.ok (c, afterCreating d, [⟨true, .starting⟩])) := by
  obtain ⟨h, p⟩ := t
  cases a with
  | deactivate e q q' =>
    cases p
    case active => exact .inr (.inl ⟨_, rfl, deactivate_accounts hc⟩)
    all_goals exact .inl rfl
  | activate =>
    cases p
    case waiting => exact .inr (.inl ⟨_, rfl, activate_accounts hc⟩)
    all_goals exact .inl rfl
  | wakeReady =>
    cases p
    case ready => exact .inr (.inl ⟨_, rfl, becomeActive_accounts hc⟩)
    all_goals exact .inl rfl
  | async q =>
    cases p
    case active => exact .inr (.inl ⟨_, rfl, async_accounts⟩)
    all_goals exact .inl rfl
  | created =>
    cases p
    case creating d => exact .inr (.inr ⟨d, rfl, rfl⟩)
    all_goals exact .inl rfl
  | createFailed =>
    cases p
    case creating d => exact .inr (.inl ⟨_, rfl, createFailed_accounts hc⟩)
    all_goals exact .inl rfl
  | start q =>
    cases p
    case starting =>
      obtain rfl : h = true := hp (.inl rfl)
      exact .inr (.inl ⟨_, rfl, helper_accounts hc⟩)
    all_goals exact .inl rfl
  | wakeIdle q =>
    cases p
    case idle =>
      obtain rfl : h = true := hp (.inr (.inl rfl))
      exact .inr (.inl ⟨_, rfl, wakeHelper_accounts hc⟩)
    all_goals exact .inl rfl
  | work q =>
    cases p
    case active =>
      cases h
      · exact .inl rfl
      · exact .inr (.inl ⟨_, rfl, lookForWork_accounts hc⟩)
    all_goals exact .inl rfl
  | shutdown =>
    cases p
    case active =>
      refine .inr (.inl ⟨.ok ({ c with shutdown := true }, .active), rfl, ?_⟩)
      exact ⟨_, _, rfl, fun n => by cases n <;> rfl, by simp [Proper], fun _ hs => by simp at hs⟩
    all_goals exact .inl rfl

theorem Invariant.step {cfg : Config} {s : State} (hs : Invariant cfg s) (i : ℕ) (a : Step) :
    ∃ s', step cfg s i a = .ok s' ∧ Invariant cfg s' := by
  unfold Scheduler.step
  cases ht : s.threads[i]? with
  | none => exact ⟨s, rfl, hs⟩
  | some t =>
    have hmem := List.mem_of_getElem? ht
    rcases region_cases cfg (hs.counted.covers ht) (hs.proper t hmem) a with
      hr | ⟨r, hr, hacc⟩ | ⟨d, hd, hr⟩
    · exact ⟨s, by simp [hr], hs⟩
    · obtain ⟨c, p, rfl, hm, hp, hb⟩ := hacc
      refine ⟨⟨c, s.threads.set i { t with place := p }⟩, by simp [hr, Except.map], ?_⟩
      exact hs.next ht (hs.counted.set ht hm) (hb hs.bounded) hp
    · refine ⟨⟨s.counters, s.threads.set i { t with place := afterCreating d } ++
        [⟨true, .starting⟩]⟩, by simp [hr, Except.map], hs.created ht hd⟩

theorem Invariant.run {cfg : Config} {s : State} (hs : Invariant cfg s) (steps : List (ℕ × Step)) :
    ∃ s', run cfg s steps = .ok s' ∧ Invariant cfg s' := by
  induction steps generalizing s with
  | nil => exact ⟨s, rfl, hs⟩
  | cons a steps ih =>
    obtain ⟨s₁, h₁, hs₁⟩ := hs.step a.1 a.2
    obtain ⟨s', h', hs'⟩ := ih hs₁
    refine ⟨s', ?_, hs'⟩
    rw [Scheduler.run, List.foldlM_cons, h₁]
    exact h'

/-! ### What the counters add up to -/

theorem Invariant.sum {cfg : Config} {s : State} (hs : Invariant cfg s) :
    s.counters.active + s.counters.idle + s.counters.waiting + s.counters.ready +
      s.counters.starting = cfg.initActive + s.counters.helpers := by
  have hc := fun n => (hs.counted n).symm
  have hsum : census (fun t => share t .active + share t .idle + share t .waiting + share t .ready +
      share t .starting) s.threads =
        census (fun t => (if t.helper then 0 else 1) + share t .helpers) s.threads := by
    refine census_congr fun t ht => ?_
    have hp := hs.proper t ht
    obtain ⟨h, p⟩ := t
    rcases p with _ | (_ | _) | _ | _ | _ | _ | _ <;> cases h <;> simp_all [share, Proper]
  simp only [census_add, hc, hs.masters] at hsum
  simpa [Counters.of] using hsum

theorem Invariant.external_le {cfg : Config} {s : State} (hs : Invariant cfg s) :
    s.counters.external ≤ s.counters.waiting := by
  have he : s.counters.external = _ := hs.counted .external
  have hw : s.counters.waiting = _ := hs.counted .waiting
  rw [he, hw]
  refine census_le fun t _ => ?_
  obtain ⟨h, p⟩ := t
  rcases p with _ | (_ | _ | _) | (_ | _) | _ | _ | _ | _ <;> simp [share]

/-- A thread that cannot be created takes back what was counted for it. -/
theorem Invariant.createFailed {cfg : Config} {s : State} (hs : Invariant cfg s) {i : ℕ}
    {t : Thread} {d : Option Bool} (ht : s.threads[i]? = some t) (hd : t.place = .creating d) :
    ∃ s', Scheduler.step cfg s i .createFailed = .ok s' ∧
      createHelper s'.counters = s.counters := by
  have hc := hs.counted.covers ht
  have hh : 1 ≤ s.counters.helpers := by
    have hn := hc .helpers
    simp only [share, hd, Counters.of] at hn
    omega
  have hst : 1 ≤ s.counters.starting := by
    have hn := hc .starting
    simpa [share, hd, Counters.of] using hn
  refine ⟨⟨{ s.counters with
    helpers := s.counters.helpers - 1
    starting := s.counters.starting - 1 },
    s.threads.set i { t with place := afterCreating d }⟩, ?_, ?_⟩
  · simp [Scheduler.step, ht, region, hd, restore, dec_of_pos hh, dec_of_pos hst, bind, Except.bind,
      pure, Except.pure, Except.map]
  · simp only [createHelper, Nat.sub_add_cancel hh, Nat.sub_add_cancel hst]

/-- In every interleaving no counter becomes negative, and whenever the mutex is free the counters
account for all the threads, with no more active ones until shutdown than there may be. -/
theorem accounting (cfg : Config) (steps : List (ℕ × Step)) :
    ∃ s, run cfg (startup cfg) steps = .ok s ∧
      s.counters.active + s.counters.idle + s.counters.waiting + s.counters.ready +
        s.counters.starting = cfg.initActive + s.counters.helpers ∧
      s.counters.external ≤ s.counters.waiting ∧
      (s.counters.shutdown = false → s.counters.active ≤ cfg.maxActive) ∧
      ∀ i t d, s.threads[i]? = some t → t.place = .creating d →
        ∃ s', step cfg s i .createFailed = .ok s' ∧ createHelper s'.counters = s.counters := by
  obtain ⟨s, h, hs⟩ := (invariant_startup cfg).run steps
  exact ⟨s, h, hs.sum, hs.external_le, hs.bounded, fun i t d ht hd => hs.createFailed ht hd⟩

/-- A scheduler with one initial thread, of which two may be active. -/
def sampleConfig : Config :=
  ⟨1, 2, 4, Nat.one_ne_zero, Nat.le_succ 1, Nat.le_add_right 2 2, Nat.one_lt_two⟩

/-- The thread queues a task, and the helper for it cannot be created. -/
theorem accounting_createFailed : ∃ s s',
    run sampleConfig (startup sampleConfig) [(0, .async true)] = .ok s ∧
      s.counters.starting = 1 ∧ step sampleConfig s 0 .createFailed = .ok s' ∧
      createHelper s'.counters = s.counters := by
  obtain ⟨s, hs, -, -, -, hfail⟩ := accounting sampleConfig [(0, .async true)]
  have hrun : run sampleConfig (startup sampleConfig) [(0, .async true)] =
      .ok ⟨⟨1, 1, 0, 0, 0, 1, 0, false⟩, [⟨false, .creating none⟩]⟩ := rfl
  obtain rfl := Except.ok.inj (hs.symm.trans hrun)
  obtain ⟨s', hs', hc⟩ := hfail 0 _ none rfl rfl
  exact ⟨_, s', hs, rfl, hs', hc⟩

end Build2.Libbuild2.Scheduler
