import Build2.Libbuild2.Algorithm.Sound

/-! # The functions keep the targets sound

For each function of the source, one lemma: what it does to a target may happen to it, and the
target is sound behind that. -/

namespace Build2.Libbuild2.Algorithm

open Build2.Lib.Census
open PhaseMutex (RunPhase)

/-- What a step does may happen, and the target is sound behind it. -/
def Keeps (x : Context) (r : Outcome) (l : Life) (ps : List Place) (k : ℕ) (y : Moved) : Prop :=
  ∃ l', l.events y.2.2 = some l' ∧
    Sound x.countBase x.phase x.currentMode r y.1 l' (ps.set k y.2.1)

variable {x : Context} {r : Outcome} {s : OpState} {l : Life} {ps : List Place} {k : ℕ}
  {c : Caller} {e o n : ℕ}

/-! ### What the counts tell -/

theorem Sound.phase_eq {p : Place} (h : Sound x.countBase x.phase x.currentMode r s l ps)
    (hk : ps[k]? = some p) {ψ : RunPhase} (hp : p.phase = some ψ) : x.phase = ψ :=
  (h.phase p (List.mem_of_getElem? hk) ψ hp).symm

theorem Sound.ok {p : Place} (h : Sound x.countBase x.phase x.currentMode r s l ps)
    (hk : ps[k]? = some p) : p.Ok x.countBase r s l := h.places p (List.mem_of_getElem? hk)

theorem reached_stageAt {st : TargetState} (h : offsetApplied ≤ o) : (stageAt o st).Reached := by
  unfold stageAt offsetTouched offsetTried offsetMatched
  unfold offsetApplied at *
  split_ifs
  · omega
  · omega
  · omega
  · trivial
  · trivial

theorem Sound.reached (h : Sound x.countBase x.phase x.currentMode r s l ps)
    (hlt : s.taskCount < x.countBase + offsetBusy)
    (hle : x.countBase + offsetApplied ≤ s.taskCount) : l.stage.Reached := by
  rw [(h.free hlt).1]
  exact reached_stageAt (by omega)

theorem Sound.exists_holding (h : Sound x.countBase x.phase x.currentMode r s l ps)
    (hle : x.countBase + offsetBusy ≤ s.taskCount) : ∃ p ∈ ps, p.holding ≠ 0 := by
  by_contra hnone
  push Not at hnone
  have hle' : census Place.holding ps ≤ census (fun _ => 0) ps :=
    census_le fun p hp => Nat.le_of_eq (hnone p hp)
  rw [h.held, busyCalls, if_pos hle] at hle'
  simp [census] at hle'

theorem not_reached_stageAt {st : TargetState}
    (h : o = offsetTouched ∨ o = offsetTried ∨ o = offsetMatched) : ¬ (stageAt o st).Reached := by
  rcases h with rfl | rfl | rfl <;> exact id

theorem Ready.not_reached (h : Ready s l) : ¬ l.stage.Reached := by
  rcases h with ⟨hs, -⟩ | ⟨hs, -⟩ <;> rw [hs] <;> exact id

theorem not_reached_of_lt {st : TargetState} (h : o < offsetApplied) :
    ¬ (stageAt o st).Reached := by
  unfold stageAt offsetTouched offsetTried offsetMatched
  unfold offsetApplied at *
  split_ifs
  · exact id
  · exact id
  · exact id
  · omega
  · omega

/-- No rule has been applied yet when a call works on a target in the match phase. -/
theorem Place.Ok.not_reached {b : ℕ} {p : Place} (h : p.Ok b r s l) (hp : p.holding ≠ 0) :
    ¬ l.stage.Reached ∨ p.phase = some .execute := by
  cases p with
  | claimed c e =>
    obtain ⟨-, hlt, hs, -⟩ := h
    left
    rw [hs]
    exact not_reached_of_lt (by unfold offsetApplied at *; omega)
  | queued o =>
    left
    rw [h.2.2.1]
    exact not_reached_stageAt h.2.1
  | held c o =>
    rcases h.2.1 with ⟨ho, hs⟩ | ⟨-, -, hr⟩
    · left
      rw [hs]
      exact not_reached_stageAt ho
    · exact Or.inl hr.not_reached
  | matching c o n =>
    left
    rw [h.2.1]
    exact id
  | applying c n =>
    left
    rw [h.2.1]
    exact id
  | unlocking o next =>
    rcases h.2.1 with ⟨ho, hs⟩ | ⟨-, hr⟩
    · left
      rw [hs]
      exact not_reached_stageAt ho
    · exact Or.inl hr.not_reached
  | running n => exact Or.inr rfl
  | finishing => exact Or.inr rfl
  | skipping => exact Or.inr rfl
  | _ => exact absurd rfl hp

/-- The count of a target to which a rule has been applied, when nobody works on it. -/
theorem Sound.count_of_free (h : Sound x.countBase x.phase x.currentMode r s l ps)
    (hlt : s.taskCount < x.countBase + offsetBusy) (hr : l.stage.Reached) :
    s.taskCount = x.countBase + offsetApplied ∧ l.stage = .applied s.state ∨
      s.taskCount = x.countBase + offsetExecuted ∧ l.stage = .executed s.state := by
  have hstage := (h.free hlt).1
  have hle : ¬ s.taskCount - x.countBase < offsetApplied := fun hlt =>
    not_reached_of_lt hlt (hstage ▸ hr)
  unfold offsetApplied offsetExecuted offsetBusy at *
  by_cases h4 : s.taskCount = x.countBase + 4
  · refine Or.inl ⟨h4, hstage.trans ?_⟩
    rw [h4, Nat.add_sub_cancel_left]
    rfl
  · have h5 : s.taskCount = x.countBase + 5 := by omega
    refine Or.inr ⟨h5, hstage.trans ?_⟩
    rw [h5, Nat.add_sub_cancel_left]
    rfl

theorem Sound.free_of_match (h : Sound x.countBase x.phase x.currentMode r s l ps)
    (hphase : x.phase = .match) (hr : l.stage.Reached) :
    s.taskCount < x.countBase + offsetBusy := by
  by_contra hbusy
  obtain ⟨p, hp, hne⟩ := h.exists_holding (Nat.le_of_not_lt hbusy)
  rcases (h.places p hp).not_reached hne with hnot | he
  · exact hnot hr
  · have hφ := h.phase p hp _ he
    rw [hphase] at hφ
    cases hφ

theorem Sound.outstanding_eq_zero (h : Sound x.countBase x.phase x.currentMode r s l ps)
    (hl : ¬ l.stage.Live) : l.outstanding = 0 := by
  have hzero : census Place.outstanding ps ≤ census (fun _ => 0) ps := by
    refine census_le fun p hp => ?_
    have hok := h.places p hp
    cases p with
    | counted => exact absurd hok hl
    | leaving => exact absurd hok hl
    | _ => exact Nat.le_refl 0
  rw [h.outstanding]
  have hsum : census (fun _ : Place => 0) ps = 0 := by simp [census]
  omega

/-! ### Locking -/

theorem unlocked_ok (known : Bool) (hr : l.stage.Reached) (o : ℕ) :
    (unlocked known c o).Ok x.countBase r s l ∧ (unlocked known c o).holding = 0 ∧
      (unlocked known c o).outstanding = 0 ∧
        ∀ ψ, (unlocked known c o).phase = some ψ → ψ = .match := by
  unfold unlocked
  split
  · split_ifs
    · exact ⟨hr, rfl, rfl, fun ψ h => by cases h⟩
    · exact ⟨trivial, rfl, rfl, fun ψ h => by cases h⟩
  · exact ⟨trivial, rfl, rfl, fun ψ h => by cases h⟩
  · exact ⟨hr, rfl, rfl, fun ψ h => by cases h; rfl⟩

theorem Sound.lockImpl (h : Sound x.countBase x.phase x.currentMode r s l ps)
    (hk : ps[k]? = some (.locking c e)) (known : Bool) :
    Keeps x r l ps k (lockImpl x s known c e) := by
  have hlt : e < x.countBase + offsetApplied := h.ok hk
  have hφ := h.phase_eq hk rfl
  refine ⟨l, ?_, ?_⟩
  · unfold Algorithm.lockImpl
    split_ifs <;> rfl
  unfold Algorithm.lockImpl
  split_ifs with he
  · have hfree := h.free (by unfold offsetBusy; unfold offsetApplied at *; omega)
    refine h.claim hk rfl rfl rfl (by omega) (Or.inl rfl) rfl ⟨rfl, hlt, ?_, ?_⟩ h.tried
      h.states rfl fun ψ hψ => ?_
    · rw [← he]
      exact hfree.1
    · rw [← he]
      exact hfree.2
    · cases hψ
      exact hφ.symm
  · dsimp only
    split_ifs with hbusy happ
    · split
      · exact h.pass hk rfl rfl rfl trivial fun ψ hψ => by cases hψ
      · exact h.pass hk rfl rfl rfl trivial fun ψ hψ => by cases hψ
    · obtain ⟨hok, hhold, hout, hp⟩ :=
        unlocked_ok (x := x) (r := r) (s := s) (c := c) known
          (h.reached (Nat.lt_of_not_le hbusy) happ) (s.taskCount - x.countBase)
      exact h.pass hk rfl hhold hout hok fun ψ hψ => (hp ψ hψ).trans hφ.symm
    · exact h.pass hk rfl rfl rfl (Nat.lt_of_not_le happ) fun ψ hψ => by cases hψ; exact hφ.symm

theorem Sound.wait (h : Sound x.countBase x.phase x.currentMode r s l ps)
    (hk : ps[k]? = some (.waiting c)) (hlt : s.taskCount < x.countBase + offsetBusy) :
    Keeps x r l ps k (s, .woken c s.taskCount, []) :=
  ⟨l, rfl, h.pass hk rfl rfl rfl ⟨hlt, fun hle => h.reached hlt hle⟩ fun ψ hψ => by cases hψ⟩

theorem Sound.wake (h : Sound x.countBase x.phase x.currentMode r s l ps)
    (hk : ps[k]? = some (.woken c e)) (hφ : x.phase = .match) (known : Bool) :
    Keeps x r l ps k (s, if x.countBase + offsetApplied ≤ e then
      unlocked known c (e - x.countBase) else .locking c e, []) := by
  obtain ⟨-, hr⟩ := h.ok hk
  refine ⟨l, rfl, ?_⟩
  dsimp only
  split_ifs with happ
  · obtain ⟨hok, hhold, hout, hp⟩ :=
      unlocked_ok (x := x) (r := r) (s := s) (c := c) known (hr happ) (e - x.countBase)
    exact h.pass hk rfl hhold hout hok fun ψ hψ => (hp ψ hψ).trans hφ.symm
  · exact h.pass hk rfl rfl rfl (Nat.lt_of_not_le happ) fun ψ hψ => by cases hψ; exact hφ.symm

/-- The call that works on the target takes another place, at the same stage. -/
theorem Sound.hold {p p' : Place} {s' : OpState}
    (h : Sound x.countBase x.phase x.currentMode r s l ps) (hk : ps[k]? = some p)
    (hp : p.holding = 1) (hpo : p.outstanding = 0) (hp' : p'.holding = 1)
    (hpo' : p'.outstanding = 0) (hbusy : x.countBase + offsetBusy ≤ s'.taskCount)
    (hexec : ∀ st, l.stage ≠ .executed st) (hok : p'.Ok x.countBase r s' l)
    (hphase : ∀ ψ, p'.phase = some ψ → ψ = x.phase) :
    Sound x.countBase x.phase x.currentMode r s' l (ps.set k p') := by
  refine h.work hk hp hpo hpo' (hp'.trans (if_pos hbusy).symm) (Or.inl rfl) hexec rfl
    (fun _ _ => Or.inl hbusy) (fun hlt => ?_) hok h.tried h.states rfl hphase
  exact absurd hbusy (Nat.not_le_of_lt hlt)

theorem Sound.locked (h : Sound x.countBase x.phase x.currentMode r s l ps)
    (hk : ps[k]? = some (.claimed c e)) : Keeps x r l ps k (locked x s c e) := by
  obtain ⟨hcount, hlt, hstage, hdeps⟩ := h.ok hk
  have hφ := h.phase_eq hk rfl
  have hne : ∀ st, l.stage ≠ .executed st := fun st he =>
    stageAt_ne_executed (by unfold offsetApplied at *; omega) st (hstage.symm.trans he)
  -- The next place is that of a task or of the caller itself.
  have hplace : ∀ {s' : OpState} {o : ℕ}, s'.taskCount = s.taskCount →
      (o = offsetTouched ∨ o = offsetTried ∨ o = offsetMatched) → l.stage = stageAt o s'.state →
      s'.dependents = l.outstanding →
      Sound x.countBase x.phase x.currentMode r s' l
        (ps.set k (if c = .async true then .queued o else .held c o)) := by
    intro s' o hs' ho hst hd
    have hc := hs'.trans hcount
    split_ifs
    · exact h.hold hk rfl rfl rfl rfl (Nat.le_of_eq hc.symm) hne ⟨hc, ho, hst, hd⟩
        fun ψ hψ => by cases hψ
    · exact h.hold hk rfl rfl rfl rfl (Nat.le_of_eq hc.symm) hne ⟨hc, Or.inl ⟨ho, hst⟩, hd⟩
        fun ψ hψ => by cases hψ; exact hφ.symm
  unfold Algorithm.locked
  by_cases hle : e ≤ x.countBase
  · have hnot : l.stage = .untouched := by
      rw [hstage, Nat.sub_eq_zero_of_le hle]
      rfl
    have hzero : l.outstanding = 0 := h.outstanding_eq_zero (by rw [hnot]; exact id)
    rw [if_pos hle]
    exact ⟨l, rfl, hplace rfl (Or.inl rfl) hnot hzero.symm⟩
  · have ho : e - x.countBase = offsetTouched ∨ e - x.countBase = offsetTried ∨
        e - x.countBase = offsetMatched := by
      unfold offsetTouched offsetTried offsetMatched offsetApplied at *
      omega
    rw [if_neg hle]
    dsimp only
    rw [if_pos ho]
    exact ⟨l, rfl, hplace rfl ho hstage (hdeps (Nat.lt_of_not_le hle))⟩

theorem Sound.start (h : Sound x.countBase x.phase x.currentMode r s l ps)
    (hk : ps[k]? = some (.queued o)) (hφ : x.phase = .match) :
    Keeps x r l ps k (s, .held (.async true) o, []) := by
  obtain ⟨hcount, ho, hstage, hdeps⟩ := h.ok hk
  have hne : ∀ st, l.stage ≠ .executed st := fun st he => by
    refine stageAt_ne_executed (o := o) ?_ st (hstage.symm.trans he)
    rcases ho with rfl | rfl | rfl <;> decide
  exact ⟨l, rfl, h.hold hk rfl rfl rfl rfl (Nat.le_of_eq hcount.symm) hne
    ⟨hcount, Or.inl ⟨ho, hstage⟩, hdeps⟩ fun ψ hψ => by cases hψ; exact hφ.symm⟩

/-! ### Matching -/

theorem Sound.advance {p p' : Place} {s' : OpState} {g : Stage}
    (h : Sound x.countBase x.phase x.currentMode r s l ps) (hk : ps[k]? = some p)
    (hp : p.holding = 1) (hpo : p.outstanding = 0) (hp' : p'.holding = 1)
    (hpo' : p'.outstanding = 0) (hbusy : x.countBase + offsetBusy ≤ s'.taskCount)
    (hnot : ¬ l.stage.Reached) (hg : ¬ g.Reached) (htried : g = .tried → r = .none)
    (hok : p'.Ok x.countBase r s' { l with stage := g })
    (hphase : ∀ ψ, p'.phase = some ψ → ψ = x.phase) :
    Sound x.countBase x.phase x.currentMode r s' { l with stage := g } (ps.set k p') := by
  refine h.work hk hp hpo hpo' (hp'.trans (if_pos hbusy).symm) (Or.inr (Or.inl hnot)) ?_ rfl
    (fun _ _ => Or.inl hbusy) (fun hlt => ?_) hok htried ?_ rfl hphase
  · intro st he
    exact hnot (he ▸ trivial)
  · exact absurd hbusy (Nat.not_le_of_lt hlt)
  · intro st he
    exact absurd trivial (he ▸ hg : ¬ (Stage.applied st).Reached)

theorem Sound.matchImpl {p : Place} (h : Sound x.countBase x.phase x.currentMode r s l ps)
    (hk : ps[k]? = some p) (hp : p.holding = 1) (hpo : p.outstanding = 0)
    (hcount : s.taskCount = x.countBase + offsetBusy)
    (ho : o = offsetTouched ∨ o = offsetTried ∨ o = offsetMatched)
    (hstage : l.stage = stageAt o s.state) (hdeps : s.dependents = l.outstanding) :
    Keeps x r l ps k (matchImpl s c o) := by
  have hnot : ¬ l.stage.Reached := hstage ▸ not_reached_stageAt ho
  have hmatching : ∀ o, (o = offsetTouched ∨ o = offsetTried ∧ r = .none) →
      Sound x.countBase x.phase x.currentMode r s { l with stage := .matching }
        (ps.set k (.matching c o 0)) := fun o ho =>
    h.advance hk hp hpo rfl rfl (Nat.le_of_eq hcount.symm) hnot id (fun he => by cases he)
      ⟨hcount, rfl, ho, hdeps⟩ fun ψ hψ => by cases hψ
  rcases ho with rfl | rfl | rfl
  · have hs : l.stage = .untouched := hstage
    have hnext : l.next .matchRule = some { l with stage := .matching } := by
      simp [Life.next, hs, Life.to]
    exact ⟨_, Life.events_one hnext, hmatching _ (Or.inl rfl)⟩
  · have hs : l.stage = .tried := hstage
    have hnext : l.next .matchRule = some { l with stage := .matching } := by
      simp [Life.next, hs, Life.to]
    exact ⟨_, Life.events_one hnext, hmatching _ (Or.inr ⟨rfl, h.tried hs⟩)⟩
  · have hs : l.stage = .matched := hstage
    have hnext : l.next .applyRule = some { l with stage := .applying } := by
      simp [Life.next, hs, Life.to]
    exact ⟨_, Life.events_one hnext, h.advance hk hp hpo rfl rfl (Nat.le_of_eq hcount.symm) hnot id
      (fun he => by cases he) ⟨hcount, rfl, hdeps⟩ fun ψ hψ => by cases hψ⟩

theorem Sound.proceed (h : Sound x.countBase x.phase x.currentMode r s l ps)
    (hk : ps[k]? = some (.held c o)) (known : Bool) : Keeps x r l ps k (proceed s known c o) := by
  obtain ⟨hcount, hplace, hdeps⟩ := h.ok hk
  have hφ := h.phase_eq hk rfl
  have hbusy := Nat.le_of_eq hcount.symm
  have hne : ∀ st, l.stage ≠ .executed st := by
    intro st he
    rcases (h.ok hk).not_reached Nat.one_ne_zero with hnot | hp
    · exact hnot (he ▸ trivial)
    · cases hp
  -- To let go of the lock.
  have hunlock : ∀ next : After, next.Ok s.state o →
      Keeps x r l ps k (s, .unlocking o next, []) := by
    intro next hnext
    refine ⟨l, rfl, h.hold hk rfl rfl rfl rfl hbusy hne ⟨hcount, ?_, hdeps, hnext⟩
      fun ψ hψ => by cases hψ; exact hφ.symm⟩
    rcases hplace with ho | ⟨ho, -, hr⟩
    · exact Or.inl ho
    · exact Or.inr ⟨ho, hr⟩
  have hmatch : c ≠ .members ∨ o ≠ offsetApplied →
    Keeps x r l ps k (Algorithm.matchImpl s c o) := by
    intro hc
    rcases hplace with ⟨ho, hs⟩ | ⟨ho, hm, -⟩
    · exact h.matchImpl hk rfl rfl hcount ho hs hdeps
    · rcases hc with hc | hc
      · exact absurd hm hc
      · exact absurd ho hc
  unfold Algorithm.proceed
  split
  · split_ifs with htried
    · exact hunlock _ (Or.inl ⟨rfl, htried.2⟩)
    · exact hmatch (Or.inl (by rintro ⟨⟩))
  · exact hmatch (Or.inl (by rintro ⟨⟩))
  · split_ifs with hknown happ
    · exact hunlock _ trivial
    · exact hunlock _ happ
    · exact hmatch (Or.inr happ)
  · split_ifs
    · exact hunlock _ trivial
    · exact hmatch (Or.inl (by rintro ⟨⟩))

theorem Sound.matchFailed {p : Place} (h : Sound x.countBase x.phase x.currentMode r s l ps)
    (hk : ps[k]? = some p) (hp : p.holding = 1) (hpo : p.outstanding = 0)
    (hcount : s.taskCount = x.countBase + offsetBusy)
    (hstage : l.stage = .matching ∨ l.stage = .applying) (hdeps : s.dependents = l.outstanding)
    (hφ : x.phase = .match) : Keeps x r l ps k (matchFailed s c) := by
  have hready : Ready { s with state := .failed } l := by
    rcases hstage with hs | hs
    · exact Or.inr ⟨hs, rfl⟩
    · exact Or.inl ⟨hs, Or.inr (Or.inr rfl)⟩
  have hafter : (c.after (true, .failed)).Ok .failed offsetApplied := by
    unfold Caller.after
    split
    · exact Or.inr ⟨rfl, rfl⟩
    · rfl
    · trivial
  refine ⟨l, rfl, h.hold hk hp hpo rfl rfl (Nat.le_of_eq hcount.symm) (fun st he => ?_)
    ⟨hcount, Or.inr ⟨rfl, hready⟩, hdeps, hafter⟩ fun ψ hψ => by cases hψ; exact hφ.symm⟩
  exact hready.not_reached (he ▸ trivial)

theorem Sound.ruleMatched (h : Sound x.countBase x.phase x.currentMode r s l ps)
    (hk : ps[k]? = some (.matching c o n)) (hφ : x.phase = .match)
    (hle : s.taskCount ≤ x.countBase + offsetBusy) : Keeps x r l ps k (ruleMatched s c o r) := by
  obtain ⟨hcount, hs, ho, hdeps⟩ := h.ok hk
  have hcount : s.taskCount = x.countBase + offsetBusy := by omega
  have hbusy := Nat.le_of_eq hcount.symm
  have hnot : ¬ l.stage.Reached := by
    rw [hs]
    exact id
  have hfailed : Keeps x r l ps k (Algorithm.matchFailed s c) :=
    h.matchFailed hk rfl rfl hcount (Or.inl hs) hdeps hφ
  have hphase : RunPhase.match = x.phase := hφ.symm
  unfold Algorithm.ruleMatched
  rcases r with _ | _ | _
  · dsimp only
    have hne : o ≠ offsetTried := by
      rcases ho with rfl | ⟨-, hr⟩
      · decide
      · cases hr
    rw [if_neg hne]
    refine ⟨{ l with stage := .matched }, by simp [Life.events, Life.next, hs, Life.to], ?_⟩
    dsimp only
    split_ifs
    · exact h.advance hk rfl rfl rfl rfl hbusy hnot id (fun he => by cases he)
        ⟨hcount, Or.inl ⟨Or.inr (Or.inr rfl), rfl⟩, hdeps, trivial⟩
        fun ψ hψ => by cases hψ; exact hphase
    · exact h.advance hk rfl rfl rfl rfl hbusy hnot id (fun he => by cases he)
        ⟨hcount, Or.inl ⟨Or.inr (Or.inr rfl), rfl⟩, hdeps⟩ fun ψ hψ => by cases hψ; exact hphase
  · dsimp only
    split_ifs with htry
    · have hafter : (c.after (false, .unknown)).Ok s.state offsetTried := by
        cases c with
        | «match» t => exact Or.inl ⟨rfl, rfl⟩
        | async q => cases htry
        | members => cases htry
        | group => trivial
      exact ⟨{ l with stage := .tried }, by simp [Life.events, Life.next, hs, Life.to],
        h.advance hk rfl rfl rfl rfl hbusy hnot id (fun _ => rfl)
          ⟨hcount, Or.inl ⟨Or.inr (Or.inl rfl), rfl⟩, hdeps, hafter⟩
          fun ψ hψ => by cases hψ; exact hphase⟩
    · exact hfailed
  · exact hfailed

theorem Sound.ruleApplied (h : Sound x.countBase x.phase x.currentMode r s l ps)
    (hk : ps[k]? = some (.applying c n)) (hφ : x.phase = .match)
    (hle : s.taskCount ≤ x.countBase + offsetBusy) (noop : Option Bool) :
    Keeps x r l ps k (ruleApplied s c noop) := by
  obtain ⟨hcount, hs, hdeps⟩ := h.ok hk
  have hcount : s.taskCount = x.countBase + offsetBusy := by omega
  have hne : ∀ st, l.stage ≠ .executed st := fun st he => by
    rw [hs] at he
    cases he
  cases noop with
  | none => exact h.matchFailed hk rfl rfl hcount (Or.inr hs) hdeps hφ
  | some noop =>
    have hready : ∀ st : TargetState, (st = .unknown ∨ st = .unchanged) →
        Ready { s with state := st } l := fun st hst =>
      Or.inl ⟨hs, hst.elim Or.inl fun hst => Or.inr (Or.inl hst)⟩
    have hst : ∀ st : TargetState, (st = .unknown ∨ st = .unchanged) →
        Keeps x r l ps k ({ s with state := st }, if c = .members then .held c offsetApplied
          else .unlocking offsetApplied (c.after (true, st)), []) := by
      intro st hst
      refine ⟨l, rfl, ?_⟩
      dsimp only
      split_ifs with hc
      · exact h.hold hk rfl rfl rfl rfl (Nat.le_of_eq hcount.symm) hne
          ⟨hcount, Or.inr ⟨rfl, hc, hready st hst⟩, hdeps⟩ fun ψ hψ => by cases hψ; exact hφ.symm
      · refine h.hold hk rfl rfl rfl rfl (Nat.le_of_eq hcount.symm) hne
          ⟨hcount, Or.inr ⟨rfl, hready st hst⟩, hdeps, ?_⟩ fun ψ hψ => by cases hψ; exact hφ.symm
        unfold Caller.after
        split
        · exact Or.inr ⟨rfl, rfl⟩
        · rfl
        · trivial
    cases noop with
    | false => exact hst .unknown (Or.inl rfl)
    | true => exact hst .unchanged (Or.inr rfl)

/-! ### Letting go of the lock -/

/-- The count says how far the target has come. -/
theorem Sound.release {next : After} {q : Place}
    (h : Sound x.countBase x.phase x.currentMode r s l ps) (hk : ps[k]? = some (.unlocking o next))
    (ho : o ≤ offsetApplied) (hnot : ¬ l.stage.Reached)
    (htried : stageAt o s.state = .tried → r = .none)
    (hstates : ∀ st, stageAt o s.state = .applied st →
      st = .unknown ∨ st = .unchanged ∨ st = .failed)
    (hp' : q.holding = 0) (hpo' : q.outstanding = 0)
    (hok : q.Ok x.countBase r { s with taskCount := o + x.countBase }
      { l with stage := stageAt o s.state })
    (hphase : ∀ ψ, q.phase = some ψ → ψ = .match) :
    Sound x.countBase x.phase x.currentMode r { s with taskCount := o + x.countBase }
      { l with stage := stageAt o s.state } (ps.set k q) := by
  obtain ⟨-, -, hdeps, -⟩ := h.ok hk
  have hφ := h.phase_eq hk rfl
  have hlt : o + x.countBase < x.countBase + offsetBusy := by
    unfold offsetBusy
    unfold offsetApplied at ho
    omega
  have hfree : busyCalls x.countBase { s with taskCount := o + x.countBase } = 0 :=
    if_neg (Nat.not_le_of_lt hlt)
  refine h.work hk rfl rfl hpo' (hp'.trans hfree.symm) (Or.inr (Or.inl hnot)) ?_ rfl ?_
    (fun _ => ⟨?_, fun _ => hdeps⟩) hok htried hstates rfl fun ψ hψ => (hphase ψ hψ).trans hφ.symm
  · intro st he
    exact hnot (he ▸ trivial)
  · intro he
    rw [hφ] at he
    cases he
  · dsimp only
    rw [Nat.add_sub_cancel]

theorem Sound.unlockImpl {next : After} (h : Sound x.countBase x.phase x.currentMode r s l ps)
    (hk : ps[k]? = some (.unlocking o next)) : Keeps x r l ps k (unlockImpl x s o next) := by
  obtain ⟨hcount, hplace, hdeps, hnext⟩ := h.ok hk
  have hnot : ¬ l.stage.Reached :=
    (h.ok hk).not_reached Nat.one_ne_zero |>.resolve_right fun he => by
    cases he
  have hnone : ∀ ψ, Place.done.phase = some ψ → ψ = .match := fun ψ hψ => by cases hψ
  unfold Algorithm.unlockImpl
  dsimp only
  rcases hplace with ⟨ho, hs⟩ | ⟨rfl, hready⟩
  · -- The rules have been tried, or not even that.
    have hle : o < offsetApplied := by rcases ho with rfl | rfl | rfl <;> decide
    have hne : o ≠ offsetApplied := Nat.ne_of_lt hle
    have hdone : Sound x.countBase x.phase x.currentMode r { s with taskCount := o + x.countBase } l
        (ps.set k .done) := by
      have hrel := h.release (q := .done) hk (Nat.le_of_lt hle) hnot (hs ▸ h.tried)
        (hs ▸ h.states) rfl rfl trivial hnone
      rwa [← hs] at hrel
    rw [if_neg hne]
    cases next with
    | returns q =>
      obtain ⟨rfl, rfl⟩ : q = (false, .unknown) ∧ o = offsetTried := by
        rcases hnext with hq | hq
        · exact hq
        · exact absurd hq.2 hne
      have hreturns : l.next (.returnsMatched (false, .unknown)) = some l :=
        if_pos (Or.inl ⟨rfl, hs⟩)
      exact ⟨l, Life.events_one hreturns, hdone⟩
    | reads => exact absurd hnext hne
    | executes => exact absurd hnext hne
    | done => exact ⟨l, rfl, hdone⟩
  · have happ : stageAt offsetApplied s.state = .applied s.state := rfl
    have hstates : ∀ st, stageAt offsetApplied s.state = .applied st →
        st = .unknown ∨ st = .unchanged ∨ st = .failed := by
      rintro st ⟨⟩
      rcases hready with ⟨-, hst⟩ | ⟨-, hst⟩
      · exact hst
      · exact Or.inr (Or.inr hst)
    have hnextApplied : l.next (.applied s.state) =
        some { l with stage := stageAt offsetApplied s.state } := by
      refine (if_pos ?_).trans rfl
      rcases hready with ⟨hs, -⟩ | ⟨hs, hst⟩
      · exact Or.inl hs
      · exact Or.inr ⟨hs, hst⟩
    have hrel : ∀ {p' : Place}, p'.holding = 0 → p'.outstanding = 0 →
        p'.Ok x.countBase r { s with taskCount := offsetApplied + x.countBase }
          { l with stage := stageAt offsetApplied s.state } →
        (∀ ψ, p'.phase = some ψ → ψ = .match) →
        Sound x.countBase x.phase x.currentMode r
          { s with taskCount := offsetApplied + x.countBase }
          { l with stage := stageAt offsetApplied s.state } (ps.set k p') :=
      fun hp hpo hok hp' => h.release hk (Nat.le_refl _) hnot (fun he => by cases he) hstates hp hpo
        hok hp'
    rw [if_pos rfl]
    cases next with
    | returns q =>
      obtain rfl : q = (true, s.state) := by
        rcases hnext with ⟨-, ho⟩ | hq
        · cases ho
        · exact hq.1
      have hreturns : ({ l with stage := stageAt offsetApplied s.state } : Life).next
          (.returnsMatched (true, s.state)) =
            some { l with stage := stageAt offsetApplied s.state } := if_pos (Or.inr ⟨rfl, rfl⟩)
      refine ⟨_, Life.events_two hnextApplied hreturns, ?_⟩
      dsimp only
      split_ifs with hgood
      · exact hrel rfl rfl hgood.2 fun ψ hψ => by cases hψ; rfl
      · exact hrel rfl rfl trivial hnone
    | reads =>
      exact ⟨_, Life.events_one hnextApplied, hrel rfl rfl trivial fun ψ hψ => by cases hψ; rfl⟩
    | executes =>
      exact ⟨_, Life.events_one hnextApplied, hrel rfl rfl trivial fun ψ hψ => by cases hψ⟩
    | done => exact ⟨_, Life.events_one hnextApplied, hrel rfl rfl trivial hnone⟩

theorem Sound.tryMatchedState (h : Sound x.countBase x.phase x.currentMode r s l ps)
    (hk : ps[k]? = some (.reading c)) : Keeps x r l ps k (tryMatchedState x s c) := by
  have hr : l.stage.Reached := h.ok hk
  have hφ := h.phase_eq hk rfl
  have hfree := h.free_of_match hφ hr
  have hstate : l.stage.state = some s.state ∧ (s.taskCount - x.countBase = offsetApplied ∨
      s.taskCount - x.countBase = offsetExecuted) := by
    rcases h.count_of_free hfree hr with ⟨hc, hs⟩ | ⟨hc, hs⟩
    · rw [hs, hc, Nat.add_sub_cancel_left]
      exact ⟨rfl, Or.inl rfl⟩
    · rw [hs, hc, Nat.add_sub_cancel_left]
      exact ⟨rfl, Or.inr rfl⟩
  have hne : s.taskCount - x.countBase ≠ offsetTried := by
    rcases hstate.2 with ho | ho <;> rw [ho] <;> decide
  have hreturns : l.next (.returnsMatched (true, s.state)) = some l :=
    if_pos (Or.inr ⟨rfl, hstate.1⟩)
  unfold Algorithm.tryMatchedState
  dsimp only
  rw [if_neg hne, if_pos hstate.2]
  refine ⟨l, Life.events_one hreturns, ?_⟩
  dsimp only
  split
  · split_ifs with hst
    · have hgood : l.stage.Good := by
        cases hl : l.stage with
        | applied st =>
          obtain rfl : st = s.state := by simpa [hl, Stage.state] using hstate.1
          exact hst
        | executed st =>
          obtain rfl : st = s.state := by simpa [hl, Stage.state] using hstate.1
          exact hst
        | _ => simp [hl, Stage.state] at hstate
      exact h.pass hk rfl rfl rfl hgood fun ψ hψ => by cases hψ; exact hφ.symm
    · exact h.pass hk rfl rfl rfl trivial fun ψ hψ => by cases hψ
  · exact h.pass hk rfl rfl rfl trivial fun ψ hψ => by cases hψ

/-! ### Dependents -/

theorem Sound.depends (h : Sound x.countBase x.phase x.currentMode r s l ps)
    (hk : ps[k]? = some .depending) :
    Keeps x r l ps k ({ s with dependents := s.dependents + 1 }, .counted, [.depends]) := by
  have hgood : l.stage.Good := h.ok hk
  have hφ := h.phase_eq hk rfl
  have hnext : l.next .depends = some { l with outstanding := l.outstanding + 1 } := by
    refine if_pos ?_
    cases hl : l.stage with
    | applied st =>
      rw [hl] at hgood
      exact decide_eq_true hgood
    | executed st =>
      rw [hl] at hgood
      exact decide_eq_true hgood
    | _ =>
      rw [hl] at hgood
      exact hgood.elim
  refine ⟨_, Life.events_one hnext, h.count hk rfl rfl rfl (fun hd => by rw [hd]) (fun he => ?_)
    hgood.live fun ψ hψ => by cases hψ⟩
  rw [hφ] at he
  cases he

/-- A target that is executed is not worked on by a call that matches it. -/
theorem Sound.dependents_eq (h : Sound x.countBase x.phase x.currentMode r s l ps)
    (hr : l.stage.Reached) : s.dependents = l.outstanding := by
  by_cases hlt : s.taskCount < x.countBase + offsetBusy
  · refine (h.free hlt).2 ?_
    rcases h.count_of_free hlt hr with ⟨hc, -⟩ | ⟨hc, -⟩ <;> rw [hc] <;>
      exact Nat.lt_add_of_pos_right (by decide)
  · obtain ⟨p, hp, hne⟩ := h.exists_holding (Nat.le_of_not_lt hlt)
    have hok := h.places p hp
    rcases hok.not_reached hne with hnot | he
    · exact absurd hr hnot
    · cases p with
      | running n => exact hok.2.2
      | finishing => exact hok.2.2
      | skipping => exact hok.2.2.2
      | _ => first | exact absurd rfl hne | cases he

theorem Sound.execute (h : Sound x.countBase x.phase x.currentMode r s l ps)
    (hk : ps[k]? = some .leaving) : Keeps x r l ps k (execute x s) := by
  have hlive : l.stage.Live := h.ok hk
  have hφ := h.phase_eq hk rfl
  have hdeps := h.dependents_eq hlive.reached
  have hpos : l.outstanding ≠ 0 := by
    have hle := le_census Place.outstanding hk
    rw [← h.outstanding] at hle
    exact Nat.ne_of_gt hle
  have hcount : ∀ {q : Place}, q.holding = 0 → q.outstanding = 0 →
      q.Ok x.countBase r { s with dependents := s.dependents - 1 }
        { l with outstanding := l.outstanding - 1 } →
      (∀ ψ, q.phase = some ψ → ψ = x.phase) →
      Sound x.countBase x.phase x.currentMode r { s with dependents := s.dependents - 1 }
        { l with outstanding := l.outstanding - 1 } (ps.set k q) := by
    intro q hp hpo hok hp'
    refine h.count hk rfl hp ?_ (fun hd => by rw [hd]) (fun _ h0 => by rw [h0]) hok hp'
    rw [hpo]
    exact Nat.sub_add_cancel (Nat.one_le_iff_ne_zero.mpr hpos)
  unfold Algorithm.execute
  rw [hdeps, if_neg hpos]
  dsimp only
  split_ifs with hlast
  · have hnext : l.next .postpones = some { l with outstanding := l.outstanding - 1 } := by
      refine if_pos ⟨h.mode.trans hlast.1, ?_⟩
      have := hlast.2
      omega
    have hs := hcount (q := .done) rfl rfl trivial fun ψ hψ => by cases hψ
    rw [hdeps] at hs
    exact ⟨_, Life.events_one hnext, hs⟩
  · have hlast' : l.mode = .last → l.outstanding = 1 := by
      intro hm
      by_contra hne
      exact hlast ⟨h.mode.symm.trans hm, by omega⟩
    have hnext : l.next .executes = some { l with outstanding := l.outstanding - 1 } :=
      if_pos ⟨hpos, hlast'⟩
    have hs := hcount (q := .trying) rfl rfl ⟨hlive, fun hm => by
      dsimp only
      rw [hlast' hm]⟩ fun ψ hψ => by cases hψ; exact hφ.symm
    rw [hdeps] at hs
    exact ⟨_, Life.events_one hnext, hs⟩

/-! ### Executing -/

theorem Sound.executeOthers {p : Place} (h : Sound x.countBase x.phase x.currentMode r s l ps)
    (hk : ps[k]? = some p) (hp : p.holding = 0) (hpo : p.outstanding = 0) (hφ : x.phase = .execute)
    (hr : l.stage.Reached) (hne : s.taskCount ≠ x.countBase + offsetApplied) :
    Keeps x r l ps k (executeOthers x s) := by
  unfold Algorithm.executeOthers
  split_ifs with hbusy hexec
  · exact ⟨l, rfl, h.pass hk hp rfl hpo.symm ⟨hr, Or.inl hbusy⟩
      fun ψ hψ => by cases hψ; exact hφ.symm⟩
  · refine ⟨l, rfl, h.pass hk hp rfl hpo.symm ?_ fun ψ hψ => by cases hψ; exact hφ.symm⟩
    rcases h.count_of_free (Nat.lt_of_not_le hbusy) hr with ⟨hc, -⟩ | ⟨-, hs⟩
    · exact absurd hc hne
    · exact hs
  · rcases h.count_of_free (Nat.lt_of_not_le hbusy) hr with ⟨hc, -⟩ | ⟨hc, -⟩
    · exact absurd hc hne
    · exact absurd hc hexec

theorem Sound.applied (h : Sound x.countBase x.phase x.currentMode r s l ps)
    (hc : s.taskCount = x.countBase + offsetApplied) :
    l.stage = .applied s.state ∧ s.dependents = l.outstanding ∧
      (s.state = .unknown ∨ s.state = .unchanged ∨ s.state = .failed) := by
  have hlt : s.taskCount < x.countBase + offsetBusy := by
    rw [hc]
    exact Nat.add_lt_add_left (by decide) _
  have hs : l.stage = .applied s.state := by
    have hstage := (h.free hlt).1
    rw [hc, Nat.add_sub_cancel_left] at hstage
    exact hstage
  refine ⟨hs, (h.free hlt).2 ?_, h.states _ hs⟩
  rw [hc]
  exact Nat.lt_add_of_pos_right (by decide)

theorem Sound.skip {p : Place} (h : Sound x.countBase x.phase x.currentMode r s l ps)
    (hk : ps[k]? = some p) (hp : p.holding = 0) (hpo : p.outstanding = 0) (hφ : x.phase = .execute)
    (hc : s.taskCount = x.countBase + offsetApplied) (hst : s.state ≠ .unknown) :
    Keeps x r l ps k ({ s with taskCount := x.countBase + offsetBusy }, .skipping, []) := by
  obtain ⟨hs, hdeps, -⟩ := h.applied hc
  exact ⟨l, rfl, h.claim hk hp hpo.symm rfl (Nat.le_of_eq hc) (Or.inl rfl) rfl ⟨rfl, hs, hst, hdeps⟩
    h.tried h.states rfl fun ψ hψ => by cases hψ; exact hφ.symm⟩

theorem Sound.executeImpl {p : Place} {direct : Bool}
    (h : Sound x.countBase x.phase x.currentMode r s l ps) (hk : ps[k]? = some p)
    (hp : p.holding = 0) (hpo : p.outstanding = 0) (hφ : x.phase = .execute)
    (hc : s.taskCount = x.countBase + offsetApplied) (hst : s.state = .unknown)
    (hlast : direct = false ∧ l.mode = .last → l.outstanding = 0) :
    Keeps x r l ps k
      (executeImpl { s with taskCount := x.countBase + offsetBusy } direct) := by
  obtain ⟨hs, hdeps, -⟩ := h.applied hc
  have hnext : l.next (.runs direct) = some { l with stage := .running } :=
    (if_pos ⟨hst ▸ hs, hlast⟩).trans rfl
  unfold Algorithm.executeImpl
  rw [if_pos hst]
  exact ⟨_, Life.events_one hnext, h.claim hk hp hpo.symm rfl (Nat.le_of_eq hc)
    (Or.inr (Or.inr ⟨hφ, Or.inl rfl⟩)) rfl ⟨rfl, rfl, hdeps⟩ (fun he => by cases he)
    (fun st he => by cases he) rfl fun ψ hψ => by cases hψ; exact hφ.symm⟩

theorem Sound.executeTry (h : Sound x.countBase x.phase x.currentMode r s l ps)
    (hk : ps[k]? = some .trying) : Keeps x r l ps k (executeTry x s) := by
  obtain ⟨hlive, hlast⟩ := h.ok hk
  have hφ := h.phase_eq hk rfl
  unfold Algorithm.executeTry
  by_cases hc : s.taskCount = x.countBase + offsetApplied
  · obtain ⟨hs, -, hst⟩ := h.applied hc
    rw [if_pos hc]
    dsimp only
    split_ifs with hunchanged
    · refine h.skip hk rfl rfl hφ hc ?_
      rw [hunchanged]
      decide
    · have hfailed : s.state ≠ .failed := by
        rw [hs] at hlive
        exact hlive
      have hunknown := hst.resolve_right fun hst => hst.elim hunchanged hfailed
      exact h.executeImpl hk rfl rfl hφ hc hunknown fun hm => hlast hm.2
  · rw [if_neg hc]
    exact h.executeOthers hk rfl rfl hφ hlive.reached hc

theorem Sound.executeDirect (h : Sound x.countBase x.phase x.currentMode r s l ps)
    (hk : ps[k]? = some .direct) : Keeps x r l ps k (executeDirect x s) := by
  have hr : l.stage.Reached := h.ok hk
  have hφ := h.phase_eq hk rfl
  unfold Algorithm.executeDirect
  by_cases hc : s.taskCount = x.countBase + offsetApplied
  · obtain ⟨-, -, hst⟩ := h.applied hc
    rw [if_pos hc]
    dsimp only
    split_ifs with hunknown hother
    · exact h.executeImpl hk rfl rfl hφ hc hunknown fun hm => absurd hm.1 (by decide)
    · exact h.skip hk rfl rfl hφ hc hunknown
    · exact absurd (hst.resolve_left hunknown) hother
  · rw [if_neg hc]
    exact h.executeOthers hk rfl rfl hφ hr hc

/-- The result of a target is there for others to see. -/
theorem Sound.publish {p : Place} {s' : OpState}
    (h : Sound x.countBase x.phase x.currentMode r s l ps)
    (hk : ps[k]? = some p) (hp : p.holding = 1) (hpo : p.outstanding = 0)
    (hexec : ∀ st, l.stage ≠ .executed st) (hφ : x.phase = .execute)
    (hc : s'.taskCount = x.countBase + offsetExecuted) (hdeps : s'.dependents = l.outstanding) :
    Sound x.countBase x.phase x.currentMode r s' { l with stage := .executed s'.state }
      (ps.set k .observing) := by
  have hlt : s'.taskCount < x.countBase + offsetBusy := by
    rw [hc]
    exact Nat.add_lt_add_left (by decide) _
  refine h.work hk hp hpo rfl (if_neg (Nat.not_le_of_lt hlt)).symm
    (Or.inr (Or.inr ⟨hφ, Or.inr ⟨_, rfl⟩⟩)) hexec rfl (fun _ _ => Or.inr rfl) (fun _ => ⟨?_, ?_⟩)
    rfl (fun he => by cases he) (fun st he => by cases he) rfl
    fun ψ hψ => by cases hψ; exact hφ.symm
  · rw [hc, Nat.add_sub_cancel_left]
    rfl
  · exact fun _ => hdeps

theorem Sound.recipe (h : Sound x.countBase x.phase x.currentMode r s l ps)
    (hk : ps[k]? = some (.running n)) (hle : s.taskCount ≤ x.countBase + offsetBusy)
    (st : TargetState) : Keeps x r l ps k ({ s with state := st }, .finishing, []) := by
  obtain ⟨hcount, hs, hdeps⟩ := h.ok hk
  have hφ := h.phase_eq hk rfl
  have hcount : s.taskCount = x.countBase + offsetBusy := by omega
  exact ⟨l, rfl, h.hold hk rfl rfl rfl rfl (Nat.le_of_eq hcount.symm)
    (fun st he => by rw [hs] at he; cases he) ⟨hcount, hs, hdeps⟩
    fun ψ hψ => by cases hψ; exact hφ.symm⟩

theorem Sound.executeEnd (h : Sound x.countBase x.phase x.currentMode r s l ps)
    (hk : ps[k]? = some .finishing) : Keeps x r l ps k (executeEnd x s) := by
  obtain ⟨hcount, hs, hdeps⟩ := h.ok hk
  have hφ := h.phase_eq hk rfl
  have hnext : l.next (.ran s.state) = some { l with stage := .executed s.state } :=
    (if_pos hs).trans rfl
  unfold Algorithm.executeEnd
  rw [if_pos hcount]
  refine ⟨_, Life.events_one hnext, h.publish hk rfl rfl (fun st he => ?_) hφ ?_ hdeps⟩
  · rw [hs] at he
    cases he
  · dsimp only
    rw [hcount]
    rfl

theorem Sound.skipped (h : Sound x.countBase x.phase x.currentMode r s l ps)
    (hk : ps[k]? = some .skipping) :
    Keeps x r l ps k
      ({ s with taskCount := x.countBase + offsetExecuted }, .observing, [.skips]) := by
  obtain ⟨-, hs, hst, hdeps⟩ := h.ok hk
  have hφ := h.phase_eq hk rfl
  have hnext : l.next .skips = some { l with stage := .executed s.state } := by
    simp [Life.next, hs, hst, Life.to]
  refine ⟨_, Life.events_one hnext, h.publish hk rfl rfl (fun st he => ?_) hφ rfl hdeps⟩
  rw [hs] at he
  cases he

theorem Sound.resume (h : Sound x.countBase x.phase x.currentMode r s l ps)
    (hk : ps[k]? = some .pausing) (hle : s.taskCount ≤ x.countBase + offsetExecuted) :
    Keeps x r l ps k (s, .observing, []) := by
  obtain ⟨-, hs⟩ := h.ok hk
  have hφ := h.phase_eq hk rfl
  refine ⟨l, rfl, h.pass hk rfl rfl rfl (hs.resolve_left fun hbusy => ?_)
    fun ψ hψ => by cases hψ; exact hφ.symm⟩
  unfold offsetBusy at hbusy
  unfold offsetExecuted at hle
  omega

theorem Sound.observe (h : Sound x.countBase x.phase x.currentMode r s l ps)
    (hk : ps[k]? = some .observing) :
    Keeps x r l ps k (s, .done, [.returnsExecuted s.state]) :=
  ⟨l, Life.events_one (if_pos (h.ok hk)), h.pass hk rfl rfl rfl trivial fun ψ hψ => by cases hψ⟩

/-! ### Steps -/

theorem Sound.tasks {p p' : Place} {d : ℕ} (h : Sound x.countBase x.phase x.currentMode r s l ps)
    (hk : ps[k]? = some p) (hp : p.holding = 1) (hpo : p.outstanding = 0) (hp' : p'.holding = 1)
    (hpo' : p'.outstanding = 0) (hexec : ∀ st, l.stage ≠ .executed st)
    (hd : x.countBase + offsetBusy ≤ d) (hok : p'.Ok x.countBase r { s with taskCount := d } l)
    (hphase : ∀ ψ, p'.phase = some ψ → ψ = x.phase) :
    Keeps x r l ps k ({ s with taskCount := d }, p', []) :=
  ⟨l, rfl, h.hold hk hp hpo hp' hpo' hd hexec hok hphase⟩

theorem ne_executed_of_eq {g : Stage} (h : l.stage = g) (hg : ∀ st, g ≠ .executed st)
    (st : TargetState) : l.stage ≠ .executed st := fun he => hg st (h.symm.trans he)

theorem Sound.region {a : Step} {p : Place} {x' : Context} {y : Moved}
    (h : Sound x.countBase x.phase x.currentMode r s l ps) (hk : ps[k]? = some p)
    (hcounted : p = .counted → x.dependencyCount ≠ 0)
    (hy : region x s r a p = some (x', y)) : Keeps x r l ps k y := by
  unfold Algorithm.region at hy
  split at hy
  · cases hy
    exact h.lockImpl hk _
  · split_ifs at hy with hlt
    cases hy
    exact h.wait hk hlt
  · cases hy
    exact ⟨l, rfl, h.pass hk rfl rfl rfl trivial fun ψ hψ => by cases hψ⟩
  · rename_i known c e
    have hwake := h.wake hk
    split_ifs at hy with hφ happ
    · cases hy
      have := hwake (not_not.mp hφ) known
      rwa [if_pos happ] at this
    · cases hy
      have := hwake (not_not.mp hφ) known
      rwa [if_neg happ] at this
  · cases hy
    exact h.locked hk
  · split_ifs at hy with hφ
    cases hy
    exact h.start hk hφ
  · cases hy
    exact h.proceed hk _
  · cases hy
    obtain ⟨hc, hs, ho, hdeps⟩ := h.ok hk
    exact h.tasks hk rfl rfl rfl rfl (ne_executed_of_eq hs fun st => by rintro ⟨⟩)
      (by rw [hc]; exact Nat.le_add_right_of_le (Nat.le_add_right _ _))
      ⟨congrArg (· + 1) hc, hs, ho, hdeps⟩ fun ψ hψ => by cases hψ
  · cases hy
    obtain ⟨hc, hs, ho, hdeps⟩ := h.ok hk
    exact h.tasks hk rfl rfl rfl rfl (ne_executed_of_eq hs fun st => by rintro ⟨⟩)
      (by rw [hc]; exact Nat.le_add_right _ _)
      ⟨congrArg (· - 1) hc, hs, ho, hdeps⟩ fun ψ hψ => by cases hψ
  · split_ifs at hy with hφ
    cases hy
    exact h.ruleMatched hk hφ.1 hφ.2
  · cases hy
    obtain ⟨hc, hs, hdeps⟩ := h.ok hk
    exact h.tasks hk rfl rfl rfl rfl (ne_executed_of_eq hs fun st => by rintro ⟨⟩)
      (by rw [hc]; exact Nat.le_add_right_of_le (Nat.le_add_right _ _))
      ⟨congrArg (· + 1) hc, hs, hdeps⟩ fun ψ hψ => by cases hψ
  · cases hy
    obtain ⟨hc, hs, hdeps⟩ := h.ok hk
    exact h.tasks hk rfl rfl rfl rfl (ne_executed_of_eq hs fun st => by rintro ⟨⟩)
      (by rw [hc]; exact Nat.le_add_right _ _)
      ⟨congrArg (· - 1) hc, hs, hdeps⟩ fun ψ hψ => by cases hψ
  · split_ifs at hy with hφ
    cases hy
    exact h.ruleApplied hk hφ.1 hφ.2 _
  · cases hy
    exact h.unlockImpl hk
  · cases hy
    exact h.tryMatchedState hk
  · cases hy
    have hgood := h.ok hk
    exact ⟨l, rfl, h.pass hk rfl rfl rfl hgood fun ψ hψ => by
      cases hψ
      exact (h.phase_eq hk rfl).symm⟩
  · cases hy
    have hgood : l.stage.Good := h.ok hk
    exact ⟨l, rfl, h.pass hk rfl rfl rfl hgood.live.reached fun ψ hψ => by cases hψ⟩
  · cases hy
    exact ⟨l, rfl, h.pass hk rfl rfl rfl trivial fun ψ hψ => by cases hψ⟩
  · cases hy
    exact h.depends hk
  · split_ifs at hy with hφ hzero
    · exact absurd hzero (hcounted rfl)
    · cases hy
      have hlive := h.ok hk
      exact ⟨l, rfl, h.pass hk rfl rfl rfl hlive fun ψ hψ => by
        cases hψ
        exact (not_not.mp hφ).symm⟩
  · cases hy
    exact h.execute hk
  · cases hy
    exact h.executeTry hk
  · split_ifs at hy with hφ
    cases hy
    have hr := h.ok hk
    exact ⟨l, rfl, h.pass hk rfl rfl rfl hr fun ψ hψ => by
      cases hψ
      exact hφ.symm⟩
  · cases hy
    exact h.executeDirect hk
  · cases hy
    obtain ⟨hc, hs, hdeps⟩ := h.ok hk
    exact h.tasks hk rfl rfl rfl rfl (ne_executed_of_eq hs fun st => by rintro ⟨⟩)
      (by rw [hc]; exact Nat.le_add_right_of_le (Nat.le_add_right _ _))
      ⟨congrArg (· + 1) hc, hs, hdeps⟩ fun ψ hψ => by
        cases hψ
        exact (h.phase_eq hk rfl).symm
  · cases hy
    obtain ⟨hc, hs, hdeps⟩ := h.ok hk
    exact h.tasks hk rfl rfl rfl rfl (ne_executed_of_eq hs fun st => by rintro ⟨⟩)
      (by rw [hc]; exact Nat.le_add_right _ _) ⟨congrArg (· - 1) hc, hs, hdeps⟩ fun ψ hψ => by
        cases hψ
        exact (h.phase_eq hk rfl).symm
  · split_ifs at hy with hle
    obtain ⟨st, -, hst⟩ := Option.map_eq_some_iff.mp hy
    cases hst
    exact h.recipe hk hle st
  · cases hy
    exact h.executeEnd hk
  · cases hy
    exact h.skipped hk
  · split_ifs at hy with hle
    cases hy
    exact h.resume hk hle
  · cases hy
    exact h.observe hk
  · cases hy

end Build2.Libbuild2.Algorithm
