import Build2.Lib.Census
import Build2.Libbuild2.Algorithm.LifeCycle

/-! # The calls of a target

One call at most works on a target, and then the task count is that of a busy target with the tasks
that the call has started. Otherwise the task count tells the stage of the target. What the other
calls have seen of the target stays true. -/

namespace Build2.Libbuild2.Algorithm

open Build2.Lib.Census
open PhaseMutex (RunPhase)

/-- The stage that a task count stands for. -/
def stageAt (o : ℕ) (st : TargetState) : Stage :=
  if o ≤ offsetTouched then .untouched
  else if o = offsetTried then .tried
  else if o = offsetMatched then .matched
  else if o = offsetApplied then .applied st
  else .executed st

theorem stageAt_ne_executed {o : ℕ} {st : TargetState} (h : o ≤ offsetApplied) (st' : TargetState) :
    stageAt o st ≠ .executed st' := by
  unfold stageAt offsetTouched offsetTried offsetMatched
  unfold offsetApplied at *
  split_ifs
  · rintro ⟨⟩
  · rintro ⟨⟩
  · rintro ⟨⟩
  · rintro ⟨⟩
  · omega

/-- A rule has been applied to the target. -/
def Stage.Reached : Stage → Prop
  | .applied _ | .running | .executed _ => True
  | _ => False

/-- It may be executed. -/
def Stage.Live : Stage → Prop
  | .applied st => st ≠ .failed
  | .running | .executed _ => True
  | _ => False

/-- It can be depended on. -/
def Stage.Good : Stage → Prop
  | .applied st | .executed st => st ≠ .failed
  | _ => False

theorem Stage.Good.live {g : Stage} (h : g.Good) : g.Live := by
  cases g <;> first | exact h | exact h.elim | trivial

theorem Stage.Live.reached {g : Stage} (h : g.Live) : g.Reached := by
  cases g <;> first | exact h | exact h.elim | trivial

/-- The call works on the target. -/
def Place.holding : Place → ℕ
  | .claimed _ _ | .queued _ | .held _ _ | .matching _ _ _ | .applying _ _ | .unlocking _ _
  | .running _ | .finishing | .skipping => 1
  | _ => 0

/-- The call is to take a dependent off. -/
def Place.outstanding : Place → ℕ
  | .counted | .leaving => 1
  | _ => 0

/-- What a call is going to return is so. -/
def After.Ok (st : TargetState) (o : ℕ) : After → Prop
  | .returns r => (r = (false, .unknown) ∧ o = offsetTried) ∨ (r = (true, st) ∧ o = offsetApplied)
  | .reads | .executes => o = offsetApplied
  | .done => True

/-- `match_impl` is done, or has failed. -/
def Ready (s : OpState) (l : Life) : Prop :=
  l.stage = .applying ∧ (s.state = .unknown ∨ s.state = .unchanged ∨ s.state = .failed) ∨
    l.stage = .matching ∧ s.state = .failed

/-- What a call knows about its target. The counts of the operation start at `b`. -/
def Place.Ok (b : ℕ) (r : Outcome) (s : OpState) (l : Life) : Place → Prop
  | .locking _ e => e < b + offsetApplied
  | .woken _ e => e < b + offsetBusy ∧ (b + offsetApplied ≤ e → l.stage.Reached)
  | .claimed _ e =>
    s.taskCount = b + offsetBusy ∧ e < b + offsetApplied ∧ l.stage = stageAt (e - b) s.state ∧
      (b < e → s.dependents = l.outstanding)
  | .queued o =>
    s.taskCount = b + offsetBusy ∧ (o = offsetTouched ∨ o = offsetTried ∨ o = offsetMatched) ∧
      l.stage = stageAt o s.state ∧ s.dependents = l.outstanding
  | .held c o =>
    s.taskCount = b + offsetBusy ∧
      ((o = offsetTouched ∨ o = offsetTried ∨ o = offsetMatched) ∧ l.stage = stageAt o s.state ∨
        o = offsetApplied ∧ c = .members ∧ Ready s l) ∧ s.dependents = l.outstanding
  | .matching _ o n =>
    s.taskCount = b + offsetBusy + n ∧ l.stage = .matching ∧
      (o = offsetTouched ∨ o = offsetTried ∧ r = .none) ∧ s.dependents = l.outstanding
  | .applying _ n =>
    s.taskCount = b + offsetBusy + n ∧ l.stage = .applying ∧ s.dependents = l.outstanding
  | .unlocking o next =>
    s.taskCount = b + offsetBusy ∧
      ((o = offsetTouched ∨ o = offsetTried ∨ o = offsetMatched) ∧ l.stage = stageAt o s.state ∨
        o = offsetApplied ∧ Ready s l) ∧ s.dependents = l.outstanding ∧ next.Ok s.state o
  | .reading _ | .switching | .direct => l.stage.Reached
  | .returned | .depending => l.stage.Good
  | .counted | .leaving => l.stage.Live
  | .trying => l.stage.Live ∧ (l.mode = .last → l.outstanding = 0)
  | .running n =>
    s.taskCount = b + offsetBusy + n ∧ l.stage = .running ∧ s.dependents = l.outstanding
  | .finishing => s.taskCount = b + offsetBusy ∧ l.stage = .running ∧ s.dependents = l.outstanding
  | .skipping =>
    s.taskCount = b + offsetBusy ∧ l.stage = .applied s.state ∧ s.state ≠ .unknown ∧
      s.dependents = l.outstanding
  | .pausing =>
    l.stage.Reached ∧ (b + offsetBusy ≤ s.taskCount ∨ l.stage = .executed s.state)
  | .observing => l.stage = .executed s.state
  | .waiting _ | .done => True

/-- Whether somebody works on a target. -/
def busyCalls (b : ℕ) (s : OpState) : ℕ := if b + offsetBusy ≤ s.taskCount then 1 else 0

/-- A target with the calls of it. -/
structure Sound (b : ℕ) (φ : RunPhase) (m : ExecutionMode) (r : Outcome) (s : OpState) (l : Life)
    (ps : List Place) : Prop where
  held : census Place.holding ps = busyCalls b s
  free : s.taskCount < b + offsetBusy → l.stage = stageAt (s.taskCount - b) s.state ∧
    (b < s.taskCount → s.dependents = l.outstanding)
  places : ∀ p ∈ ps, p.Ok b r s l
  outstanding : l.outstanding = census Place.outstanding ps
  tried : l.stage = .tried → r = .none
  states : ∀ st, l.stage = .applied st → st = .unknown ∨ st = .unchanged ∨ st = .failed
  mode : l.mode = m
  phase : ∀ p ∈ ps, ∀ ψ, p.phase = some ψ → ψ = φ

section

variable {b k : ℕ} {φ : RunPhase} {m : ExecutionMode} {r : Outcome} {s s' : OpState} {l l' : Life}
  {ps : List Place} {p p' : Place}

theorem Sound.set (h : Sound b φ m r s l ps) (hk : ps[k]? = some p)
    (hheld : busyCalls b s' + p.holding = busyCalls b s + p'.holding)
    (hfree : s'.taskCount < b + offsetBusy → l'.stage = stageAt (s'.taskCount - b) s'.state ∧
      (b < s'.taskCount → s'.dependents = l'.outstanding))
    (hout : l'.outstanding + p.outstanding = l.outstanding + p'.outstanding)
    (hok : p'.Ok b r s' l')
    (hothers : ∀ q : Place, q.Ok b r s l → (∀ ψ, q.phase = some ψ → ψ = φ) →
      q.holding + p.holding ≤ busyCalls b s → q.Ok b r s' l')
    (htried : l'.stage = .tried → r = .none)
    (hstates : ∀ st, l'.stage = .applied st → st = .unknown ∨ st = .unchanged ∨ st = .failed)
    (hmode : l'.mode = m) (hphase : ∀ ψ, p'.phase = some ψ → ψ = φ) :
    Sound b φ m r s' l' (ps.set k p') := by
  have hmem : ∀ q ∈ ps.set k p', q = p' ∨ ∃ j, ps[j]? = some q ∧ j ≠ k := by
    intro q hq
    obtain ⟨j, hj⟩ := List.mem_iff_getElem?.mp hq
    by_cases hjk : j = k
    · subst hjk
      obtain ⟨hlt, -⟩ := List.getElem?_eq_some_iff.mp hk
      rw [List.getElem?_set_self hlt] at hj
      exact Or.inl (Option.some.inj hj).symm
    · rw [List.getElem?_set_ne (Ne.symm hjk)] at hj
      exact Or.inr ⟨j, hj, hjk⟩
  refine ⟨?_, hfree, ?_, ?_, htried, hstates, hmode, ?_⟩
  · have hset := census_set Place.holding hk p'
    have hold := h.held
    omega
  · intro q hq
    obtain rfl | ⟨j, hj, hjk⟩ := hmem q hq
    · exact hok
    · have hq := List.mem_of_getElem? hj
      have hle := add_le_census Place.holding hj hk hjk
      rw [h.held] at hle
      exact hothers q (h.places q hq) (h.phase q hq) hle
  · have hset := census_set Place.outstanding hk p'
    have hold := h.outstanding
    omega
  · intro q hq
    obtain rfl | ⟨j, hj, -⟩ := hmem q hq
    · exact hphase
    · exact h.phase q (List.mem_of_getElem? hj)

/-- What a call that does not work on the target knows stays true. -/
theorem Place.Ok.change {q : Place} (h : q.Ok b r s l) (hq : q.holding = 0)
    (hphase : ∀ ψ, q.phase = some ψ → ψ = φ)
    (hreached : l.stage.Reached → l'.stage.Reached) (hlive : l.stage.Live → l'.stage.Live)
    (hgood : φ = .match → l.stage.Good → l'.stage.Good)
    (hout : φ = .execute → l.outstanding = 0 → l'.outstanding = 0) (hmode : l'.mode = l.mode)
    (hbusy : φ = .execute → l.stage.Reached → b + offsetBusy ≤ s.taskCount →
      b + offsetBusy ≤ s'.taskCount ∨ l'.stage = .executed s'.state)
    (hexec : l.stage = .executed s.state → l'.stage = .executed s'.state) : q.Ok b r s' l' := by
  cases q with
  | woken c e => exact ⟨h.1, fun he => hreached (h.2 he)⟩
  | reading c => exact hreached h
  | switching => exact hreached h
  | direct => exact hreached h
  | returned => exact hgood (hphase _ rfl).symm h
  | depending => exact hgood (hphase _ rfl).symm h
  | counted => exact hlive h
  | leaving => exact hlive h
  | trying => exact ⟨hlive h.1, fun hm => hout (hphase _ rfl).symm (h.2 (hmode ▸ hm))⟩
  | pausing =>
    refine ⟨hreached h.1, ?_⟩
    rcases h.2 with hb | he
    · exact hbusy (hphase _ rfl).symm h.1 hb
    · exact Or.inr (hexec he)
  | observing => exact hexec h
  | locking c e => exact h
  | waiting c => exact h
  | done => exact h
  | _ => cases hq

theorem Ready.keep (h : Ready s l) (hstate : s'.state = s.state) (hstage : l'.stage = l.stage) :
    Ready s' l' := by
  unfold Ready
  rw [hstate, hstage]
  exact h

/-- What the call that works on the target knows stays true. -/
theorem Place.Ok.keep {q : Place} (h : q.Ok b r s l) (hq : q.holding = 1)
    (hcount : s'.taskCount = s.taskCount) (hstate : s'.state = s.state)
    (hstage : l'.stage = l.stage)
    (hdeps : s.dependents = l.outstanding → s'.dependents = l'.outstanding) : q.Ok b r s' l' := by
  have hat : ∀ {o}, l.stage = stageAt o s.state → l'.stage = stageAt o s'.state := by
    intro o ho
    rw [hstage, hstate]
    exact ho
  cases q with
  | claimed c e =>
    obtain ⟨h1, h2, h3, h4⟩ := h
    exact ⟨hcount.trans h1, h2, hat h3, fun he => hdeps (h4 he)⟩
  | queued o =>
    obtain ⟨h1, h2, h3, h4⟩ := h
    exact ⟨hcount.trans h1, h2, hat h3, hdeps h4⟩
  | held c o =>
    obtain ⟨h1, h2, h3⟩ := h
    refine ⟨hcount.trans h1, ?_, hdeps h3⟩
    rcases h2 with ⟨ho, hs⟩ | ⟨ho, hc, hr⟩
    · exact Or.inl ⟨ho, hat hs⟩
    · exact Or.inr ⟨ho, hc, hr.keep hstate hstage⟩
  | matching c o n =>
    obtain ⟨h1, h2, h3, h4⟩ := h
    exact ⟨hcount.trans h1, hstage.trans h2, h3, hdeps h4⟩
  | applying c n => exact ⟨hcount.trans h.1, hstage.trans h.2.1, hdeps h.2.2⟩
  | unlocking o next =>
    obtain ⟨h1, h2, h3, h4⟩ := h
    refine ⟨hcount.trans h1, ?_, hdeps h3, hstate ▸ h4⟩
    rcases h2 with ⟨ho, hs⟩ | ⟨ho, hr⟩
    · exact Or.inl ⟨ho, hat hs⟩
    · exact Or.inr ⟨ho, hr.keep hstate hstage⟩
  | running n => exact ⟨hcount.trans h.1, hstage.trans h.2.1, hdeps h.2.2⟩
  | finishing => exact ⟨hcount.trans h.1, hstage.trans h.2.1, hdeps h.2.2⟩
  | skipping =>
    obtain ⟨h1, h2, h3, h4⟩ := h
    exact ⟨hcount.trans h1, by rw [hstage, hstate]; exact h2, hstate ▸ h3, hdeps h4⟩
  | _ => cases hq

/-! ### Kinds of steps -/

/-- How the stage of a target goes on, seen by the calls that do not work on it. -/
def Goes (φ : RunPhase) (g g' : Stage) : Prop :=
  g' = g ∨ ¬ g.Reached ∨ φ = .execute ∧ (g' = .running ∨ ∃ st, g' = .executed st)

section

variable {g g' : Stage}

theorem Goes.reached (h : Goes φ g g') (hg : g.Reached) : g'.Reached := by
  rcases h with rfl | h | ⟨-, rfl | ⟨st, rfl⟩⟩
  · exact hg
  · exact absurd hg h
  · trivial
  · trivial

theorem Goes.live (h : Goes φ g g') (hg : g.Live) : g'.Live := by
  rcases h with rfl | h | ⟨-, rfl | ⟨st, rfl⟩⟩
  · exact hg
  · exact absurd hg.reached h
  · trivial
  · trivial

theorem Goes.good (h : Goes φ g g') (hφ : φ = .match) (hg : g.Good) : g'.Good := by
  rcases h with rfl | h | ⟨he, -⟩
  · exact hg
  · exact absurd hg.live.reached h
  · rw [hφ] at he
    cases he

end

theorem busyCalls_le : busyCalls b s ≤ 1 := by
  unfold busyCalls
  split_ifs <;> omega

/-- A call that does not work on the target, and goes on not to. -/
theorem Sound.pass (h : Sound b φ m r s l ps) (hk : ps[k]? = some p) (hp : p.holding = 0)
    (hp' : p'.holding = 0) (hout : p'.outstanding = p.outstanding) (hok : p'.Ok b r s l)
    (hphase : ∀ ψ, p'.phase = some ψ → ψ = φ) : Sound b φ m r s l (ps.set k p') :=
  h.set hk (by rw [hp, hp']) h.free (by rw [hout]) hok (fun _ hq _ _ => hq) h.tried h.states h.mode
    hphase

theorem Sound.work (h : Sound b φ m r s l ps) (hk : ps[k]? = some p) (hp : p.holding = 1)
    (hpo : p.outstanding = 0) (hpo' : p'.outstanding = 0) (hp' : p'.holding = busyCalls b s')
    (hgoes : Goes φ l.stage l'.stage) (hexec : ∀ st, l.stage ≠ .executed st)
    (hout : l'.outstanding = l.outstanding)
    (hbusy : φ = .execute → l.stage.Reached →
      b + offsetBusy ≤ s'.taskCount ∨ l'.stage = .executed s'.state)
    (hfree : s'.taskCount < b + offsetBusy → l'.stage = stageAt (s'.taskCount - b) s'.state ∧
      (b < s'.taskCount → s'.dependents = l'.outstanding))
    (hok : p'.Ok b r s' l') (htried : l'.stage = .tried → r = .none)
    (hstates : ∀ st, l'.stage = .applied st → st = .unknown ∨ st = .unchanged ∨ st = .failed)
    (hmode : l'.mode = l.mode) (hphase : ∀ ψ, p'.phase = some ψ → ψ = φ) :
    Sound b φ m r s' l' (ps.set k p') := by
  have hheld : busyCalls b s = 1 := by
    have hle := le_census Place.holding hk
    rw [h.held, hp] at hle
    exact Nat.le_antisymm busyCalls_le hle
  refine h.set hk (by omega) hfree (by omega) hok (fun q hq hqφ hle => ?_) htried hstates
    (hmode.trans h.mode) hphase
  exact hq.change (by omega) hqφ hgoes.reached hgoes.live hgoes.good (fun _ h0 => hout.trans h0)
    hmode (fun he hr _ => hbusy he hr) fun he => absurd he (hexec _)

theorem Sound.claim (h : Sound b φ m r s l ps) (hk : ps[k]? = some p) (hp : p.holding = 0)
    (hpo : p'.outstanding = p.outstanding) (hp' : p'.holding = 1)
    (hcount : s.taskCount ≤ b + offsetApplied) (hgoes : Goes φ l.stage l'.stage)
    (hout : l'.outstanding = l.outstanding)
    (hok : p'.Ok b r { s with taskCount := b + offsetBusy } l')
    (htried : l'.stage = .tried → r = .none)
    (hstates : ∀ st, l'.stage = .applied st → st = .unknown ∨ st = .unchanged ∨ st = .failed)
    (hmode : l'.mode = l.mode) (hphase : ∀ ψ, p'.phase = some ψ → ψ = φ) :
    Sound b φ m r { s with taskCount := b + offsetBusy } l' (ps.set k p') := by
  have hfree : busyCalls b s = 0 := if_neg (by unfold offsetApplied offsetBusy at *; omega)
  have hbusy : busyCalls b { s with taskCount := b + offsetBusy } = 1 := if_pos (Nat.le_refl _)
  have hexec : ∀ st, l.stage ≠ .executed st := by
    intro st he
    have hstage := (h.free (by unfold offsetApplied offsetBusy at *; omega)).1
    exact stageAt_ne_executed (by omega) st (hstage.symm.trans he)
  refine h.set hk (by omega) (fun hlt => absurd hlt (Nat.lt_irrefl _)) (by omega) hok
    (fun q hq hqφ hle => ?_) htried hstates (hmode.trans h.mode) hphase
  exact hq.change (by omega) hqφ hgoes.reached hgoes.live hgoes.good (fun _ h0 => hout.trans h0)
    hmode (fun _ _ _ => Or.inl (Nat.le_refl _)) fun he => absurd he (hexec _)

theorem Sound.count {d o : ℕ} (h : Sound b φ m r s l ps) (hk : ps[k]? = some p)
    (hp : p.holding = 0) (hp' : p'.holding = 0) (hout : o + p.outstanding = l.outstanding +
      p'.outstanding) (hdeps : s.dependents = l.outstanding → d = o)
    (hzero : φ = .execute → l.outstanding = 0 → o = 0)
    (hok : p'.Ok b r { s with dependents := d } { l with outstanding := o })
    (hphase : ∀ ψ, p'.phase = some ψ → ψ = φ) :
    Sound b φ m r { s with dependents := d } { l with outstanding := o } (ps.set k p') := by
  refine h.set hk (by rw [hp, hp']; rfl) (fun hlt => ?_) hout hok (fun q hq hqφ hle => ?_) h.tried
    h.states h.mode hphase
  · exact ⟨(h.free hlt).1, fun hb => hdeps ((h.free hlt).2 hb)⟩
  · have hle : q.holding ≤ 1 := by
      have := busyCalls_le (b := b) (s := s)
      omega
    rcases Nat.le_one_iff_eq_zero_or_eq_one.mp hle with h0 | h1
    · exact hq.change h0 hqφ id id (fun _ => id) hzero rfl (fun _ _ hb => Or.inl hb) id
    · exact hq.keep h1 rfl rfl rfl hdeps

end

end Build2.Libbuild2.Algorithm
