import Build2.Bpkg.LifeCycle.Prerequisites
import Build2.Bpkg.PkgBuild.Environment

/-! # The life cycle of selected packages

An operation changes the record of one package. What is committed stays consistent: the fields of a
record agree with its state, and the prerequisites of a configured package are configured in
versions that meet its constraints. -/

namespace Build2.Bpkg.LifeCycle

open Build2.Lib.ByteString Build2.Libbpkg Build2.Lib.Outcome
open PkgBuild (PackageName Dependency DependencyAlternatives PackageState PackageSubstate)

/-! ### Configurations -/

/-- A configuration, with what is not in the database: the dependencies that a configured package
chose, and whether a broken one broke while it was configured or disfigured. -/
structure Configuration where
  packages : Database
  chosen : PackageName → List Dependency
  brokeConfigured : PackageName → Bool

/-- The package is selected and in this state. -/
def Database.isIn (db : Database) (n : PackageName) (s : PackageState) : Bool :=
  (db.find n).any fun p => p.state = s

namespace Operation

/-- The dependencies that are chosen when the package is configured. -/
def choices (db : Database) : Operation → List Dependency
  | configure _ tools (some m) _ _ => LifeCycle.choices db tools m.dependencies
  | _ => []

/-- The operation configures or disfigures a package. -/
def configures : Operation → Bool
  | configure .. => true
  | disfigure .. => true
  | _ => false

end Operation

namespace Configuration

variable (c : Configuration) (op : Operation)

def empty : Configuration := ⟨∅, fun _ => [], fun _ => false⟩

/-- The operation has committed `db`. -/
def record (db : Database) : Configuration where
  packages := db
  chosen n :=
    if db.isIn n .configured && !c.packages.isIn n .configured then op.choices c.packages
    else c.chosen n
  brokeConfigured n :=
    if db.isIn n .broken && !c.packages.isIn n .broken then op.configures else c.brokeConfigured n

/-- An operation, unless an assertion fails. -/
def step : Option Configuration := (op.commit c.packages).map (c.record op)

/-- Operations one after the other, unless an assertion fails. -/
def run (c : Configuration) : List Operation → Option Configuration
  | [] => some c
  | op :: ops => (c.step op).bind fun c => run c ops

end Configuration

/-! ### Consistency -/

/-- The fields of a record agree with its state. -/
structure Coherent (p : SelectedPackage) (brokeConfigured : Bool) : Prop where
  version : IsAvailable p.version ∨ p.substate = .system ∧ p.version = wildcardVersion
  stored : p.state ≠ .transient
  fetched : p.state = .fetched → p.archive.isSome = true ∧ p.srcRoot = none
  sourced : p.state = .unpacked ∨ p.state = .configured ∧ p.substate ≠ .system →
    p.srcRoot.isSome = true
  checksum : p.srcRoot.isSome = true → p.manifestChecksum.isSome = true
  purgeArchive : p.purgeArchive = true → p.archive.isSome = true
  purgeSrc : p.purgeSrc = true → p.srcRoot.isSome = true
  outRoot : p.outRoot.isSome = true ↔ p.state = .configured ∧ p.substate ≠ .system ∨
    p.state = .broken ∧ brokeConfigured = true
  prerequisites : p.state ≠ .configured → p.prerequisites = ∅
  system : p.substate = .system →
    p.state = .configured ∧ p.archive = none ∧ p.srcRoot = none ∧ p.outRoot = none

/-- The constraint that is recorded on a prerequisite implies that of a chosen dependency, and the
prerequisite satisfies the latter. -/
def Recorded (db : Database) (p : SelectedPackage) (d : Dependency) : Prop :=
  ∃ c, p.prerequisites.lookup d.name = some c ∧ constraintSatisfies c d.constraint = .ok true ∧
    Implies c d.constraint ∧ Met db d.name d.constraint

/-- The committed database is consistent. -/
structure Consistent (c : Configuration) : Prop where
  named : ∀ n p, c.packages.find n = some p → p.name = n
  coherent : ∀ n p, c.packages.find n = some p → Coherent p (c.brokeConfigured n)
  met : ∀ n p, c.packages.find n = some p → ∀ m k, p.prerequisites.lookup m = some k →
    Met c.packages m k
  recorded : ∀ n p, c.packages.find n = some p → p.state = .configured → ∀ d ∈ c.chosen n,
    Recorded c.packages p d

theorem consistent_empty : Consistent .empty where
  named _ _ h := by cases h
  coherent _ _ h := by cases h
  met _ _ h := by cases h
  recorded _ _ h := by cases h

/-! ### Changes of one package -/

/-- What an operation may do: it changes the record of `n`. A package that others depend on stays as
it is. -/
structure Change (db : Database) (configures : Bool) (chosen : List Dependency) (n : PackageName)
    (db' : Database) : Prop where
  others : ∀ m, m ≠ n → db'.find m = db.find m
  released : db.isIn n .configured = true →
    ∀ m q, db.find m = some q → q.prerequisites.lookup n = none
  named : ∀ p, db'.find n = some p → p.name = n
  coherent : ∀ p, db'.find n = some p → Coherent p configures
  broken : db'.isIn n .broken = true → db.isIn n .broken = false
  configured : db'.isIn n .configured = true → db.isIn n .configured = false
  met : ∀ p, db'.find n = some p → ∀ m k, p.prerequisites.lookup m = some k → Met db m k
  recorded : ∀ p, db'.find n = some p → p.state = .configured → ∀ d ∈ chosen, Recorded db p d

section

variable {db db' : Database} {n m : PackageName} {p : SelectedPackage} {s : PackageState}

theorem isIn_of_find (h : db.find n = some p) : db.isIn n s = decide (p.state = s) := by
  unfold Database.isIn
  rw [h]
  rfl

theorem isIn_of_state (h : db.find n = some p) (hs : p.state = s) : db.isIn n s = true := by
  rw [isIn_of_find h, hs]
  exact decide_eq_true rfl

theorem isIn_congr (h : db'.find n = db.find n) : db'.isIn n s = db.isIn n s := by
  unfold Database.isIn
  rw [h]

theorem Met.isIn {k : Option VersionConstraint} (h : Met db n k) :
    db.isIn n .configured = true := by
  obtain ⟨q, hq, hs, -⟩ := h
  exact isIn_of_state hq hs

theorem Met.congr {k : Option VersionConstraint} (h : Met db n k) (hn : db'.find n = db.find n) :
    Met db' n k := by
  obtain ⟨q, hq, hs⟩ := h
  exact ⟨q, hn.trans hq, hs⟩

theorem Change.met_of_lookup {b : Bool} {ds : List Dependency} {q : SelectedPackage}
    {k c : Option VersionConstraint} (h : Change db b ds n db') (hq : db.find m = some q)
    {a : PackageName} (hk : q.prerequisites.lookup a = some k) (hm : Met db a c) : Met db' a c := by
  refine hm.congr (h.others a ?_)
  rintro rfl
  rw [h.released hm.isIn m q hq] at hk
  cases hk

/-- What the changed package needs is not the package itself. -/
theorem Change.met_of_changed {b : Bool} {ds : List Dependency} {k c : Option VersionConstraint}
    (h : Change db b ds n db') (hp : db'.find n = some p) {a : PackageName}
    (hk : p.prerequisites.lookup a = some k) (hm : Met db a c) : Met db' a c := by
  refine hm.congr (h.others a ?_)
  rintro rfl
  have hs : p.state = .configured := by
    by_contra hs
    rw [(h.coherent p hp).prerequisites hs, AList.lookup_empty] at hk
    cases hk
  have := h.configured (isIn_of_state hp hs)
  rw [hm.isIn] at this
  cases this

/-- **A change of one package** keeps the database consistent. -/
theorem Consistent.record {c : Configuration} {op : Operation} (h : Consistent c)
    (hc : Change c.packages op.configures (op.choices c.packages) n db') :
    Consistent (c.record op db') where
  named m p hp := by
    by_cases hm : m = n
    · subst hm
      exact hc.named p hp
    · exact h.named m p ((hc.others m hm).symm.trans hp)
  coherent m p hp := by
    by_cases hm : m = n
    · subst hm
      have hco := hc.coherent p hp
      refine { hco with outRoot := hco.outRoot.trans ?_ }
      by_cases hs : p.state = .broken
      · have hbr : db'.isIn m .broken = true := isIn_of_state hp hs
        show _ ↔ _ ∨ _ ∧ (if _ then _ else _) = true
        rw [if_pos (by rw [hbr, hc.broken hbr]; rfl)]
      · simp only [hs, false_and]
    · have hp' := (hc.others m hm).symm.trans hp
      have hco := h.coherent m p hp'
      have hg : (c.record op db').brokeConfigured m = c.brokeConfigured m := by
        show (if _ then _ else _) = _
        rw [isIn_congr (hc.others m hm), Bool.and_not_self, if_neg (by decide)]
      rwa [hg]
  met m p hp a k hk := by
    by_cases hm : m = n
    · subst hm
      exact hc.met_of_changed hp hk (hc.met p hp a k hk)
    · have hp' := (hc.others m hm).symm.trans hp
      exact hc.met_of_lookup hp' hk (h.met m p hp' a k hk)
  recorded m p hp hs d hd := by
    by_cases hm : m = n
    · subst hm
      have hcf : db'.isIn m .configured = true := isIn_of_state hp hs
      have hg : (c.record op db').chosen m = op.choices c.packages := by
        show (if _ then _ else _) = _
        rw [hcf, hc.configured hcf]
        rfl
      rw [hg] at hd
      obtain ⟨k, hk, h1, h2, h3⟩ := hc.recorded p hp hs d hd
      exact ⟨k, hk, h1, h2, hc.met_of_changed hp hk h3⟩
    · have hp' := (hc.others m hm).symm.trans hp
      have hg : (c.record op db').chosen m = c.chosen m := by
        show (if _ then _ else _) = _
        rw [isIn_congr (hc.others m hm), Bool.and_not_self, if_neg (by decide)]
      rw [hg] at hd
      obtain ⟨k, hk, h1, h2, h3⟩ := h.recorded m p hp' hs d hd
      exact ⟨k, hk, h1, h2, hc.met_of_lookup hp' hk h3⟩

end

/-! ### Updating and erasing -/

section

variable {db : Database} {n m : PackageName} {p q : SelectedPackage}

theorem find_update (db : Database) (p : SelectedPackage) (m : PackageName) :
    (db.update p).find m = if m = p.name then some p else db.find m := by
  unfold Database.update Database.find
  split_ifs with h
  · rw [h, AList.lookup_insert]
  · rw [AList.lookup_insert_ne h]

theorem find_erase (db : Database) (p : SelectedPackage) (m : PackageName) :
    (db.erase p).find m = if m = p.name then none else db.find m := by
  unfold Database.erase Database.find
  split_ifs with h
  · rw [h, AList.lookup_erase]
  · rw [AList.lookup_erase_ne h]

theorem persist_ends (h : db.find p.name = none) {E : Failure → Prop} {P : Database → Prop}
    (hP : P (db.update p)) : Ends (db.persist p) E P := by
  unfold Database.persist
  rw [h]
  exact hP

theorem lookup_of_dependents (h : (db.dependents n).isEmpty = true) (hq : db.find m = some q) :
    q.prerequisites.lookup n = none := by
  have hm : Sigma.mk m q ∈ db.entries := AList.mem_lookup_iff.mp hq
  have hnil : db.dependents n = [] := List.isEmpty_iff.mp h
  have hnone := List.filterMap_eq_nil_iff.mp hnil _ hm
  cases hl : q.prerequisites.lookup n with
  | none => rfl
  | some c =>
    rw [hl] at hnone
    cases hnone

/-- The record of the package becomes `r`. Nothing else changes. -/
structure Becomes (db : Database) (n : PackageName) (r : Option SelectedPackage) (db' : Database) :
    Prop where
  self : db'.find n = r
  others : ∀ m, m ≠ n → db'.find m = db.find m

theorem becomes_update (db : Database) (p : SelectedPackage) :
    Becomes db p.name (some p) (db.update p) where
  self := by rw [find_update, if_pos rfl]
  others m hm := by rw [find_update, if_neg hm]

theorem becomes_erase (db : Database) (p : SelectedPackage) :
    Becomes db p.name none (db.erase p) where
  self := by rw [find_erase, if_pos rfl]
  others m hm := by rw [find_erase, if_neg hm]

variable {db' : Database} {b : Bool} {ds : List Dependency}

theorem Becomes.change_none (h : Becomes db n none db')
    (hr : db.isIn n .configured = true → ∀ m q, db.find m = some q →
      q.prerequisites.lookup n = none) : Change db b ds n db' where
  others := h.others
  released := hr
  named p hp := by rw [h.self] at hp; cases hp
  coherent p hp := by rw [h.self] at hp; cases hp
  broken hb := by unfold Database.isIn at hb; rw [h.self] at hb; cases hb
  configured hb := by unfold Database.isIn at hb; rw [h.self] at hb; cases hb
  met p hp := by rw [h.self] at hp; cases hp
  recorded p hp := by rw [h.self] at hp; cases hp

theorem Becomes.change_some (h : Becomes db n (some p) db') (hn : p.name = n)
    (hs : p.state ≠ .configured) (hp : Coherent p b)
    (hb : p.state = .broken → db.isIn n .broken = false)
    (hr : db.isIn n .configured = true → ∀ m q, db.find m = some q →
      q.prerequisites.lookup n = none) : Change db b ds n db' where
  others := h.others
  released := hr
  named q hq := by
    rw [h.self] at hq
    cases hq
    exact hn
  coherent q hq := by
    rw [h.self] at hq
    cases hq
    exact hp
  broken hbr := by
    rw [isIn_of_find h.self, decide_eq_true_eq] at hbr
    exact hb hbr
  configured hc := by
    rw [isIn_of_find h.self, decide_eq_true_eq] at hc
    exact absurd hc hs
  met q hq m k hk := by
    rw [h.self] at hq
    cases hq
    rw [hp.prerequisites hs, AList.lookup_empty] at hk
    cases hk
  recorded q hq hc := by
    rw [h.self] at hq
    cases hq
    exact absurd hc hs

theorem Becomes.change_configured (h : Becomes db n (some p) db') (hn : p.name = n)
    (hp : Coherent p b) (hs : p.state = .configured) (hr : db.isIn n .configured = false)
    (hm : ∀ m k, p.prerequisites.lookup m = some k → Met db m k)
    (hd : ∀ d ∈ ds, Recorded db p d) : Change db b ds n db' where
  others := h.others
  released hc := by rw [hr] at hc; cases hc
  named q hq := by
    rw [h.self] at hq
    cases hq
    exact hn
  coherent q hq := by
    rw [h.self] at hq
    cases hq
    exact hp
  broken hb := by
    rw [isIn_of_find h.self, decide_eq_true_eq, hs] at hb
    cases hb
  configured _ := hr
  met q hq := by
    rw [h.self] at hq
    cases hq
    exact hm
  recorded q hq _ := by
    rw [h.self] at hq
    cases hq
    exact hd

end

/-! ### Packages that are not configured -/

/-- What a record satisfies, whatever its state, unless it is that of a configured package or of one
that broke while it was configured. -/
structure Quiet (p : SelectedPackage) : Prop where
  version : IsAvailable p.version
  substate : p.substate ≠ .system
  outRoot : p.outRoot = none
  prerequisites : p.prerequisites = ∅
  checksum : p.srcRoot.isSome = true → p.manifestChecksum.isSome = true
  purgeArchive : p.purgeArchive = true → p.archive.isSome = true
  purgeSrc : p.purgeSrc = true → p.srcRoot.isSome = true

/-- An operation commits nothing or a change of one package. -/
def Committed (db : Database) (b : Bool) (ds : List Dependency) (db' : Database) : Prop :=
  db' = db ∨ ∃ n, Change db b ds n db'

/-- An operation fails, having committed nothing or a change of one package. -/
def FailsSafe (db : Database) (b : Bool) (ds : List Dependency) (e : Failure) : Prop :=
  ∃ db', e = .failed db' ∧ Committed db b ds db'

section

variable {db db' : Database} {n m : PackageName} {p q : SelectedPackage} {b g : Bool}
  {ds : List Dependency}

theorem committed_self : Committed db b ds db := Or.inl rfl

theorem failsSafe_self : FailsSafe db b ds (.failed db) := ⟨db, rfl, committed_self⟩

theorem Aborted.failsSafe {e : Failure} (h : Aborted db e) : FailsSafe db b ds e :=
  ⟨db, h, committed_self⟩

theorem Quiet.coherent (h : Quiet p) (hs : p.state = .fetched ∨ p.state = .unpacked ∨
    p.state = .broken ∧ b = false) (hf : p.state = .fetched → p.archive.isSome = true ∧
    p.srcRoot = none) (hu : p.state = .unpacked → p.srcRoot.isSome = true) : Coherent p b where
  version := Or.inl h.version
  stored ht := by rw [ht] at hs; simp at hs
  fetched := hf
  sourced hc := hu <| hc.resolve_right fun hc => by rw [hc.1] at hs; simp at hs
  checksum := h.checksum
  purgeArchive := h.purgeArchive
  purgeSrc := h.purgeSrc
  outRoot := by
    rw [h.outRoot]
    rcases hs with hs | hs | ⟨hs, rfl⟩ <;> simp [hs]
  prerequisites _ := h.prerequisites
  system hc := absurd hc h.substate

theorem Coherent.quiet (h : Coherent p g) (hs : p.state ≠ .configured) (hb : p.state ≠ .broken) :
    Quiet p where
  version := h.version.resolve_right fun hv => hs (h.system hv.1).1
  substate hc := hs (h.system hc).1
  outRoot := by
    have := h.outRoot
    simp only [hs, hb, false_and, or_false, iff_false, Bool.not_eq_true, Option.isSome_eq_false_iff,
      Option.isNone_iff_eq_none] at this
    exact this
  prerequisites := h.prerequisites hs
  checksum := h.checksum
  purgeArchive := h.purgeArchive
  purgeSrc := h.purgeSrc

theorem Quiet.setState (h : Quiet p) (s : PackageState) : Quiet { p with state := s } :=
  ⟨h.version, h.substate, h.outRoot, h.prerequisites, h.checksum, h.purgeArchive, h.purgeSrc⟩

theorem replaceable_iff : p.replaceable = true ↔ p.state = .fetched ∨ p.state = .unpacked := by
  unfold SelectedPackage.replaceable
  rw [Bool.or_eq_true, decide_eq_true_eq, decide_eq_true_eq]

theorem Coherent.quiet_of_replaceable (h : Coherent p g) (hr : p.replaceable = true) : Quiet p := by
  rcases replaceable_iff.mp hr with hs | hs <;> exact h.quiet (by rw [hs]; simp) (by rw [hs]; simp)

theorem isIn_of_replaceable (hp : db.find n = some p) (hr : p.replaceable = true) :
    db.isIn n .configured = false ∧ db.isIn n .broken = false := by
  rcases replaceable_iff.mp hr with hs | hs <;> simp [isIn_of_find hp, hs]

/-- A package that may be replaced gets another record that is not that of a configured one. -/
theorem change_update (hp : db.find n = some p) (hr : p.replaceable = true) (hq : q.name = n)
    (hco : Coherent q b) (hs : q.state ≠ .configured) : Change db b ds n (db.update q) := by
  obtain ⟨h1, h2⟩ := isIn_of_replaceable hp hr
  subst hq
  refine (becomes_update db q).change_some rfl hs hco (fun _ => h2) fun hc => ?_
  rw [h1] at hc
  cases hc

/-! ### Purging -/

/-- A package without what `pkg_purge_fs` forgets of it. -/
def SelectedPackage.forget (p : SelectedPackage) (archive : Bool) : SelectedPackage :=
  { p with purgeSrc := false, srcRoot := none, manifestChecksum := none,
           archive := if archive then none else p.archive,
           purgeArchive := if archive then false else p.purgeArchive }

theorem Quiet.forget (h : Quiet p) (archive : Bool) : Quiet (p.forget archive) where
  version := h.version
  substate := h.substate
  outRoot := h.outRoot
  prerequisites := h.prerequisites
  checksum hc := by cases hc
  purgeArchive hc := by
    cases archive with
    | true => cases hc
    | false => exact h.purgeArchive hc
  purgeSrc hc := by cases hc

/-- The record of a package that could not be removed from the filesystem. -/
theorem failsSafe_broken (hp : db.find n = some p) (hr : p.replaceable = true) (hq : q.name = n)
    (h : Quiet q) : FailsSafe db false ds (.failed (db.update { q with state := .broken })) :=
  ⟨_, rfl, Or.inr ⟨n, change_update hp hr hq
    ((h.setState .broken).coherent (Or.inr (Or.inr ⟨rfl, rfl⟩)) (fun hs => by cases hs)
      fun hs => by cases hs) fun hs => by cases hs⟩⟩

theorem pkgPurgeFs_ends (hp : db.find n = some p) (hn : p.name = n) (h : Quiet p)
    (hr : p.replaceable = true) (archive : Bool) (fs : PurgeActions) :
    Ends (pkgPurgeFs db p archive fs) (FailsSafe db false ds) (· = p.forget archive) := by
  unfold pkgPurgeFs
  rw [hr]
  have hsrc : Ends (purgeSource db p fs) (FailsSafe db false ds) (· = p.forget false) := by
    unfold purgeSource
    refine ends_ite (fun hc => ?_) fun _ => ends_ite (fun _ => failsSafe_broken hp hr hn h)
      fun _ => rfl
    rw [Bool.and_eq_true, Option.isNone_iff_eq_none] at hc
    have := h.purgeSrc hc.1
    rw [hc.2] at this
    cases this
  refine hsrc.bind fun q hq => ends_ite (fun ha => ?_) fun ha => ?_
  · unfold purgeArchiveFile
    have hqq : Quiet q := hq ▸ h.forget false
    refine ends_ite (fun hc => ?_) fun _ => ends_ite
      (fun _ => failsSafe_broken hp hr (by rw [hq]; exact hn) hqq) fun _ => ?_
    · rw [Bool.and_eq_true, Option.isNone_iff_eq_none] at hc
      have := hqq.purgeArchive hc.1
      rw [hc.2] at this
      cases this
    · rw [hq, ha]
      rfl
  · rw [hq, Bool.eq_false_of_not_eq_true ha]
    rfl

theorem cleanedUp_ends (h : Coherent p g) (left : LeftBehind) :
    Ends (cleanedUp p left) (FailsSafe db b ds) fun _ => True := by
  unfold cleanedUp
  refine ends_ite (fun _ => trivial) fun _ => ends_ite (fun hc => ?_) fun _ =>
    ends_ite (fun _ => trivial) fun _ => ends_ite (fun hc => ?_) fun _ => trivial
  · rw [Bool.and_eq_true, Option.isNone_iff_eq_none] at hc
    have := h.purgeSrc hc.1
    rw [hc.2] at this
    cases this
  · rw [Bool.and_eq_true, Option.isNone_iff_eq_none] at hc
    have := h.purgeArchive hc.1
    rw [hc.2] at this
    cases this

theorem pkgPurge_ends {c : Configuration} (h : Consistent c) (keep force : Bool)
    (fs : PurgeActions) (left : LeftBehind) :
    Ends (pkgPurge c.packages n keep force fs left) (FailsSafe c.packages false ds)
      (Committed c.packages false ds) := by
  unfold pkgPurge
  split
  · exact failsSafe_self
  · next p hp =>
    have hn := h.named n p hp
    have hco := h.coherent n p hp
    refine ends_ite (fun hr => ends_ite (fun _ => failsSafe_self) fun hkeep => ?_) fun hr =>
      ends_ite (fun hb => ends_ite (fun _ => failsSafe_self) fun _ => ?_) fun _ => failsSafe_self
    · have hq := hco.quiet_of_replaceable hr
      refine ends_ite (fun hout => by rw [hq.outRoot] at hout; cases hout) fun _ => ?_
      refine (pkgPurgeFs_ends hp hn hq hr _ fs).bind fun q hqf => ?_
      have hqn : q.name = n := by rw [hqf]; exact hn
      refine ends_ite (fun _ => Or.inr ⟨n, ?_⟩) fun hk =>
        ends_ite (fun hs => Or.inr ⟨n, ?_⟩) fun _ => committed_self
      · rw [← hqn]
        refine (becomes_erase _ q).change_none fun hc => ?_
        rw [hqn, (isIn_of_replaceable hp hr).1] at hc
        cases hc
      · rw [Bool.not_eq_true', Bool.not_eq_false] at hk
        have hqs : p.state = .unpacked := by
          rw [hqf] at hs
          exact (replaceable_iff.mp hr).resolve_left hs
        refine change_update hp hr hqn (Quiet.coherent ?_ (Or.inl rfl) (fun _ => ⟨?_, ?_⟩)
          fun hs => by cases hs) fun hs => by cases hs
        · exact (hqf ▸ hq.forget _ : Quiet q).setState _
        · rw [hqf, hk]
          exact Option.isSome_iff_ne_none.mpr fun ha => hkeep ⟨hqs, hk, ha⟩
        · rw [hqf]
          rfl
    · refine (cleanedUp_ends hco left).bind fun x _ => ends_ite (fun _ => Or.inr ⟨n, ?_⟩) fun _ =>
        failsSafe_self
      rw [← hn]
      refine (becomes_erase _ p).change_none fun hc => ?_
      rw [hn, isIn_of_find hp, hb] at hc
      cases hc

end

/-! ### Selecting -/

/-- The way is made for a package of the name `n`: what is left of the selected one, if its name is
spelled the same, and a database in which there is no other. -/
structure WayMade (db : Database) (spelling : Bytes) (x : Database × Option SelectedPackage) :
    Prop where
  others : ∀ m, m ≠ .ofString spelling → x.1.find m = db.find m
  notConfigured : db.isIn (.ofString spelling) .configured = false
  absent : x.2 = none → x.1.find (.ofString spelling) = none
  kept : ∀ p, x.2 = some p → p.spelling = spelling ∧ Quiet p ∧ p.archive = none ∧
    p.purgeArchive = false ∧ p.srcRoot = none ∧ p.purgeSrc = false

section

variable {c : Configuration} {spelling : Bytes} {fs : PurgeActions} {ds : List Dependency}
  {x : Database × Option SelectedPackage} {q : SelectedPackage} {v : Version}

theorem makeWay_ends (h : Consistent c) {replace : Bool}
    (hr : mayReplace c.packages (.ofString spelling) replace = true) :
    Ends (makeWay c.packages spelling fs) (FailsSafe c.packages false ds)
      (WayMade c.packages spelling) := by
  unfold makeWay
  split
  · next hnone =>
    refine ⟨fun _ _ => rfl, ?_, fun _ => hnone, fun _ hx => (by cases hx)⟩
    unfold Database.isIn
    rw [hnone]
    rfl
  · next p hp =>
    have hn := h.named _ p hp
    have hrp : p.replaceable = true := by
      rw [mayReplace, hp, Option.all_some, Bool.and_eq_true] at hr
      exact hr.2
    have hq := (h.coherent _ p hp).quiet_of_replaceable hrp
    refine (pkgPurgeFs_ends hp hn hq hrp true fs).bind ?_
    rintro _ rfl
    show WayMade _ _ (if _ then _ else _)
    have hb := becomes_erase c.packages (p.forget true)
    have hpn : (p.forget true).name = .ofString spelling := hn
    rw [hpn] at hb
    split_ifs with hs
    · exact ⟨hb.others, (isIn_of_replaceable hp hrp).1, fun _ => hb.self,
        fun _ hx => (by cases hx)⟩
    · refine ⟨fun _ _ => rfl, (isIn_of_replaceable hp hrp).1, fun hx => (by cases hx), ?_⟩
      rintro _ ⟨⟩
      exact ⟨not_not.mp hs, hq.forget true, rfl, rfl, rfl, rfl⟩

/-- The package that the way was made for gets its record. -/
theorem WayMade.change (h : WayMade c.packages spelling x) (hq : q.spelling = spelling)
    (hco : Coherent q false) (hs : q.state = .fetched ∨ q.state = .unpacked) :
    Change c.packages false ds (.ofString spelling) (x.1.update q) := by
  have hb := becomes_update x.1 q
  have hqn : q.name = .ofString spelling := by rw [SelectedPackage.name, hq]
  rw [hqn] at hb
  have hb' : Becomes c.packages (.ofString spelling) (some q) (x.1.update q) :=
    ⟨hb.self, fun m hm => (hb.others m hm).trans (h.others m hm)⟩
  refine hb'.change_some hqn ?_ hco ?_ fun hc => ?_
  · rcases hs with hs | hs <;> simp [hs]
  · rcases hs with hs | hs <;> simp [hs]
  · rw [h.notConfigured] at hc
    cases hc

theorem WayMade.committed_update (h : WayMade c.packages spelling x) (hq : q.spelling = spelling)
    (hco : Coherent q false) (hs : q.state = .fetched ∨ q.state = .unpacked) :
    Committed c.packages false ds (x.1.update q) := Or.inr ⟨_, h.change hq hco hs⟩

theorem WayMade.persist_ends (h : WayMade c.packages spelling x) (hx : x.2 = none)
    (hq : q.spelling = spelling) (hco : Coherent q false)
    (hs : q.state = .fetched ∨ q.state = .unpacked) :
    Ends (x.1.persist q) (FailsSafe c.packages false ds) (Committed c.packages false ds) :=
  LifeCycle.persist_ends (by rw [SelectedPackage.name, hq]; exact h.absent hx)
    (h.committed_update hq hco hs)

theorem fetch_ends (h : Consistent c) {replace : Bool}
    (hr : mayReplace c.packages (.ofString spelling) replace = true) (hv : IsAvailable v)
    (a : Bytes) (rl : RepositoryLocation) (purge : Bool) :
    Ends (fetch c.packages spelling v a rl purge fs) (FailsSafe c.packages false ds)
      (Committed c.packages false ds) := by
  unfold fetch
  refine (makeWay_ends h hr).bind fun x hx => ?_
  obtain ⟨db, o⟩ := x
  cases o with
  | some p =>
    obtain ⟨hsp, hq, -, -, hsrc, -⟩ := hx.kept p rfl
    exact hx.committed_update hsp (Quiet.coherent ⟨hv, hq.substate, hq.outRoot, hq.prerequisites,
      hq.checksum, fun _ => rfl, hq.purgeSrc⟩ (Or.inl rfl) (fun _ => ⟨rfl, hsrc⟩)
      fun hs => by cases hs) (Or.inl rfl)
  | none =>
    refine hx.persist_ends rfl rfl (Quiet.coherent ⟨hv, ?_, rfl, rfl, ?_, ?_, ?_⟩ (Or.inl rfl)
      (fun _ => ⟨rfl, rfl⟩) fun hs => by cases hs) (Or.inl rfl)
    · exact fun hs => by cases hs
    · exact fun hs => by cases hs
    · exact fun _ => rfl
    · exact fun hs => by cases hs

theorem ofParts_iteration (hv : IsAvailable v) (i : ℕ) :
    Version.ofParts v.epoch v.upstream v.release v.revision i = .ok { v with iteration := i } ∧
      IsAvailable { v with iteration := i } := by
  obtain ⟨hu, hl⟩ := hv.constructed.forms
  have hok : Version.ofParts v.epoch v.upstream v.release v.revision i =
      .ok { v with iteration := i } := by
    refine Version.ofParts_eq_ok.mpr ⟨?_, _, _, hu, hl, rfl⟩
    rw [Version.MembersOk, if_neg (upstream_ne_nil hv.constructed hv.notEarliest)]
    exact fun h' => absurd h' hv.notEarliest
  exact ⟨hok, .ofParts hok, hv.notEarliest, hv.revision⟩

theorem versionedDirectory_ok (hv : IsAvailable v) (spelling : Bytes) :
    ∃ d, versionedDirectory spelling v = .ok d := by
  have hne : v.empty = false := decide_eq_false (upstream_ne_nil hv.constructed hv.notEarliest)
  unfold versionedDirectory Version.string
  rw [hne]
  exact ⟨_, rfl⟩

theorem pkgFetchExisting_ends (h : Consistent c) (m : Option PackageManifest) (a : Bytes)
    (replace purge : Bool) :
    Ends (pkgFetchExisting c.packages m a replace purge fs) (FailsSafe c.packages false ds)
      (Committed c.packages false ds) := by
  unfold pkgFetchExisting
  split
  · exact failsSafe_self
  · next m =>
    refine ends_ite (fun _ => failsSafe_self) fun hr => ?_
    rw [Bool.not_eq_true', Bool.not_eq_false] at hr
    exact fetch_ends h hr m.isAvailable a _ purge

theorem pick_of_some {ap : AvailablePackage} {based : RepositoryLocation → Bool}
    {l : PackageLocation} (h : ap.pick based = some l) :
    l ∈ ap.locations ∧ based l.repositoryFragment = true := by
  rcases Option.or_eq_some_iff.mp h with h | ⟨-, h⟩
  · have hp := (List.find?_eq_some_iff_getElem.mp h).1
    rw [Bool.and_eq_true] at hp
    exact ⟨List.mem_of_find?_eq_some h, hp.1⟩
  · exact ⟨List.mem_of_find?_eq_some h, (List.find?_eq_some_iff_getElem.mp h).1⟩

theorem pkgFetch_ends (h : Consistent c) (v : PackageVersion) (replace : Bool)
    (ap : Option AvailablePackage) (sum : Option Bytes) :
    Ends (pkgFetch c.packages spelling v replace ap sum fs) (FailsSafe c.packages false ds)
      (Committed c.packages false ds) := by
  unfold pkgFetch
  refine ends_ite (fun _ => failsSafe_self) fun hr => ?_
  rw [Bool.not_eq_true', Bool.not_eq_false] at hr
  split
  · exact failsSafe_self
  · next ap pl hap =>
    obtain ⟨a, -, ha⟩ := Option.bind_eq_some_iff.mp hap
    obtain ⟨l, hl, he⟩ := Option.map_eq_some_iff.mp ha
    cases he
    obtain ⟨hmem, hb⟩ := pick_of_some hl
    split
    · exact failsSafe_self
    · next hs =>
      have := ap.summed pl hmem hb
      rw [hs] at this
      cases this
    · exact ends_ite (fun _ => failsSafe_self) fun _ => fetch_ends h hr v.2 _ _ true

theorem unpack_ends (h : Consistent c) {replace : Bool}
    (hr : mayReplace c.packages (.ofString spelling) replace = true) (hv : IsAvailable v)
    (d : Bytes) {rl : RepositoryLocation} (hrl : rl = .root ∨ rl.directoryBased = true)
    (purge : Bool) (mc : Option Bytes) :
    Ends (unpack c.packages spelling v d rl purge mc fs) (FailsSafe c.packages false ds)
      (Committed c.packages false ds) := by
  unfold unpack
  split
  · exact failsSafe_self
  · next mc =>
    refine (makeWay_ends h hr).bind fun x hx => ?_
    obtain ⟨db, o⟩ := x
    have hext : ∀ q : SelectedPackage, q.repositoryFragment = rl → q.archive = none →
        q.external = true := by
      intro q hq ha
      rw [SelectedPackage.external, hq, ha]
      rcases hrl with rfl | hd
      · rfl
      · rw [hd]
        cases rl <;> simp
    cases o with
    | some p =>
      obtain ⟨hsp, hq, ha, hpa, -, -⟩ := hx.kept p rfl
      refine ends_ite (fun he => ?_) fun _ => ?_
      · rw [Bool.not_eq_true', Bool.eq_false_iff] at he
        exact (he (hext _ rfl ha)).elim
      · refine hx.committed_update hsp (Quiet.coherent ⟨hv, hq.substate, hq.outRoot,
          hq.prerequisites, fun _ => rfl, hq.purgeArchive, fun _ => rfl⟩ (Or.inr (Or.inl rfl))
          (fun hs => by cases hs) fun _ => rfl) (Or.inr rfl)
    | none =>
      refine ends_ite (fun he => ?_) fun _ => ?_
      · rw [Bool.not_eq_true', Bool.eq_false_iff] at he
        exact (he (hext _ rfl rfl)).elim
      · refine hx.persist_ends rfl rfl (Quiet.coherent ⟨hv, ?_, rfl, rfl, fun _ => rfl, ?_,
          fun _ => rfl⟩ (Or.inr (Or.inl rfl)) (fun hs => by cases hs) fun _ => rfl) (Or.inr rfl)
        · exact fun hs => by cases hs
        · exact fun hs => by cases hs

theorem packageIteration_ends (h : Consistent c) {n : PackageName} {replace : Bool}
    (hr : mayReplace c.packages n replace = true) (hv : IsAvailable v) (clashes : Bool)
    (mc : Bytes) (moved : Bool) :
    Ends (packageIteration c.packages n v clashes mc moved) (FailsSafe c.packages false ds)
      fun o => ∀ w ∈ o, IsAvailable w := by
  unfold packageIteration
  refine ends_ite (fun _ => failsSafe_self) fun _ => ?_
  split
  · exact fun _ hw => by cases hw
  · next p hp =>
    refine ends_ite (fun _ _ hw => by cases hw) fun hs => ?_
    rw [Bool.or_eq_true, not_or, Bool.not_eq_true, Option.isNone_eq_false_iff] at hs
    have hco := h.coherent n p hp
    split
    · next hnone =>
      have := hco.checksum hs.1
      rw [hnone] at this
      cases this
    · refine ends_ite (fun _ w hw => ?_) fun _ => ?_
      · rw [mayReplace, hp, Option.all_some, Bool.and_eq_true] at hr
        cases hw
        exact (hco.quiet_of_replaceable hr.2).version
      · obtain ⟨hok, hav⟩ := ofParts_iteration hv ((p.version.iteration + 1) % 2 ^ 32)
        rw [hok]
        rintro w ⟨⟩
        exact hav

theorem pkgUnpackExisting_ends (h : Consistent c) (m : Option PackageManifest) (d : Bytes)
    (replace purge clashes : Bool) (mc : Option Bytes) (moved : Bool) :
    Ends (pkgUnpackExisting c.packages m d replace purge clashes mc moved fs)
      (FailsSafe c.packages false ds) (Committed c.packages false ds) := by
  unfold pkgUnpackExisting
  split
  · next m mc =>
    refine ends_ite (fun _ => failsSafe_self) fun hr => ?_
    rw [Bool.not_eq_true', Bool.not_eq_false] at hr
    refine (packageIteration_ends h hr m.isAvailable clashes mc moved).bind fun o ho => ?_
    refine unpack_ends h hr ?_ d (Or.inl rfl) purge _
    cases o with
    | none => exact m.isAvailable
    | some w => exact ho w rfl
  · exact failsSafe_self

theorem pkgUnpackDirectory_ends (h : Consistent c) (v : PackageVersion) (replace : Bool)
    (ap : Option AvailablePackage) (path : PackageLocation → Bytes) (mc : Option Bytes) :
    Ends (pkgUnpackDirectory c.packages spelling v replace ap path mc fs)
      (FailsSafe c.packages false ds) (Committed c.packages false ds) := by
  unfold pkgUnpackDirectory
  refine ends_ite (fun _ => failsSafe_self) fun hr => ?_
  rw [Bool.not_eq_true', Bool.not_eq_false] at hr
  split
  · exact failsSafe_self
  · next pl hap =>
    obtain ⟨a, -, ha⟩ := Option.bind_eq_some_iff.mp hap
    exact unpack_ends h hr v.2 _ (Or.inr (List.find?_eq_some_iff_getElem.mp ha).1) false mc

theorem pkgUnpack_ends (h : Consistent c) (n : PackageName) (existsDir : Option Bool)
    (mc : Option Bytes) :
    Ends (pkgUnpack c.packages n existsDir mc) (FailsSafe c.packages false ds)
      (Committed c.packages false ds) := by
  unfold pkgUnpack
  split
  · exact failsSafe_self
  · next p hp =>
    refine ends_ite (fun _ => failsSafe_self) fun hs => ?_
    have hs : p.state = .fetched := not_not.mp hs
    have hco := h.coherent n p hp
    obtain ⟨ha, -⟩ := hco.fetched hs
    have hr : p.replaceable = true := replaceable_iff.mpr (Or.inl hs)
    have hq := hco.quiet_of_replaceable hr
    refine ends_ite (fun hn => ?_) fun _ => ?_
    · rw [Option.isNone_iff_eq_none.mp hn] at ha
      cases ha
    · obtain ⟨d, hd⟩ := versionedDirectory_ok hq.version p.spelling
      rw [hd]
      refine Ends.bind (P := fun _ => True) trivial fun d _ => ?_
      split
      · refine Or.inr ⟨n, change_update hp hr (h.named n p hp) (Quiet.coherent ⟨hq.version,
          hq.substate, hq.outRoot, hq.prerequisites, fun _ => rfl, hq.purgeArchive, fun _ => rfl⟩
          (Or.inr (Or.inl rfl)) (fun hs => by cases hs) fun _ => rfl) fun hs => by cases hs⟩
      · exact failsSafe_self

theorem Consistent.allSelectable (h : Consistent c) : AllSelectable c.packages := fun n p hp =>
  (h.coherent n p hp).version.imp_right And.right

/-- No dependency is conditional. -/
def Unconditional (deps : List DependencyAlternatives) : Prop := ∀ da ∈ deps, da.conditional = false

theorem pkgCheckout_ends (h : Consistent c) (v : PackageVersion) (replace : Bool)
    (ap : Option AvailablePackage) (tools : Tools) (co : CheckoutActions)
    (hc : ∀ m ∈ co.checkedOut, Unconditional m.dependencies) :
    Ends (pkgCheckout c.packages spelling v replace ap tools co fs) (FailsSafe c.packages false ds)
      (Committed c.packages false ds) := by
  unfold pkgCheckout
  refine ends_ite (fun _ => failsSafe_self) fun hr => ?_
  rw [Bool.not_eq_true', Bool.not_eq_false] at hr
  split
  · next pl m _ hm =>
    obtain ⟨d, hd⟩ := versionedDirectory_ok v.2 spelling
    rw [hd]
    refine Ends.bind (P := fun _ => True) trivial fun d _ => ?_
    have hpre := pkgConfigurePrerequisites_ends tools h.allSelectable m.dependencies ∅ []
      captured_nil (fun _ he => absurd he List.not_mem_nil)
      fun da hda => ⟨hc m hm da hda, m.isComplete da hda⟩
    refine (hpre.mono (fun _ he => he.failsSafe) fun _ he => he).bind fun _ _ => ?_
    split
    · exact failsSafe_self
    · refine (makeWay_ends h hr).bind fun x hx => ?_
      obtain ⟨db, o⟩ := x
      cases o with
      | some p =>
        obtain ⟨hsp, hq, -, -, -, -⟩ := hx.kept p rfl
        exact hx.committed_update hsp (Quiet.coherent ⟨v.2, hq.substate, hq.outRoot,
          hq.prerequisites, fun _ => rfl, hq.purgeArchive, fun _ => rfl⟩ (Or.inr (Or.inl rfl))
          (fun hs => by cases hs) fun _ => rfl) (Or.inr rfl)
      | none =>
        refine hx.persist_ends rfl rfl (Quiet.coherent ⟨v.2, ?_, rfl, rfl, fun _ => rfl, ?_,
          fun _ => rfl⟩ (Or.inr (Or.inl rfl)) (fun hs => by cases hs) fun _ => rfl) (Or.inr rfl)
        · exact fun hs => by cases hs
        · exact fun hs => by cases hs
  · exact failsSafe_self

end

/-! ### Disfiguring and configuring -/

section

variable {c : Configuration} {db : Database} {n : PackageName} {p : SelectedPackage}
  {ds : List Dependency} {fs : DisfigureActions}

/-- What `pkg_disfigure` is called with. It finds no dependents if the package is configured. -/
structure Disfigurable (db : Database) (n : PackageName) (p : SelectedPackage) : Prop where
  named : p.name = n
  state : p.state = .configured ∨ p.state = .broken
  sourced : p.substate ≠ .system → p.srcRoot.isSome = true ∧ p.outRoot.isSome = true ∧
    Quiet { p with outRoot := none, prerequisites := ∅ }
  notBroken : db.isIn n .broken = false
  configured : db.isIn n .configured = true → p.state = .configured

theorem disfigure_ends (h : Disfigurable db n p) (clean : Bool) :
    Ends (disfigure db p clean fs) (FailsSafe db true ds) fun x =>
      (x.1.state = .unpacked ∨ x.1.state = .transient) ∧ Committed db true ds x.2 := by
  have hn := h.named
  subst hn
  unfold disfigure
  refine ends_ite (fun hs => absurd h.state hs) fun _ => ends_ite (fun _ => failsSafe_self)
    fun hdep => ?_
  have hfree : db.isIn p.name .configured = true → ∀ m q, db.find m = some q →
      q.prerequisites.lookup p.name = none := by
    intro hc m q hq
    rw [h.configured hc, decide_eq_true rfl, Bool.true_and, Bool.not_eq_true', Bool.not_eq_false]
      at hdep
    exact lookup_of_dependents hdep hq
  refine ends_ite (fun _ => ⟨Or.inr rfl, Or.inr ⟨p.name, ?_⟩⟩) fun hsys => ?_
  · exact (becomes_erase db p).change_none hfree
  obtain ⟨hsrc, hout, hq⟩ := h.sourced hsys
  refine ends_ite (fun hf => ?_) fun _ => ends_ite (fun _ => ⟨Or.inl rfl, Or.inr ⟨p.name, ?_⟩⟩)
    fun _ => ⟨_, rfl, Or.inr ⟨p.name, ?_⟩⟩
  · rw [Bool.or_eq_true, Option.isNone_iff_eq_none, Option.isNone_iff_eq_none] at hf
    rcases hf with hf | hf <;> simp [hf] at hsrc hout
  · refine (becomes_update db { p with
      prerequisites := ∅, outRoot := none, state := .unpacked }).change_some rfl
      (fun hs => by cases hs) ?_ (fun hs => by cases hs) hfree
    exact (hq.setState .unpacked).coherent (Or.inr (Or.inl rfl)) (fun hs => by cases hs)
      fun _ => hsrc
  · refine (becomes_update db { p with prerequisites := ∅, state := .broken }).change_some rfl
      (fun hs => by cases hs) ?_ (fun _ => h.notBroken) hfree
    refine ⟨Or.inl hq.version, ?_, ?_, ?_, hq.checksum, hq.purgeArchive, hq.purgeSrc, ?_,
      fun _ => rfl, fun hc => absurd hc hsys⟩
    · exact fun hs => by cases hs
    · exact fun hs => by cases hs
    · exact fun hs => by simp at hs
    · simp [hout]

theorem pkgDisfigure_ends (h : Consistent c) (keepOut : Bool) :
    Ends (pkgDisfigure c.packages n keepOut fs) (FailsSafe c.packages true ds)
      (Committed c.packages true ds) := by
  unfold pkgDisfigure
  split
  · exact failsSafe_self
  · next p hp =>
    refine ends_ite (fun _ => failsSafe_self) fun hs => ?_
    have hs : p.state = .configured := not_not.mp hs
    have hco := h.coherent n p hp
    have hd : Disfigurable c.packages n p := by
      refine ⟨h.named n p hp, Or.inl hs, fun hsys => ⟨hco.sourced (Or.inr ⟨hs, hsys⟩),
        hco.outRoot.mpr (Or.inl ⟨hs, hsys⟩), ?_⟩, ?_, fun _ => hs⟩
      · exact ⟨hco.version.resolve_right fun hv => hsys hv.1, hsys, rfl, rfl, hco.checksum,
          hco.purgeArchive, hco.purgeSrc⟩
      · rw [isIn_of_find hp, hs]
        rfl
    exact (disfigure_ends hd _).bind fun x hx => ends_ite (fun _ => hx.2) fun hns =>
      absurd hx.1 hns

/-- No constraint of one dependency satisfies that of another on the same package without implying
it. -/
def NotMisled (deps : List DependencyAlternatives) : Prop :=
  ∀ da ∈ deps, ∀ d ∈ da.alternatives, ∀ da' ∈ deps, ∀ d' ∈ da'.alternatives, d.name = d'.name →
    ∀ x ∈ d.constraint, ∀ y ∈ d'.constraint, satisfies x y = .ok true → ¬ Misled x y

/-- **A configured package** has the strictest of the constraints that it chose on record. -/
theorem recorded_of_captured {deps : List DependencyAlternatives} (hm : NotMisled deps)
    (hc : Captured p.prerequisites ds) (hds : ∀ d ∈ ds, Complete d.constraint ∧
      Met db d.name d.constraint ∧ ∃ da ∈ deps, d ∈ da.alternatives) :
    ∀ d ∈ ds, Recorded db p d := by
  intro d hd
  obtain ⟨hdc, hdm, da, hda, hmem⟩ := hds d hd
  obtain ⟨k, hk, hs⟩ := hc.recorded d hd
  obtain ⟨e, he, hen, rfl⟩ := hc.placed _ _ hk
  obtain ⟨hec, -, da', hda', hmem'⟩ := hds e he
  exact ⟨_, hk, hs, implies_of_satisfies hec hdc (hm da' hda' e hmem' da hda d hmem hen) hs, hdm⟩

theorem configure_ends (h : Consistent c) (tools : Tools) (x : PackageManifest)
    (hp : c.packages.find n = some p) (hs : p.state = .unpacked) (ran : Bool)
    (hu : Unconditional x.dependencies) (hm : NotMisled x.dependencies) :
    Ends (configure c.packages tools p x.dependencies ran fs)
      (FailsSafe c.packages true (choices c.packages tools x.dependencies))
      (Committed c.packages true (choices c.packages tools x.dependencies)) := by
  have hn := h.named n p hp
  have hco := h.coherent n p hp
  have hr : p.replaceable = true := replaceable_iff.mpr (Or.inr hs)
  have hq := hco.quiet_of_replaceable hr
  have hsrc := hco.sourced (Or.inl hs)
  obtain ⟨hnc, hnb⟩ := isIn_of_replaceable hp hr
  subst hn
  unfold configure
  rw [if_neg (by simp [hs, Option.isSome_iff_ne_none.mp hsrc])]
  have hout : ∃ d, p.outputDirectory = .ok d := by
    unfold SelectedPackage.outputDirectory
    split_ifs
    · exact ⟨_, rfl⟩
    · exact versionedDirectory_ok hq.version _
  obtain ⟨out, hout⟩ := hout
  rw [hout, hq.prerequisites]
  have hpre := pkgConfigurePrerequisites_ends tools h.allSelectable x.dependencies ∅ []
    captured_nil (fun _ he => absurd he List.not_mem_nil)
    fun da hda => ⟨hu da hda, x.isComplete da hda⟩
  refine (hpre.mono (fun _ he => he.failsSafe) fun _ hr => hr).bind fun r ⟨hcap, hall⟩ => ?_
  rw [List.nil_append] at hcap
  refine ends_ite (fun _ => Or.inr ⟨p.name, ?_⟩) fun _ => ?_
  · refine (becomes_update c.packages { p with
      prerequisites := r, outRoot := some out, state := .configured }).change_configured rfl ?_ rfl
      hnc (fun m k hk => ?_) (recorded_of_captured hm hcap hall)
    · exact ⟨Or.inl hq.version, fun hs => (by cases hs), fun hs => (by cases hs), fun _ => hsrc,
        hq.checksum, hq.purgeArchive, hq.purgeSrc, by simp [hq.substate],
        fun hs => absurd rfl hs, fun hs => absurd hs hq.substate⟩
    · obtain ⟨d, hd, rfl, rfl⟩ := hcap.placed m k hk
      exact (hall d hd).2.1
  · -- the package is disfigured from a broken state
    have hd : Disfigurable c.packages p.name
        { p with prerequisites := r, outRoot := some out, state := .broken } := by
      refine ⟨rfl, Or.inr rfl, fun _ => ⟨hsrc, rfl, ?_⟩, hnb, fun hc => ?_⟩
      · exact ⟨hq.version, hq.substate, rfl, rfl, hq.checksum, hq.purgeArchive, hq.purgeSrc⟩
      · rw [hnc] at hc
        cases hc
    exact (disfigure_ends hd true).bind fun y hy => ⟨_, rfl, hy.2⟩

theorem pkgConfigure_ends (h : Consistent c) (tools : Tools) (m : Option PackageManifest)
    (ran : Bool) (hu : ∀ x ∈ m, Unconditional x.dependencies ∧ NotMisled x.dependencies) :
    Ends (pkgConfigure c.packages n tools m ran fs)
      (FailsSafe c.packages true ((Operation.configure n tools m ran fs).choices c.packages))
      (Committed c.packages true ((Operation.configure n tools m ran fs).choices c.packages)) := by
  unfold pkgConfigure
  split
  · exact failsSafe_self
  · next p hp =>
    refine ends_ite (fun _ => failsSafe_self) fun hs => ?_
    have hs : p.state = .unpacked := not_not.mp hs
    have hsrc := (h.coherent n p hp).sourced (Or.inl hs)
    refine ends_ite (fun hnone => ?_) fun _ => ?_
    · rw [hnone] at hsrc
      cases hsrc
    · split
      · exact failsSafe_self
      · next x =>
        obtain ⟨hun, hmis⟩ := hu x rfl
        exact configure_ends h tools x hp hs ran hun hmis

theorem pkgConfigureSys_ends {spelling : Bytes} (v : Option PackageVersion) (known : Bool) :
    Ends (pkgConfigureSys c.packages spelling v known) (FailsSafe c.packages false [])
      (Committed c.packages false []) := by
  unfold pkgConfigureSys
  refine ends_ite (fun _ => failsSafe_self) fun hnone => ends_ite (fun _ => failsSafe_self)
    fun _ => ?_
  rw [Option.not_isSome_iff_eq_none] at hnone
  refine persist_ends hnone (Or.inr ⟨_, (becomes_update _ _).change_configured rfl ?_ rfl ?_
    (fun m k hk => ?_) fun d hd => absurd hd List.not_mem_nil⟩)
  · refine ⟨?_, fun hs => (by cases hs), fun hs => (by cases hs), ?_, fun hs => (by cases hs),
      fun hs => (by cases hs), fun hs => (by cases hs), by simp, fun _ => rfl,
      fun _ => ⟨rfl, rfl, rfl, rfl⟩⟩
    · cases v with
      | none => exact Or.inr ⟨rfl, rfl⟩
      | some v => exact Or.inl v.2
    · exact fun hs => by simp at hs
  · unfold Database.isIn SelectedPackage.name
    rw [hnone]
    rfl
  · rw [AList.lookup_empty] at hk
    cases hk

end

/-! ### Runs -/

/-- The operation does not configure or check out a package with a conditional dependency, or
configure one with constraints on one package that `satisfies` misjudges. -/
def Operation.Supported : Operation → Prop
  | .configure _ _ (some m) _ _ => Unconditional m.dependencies ∧ NotMisled m.dependencies
  | .checkout _ _ _ _ _ co _ => ∀ m ∈ co.checkedOut, Unconditional m.dependencies
  | _ => True

section

variable {c : Configuration} {op : Operation}

theorem run_ends (h : Consistent c) (ho : op.Supported) :
    Ends (op.run c.packages) (FailsSafe c.packages op.configures (op.choices c.packages))
      (Committed c.packages op.configures (op.choices c.packages)) := by
  cases op with
  | fetchExisting m a replace purge fs => exact pkgFetchExisting_ends h m a replace purge
  | fetch n v replace ap sum fs => exact pkgFetch_ends h v replace ap sum
  | unpackExisting m d replace purge clashes mc moved fs =>
    exact pkgUnpackExisting_ends h m d replace purge clashes mc moved
  | unpackDirectory n v replace ap path mc fs =>
    exact pkgUnpackDirectory_ends h v replace ap path mc
  | unpack n existsDir mc => exact pkgUnpack_ends h n existsDir mc
  | checkout n v replace ap tools co fs => exact pkgCheckout_ends h v replace ap tools co ho
  | configure n tools m ran fs =>
    refine pkgConfigure_ends h tools m ran fun x hx => ?_
    cases hx
    exact ho
  | configureSystem n v known => exact pkgConfigureSys_ends v known
  | disfigure n keepOut fs => exact pkgDisfigure_ends h keepOut
  | purge n keep force fs left => exact pkgPurge_ends h keep force fs left

theorem record_self (h : Consistent c) : Consistent (c.record op c.packages) := by
  have hg : c.record op c.packages = c := by
    unfold Configuration.record
    simp only [Bool.and_not_self, Bool.false_eq_true, if_false]
  rwa [hg]

/-- **One operation** does not fail an assertion and keeps the database consistent. -/
theorem step_consistent (h : Consistent c) (ho : op.Supported) :
    ∃ c', c.step op = some c' ∧ Consistent c' := by
  have hkeep : ∀ db', Committed c.packages op.configures (op.choices c.packages) db' →
      Consistent (c.record op db') := by
    rintro db' (rfl | ⟨n, hc⟩)
    · exact record_self h
    · exact h.record hc
  have hr := run_ends h ho
  unfold Configuration.step Operation.commit
  cases hrun : op.run c.packages with
  | ok db' =>
    rw [hrun] at hr
    exact ⟨_, rfl, hkeep db' hr⟩
  | error e =>
    rw [hrun] at hr
    obtain ⟨db', rfl, hc⟩ := hr
    exact ⟨_, rfl, hkeep db' hc⟩

end

/-- **The life cycle of selected packages.** In every run no assertion fails and the committed
database stays consistent. -/
theorem lifeCycle (ops : List Operation) (h : ∀ op ∈ ops, op.Supported) :
    ∃ c, Configuration.empty.run ops = some c ∧ Consistent c := by
  suffices hs : ∀ (ops : List Operation) (c : Configuration), Consistent c →
      (∀ op ∈ ops, op.Supported) → ∃ c', c.run ops = some c' ∧ Consistent c' from
    hs ops _ consistent_empty h
  intro ops
  induction ops with
  | nil => exact fun c hc _ => ⟨c, rfl, hc⟩
  | cons op ops ih =>
    intro c hc ho
    obtain ⟨c₁, h₁, hc₁⟩ := step_consistent hc (ho op List.mem_cons_self)
    obtain ⟨c₂, h₂, hc₂⟩ := ih c₁ hc₁ fun op hop => ho op (List.mem_cons_of_mem _ hop)
    refine ⟨c₂, ?_, hc₂⟩
    rw [Configuration.run, h₁]
    exact h₂

/-! ### A package and what it depends on -/

open PkgBuild (versionOne isAvailable_versionOne isAvailable_none)

def foo : Bytes := str ['f', 'o', 'o']

def libfoo : Bytes := str ['l', 'i', 'b', 'f', 'o', 'o']

/-- `depends: libfoo [1-0 2]`, perhaps conditional. -/
def fooDependency (conditional : Bool) : DependencyAlternatives :=
  ⟨conditional, false, [⟨.ofString libfoo, some fromOneZero⟩]⟩

theorem complete_fooDependency (conditional : Bool) :
    ∀ da ∈ [fooDependency conditional], ∀ d ∈ da.alternatives, ∀ x ∈ d.constraint,
      IsComplete x := by
  simp only [List.mem_singleton, forall_eq, fooDependency, Option.mem_def, Option.some.injEq,
    forall_eq']
  exact isComplete_fromOneZero

def fooManifest (conditional : Bool) : PackageManifest where
  spelling := foo
  version := versionOne
  dependencies := [fooDependency conditional]
  isAvailable := isAvailable_versionOne
  isComplete := complete_fooDependency conditional

def tools : Tools where
  build2 := none
  bpkg := versionOne
  isAvailable := isAvailable_none
  bpkgIsAvailable := isAvailable_versionOne

/-- The package `foo` is fetched, unpacked and configured with a system `libfoo`. -/
def fooRun (conditional : Bool) : List Operation :=
  [.configureSystem libfoo (some ⟨versionOne, isAvailable_versionOne⟩) true,
    .fetchExisting (some (fooManifest conditional)) foo false false ⟨none, false, none, false⟩,
    .unpack (.ofString foo) (some false) (some []),
    .configure (.ofString foo) tools (some (fooManifest conditional)) true
      ⟨none, .success, false, none⟩]

theorem lifeCycle_foo : ∃ c, Configuration.empty.run (fooRun false) = some c ∧ Consistent c := by
  refine lifeCycle (fooRun false) fun op hop => ?_
  simp only [fooRun, List.mem_cons, List.not_mem_nil, or_false] at hop
  rcases hop with rfl | rfl | rfl | rfl
  · trivial
  · trivial
  · trivial
  · constructor
    · exact fun da hda => by rw [List.mem_singleton.mp hda]; rfl
    · simp only [NotMisled, fooManifest, List.mem_singleton, forall_eq, fooDependency,
        Option.mem_def, Option.some.injEq, forall_eq', forall_const]
      exact fun _ => not_misled_fromOneZero

/-- The package is configured, and it has `[1-0 2]` on record. -/
example : ((Configuration.empty.run (fooRun false)).bind fun c =>
    (c.packages.find (.ofString foo)).map fun p =>
      (p.state, p.prerequisites.lookup (.ofString libfoo))) =
    some (.configured, some (some fromOneZero)) := by rfl

/-- With a conditional dependency an assertion fails. -/
theorem conditional_fails : Configuration.empty.run (fooRun true) = none := by rfl

end Build2.Bpkg.LifeCycle
