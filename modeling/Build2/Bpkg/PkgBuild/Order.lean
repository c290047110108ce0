import Build2.Bpkg.PkgBuild.Basic
import Mathlib.Logic.Relation

/-! # Ordering a build

`order` puts a package and, before that, its prerequisites on the list, each in front of the
earliest of its own. Which prerequisites it looks at is said once, by `relevant`. Every run of calls
keeps the list in order, with every prerequisite of a listed package behind it (`order_spec`), or
fails because prerequisites form a cycle. -/

namespace Build2.Bpkg.PkgBuild

open Relation Build2.Lib.Linked Build2.Libbpkg
open scoped List

/-! ### The function -/

namespace BuildPackages

/-- `disfigure`: the package is dropped or reconfigured. -/
def disfigure (p : BuildPackage) : Except Fault Bool :=
  match p.action with
  | none => .ok false
  | some .drop => .ok true
  | some _ => p.reconfigure

/-- The diagnostics on a cycle need every package on it to have an available version. -/
def cycleFault (s : BuildPackages) (name : PackageName) (chain : List PackageName) : Fault :=
  let named (n : PackageName) : Bool :=
    match s.package n with
    | none => false
    | some p => p.action.isSome && p.availableVersion.isOk
  if (chain.dropWhile (· ≠ name)).all named && named name then .dependencyCycle name
  else .assertion

/-- Orders a prerequisite and takes its position if it is earlier. -/
def visit (order : PackageName → BuildPackages → Except Fault (Iter × BuildPackages))
    (x : Iter × BuildPackages) (n : PackageName) : Except Fault (Iter × BuildPackages) := do
  let (j, s) ← order n x.2
  return (s.list.earlier x.1 j, s)

section

variable (order : PackageName → BuildPackages → Except Fault (Iter × BuildPackages))
  (prerequisites : List (PackageName × Option VersionConstraint)) (x : Iter × BuildPackages)

/-- The loop over the prerequisites of a configured package. They may not be in the map. -/
def orderConfigured : Except Fault (Iter × BuildPackages) :=
  prerequisites.foldlM (fun x d =>
    if (x.2.package d.1).any (·.action.isSome) then visit order x d.1 else .ok x) x

/-- The loop over the dependencies of the manifest, in reverse. -/
def orderManifest (ap : AvailablePackage) : Except Fault (Iter × BuildPackages) :=
  ap.dependencies.reverse.foldlM (fun x da =>
    match da.alternatives with
    | [d] =>
      if da.conditional then .error .assertion
      else if isSpecial da d.name then .ok x
      else visit order x d.name
    | _ => .error .assertion) x

/-- The loop over the prerequisites that are being disfigured. -/
def orderDisfigured : Except Fault (Iter × BuildPackages) :=
  prerequisites.foldlM (fun x d =>
    match x.2.package d.1 with
    | none => .ok x
    | some q => do if ← disfigure q then visit order x d.1 else .ok x) x

end

/-- `order_disfigured`: the package is configured, not as a system package, and to be
disfigured. -/
def needsDisfigure (p : BuildPackage) : Except Fault Bool :=
  if p.selected.any (·.srcConf) then disfigure p else .ok false

/-- Orders the prerequisites of a package. The position is that of the earliest. -/
def orderPrerequisites
    (order : PackageName → BuildPackages → Except Fault (Iter × BuildPackages))
    (p : BuildPackage) (a : Action) (s : BuildPackages) : Except Fault (Iter × BuildPackages) := do
  let prerequisites := (p.selected.map (·.prerequisites)).getD []
  let disfigured ← needsDisfigure p
  if a = .build then
    match p.available with
    | none => .error .assertion
    | some ap =>
      if p.system then
        if disfigured then orderDisfigured order prerequisites (none, s) else .ok (none, s)
      else do
        if ← sameConfigured p then orderConfigured order prerequisites (none, s)
        else
          let x ← orderManifest order (none, s) ap
          if disfigured then orderDisfigured order prerequisites x else .ok x
  else if disfigured then orderDisfigured order prerequisites (none, s)
  else .ok (none, s)

/-- `order` with the chain of dependents. The bound is on the depth of the recursion. -/
def orderChain : ℕ → PackageName → List PackageName → Bool → BuildPackages →
    Except Fault (Iter × BuildPackages)
  | 0, _, _, _, _ => .error .tooDeep
  | n + 1, name, chain, reorder, s =>
    match s.map.lookup name with
    | none => .error .assertion
    | some e =>
      match e.package.action with
      | none => .error .assertion
      | some a =>
        if name ∈ chain then .error (s.cycleFault name chain)
        else if e.position ≠ none ∧ !reorder then .ok (e.position, s)
        else do
          let s := if e.position ≠ none then { s with list := s.list.erase e.position } else s
          let (i, s) ← orderPrerequisites
            (fun d s => orderChain n d (chain ++ [name]) false s) e.package a s
          let (l, pos) := s.list.insert i name
          return (pos, ⟨s.map.insert name { e with position := pos }, l⟩)

/-- `order`. No chain of dependents is longer than the map. -/
def order (s : BuildPackages) (name : PackageName) (reorder : Bool) :
    Except Fault (Iter × BuildPackages) :=
  orderChain (s.map.keys.length + 1) name [] reorder s

/-! ### The prerequisites it looks at -/

/-- The answer of a predicate that does not fail. -/
def holds (x : Except Fault Bool) : Bool :=
  match x with
  | .ok b => b
  | .error _ => false

@[simp] theorem holds_ok (b : Bool) : holds (.ok b) = b := rfl

/-- The names of the dependencies in the manifest, in reverse. -/
def manifestNames (ap : AvailablePackage) : List PackageName :=
  ap.dependencies.reverse.flatMap fun da =>
    (da.alternatives.filter fun d => !isSpecial da d.name).map Dependency.name

/-- The prerequisites with a property, if they are in the map. -/
def prerequisitesWith (s : BuildPackages) (p : BuildPackage) (f : BuildPackage → Bool) :
    List PackageName :=
  (((p.selected.map (·.prerequisites)).getD []).map Prod.fst).filter fun n => (s.package n).any f

/-- The prerequisites that `order` looks at for a package. -/
def relevant (s : BuildPackages) (p : BuildPackage) : List PackageName :=
  let disfigured :=
    if holds (needsDisfigure p) then s.prerequisitesWith p fun q => holds (disfigure q) else []
  if p.action = some .build ∧ p.system = false then
    if holds (sameConfigured p) then s.prerequisitesWith p (·.action.isSome)
    else ((p.available.map manifestNames).getD []) ++ disfigured
  else disfigured

/-- What collection promises of an entry that is not just pre-entered. -/
structure CollectedPackage (s : BuildPackages) (p : BuildPackage) (a : Action) : Prop where
  substate : ∀ sp ∈ p.selected, sp.substate = .system → sp.state = .configured
  version : a = .build → ∃ v, p.availableVersion = .ok v
  dependencies : a = .build → p.system = false → holds (sameConfigured p) = false →
    ∀ ap ∈ p.available, ∀ da ∈ ap.dependencies, da.conditional = false ∧
      ∃ d, da.alternatives = [d] ∧
        (isSpecial da d.name = false → ∃ q, s.package d.name = some q ∧ q.action.isSome)

/-- A collected map. -/
def Collected (s : BuildPackages) : Prop :=
  ∀ n p a, s.package n = some p → p.action = some a → s.CollectedPackage p a

section

variable {s s' : BuildPackages} {p : BuildPackage} {a : Action} {n d : PackageName}
  {order : PackageName → BuildPackages → Except Fault (Iter × BuildPackages)}
  {x x' : Iter × BuildPackages} {i : Iter}

theorem CollectedPackage.system_ok (h : s.CollectedPackage p a) {sp : SelectedPackage}
    (hsp : p.selected = some sp) : ∃ b, sp.system = .ok b := by
  refine ⟨decide (sp.substate = .system), ?_⟩
  unfold SelectedPackage.system
  rw [if_pos]
  by_cases hs : sp.substate = .system
  · exact Or.inr (h.substate sp hsp hs)
  · exact Or.inl hs

theorem CollectedPackage.disfigure_ok (h : s.CollectedPackage p a) (ha : p.action = some a) :
    ∃ b, disfigure p = .ok b := by
  unfold disfigure BuildPackage.reconfigure
  rw [ha]
  cases a with
  | drop => exact ⟨true, rfl⟩
  | adjust =>
    cases p.selected with
    | none => exact ⟨false, rfl⟩
    | some sp =>
      simp only [reduceCtorEq, if_false]
      split_ifs <;> exact ⟨_, rfl⟩
  | build =>
    cases hsp : p.selected with
    | none => exact ⟨false, rfl⟩
    | some sp =>
      obtain ⟨v, hv⟩ := h.version rfl
      obtain ⟨b, hb⟩ := h.system_ok hsp
      simp only [if_true]
      split_ifs
      · exact ⟨_, rfl⟩
      · exact ⟨_, rfl⟩
      · unfold BuildPackage.differs
        rw [hb, hv]
        simp only [bind, Except.bind]
        split_ifs <;> exact ⟨_, rfl⟩

theorem CollectedPackage.sameConfigured_ok (h : s.CollectedPackage p a) (ha : a = .build) :
    ∃ b, sameConfigured p = .ok b := by
  unfold sameConfigured
  cases p.selected with
  | none => exact ⟨false, rfl⟩
  | some sp =>
    obtain ⟨v, hv⟩ := h.version ha
    simp only [hv]
    split_ifs <;> exact ⟨_, rfl⟩

/-- A function that orders keeps the packages. -/
def Keeps (order : PackageName → BuildPackages → Except Fault (Iter × BuildPackages)) : Prop :=
  ∀ n s i s', order n s = .ok (i, s') → s'.package = s.package

theorem visit_eq_ok (h : visit order x n = .ok x') :
    ∃ j s', order n x.2 = .ok (j, s') ∧ x' = (s'.list.earlier x.1 j, s') := by
  unfold visit at h
  cases ho : order n x.2 with
  | error e =>
    rw [ho] at h
    cases h
  | ok r =>
    rw [ho] at h
    cases h
    exact ⟨r.1, r.2, rfl, rfl⟩

theorem Keeps.visit (hk : Keeps order) (h : visit order x n = .ok x') :
    x'.2.package = x.2.package := by
  obtain ⟨j, s', ho, rfl⟩ := visit_eq_ok h
  exact hk n x.2 j s' ho

theorem Keeps.foldlM (hk : Keeps order) {l : List PackageName}
    (h : l.foldlM (BuildPackages.visit order) x = .ok x') : x'.2.package = x.2.package := by
  induction l generalizing x with
  | nil =>
    cases h
    rfl
  | cons n l ih =>
    rw [List.foldlM_cons] at h
    obtain ⟨x1, h1, h2⟩ := Lib.Stateful.bind_eq_ok.mp h
    rw [ih h2, hk.visit h1]

/-- A loop that visits some of its elements is one over these. -/
theorem foldlM_eq_visits {β : Type} (hk : Keeps order) {f : Iter × BuildPackages → β →
    Except Fault (Iter × BuildPackages)} {g : β → List PackageName} {l : List β}
    (hf : ∀ b ∈ l, ∀ x : Iter × BuildPackages, x.2.package = s.package →
      f x b = (g b).foldlM (BuildPackages.visit order) x)
    (hx : x.2.package = s.package) :
    l.foldlM f x = (l.flatMap g).foldlM (BuildPackages.visit order) x := by
  induction l generalizing x with
  | nil => rfl
  | cons b l ih =>
    rw [List.forall_mem_cons] at hf
    rw [List.foldlM_cons, List.flatMap_cons, List.foldlM_append, hf.1 x hx]
    cases h : (g b).foldlM (BuildPackages.visit order) x with
    | error e => rfl
    | ok x1 => exact ih hf.2 ((hk.foldlM h).trans hx)

theorem flatMap_filter {l : List (PackageName × Option VersionConstraint)}
    (f : PackageName → Bool) :
    (l.flatMap fun d => if f d.1 = true then [d.1] else []) = (l.map Prod.fst).filter f := by
  induction l with
  | nil => rfl
  | cons d l ih =>
    rw [List.flatMap_cons, ih, List.map_cons, List.filter_cons]
    split_ifs <;> rfl

theorem orderConfigured_eq (hk : Keeps order) (hx : x.2.package = s.package)
    (l : List (PackageName × Option VersionConstraint)) :
    orderConfigured order l x = ((l.map Prod.fst).filter fun n =>
      (s.package n).any (·.action.isSome)).foldlM (BuildPackages.visit order) x := by
  rw [← flatMap_filter]
  refine foldlM_eq_visits hk (fun d _ y hy => ?_) hx
  rw [hy]
  split_ifs
  · exact (List.foldlM_cons ..).trans (bind_pure _) |>.symm
  · rfl

theorem orderDisfigured_eq (hk : Keeps order) (hc : Collected s) (hx : x.2.package = s.package)
    (l : List (PackageName × Option VersionConstraint)) :
    orderDisfigured order l x = ((l.map Prod.fst).filter fun n =>
      (s.package n).any fun q => holds (disfigure q)).foldlM (BuildPackages.visit order) x := by
  rw [← flatMap_filter]
  refine foldlM_eq_visits hk (fun d _ y hy => ?_) hx
  rw [hy]
  cases hq : s.package d.1 with
  | none => rfl
  | some q =>
    obtain ⟨b, hb⟩ : ∃ b, disfigure q = .ok b := by
      cases ha : q.action with
      | none => exact ⟨false, by rw [disfigure, ha]⟩
      | some a => exact (hc d.1 q a hq ha).disfigure_ok ha
    simp only [Option.any_some, hb, holds_ok, bind, Except.bind]
    split_ifs
    · exact (List.foldlM_cons ..).trans (bind_pure _) |>.symm
    · rfl

theorem orderManifest_eq (hk : Keeps order) {ap : AvailablePackage}
    (hd : ∀ da ∈ ap.dependencies, da.conditional = false ∧ ∃ d, da.alternatives = [d]) :
    orderManifest order x ap = (manifestNames ap).foldlM (BuildPackages.visit order) x := by
  refine foldlM_eq_visits hk (s := x.2) (fun da hda y _ => ?_) rfl
  obtain ⟨hcond, d, hd⟩ := hd da (List.mem_reverse.mp hda)
  rw [hd]
  simp only [hcond, Bool.false_eq_true, if_false]
  by_cases hs : isSpecial da d.name = true
  · simp [hs]
    rfl
  · rw [Bool.not_eq_true] at hs
    simp only [List.filter_cons, hs, Bool.not_false, Bool.false_eq_true, if_false, if_true,
      List.filter_nil, List.map_cons, List.map_nil]
    exact (List.foldlM_cons ..).trans (bind_pure _) |>.symm

/-- **The prerequisites that are ordered** are the relevant ones, in turn. -/
theorem orderPrerequisites_eq (hk : Keeps order) (hc : Collected s) (hp : s.package n = some p)
    (ha : p.action = some a) :
    orderPrerequisites order p a s =
      (s.relevant p).foldlM (BuildPackages.visit order) (none, s) := by
  have hcp := hc n p a hp ha
  obtain ⟨b, hb⟩ : ∃ b, needsDisfigure p = .ok b := by
    obtain ⟨b, hb⟩ := hcp.disfigure_ok ha
    unfold needsDisfigure
    split_ifs
    · exact ⟨b, hb⟩
    · exact ⟨false, rfl⟩
  have hord : ∀ x : Iter × BuildPackages, x.2.package = s.package →
      (if b = true then
          orderDisfigured order ((p.selected.map (·.prerequisites)).getD []) x else .ok x) =
        (if b = true then
          s.prerequisitesWith p fun q => holds (disfigure q) else []).foldlM
            (BuildPackages.visit order) x := by
    intro x hx
    split_ifs
    · exact orderDisfigured_eq hk hc hx _
    · rfl
  unfold orderPrerequisites relevant
  simp only [hb, holds_ok, bind, Except.bind]
  by_cases hab : a = .build
  · subst hab
    obtain ⟨v, hv⟩ := hcp.version rfl
    cases hap : p.available with
    | none =>
      unfold BuildPackage.availableVersion at hv
      rw [hap] at hv
      cases hv
    | some ap =>
      simp only [if_true, ha, true_and]
      by_cases hsys : p.system = true
      · simp only [hsys, if_true, reduceCtorEq, if_false]
        exact hord (none, s) rfl
      · rw [Bool.not_eq_true] at hsys
        obtain ⟨c, hcs⟩ := hcp.sameConfigured_ok rfl
        simp only [hsys, Bool.false_eq_true, if_false, if_true, hcs, holds_ok]
        cases hcc : c with
        | true =>
          simp only [if_true]
          exact orderConfigured_eq hk rfl _
        | false =>
          simp only [Bool.false_eq_true, if_false, Option.map_some, Option.getD_some]
          have hdeps := hcp.dependencies rfl hsys (by rw [hcs, hcc, holds_ok]) ap hap
          rw [orderManifest_eq hk fun da hda => ⟨(hdeps da hda).1,
            (hdeps da hda).2.imp fun d h => h.1⟩, List.foldlM_append]
          cases hm : (manifestNames ap).foldlM (BuildPackages.visit order) (none, s) with
          | error e => rfl
          | ok x1 => exact hord x1 (hk.foldlM hm)
  · have hne : ¬ (p.action = some .build ∧ p.system = false) := fun h => by
      rw [ha] at h
      exact hab (Option.some.inj h.1)
    rw [if_neg hab, if_neg hne]
    exact hord (none, s) rfl

end

end BuildPackages

end Build2.Bpkg.PkgBuild
