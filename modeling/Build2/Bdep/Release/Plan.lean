import Build2.Libbutl.StandardVersion.Parse

/-! # Planning a release

The `plan_*()` functions of `bdep release`: they calculate the release versions, the open version
and the tag, and set them in the project without applying the changes. -/

namespace Build2.Bdep.Release

open Build2.Lib.ByteString Build2.Lib.Stateful Build2.Libbutl Build2.Libbutl.StandardVersion
  Build2.Libbutl.ParseUint

/-- `cmd_release_current_tag`. -/
inductive CurrentTag
  | keep
  | update
  | remove
  deriving DecidableEq, Repr

/-- The options that the plan depends on. -/
structure Options where
  alpha : Bool := false
  beta : Bool := false
  minor : Bool := false
  major : Bool := false
  openBeta : Bool := false
  openPatch : Bool := false
  openMinor : Bool := false
  openMajor : Bool := false
  openBase : Option Bytes := none
  revision : Bool := false
  currentTag : Option CurrentTag := none
  noCommit : Bool := false
  noTag : Bool := false
  noOpen : Bool := false
  amend : Bool := false
  force : List String := []
  deriving DecidableEq, Repr

/-- The repository status. -/
structure Status where
  staged : Bool
  unstaged : Bool
  deriving DecidableEq, Repr

structure Package where
  name : Bytes
  currentVersion : StandardVersion
  releaseVersion : Option StandardVersion := none
  deriving DecidableEq, Repr

/-- A project: its packages, the first of which is the exemplar, and what is planned for it. -/
structure Project where
  front : Package
  others : List Package := []
  openVersion : Option StandardVersion := none
  tag : Option Bytes := none
  curTag : Option (Bytes × CurrentTag) := none
  deriving DecidableEq, Repr

def Project.packages (p : Project) : List Package := p.front :: p.others

/-- The failures. An exception of a version constructor is one of them. -/
inductive Failure
  | unstagedChanges
  | uncommittedChanges
  | noStagedChanges
  | currentVersionSnapshot (v : StandardVersion)
  | currentTagSpecified (v : StandardVersion)
  | baseVersion (base : Bytes) (v : StandardVersion)
  | invalidBaseVersion (base : Bytes) (e : Fault)
  | optionSpecified (option kind : String) (v : StandardVersion)
  | notReleasable (v : StandardVersion)
  | version (e : Fault)
  deriving DecidableEq, Repr

/-- A function that may fail. It may set `errno` as it parses a version. -/
abbrev Planner (α : Type) := Comp Errno Failure α

/-- The exemplar's version: the current version, or the release one as part of a release. -/
def Project.version (p : Project) : StandardVersion :=
  p.front.releaseVersion.getD p.front.currentVersion

/-- A package whose version is released. -/
def Package.release (rv : StandardVersion) (p : Package) : Package :=
  { p with releaseVersion := some rv }

/-- A package with its next revision, in 16 bits. -/
def Package.revise (p : Package) : Package :=
  p.release { p.currentVersion with revision := (p.currentVersion.revision + 1) % 2 ^ 16 }

/-- `plan_tag`, with the function that replaces the `z` of a version. -/
def planTag (packageVersion : Package → Planner StandardVersion) (o : Options) (prj : Project)
    (st : Status) : Planner Project :=
  if (st.staged ∧ !o.revision) ∨ st.unstaged then Comp.fail .uncommittedChanges
  else
    let cv := prj.version
    if cv.snapshot ∧ "snapshot" ∉ o.force then Comp.fail (.currentVersionSnapshot cv)
    else do
      let v ← (if cv.latestSnapshot then packageVersion prj.front else pure cv)
      let vtag := fun (v : StandardVersion) incRev => ch 'v' :: v.stringProject incRev
      if cv.revision = 0 then
        if o.currentTag.isSome then Comp.fail (.currentTagSpecified cv)
        else pure { prj with tag := some (vtag v false) }
      else
        let ct := o.currentTag.getD .keep
        let ctv := { v with
          revision := if ct ≠ .update then (v.revision + (2 ^ 16 - 1)) % 2 ^ 16 else 0 }
        pure { prj with tag := some (vtag v (ct ≠ .update)), curTag := some (vtag ctv true, ct) }

/-- `make_snapshot`. -/
def makeSnapshot (cv : StandardVersion) (major minor patch preRelease : ℕ) : Call StandardVersion :=
  ofSnapshotComponents cv.epoch major minor patch preRelease latestSn [] 0

/-- The first of the options that jump to another version. -/
def openOption (o : Options) : Option String :=
  if o.openPatch then some "--open-patch"
  else if o.openMinor then some "--open-minor"
  else if o.openMajor then some "--open-major"
  else none

/-- The version to open from a base version. -/
def openBase (cv : StandardVersion) (vs : Bytes) : Planner StandardVersion := do
  let v ← (ofString vs .none).mapError (.invalidBaseVersion vs)
  if !v.release then Comp.fail (.invalidBaseVersion vs (.invalidArgument "pre-release"))
  else if v.revision ≠ 0 then
    Comp.fail (.invalidBaseVersion vs (.invalidArgument "contains revision"))
  else if v.cmp cv ≠ .gt then Comp.fail (.baseVersion vs cv)
  else (makeSnapshot cv v.major v.minor v.patch 0).mapError (.invalidBaseVersion vs)

/-- The version to open after the final version `cv`. -/
def openFinal (o : Options) (cv : StandardVersion) : Call StandardVersion :=
  let mj := cv.major
  let mi := cv.minor
  let pa := cv.patch
  if o.openMajor then makeSnapshot cv (mj + 1) 0 0 0
  else if o.openMinor then makeSnapshot cv mj (mi + 1) 0 0
  else if o.openPatch then makeSnapshot cv mj mi (pa + 1) 0
  else if pa = 0 then makeSnapshot cv mj (mi + 1) pa 0
  else makeSnapshot cv mj mi (pa + 1) 0

/-- The version to open after `cv`. -/
def nextOpen (o : Options) (cv : StandardVersion) : Planner StandardVersion :=
  if cv.snapshot then Comp.fail (.currentVersionSnapshot cv)
  else
    match o.openBase with
    | some vs => openBase cv vs
    | none =>
      if cv.alpha.isSome then
        match openOption o with
        | some n => Comp.fail (.optionSpecified n "alpha" cv)
        | none =>
          (makeSnapshot cv cv.major cv.minor cv.patch
            (if o.openBeta then 500 else cv.preRelease.getD 0)).mapError .version
      else if cv.beta.isSome then
        match openOption o with
        | some n => Comp.fail (.optionSpecified n "beta" cv)
        | none =>
          (makeSnapshot cv cv.major cv.minor cv.patch (cv.preRelease.getD 0)).mapError .version
      else if o.openBeta then Comp.fail (.optionSpecified "--open-beta" "final" cv)
      else (openFinal o cv).mapError .version

/-- `plan_open`. -/
def planOpen (o : Options) (prj : Project) (st : Status) : Planner Project :=
  if st.unstaged ∧ !o.noCommit then Comp.fail .unstagedChanges
  else do
    let ov ← nextOpen o prj.version
    pure { prj with openVersion := some ov }

/-- The next alpha, beta or, by default, final version of the one that `cv` is a pre-release of. -/
def nextPreRelease (o : Options) (cv : StandardVersion) : Planner StandardVersion :=
  let rv := fun pr =>
    (ofComponents cv.epoch cv.major cv.minor cv.patch pr 0).mapError Failure.version
  let pr := cv.preRelease.getD 0
  if o.beta then rv ((if cv.beta.isSome then pr else 500) + 1)
  else if o.alpha then
    if cv.beta.isSome then Comp.fail (.optionSpecified "--alpha" "beta" cv) else rv (pr + 1)
  else rv 0

/-- The version to release after `cv`. -/
def nextRelease (o : Options) (cv : StandardVersion) : Planner StandardVersion :=
  if cv.snapshot then
    if o.major then (ofComponents cv.epoch (cv.major + 1) 0 0 0 0).mapError .version
    else if o.minor then (ofComponents cv.epoch cv.major (cv.minor + 1) 0 0 0).mapError .version
    else nextPreRelease o cv
  else if cv.preRelease.isSome then
    if o.minor then
      Comp.fail (.optionSpecified "--minor" (if cv.beta.isSome then "beta" else "alpha") cv)
    else if o.major then
      Comp.fail (.optionSpecified "--major" (if cv.beta.isSome then "beta" else "alpha") cv)
    else nextPreRelease o cv
  else Comp.fail (.notReleasable cv)

/-- `plan_version`. -/
def planVersion (packageVersion : Package → Planner StandardVersion) (o : Options) (prj : Project)
    (st : Status) : Planner Project :=
  if st.unstaged ∧ !o.noCommit then Comp.fail .unstagedChanges
  else do
    let rv ← nextRelease o prj.front.currentVersion
    let prj := { prj with front := prj.front.release rv, others := prj.others.map (·.release rv) }
    if o.noCommit then pure prj
    else do
      let prj ← (if o.noTag then pure prj else planTag packageVersion o prj st)
      if o.noOpen then pure prj else planOpen o prj st

/-- `plan_revision`. -/
def planRevision (packageVersion : Package → Planner StandardVersion) (o : Options) (prj : Project)
    (st : Status) : Planner Project :=
  if st.unstaged ∧ !o.noCommit then Comp.fail .unstagedChanges
  else if !st.staged ∧ !o.noCommit ∧ !o.amend ∧ "unchanged" ∉ o.force then
    Comp.fail .noStagedChanges
  else
    let cv := prj.front.currentVersion
    if cv.snapshot then Comp.fail (.currentVersionSnapshot cv)
    else
      let prj := { prj with front := prj.front.revise, others := prj.others.map Package.revise }
      if o.noCommit then pure prj
      else if o.noTag then pure prj
      else planTag packageVersion o prj st

end Build2.Bdep.Release
