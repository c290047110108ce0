import Build2.Libbutl.SemanticVersion
import Build2.Libbutl.StandardVersion.Overflow

/-! # The history of a thread

The parsers of standard and semantic versions share `parse_uint64`, which looks at `errno` after
`strtoull` but never resets it. Which runs of calls behave as if each call were made first in a
fresh process. -/

namespace Build2.Libbutl.History

open Build2.Lib.ByteString Build2.Lib.Decimal Build2.Lib.Stateful Build2.Lib.Stateful.Comp
  Build2.Libbutl.ParseUint

/-- A call of one of the parsers. -/
inductive Parse
  | parseStandardVersion (s : Bytes) (f : StandardVersion.Flags)
  | standardVersion (s : Bytes) (f : StandardVersion.Flags)
  | parseSemanticVersion (s : Bytes) (p : ℕ) (bs : Option Bytes)
  | semanticVersion (s : Bytes) (p : ℕ) (bs : Option Bytes)

/-- What a call returns. -/
inductive Parsed
  | nullopt
  | standard (v : StandardVersion)
  | semantic (v : SemanticVersion)
  deriving DecidableEq, Repr

namespace Parse

/-- The call. -/
def run : Parse → Call Parsed
  | parseStandardVersion s f => do
    let v ← StandardVersion.parseStandardVersion s f
    pure (v.elim .nullopt .standard)
  | standardVersion s f => do
    let v ← StandardVersion.ofString s f
    pure (.standard v)
  | parseSemanticVersion s p bs => do
    let v ← SemanticVersion.parseSemanticVersion s p bs
    pure (v.elim .nullopt .semantic)
  | semanticVersion s p bs => do
    let v ← SemanticVersion.ofString s p bs
    pure (.semantic v)

/-- **The call gets to a number that does not fit in 64 bits.** -/
def HasExcess : Parse → Prop
  | parseStandardVersion s f => StandardVersion.HasExcess f s
  | standardVersion s f => StandardVersion.HasExcess f s
  | parseSemanticVersion s p _ => SemanticVersion.HasExcess (s.drop p)
  | semanticVersion s p _ => SemanticVersion.HasExcess (s.drop p)

/-- **The call has something to lose**: a version to return, or, where the reason for a failure is
reported, a first number. -/
def Reads : Parse → Prop
  | parseStandardVersion s f => ∃ v, StandardVersion.Spells StandardVersion.scanned f v s
  | standardVersion s _ => StandardVersion.HasFirst s
  | parseSemanticVersion s p bs => ∃ v, SemanticVersion.Spells bs v (s.drop p)
  | semanticVersion s p _ => ¬ SemanticVersion.NoNumber (s.drop p)

/-! ### One call -/

theorem map_eq {α β : Type} (x : Call α) (g : α → β) (e : Errno) :
    (do let a ← x; pure (g a) : Call β) e =
      match x e with
      | (.ok a, e') => (.ok (g a), e')
      | (.error m, e') => (.error m, e') := by
  show andThen x _ e = _
  unfold andThen
  rcases x e with ⟨_ | _, _⟩ <;> rfl

theorem optional_eq {α : Type} (x : Call α) (g : Option α → Parsed) (e : Errno) :
    (do
        let v ← handle (do let v ← x; pure (some v)) fun
          | .invalidArgument _ => pure none
          | e => Comp.fail e
        pure (g v) : Call Parsed) e =
      match x e with
      | (.ok a, e') => (.ok (g (some a)), e')
      | (.error (.invalidArgument _), e') => (.ok (g none), e')
      | (.error m, e') => (.error m, e') := by
  rw [map_eq]
  have h : handle (do let v ← x; pure (some v) : Call (Option α)) (fun
      | .invalidArgument _ => pure none
      | e => Comp.fail e) e =
      match x e with
      | (.ok a, e') => (.ok (some a), e')
      | (.error (.invalidArgument _), e') => (.ok none, e')
      | (.error m, e') => (.error m, e') := by
    unfold handle
    rw [map_eq]
    rcases x e with ⟨m | a, e'⟩
    · cases m <;> rfl
    · rfl
  rw [h]
  rcases x e with ⟨m | a, e'⟩
  · cases m <;> rfl
  · rfl

theorem spoils_run (k : Parse) : Spoils .zero k.run ↔ k.HasExcess := by
  have hmap : ∀ {α : Type} (x : Call α) (g : α → Parsed),
      Spoils .zero (do let a ← x; pure (g a) : Call Parsed) ↔ Spoils .zero x := by
    intro α x g
    unfold Spoils
    rw [map_eq]
    rcases x .zero with ⟨_ | _, _⟩ <;> rfl
  have hopt : ∀ {α : Type} (x : Call α) (g : Option α → Parsed), Spoils .zero (do
      let v ← handle (do let v ← x; pure (some v)) fun
        | .invalidArgument _ => pure none
        | e => Comp.fail e
      pure (g v) : Call Parsed) ↔ Spoils .zero x := by
    intro α x g
    unfold Spoils
    rw [optional_eq]
    rcases x .zero with ⟨m | a, e'⟩
    · cases m <;> rfl
    · rfl
  cases k with
  | parseStandardVersion s f => exact (hopt _ _).trans StandardVersion.spoils_parseVersion
  | standardVersion s f => exact (hmap _ _).trans StandardVersion.spoils_parseVersion
  | parseSemanticVersion s p bs =>
    exact (hopt _ _).trans SemanticVersion.spoils_parseSemanticVersionImpl
  | semanticVersion s p bs =>
    exact (hmap _ _).trans SemanticVersion.spoils_parseSemanticVersionImpl

/-- What a call does once `ERANGE` is there. -/
theorem run_erange (k : Parse) :
    k.run .erange = (match k with
      | parseStandardVersion _ _ => .ok .nullopt
      | standardVersion s _ => .error (StandardVersion.noFirst s)
      | parseSemanticVersion _ _ _ => .ok .nullopt
      | semanticVersion _ _ _ => .error (.invalidArgument "invalid major version"), .erange) := by
  cases k with
  | parseStandardVersion s f =>
    refine (optional_eq _ _ _).trans ?_
    rw [StandardVersion.parseVersion_erange]
    rfl
  | standardVersion s f =>
    refine (map_eq _ _ _).trans ?_
    unfold StandardVersion.ofString
    rw [StandardVersion.parseVersion_erange]
  | parseSemanticVersion s p bs =>
    refine (optional_eq _ _ _).trans ?_
    rw [SemanticVersion.parseSemanticVersionImpl_erange]
    rfl
  | semanticVersion s p bs =>
    refine (map_eq _ _ _).trans ?_
    unfold SemanticVersion.ofString
    rw [SemanticVersion.parseSemanticVersionImpl_erange]

theorem eval_map_eq_error {α : Type} {x : Call α} {g : α → Parsed} {m : Fault} :
    (do let a ← x; pure (g a) : Call Parsed).eval .zero = .error m ↔ fresh x = .error m := by
  unfold fresh eval
  rw [map_eq]
  rcases x .zero with ⟨m' | a, e'⟩
  · exact ⟨fun h => by cases h; rfl, fun h => by cases h; rfl⟩
  · exact ⟨nofun, nofun⟩

/-- `nullopt` is returned where nothing can be parsed. -/
theorem eval_optional_eq_nullopt {α : Type} {x : Call α} (hx : StandardVersion.Bails x)
    {g : α → Parsed} (hg : ∀ a, g a ≠ .nullopt) :
    (do
        let v ← handle (do let v ← x; pure (some v)) fun
          | .invalidArgument _ => pure none
          | e => Comp.fail e
        pure (v.elim .nullopt g) : Call Parsed).eval .zero = .ok .nullopt ↔
      ¬ ∃ v, fresh x = .ok v := by
  unfold eval
  rw [optional_eq]
  unfold fresh eval
  rcases hxz : x .zero with ⟨m | a, e'⟩
  · refine iff_of_true ?_ nofun
    cases m with
    | invalidArgument m => rfl
    | logicError m => exact absurd (congrArg Prod.fst hxz) (hx (.logicError m) fun _ => nofun)
    | assertion => exact absurd (congrArg Prod.fst hxz) (hx .assertion fun _ => nofun)
  · exact iff_of_false (fun h => hg a (Except.ok.inj h)) fun h => h ⟨a, rfl⟩

/-- **A call notices that `ERANGE` is there exactly where it has something to lose.** -/
theorem eval_erange (k : Parse) : k.run.eval .erange = k.run.eval .zero ↔ ¬ k.Reads := by
  have h : k.run.eval .erange = _ := congrArg Prod.fst k.run_erange
  rw [h, eq_comm]
  cases k with
  | parseStandardVersion s f =>
    refine (eval_optional_eq_nullopt (g := .standard) (StandardVersion.bails_parseVersion s f)
      nofun).trans ?_
    simp only [StandardVersion.parseVersion_eq_ok]
    rfl
  | standardVersion s f => exact eval_map_eq_error.trans (StandardVersion.parseVersion_noFirst s f)
  | parseSemanticVersion s p bs =>
    refine (eval_optional_eq_nullopt (g := .semantic) ?_ nofun).trans ?_
    · intro e he h
      obtain ⟨m, hm, -⟩ := SemanticVersion.parseSemanticVersionImpl_error h
      exact he m hm
    · simp only [SemanticVersion.parseSemanticVersionImpl_eq_ok]
      rfl
  | semanticVersion s p bs =>
    refine eval_map_eq_error.trans ?_
    show _ ↔ ¬ ¬ SemanticVersion.NoNumber (s.drop p)
    rw [not_not]
    cases h : fresh (SemanticVersion.ofString s p bs) with
    | error e =>
      obtain ⟨m, rfl, hm⟩ := SemanticVersion.parseSemanticVersionImpl_error h
      simpa using hm
    | ok v =>
      obtain ⟨ma, mi, r, hs, hma, -⟩ := SemanticVersion.parseSemanticVersionImpl_eq_ok.mp h
      refine iff_of_false nofun fun hno => hno ma _ _ hs (stops_cons.mpr ?_) hma
      decide

end Parse

/-! ### Runs -/

/-- **Which runs of calls do not depend on their history**: those in which no call that gets to a
number that does not fit comes before one that has something to lose. -/
theorem runs_eq_fresh_iff (ks : List Parse) :
    (runs (ks.map Parse.run) .zero).1 = ks.map (fun k => fresh k.run) ↔
      ks.Pairwise fun k l => k.HasExcess → ¬ l.Reads := by
  have hz : ∀ x ∈ ks.map Parse.run, (x Errno.zero).2 = .zero ∨ (x Errno.zero).2 = .erange := by
    intro x _
    cases (x .zero).2
    · exact Or.inl rfl
    · exact Or.inr rfl
  have he : ∀ x ∈ ks.map Parse.run, (x Errno.erange).2 = .erange := by
    intro x hx
    obtain ⟨k, -, rfl⟩ := List.mem_map.mp hx
    rw [k.run_erange]
  have key := runs_eq_iff hz he
  rw [List.map_map, List.pairwise_map] at key
  exact key.trans (List.Pairwise.iff fun k l =>
    imp_congr k.spoils_run (l.eval_erange.trans Iff.rfl))

/-- **After `99999999999999999999.0.0` has been rejected, `1.2.3` is, too.** -/
theorem runs_ne_fresh :
    let ks := [Parse.standardVersion (str "99999999999999999999.0.0".toList) .none,
      Parse.standardVersion (str "1.2.3".toList) .none]
    (runs (ks.map Parse.run) .zero).1 ≠ ks.map (fun k => fresh k.run) ∧
      (runs (ks.map Parse.run) .zero).1 =
        [.error (.invalidArgument "invalid major version"),
          .error (.invalidArgument "invalid major version")] ∧
      ks.map (fun k => fresh k.run) =
        [.error (.invalidArgument "invalid major version"),
          .ok (.standard ⟨1, 100002000030000, 0, [], 0⟩)] := by
  decide

end Build2.Libbutl.History
