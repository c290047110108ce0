import Build2.Bpkg.FetchGit.Fetch
import Build2.Libbutl.StandardVersion.Order

/-! # The default reference set

The loop of `default_references` parses the versions of the tags one after the other. Once a version
has a number that does not fit in 64 bits, `errno` is `ERANGE` and no version is accepted any more
(`defaultLoop_eq`), so that the default set has for each version the tag with the highest revision
of the tags in front of this one (`defaultReferences_ok`). -/

namespace Build2.Bpkg.FetchGit

open Build2.Lib.ByteString Build2.Lib.Stateful Build2.Lib.Best Build2.Libbutl
open Build2.Libbutl.ParseUint (Errno Call fresh)
open Build2.Libbutl.StandardVersion (parseStandardVersion)

/-- The version of the tag has a number that does not fit in 64 bits. -/
def overflows (rf : Ref) : Bool :=
  match tagVersion rf with
  | none => false
  | some s => (parseStandardVersion s stubFlags .zero).2 = .erange

/-- The references whose versions can be seen, from a value of `errno`. -/
def seen (errno : Errno) (refs : List Ref) : List Ref :=
  if errno = .erange then [] else refs.takeWhile fun rf => !overflows rf

/-! ### Parsing a version -/

/-- A failure with a reason becomes no version. -/
theorem parse_eq (s : Bytes) (e : Errno) : parseStandardVersion s stubFlags e
    = match StandardVersion.parseVersion s stubFlags e with
      | (.ok v, e') => (.ok (some v), e')
      | (.error (.invalidArgument _), e') => (.ok none, e')
      | (.error m, e') => (.error m, e') := by
  change Comp.handle (Comp.andThen (StandardVersion.parseVersion s stubFlags) _) _ _ = _
  unfold Comp.handle Comp.andThen
  rcases StandardVersion.parseVersion s stubFlags e with ⟨m | v, e'⟩
  · cases m <;> rfl
  · rfl

theorem parse_erange (s : Bytes) :
    parseStandardVersion s stubFlags .erange = (.ok none, .erange) := by
  rw [parse_eq, StandardVersion.parseVersion_erange]
  rfl

theorem parse_zero (s : Bytes) : ∃ v e, parseStandardVersion s stubFlags .zero = (.ok v, e) ∧
    (e = .erange → v = none) := by
  have hbails := StandardVersion.bails_parseVersion s stubFlags
  have hsteady := StandardVersion.steady_parseVersion s stubFlags
  rw [parse_eq]
  rcases hp : StandardVersion.parseVersion s stubFlags .zero with ⟨m | v, e⟩
  · cases m with
    | invalidArgument m => exact ⟨none, e, rfl, fun _ => rfl⟩
    | logicError m => exact absurd (congrArg Prod.fst hp) (hbails (.logicError m) fun _ => nofun)
    | assertion => exact absurd (congrArg Prod.fst hp) (hbails .assertion fun _ => nofun)
  · have hzero := hsteady _ _ _ hp
    rw [hp] at hzero
    obtain rfl : e = .zero := congrArg Prod.snd hzero
    exact ⟨some v, .zero, rfl, nofun⟩

theorem overflows_iff {rf : Ref} : overflows rf = true ↔
    ∃ s, tagVersion rf = some s ∧ StandardVersion.HasExcess stubFlags s := by
  unfold overflows
  cases htag : tagVersion rf with
  | none => simp
  | some s =>
    have hspoils := History.Parse.spoils_run (.parseStandardVersion s stubFlags)
    obtain ⟨v, e, hparse, -⟩ := parse_zero s
    have hrun : (History.Parse.parseStandardVersion s stubFlags).run .zero
        = (.ok (v.elim .nullopt .standard), e) := by
      change Comp.andThen (parseStandardVersion s stubFlags) _ _ = _
      unfold Comp.andThen
      rw [hparse]
      rfl
    rw [Comp.Spoils, hrun] at hspoils
    have hexcess : e ≠ .zero ↔ StandardVersion.HasExcess stubFlags s := hspoils
    simp only [hparse, decide_eq_true_eq, Option.some.injEq, exists_eq_left', ← hexcess]
    cases e
    · simp
    · simp

/-! ### The loop -/

/-- The entries of a list with the versions that they are tags for. -/
def versions (rfs : SearchResult) : List ((Ref × ℕ) × StandardVersion) :=
  rfs.filterMap fun x => (version? x.1).map fun v => (x, v)

/-- A version without its revision. -/
def versionKey (x : (Ref × ℕ) × StandardVersion) : ℕ × ℕ × ℕ :=
  (x.2.epoch, x.2.version, x.2.snapshotSn)

/-- The weight of a tag for a version. -/
def versionWeight (x : (Ref × ℕ) × StandardVersion) : ℕ := x.2.revision

theorem compare_eq_iff {x y : (Ref × ℕ) × StandardVersion} :
    x.2.compare y.2 true = .eq ↔ versionKey x = versionKey y := by
  unfold StandardVersion.compare versionKey
  simp only [Prod.mk.injEq]
  grind

theorem cmp_lt_iff {x y : (Ref × ℕ) × StandardVersion} (h : versionKey x = versionKey y) :
    x.2.cmp y.2 = .lt ↔ versionWeight x < versionWeight y := by
  obtain ⟨hepoch, h⟩ := Prod.mk.inj h
  obtain ⟨hversion, hsn⟩ := Prod.mk.inj h
  rw [StandardVersion.cmp_eq_lt, hepoch, hversion, hsn]
  simp [versionWeight]

theorem addDefault_eq (x : Ref × ℕ) (v : StandardVersion)
    (rs : List ((Ref × ℕ) × StandardVersion)) :
    addDefault x v rs = keep versionKey versionWeight (x, v) rs := by
  induction rs with
  | nil => rfl
  | cons y rs ih =>
    rw [addDefault, keep]
    by_cases hkey : versionKey y = versionKey (x, v)
    · rw [if_pos (compare_eq_iff.mpr hkey), if_pos hkey]
      simp only [cmp_lt_iff hkey]
    · rw [if_neg (mt compare_eq_iff.mp hkey), if_neg hkey, ih]

theorem eval_bind_of_ok {α β : Type} {x : Call α} {f : α → Call β} {e e' : Errno} {a : α}
    (h : x e = (.ok a, e')) : (x >>= f).eval e = (f a).eval e' := by
  change (Comp.andThen x f e).1 = _
  unfold Comp.andThen
  rw [h]
  rfl

/-- The entries that can be seen. -/
def seenEntries (errno : Errno) (rfs : SearchResult) : SearchResult :=
  if errno = .erange then [] else rfs.takeWhile fun x => !overflows x.1

/-- **The loop keeps the best** of the tags that can be seen. -/
theorem defaultLoop_eq (rs : List ((Ref × ℕ) × StandardVersion)) (rfs : SearchResult)
    (errno : Errno) :
    (defaultLoop rs rfs).eval errno = .ok ((versions (seenEntries errno rfs)).foldl
      (fun ys x => keep versionKey versionWeight x ys) rs) := by
  induction rfs generalizing rs errno with
  | nil => cases errno <;> rfl
  | cons x rfs ih =>
    rw [defaultLoop]
    cases htag : tagVersion x.1 with
    | none =>
      have hversion : version? x.1 = none := by rw [version?, htag]
      have hfits : overflows x.1 = false := by rw [overflows, htag]
      dsimp only
      rw [ih rs errno]
      cases errno <;> simp [seenEntries, versions, hversion, hfits]
    | some s =>
      dsimp only
      cases errno with
      | erange => rw [eval_bind_of_ok (parse_erange s)]; exact ih rs .erange
      | zero =>
        obtain ⟨v, e, hparse, hnone⟩ := parse_zero s
        have hversion : version? x.1 = v := by
          have hfresh : fresh (parseStandardVersion s stubFlags) = .ok v := congrArg Prod.fst hparse
          rw [version?, htag]
          dsimp only
          rw [hfresh]
        rw [eval_bind_of_ok hparse]
        cases e with
        | erange =>
          obtain rfl := hnone rfl
          have hoverflows : overflows x.1 = true := by simp [overflows, htag, hparse]
          have hih := ih rs .erange
          simpa [seenEntries, hoverflows] using hih
        | zero =>
          have hfits : overflows x.1 = false := by simp [overflows, htag, hparse]
          have hseen : seenEntries .zero (x :: rfs) = x :: seenEntries .zero rfs := by
            simp [seenEntries, hfits]
          cases v with
          | none =>
            have hversions :
                versions (x :: seenEntries .zero rfs) = versions (seenEntries .zero rfs) :=
              List.filterMap_cons_none (by rw [hversion]; rfl)
            rw [hseen, hversions]
            exact ih rs .zero
          | some v =>
            have hversions : versions (x :: seenEntries .zero rfs)
                = (x, v) :: versions (seenEntries .zero rfs) :=
              List.filterMap_cons_some (by rw [hversion]; rfl)
            rw [hseen, hversions, List.foldl_cons, ← addDefault_eq]
            exact ih (addDefault x v rs) .zero

/-! ### The set -/

theorem seen_eq (errno : Errno) (refs : List Ref) :
    (seenEntries errno refs.zipIdx).map Prod.fst = seen errno refs := by
  unfold seenEntries seen
  split_ifs
  · rfl
  · conv_rhs => rw [← List.zipIdx_map_fst 0 refs]
    rw [List.takeWhile_map]
    rfl

theorem mem_versions {rfs : SearchResult} {x : Ref × ℕ} {v : StandardVersion} :
    (x, v) ∈ versions rfs ↔ x ∈ rfs ∧ version? x.1 = some v := by
  unfold versions
  simp only [List.mem_filterMap, Option.map_eq_some_iff, Prod.mk.injEq]
  constructor
  · rintro ⟨y, hy, w, hw, rfl, rfl⟩
    exact ⟨hy, hw⟩
  · rintro ⟨hx, hv⟩
    exact ⟨x, hx, v, hv, rfl, rfl⟩

theorem forall_versions_iff {rfs : SearchResult} {x : Ref × ℕ} {v : StandardVersion}
    {P : ℕ → Prop} :
    (∀ y ∈ versions rfs, versionKey y = versionKey (x, v) → P (versionWeight y)) ↔
      ∀ r' ∈ rfs.map Prod.fst, ∀ v', version? r' = some v' → v'.compare v true = .eq →
        P v'.revision := by
  constructor
  · intro h r' hr' v' hv' hcompare
    obtain ⟨y, hy, rfl⟩ := List.mem_map.mp hr'
    have hkey : versionKey (y, v') = versionKey (x, v) := compare_eq_iff.mp hcompare
    exact h (y, v') (mem_versions.mpr ⟨hy, hv'⟩) hkey
  · rintro h ⟨y, v'⟩ hy hkey
    obtain ⟨hy, hv'⟩ := mem_versions.mp hy
    have hcompare : (y, v').2.compare (x, v).2 true = .eq := compare_eq_iff.mpr hkey
    exact h y.1 (List.mem_map_of_mem hy) v' hv' hcompare

theorem versions_append (a b : SearchResult) : versions (a ++ b) = versions a ++ versions b :=
  List.filterMap_append

theorem versions_cons {x : Ref × ℕ} {v : StandardVersion} (h : version? x.1 = some v)
    (b : SearchResult) : versions (x :: b) = (x, v) :: versions b :=
  List.filterMap_cons_some (by rw [h]; rfl)

theorem exists_isBest_iff {rfs : SearchResult} {r : Ref} :
    (∃ x v, IsBest versionKey versionWeight (versions rfs) (x, v) ∧ x.1 = r) ↔
      IsDefault (rfs.map Prod.fst) r := by
  constructor
  · rintro ⟨x, v, ⟨pre, suf, hsplit, hpre, hsuf⟩, rfl⟩
    obtain ⟨a, l, rfl, rfl, hl⟩ := List.filterMap_eq_append_iff.mp hsplit
    obtain ⟨b, y, d, rfl, hb, hy, rfl⟩ := List.filterMap_eq_cons_iff.mp hl
    obtain ⟨w, hw, hyx⟩ := Option.map_eq_some_iff.mp hy
    obtain ⟨rfl, rfl⟩ := Prod.mk.inj hyx
    have hnone : versions b = [] := List.filterMap_eq_nil_iff.mpr hb
    have hbefore : versions (a ++ b) = versions a := by
      rw [versions_append, hnone, List.append_nil]
    refine ⟨(a ++ b).map Prod.fst, d.map Prod.fst, w, by simp, hw, ?_, ?_⟩
    · refine (forall_versions_iff (P := (· < w.revision))).mp fun z hz => hpre z ?_
      rw [hbefore] at hz
      exact hz
    · exact (forall_versions_iff (P := (· ≤ w.revision))).mp hsuf
  · rintro ⟨pre, suf, v, hsplit, hv, hpre, hsuf⟩
    obtain ⟨a, l, rfl, rfl, hl⟩ := List.map_eq_append_iff.mp hsplit
    obtain ⟨x, b, rfl, rfl, rfl⟩ := List.map_eq_cons_iff.mp hl
    refine ⟨x, v, ⟨versions a, versions b, ?_, ?_, ?_⟩, rfl⟩
    · rw [versions_append, versions_cons hv]
    · exact (forall_versions_iff (P := (· < v.revision))).mpr hpre
    · exact (forall_versions_iff (P := (· ≤ v.revision))).mpr hsuf

/-- **The default reference set**: for each version the tag with the highest revision of the tags
that can be seen. -/
theorem defaultReferences_ok (refs : List Ref) (errno : Errno) :
    ∃ rs, defaultReferences refs errno = .ok rs ∧ (∀ x ∈ rs, x.1 ∈ refs) ∧
      ∀ r, (∃ x ∈ rs, x.1 = r) ↔ IsDefault (seen errno refs) r := by
  have hloop := defaultLoop_eq [] refs.zipIdx errno
  refine ⟨_, by rw [defaultReferences, hloop], ?_⟩
  have hmem : ∀ r, (∃ x ∈ ((versions (seenEntries errno refs.zipIdx)).foldl
      (fun ys x => keep versionKey versionWeight x ys) []).map Prod.fst, x.1 = r) ↔
      IsDefault (seen errno refs) r := by
    intro r
    rw [← seen_eq, ← exists_isBest_iff]
    constructor
    · rintro ⟨x, hx, hr⟩
      obtain ⟨⟨y, v⟩, hy, rfl⟩ := List.mem_map.mp hx
      exact ⟨y, v, mem_best.mp hy, hr⟩
    · rintro ⟨x, v, hx, hr⟩
      exact ⟨x, List.mem_map.mpr ⟨(x, v), mem_best.mpr hx, rfl⟩, hr⟩
  refine ⟨fun x hx => ?_, hmem⟩
  obtain ⟨pre, suf, v, hsplit, -⟩ := (hmem x.1).mp ⟨x, hx, rfl⟩
  have hseen : x.1 ∈ seen errno refs := by
    rw [hsplit]
    simp
  unfold seen at hseen
  split_ifs at hseen
  · cases hseen
  · exact List.takeWhile_subset _ hseen

end Build2.Bpkg.FetchGit
