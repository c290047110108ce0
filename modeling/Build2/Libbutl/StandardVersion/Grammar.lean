import Build2.Libbutl.StandardVersion.Parse
import Build2.Libbutl.StandardVersion.Components

/-! # The grammar of standard versions

The grammar of `standard-version.mxx`, over a lexicon that says what a number is. With the numbers
as `strtoull` scans them it is exactly what `parse_version` accepts in a thread whose `errno` is
zero (`parseVersion_eq_ok`). -/

namespace Build2.Libbutl.StandardVersion

open Build2.Lib.ByteString Build2.Lib.Decimal Build2.Lib.Stateful Build2.Lib.Stateful.Comp
  Build2.Libbutl.ParseUint

/-- What counts as a number, as a snapshot number and as the zero of a stub. -/
structure Lexicon where
  number : Bytes → ℕ → Prop
  snapshot : Bytes → ℕ → Prop
  zero : Bytes → Prop

/-- The lexicon of the scanner. -/
def scanned : Lexicon where
  number := LaxNumber
  snapshot t n := LaxNumber t n ∧ 1 ≤ n ∧ n < latestSn
  zero t := LaxNumber t 0

section Affixes

variable (N : Bytes → ℕ → Prop)

/-- `[+<rev>]` -/
inductive RevisionText : ℕ → Bytes → Prop
  | absent : RevisionText 0 []
  | given {t : Bytes} {n : ℕ} (hn : N t n) (h1 : 1 ≤ n) (h2 : n ≤ 65535) :
      RevisionText n (ch '+' :: t)

/-- `[+<epoch>-]` -/
inductive EpochText : ℕ → Bytes → Prop
  | absent : EpochText 1 []
  | given {t : Bytes} {n : ℕ} (hn : N t n) (h1 : 1 ≤ n) (h2 : n ≤ 65535) :
      EpochText n (ch '+' :: (t ++ [ch '-']))

end Affixes

section Grammar

variable (L : Lexicon) (f : Flags)

/-- `<snapsn>[.<snapid>]` -/
inductive SnapshotText : ℕ → Bytes → Bytes → Prop
  | latest : SnapshotText latestSn [] [ch 'z']
  | number {t : Bytes} {n : ℕ} (hn : L.snapshot t n) : SnapshotText n [] t
  | withId {t id : Bytes} {n : ℕ} (hn : L.snapshot t n) (hne : id ≠ []) (hlen : id.length ≤ 16)
      (hid : ∀ b ∈ id, isAlnum b = true) : SnapshotText n id (t ++ ch '.' :: id)

/-- The letter of a pre-release. -/
def IsLetter (k : UInt8) : Prop := k = ch 'a' ∨ k = ch 'b'

/-- `[-(a|b).<num>[.<snapsn>[.<snapid>]]]`, or `-` -/
inductive PreText : Pre → Bytes → Prop
  | release : PreText .release []
  | earliest (hf : f.allowEarliest = true) : PreText .earliest [ch '-']
  | final {k : UInt8} {t : Bytes} {n : ℕ} (hk : IsLetter k) (hn : L.number t n) (h1 : 1 ≤ n)
      (h2 : n ≤ 499) : PreText (.final (ddd k n)) (ch '-' :: k :: ch '.' :: t)
  | snapshot {k : UInt8} {t u id : Bytes} {n sn : ℕ} (hk : IsLetter k) (hn : L.number t n)
      (h2 : n ≤ 499) (hu : SnapshotText L sn id u) :
      PreText (.snapshot (ddd k n) sn id) (ch '-' :: k :: ch '.' :: (t ++ ch '.' :: u))

/-- `[+<epoch>-]<maj>.<min>.<patch>[-…][+<rev>]`, the numbers within their limits -/
structure NormalText (c : Components) (ep ma mi bf pre rev : Bytes) : Prop where
  epoch : EpochText L.number c.epoch ep
  major : L.number ma c.major ∧ c.major ≤ 99999
  minor : L.number mi c.minor ∧ c.minor ≤ 99999
  patch : L.number bf c.patch ∧ c.patch ≤ 99999
  joined : c.joined ≠ 0
  pre : PreText L f c.pre pre
  revision : RevisionText L.number c.revision rev
  earliest : c.pre = .earliest → rev = []

/-- **The grammar of standard versions**: a version and a text that spells it. -/
inductive Spells : StandardVersion → Bytes → Prop
  | stub {z rev : Bytes} {r : ℕ} (hf : f.allowStub = true) (hz : L.zero z)
      (hr : RevisionText L.number r rev) :
      Spells { epoch := 0, version := stubVersion, revision := r } (z ++ rev)
  | normal {c : Components} {ep ma mi bf pre rev : Bytes}
      (h : NormalText L f c ep ma mi bf pre rev) :
      Spells c.toVersion (ep ++ (ma ++ ch '.' :: (mi ++ ch '.' :: (bf ++ (pre ++ rev)))))

end Grammar

/-! ### The parsers are steady -/

theorem steady_orBail {α : Type} {x : Comp Errno Unit α} {m : String} (h : Steady .zero x) :
    Steady .zero (orBail x m) := steady_mapError h _

theorem steady_bail {α : Type} (m : String) : Steady .zero (bail m : Call α) :=
  steady_throw _

theorem steady_uint (s : Bytes) (a b : ℕ) (m : String) :
    Steady .zero (orBail (parseUint64 s a b) m) := steady_orBail (steady_parseUint64 s a b)

theorem steady_parseSnapshot (s : Bytes) : Steady .zero (parseSnapshot s) := by
  unfold parseSnapshot
  refine steady_ite (steady_pure _) (steady_bind (steady_uint _ _ _ _) fun p => ?_)
  exact steady_ite (steady_ite (steady_bail _) (steady_pure _)) (steady_pure _)

theorem steady_parseEpoch (s : Bytes) : Steady .zero (parseEpoch s) := by
  unfold parseEpoch
  refine steady_ite (steady_bind (steady_uint _ _ _ _) fun p => ?_) (steady_pure _)
  exact steady_ite (steady_pure _) (steady_bail _)

theorem steady_parsePreReleaseNumber (k : UInt8) (s : Bytes) :
    Steady .zero (parsePreReleaseNumber k s) := by
  unfold parsePreReleaseNumber
  refine steady_bind (steady_uint _ _ _ _) fun p => steady_ite ?_ ?_
  · exact steady_bind (steady_parseSnapshot _) fun q => steady_pure _
  · exact steady_ite (steady_bail _) (steady_pure _)

theorem steady_parsePreRelease (s : Bytes) (f : Flags) : Steady .zero (parsePreRelease s f) := by
  unfold parsePreRelease
  refine steady_ite (steady_pure _) (steady_ite (steady_pure _) (steady_ite (steady_bail _) ?_))
  exact steady_ite (steady_bail _) (steady_parsePreReleaseNumber _ _)

theorem steady_parseEnd (s : Bytes) (e : Bool) : Steady .zero (parseEnd s e) := by
  unfold parseEnd
  refine steady_ite (steady_ite (steady_throw _) (steady_bind (steady_uint _ _ _ _) fun p => ?_)) ?_
  · exact steady_ite (steady_bail _) (steady_pure _)
  · exact steady_ite (steady_bail _) (steady_pure _)

theorem steady_parseNormal (s : Bytes) (f : Flags) (epoch : Option ℕ) (ma : ℕ) :
    Steady .zero (parseNormal s f epoch ma) := by
  unfold parseNormal
  refine steady_ite (steady_bail _) (steady_bind (steady_uint _ _ _ _) fun p => ?_)
  refine steady_ite (steady_bail _) (steady_bind (steady_uint _ _ _ _) fun q => ?_)
  refine steady_ite (steady_bail _) (steady_bind (steady_parsePreRelease _ _) fun r => ?_)
  exact steady_bind (steady_parseEnd _ _) fun _ => steady_pure _

theorem steady_parseVersion (s : Bytes) (f : Flags) : Steady .zero (parseVersion s f) := by
  unfold parseVersion
  refine steady_bind (steady_parseEpoch s) fun p => steady_bind (steady_uint _ _ _ _) fun q => ?_
  exact steady_ite (steady_bind (steady_parseEnd _ _) fun _ => steady_pure _)
    (steady_parseNormal _ _ _ _)

end Build2.Libbutl.StandardVersion
