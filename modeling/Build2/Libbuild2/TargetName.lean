import Build2.Lib.ByteString
import Mathlib.Data.List.DropRight

/-! # Names of targets

`target::split_name` and `target::combine_name` of `target.cxx`. Splitting a name, combining the
parts and splitting again gives the parts back, unless the extension follows a dot that is part of
the base: then the assertion in `combine_name` fails (`recombines_iff`). -/

namespace Build2.Libbuild2.TargetName

open Build2.Lib.ByteString

def dot : UInt8 := ch '.'

/-- The directory separator. -/
def sep : UInt8 := ch '/'

/-- How a call ends when it does not return. -/
inductive Fault
  | diagnostics
  | assertion
  deriving DecidableEq, Repr

/-! ### Extensions -/

/-- Neither a dot nor a separator. -/
def inner (c : UInt8) : Bool := c ≠ dot && c ≠ sep

/-- The loop of `path_traits::find_extension`: one more than the position of the last dot, and 0 if
a separator comes later. -/
def lastDot (s : Bytes) : ℕ :=
  let u := s.rdropWhile inner
  if u.getLast? = some dot then u.length else 0

/-- `path_traits::find_extension`. Paths like `.txt` and `txt.` have none. -/
def findExtension (s : Bytes) : Option ℕ :=
  let i := lastDot s
  if 1 < i ∧ s.getD (i - 2) 0 ≠ sep ∧ i ≠ s.length then some (i - 1) else none

/-! ### Splitting and combining -/

/-- The characters in front of the trailing dots. -/
def stem (v : Bytes) : Bytes := v.rdropWhile (· = dot)

/-- `target::split_name`: the base and the extension. -/
def splitName (v : Bytes) : Except Fault (Bytes × Option Bytes) :=
  if v = [] then .error .assertion
  else if v.getLast? ≠ some dot then
    match findExtension v with
    | some p => .ok (v.take p, some (v.drop (p + 1)))
    | none => .ok (v, none)
  else if stem v = [] then .error .diagnostics
  else
    let p := (stem v).length
    let n := v.length - p
    if n = 1 then .ok (v.take p, some [])
    else if n = 3 then .ok (v.take p, none)
    else if n % 2 = 0 then .ok (v.take (p + n / 2), some [])
    else .error .diagnostics

/-- `target::combine_name`. -/
def combineName (v : Bytes) (e : Option Bytes) (de : Bool) : Except Fault Bytes :=
  if v.getLast? = some dot then
    if e ≠ some [] then .error .assertion
    else if stem v = [] then .error .assertion
    else .ok (v ++ List.replicate (v.length - (stem v).length) dot)
  else
    match e with
    | some e => .ok (v ++ [dot] ++ e)
    | none => if de ∧ (findExtension v).isSome then .ok (v ++ [dot, dot, dot]) else .ok v

/-! ### Trailing dots -/

variable {v u e : Bytes} {n p : ℕ}

theorem stem_append (hu : u.getLast? ≠ some dot) (n : ℕ) :
    stem (u ++ List.replicate n dot) = u := by
  have hdots : ∀ c ∈ (List.replicate n dot).reverse, decide (c = dot) = true := fun c hc =>
    decide_eq_true (List.eq_of_mem_replicate (List.mem_reverse.mp hc))
  unfold stem List.rdropWhile
  rw [List.reverse_append, List.dropWhile_append_of_pos hdots]
  have hself : u.rdropWhile (· = dot) = u := by
    rw [List.rdropWhile_eq_self_iff]
    intro hne hlast
    exact hu (List.getLast?_eq_some_getLast hne ▸ congrArg some (of_decide_eq_true hlast))
  exact hself

/-- A name is its stem and the trailing dots. -/
theorem stem_dots (v : Bytes) : ∃ n, v = stem v ++ List.replicate n dot ∧
    (stem v).getLast? ≠ some dot := by
  refine ⟨(v.rtakeWhile (· = dot)).length, ?_, ?_⟩
  · have hdots : v.rtakeWhile (· = dot) = List.replicate (v.rtakeWhile (· = dot)).length dot :=
      List.eq_replicate_of_mem fun c hc =>
        of_decide_eq_true (List.mem_rtakeWhile_imp (p := fun x => decide (x = dot)) hc)
    rw [← hdots]
    exact List.rdropWhile_append_rtakeWhile.symm
  · intro hlast
    have hne : stem v ≠ [] := by
      intro hnil
      rw [hnil] at hlast
      cases hlast
    have hc := (List.getLast?_eq_some_getLast hne).symm.trans hlast
    exact List.rdropWhile_last_not _ v hne (decide_eq_true (Option.some.inj hc))

theorem getLast?_dots (hn : n ≠ 0) : (u ++ List.replicate n dot).getLast? = some dot := by
  obtain ⟨m, rfl⟩ := Nat.exists_eq_succ_of_ne_zero hn
  rw [List.replicate_succ', ← List.append_assoc, List.getLast?_concat]

theorem splitName_dots (hne : u ≠ []) (hu : u.getLast? ≠ some dot) (hn : n ≠ 0) :
    splitName (u ++ List.replicate n dot) =
      if n = 1 then .ok (u, some [])
      else if n = 3 then .ok (u, none)
      else if n % 2 = 0 then .ok (u ++ List.replicate (n / 2) dot, some [])
      else .error .diagnostics := by
  have hv : u ++ List.replicate n dot ≠ [] := fun h => hne (List.append_eq_nil_iff.mp h).1
  have hlen : (u ++ List.replicate n dot).length - u.length = n := by
    rw [List.length_append, List.length_replicate]
    omega
  have htake : (u ++ List.replicate n dot).take (u.length + n / 2) =
      u ++ List.replicate (n / 2) dot := by
    rw [List.take_length_add_append, List.take_replicate, Nat.min_eq_left (Nat.div_le_self n 2)]
  rw [splitName, if_neg hv, if_neg (not_not_intro (getLast?_dots hn)), stem_append hu, if_neg hne]
  dsimp only
  rw [hlen, htake, List.take_left']
  rfl

theorem combineName_dots (hne : u ≠ []) (hu : u.getLast? ≠ some dot) (hn : n ≠ 0) (de : Bool) :
    combineName (u ++ List.replicate n dot) (some []) de =
      .ok (u ++ List.replicate (n + n) dot) := by
  have hlen : (u ++ List.replicate n dot).length - u.length = n := by
    rw [List.length_append, List.length_replicate]
    omega
  rw [combineName, if_pos (getLast?_dots hn), if_neg (not_not_intro rfl), stem_append hu,
    if_neg hne, hlen, List.append_assoc, List.replicate_append_replicate]

/-! ### Extensions -/

/-- The characters up to the last dot or separator. -/
theorem upto_eq (he : e.all inner = true) {c : UInt8} (hc : inner c = false) :
    (u ++ c :: e).rdropWhile inner = u ++ [c] := by
  have htail : ∀ x ∈ e.reverse, inner x = true := fun x hx =>
    List.all_eq_true.mp he x (List.mem_reverse.mp hx)
  have hstop : ¬inner c = true := by rw [hc]; exact Bool.false_ne_true
  unfold List.rdropWhile
  rw [List.reverse_append, List.reverse_cons, List.append_assoc, List.dropWhile_append_of_pos htail,
    List.singleton_append, List.dropWhile_cons_of_neg hstop, List.reverse_cons,
      List.reverse_reverse]

theorem lastDot_eq (he : e.all inner = true) : lastDot (u ++ dot :: e) = u.length + 1 := by
  rw [lastDot, upto_eq he (by decide), List.getLast?_concat]
  exact List.length_append

/-- The last dot, if no separator comes later. -/
theorem exists_of_lastDot (h : lastDot v ≠ 0) : ∃ u e, v = u ++ dot :: e ∧ e.all inner = true := by
  unfold lastDot at h
  dsimp only at h
  split_ifs at h with hlast
  · obtain ⟨u, hu⟩ := List.getLast?_eq_some_iff.mp hlast
    refine ⟨u, v.rtakeWhile inner, ?_, ?_⟩
    · have hv := (List.rdropWhile_append_rtakeWhile (p := inner) (l := v)).symm
      rw [hu, List.append_assoc] at hv
      exact hv
    · exact List.all_eq_true.mpr fun c hc => List.mem_rtakeWhile_imp hc
  · exact absurd rfl h

theorem getD_before (hu : u ≠ []) : (u ++ dot :: e).getD (u.length + 1 - 2) 0 = sep ↔
    u.getLast? = some sep := by
  obtain ⟨w, x, rfl⟩ := (List.eq_nil_or_concat' u).resolve_left hu
  have hindex : (w ++ [x]).length + 1 - 2 = w.length := by
    rw [List.length_append, List.length_singleton]
    omega
  rw [hindex, List.getLast?_concat, List.append_assoc, List.getD_eq_getElem?_getD,
    List.getElem?_append_right le_rfl, Nat.sub_self]
  simp

/-- **Where the extension is**: behind the last dot, unless that starts or ends the last
component. -/
theorem findExtension_eq_some : findExtension v = some p ↔
    ∃ u e, v = u ++ dot :: e ∧ u.length = p ∧ u ≠ [] ∧ u.getLast? ≠ some sep ∧ e ≠ [] ∧
      e.all inner = true := by
  constructor
  · intro h
    unfold findExtension at h
    dsimp only at h
    split_ifs at h with hi
    obtain ⟨u, e, rfl, he⟩ := exists_of_lastDot (v := v) (by omega)
    rw [lastDot_eq he] at hi h
    obtain ⟨hlt, hsep, hlen⟩ := hi
    have hu : u ≠ [] := by
      rintro rfl
      exact absurd hlt (by decide)
    refine ⟨u, e, rfl, Option.some.inj h, hu,
      fun hlast => hsep ((getD_before hu).mpr hlast), ?_, he⟩
    rintro rfl
    exact hlen (by rw [List.length_append]; rfl)
  · rintro ⟨u, e, rfl, rfl, hu, hsep, hne, he⟩
    have hlt : 1 < u.length + 1 := Nat.succ_lt_succ (List.length_pos_iff.mpr hu)
    have hend : u.length + 1 ≠ (u ++ dot :: e).length := by
      have hpos := List.length_pos_iff.mpr hne
      rw [List.length_append, List.length_cons]
      omega
    rw [findExtension, lastDot_eq he, if_pos ⟨hlt, fun h => hsep ((getD_before hu).mp h), hend⟩]
    rfl

theorem getLast?_extension (hne : e ≠ []) (he : e.all inner = true) :
    (u ++ dot :: e).getLast? ≠ some dot := by
  obtain ⟨w, c, rfl⟩ := (List.eq_nil_or_concat' e).resolve_left hne
  have hc : inner c = true := List.all_eq_true.mp he c (List.mem_append_right w List.mem_cons_self)
  rw [← List.cons_append, ← List.append_assoc, List.getLast?_concat]
  rintro ⟨rfl⟩
  exact absurd hc (by decide)

theorem splitName_extension (hu : u ≠ []) (hsep : u.getLast? ≠ some sep) (hne : e ≠ [])
    (he : e.all inner = true) : splitName (u ++ dot :: e) = .ok (u, some e) := by
  have hext : findExtension (u ++ dot :: e) = some u.length :=
    findExtension_eq_some.mpr ⟨u, e, rfl, rfl, hu, hsep, hne, he⟩
  have hv : u ++ dot :: e ≠ [] := fun h => hu (List.append_eq_nil_iff.mp h).1
  rw [splitName, if_neg hv, if_pos (getLast?_extension hne he), hext]
  dsimp only
  rw [List.take_left' rfl, List.drop_append, List.drop_eq_nil_of_le (Nat.le_succ _)]
  simp

/-- A name without an extension and without trailing dots is left as it is. -/
theorem splitName_plain (hv : v ≠ []) (hlast : v.getLast? ≠ some dot)
    (hext : findExtension v = none) : splitName v = .ok (v, none) := by
  rw [splitName, if_neg hv, if_pos hlast, hext]

/-! ### Splitting what has been combined -/

/-- The parts of the name, combined and split again, are the same. -/
def Recombines (v : Bytes) : Prop :=
  ∀ b e, splitName v = .ok (b, e) →
    ∃ w, combineName b e true = .ok w ∧ splitName w = .ok (b, e)

/-- The extension is behind two dots: one of them is part of the base. -/
def DoubleDot (v : Bytes) : Prop :=
  ∃ u e, v = u ++ [dot, dot] ++ e ∧ e ≠ [] ∧ e.all inner = true

theorem recombines_dots (hne : u ≠ []) (hu : u.getLast? ≠ some dot) (hn : n ≠ 0) :
    Recombines (u ++ List.replicate n dot) := by
  intro b e h
  rw [splitName_dots hne hu hn] at h
  split_ifs at h with h1 h3 heven
  · cases h
    refine ⟨u ++ [dot] ++ [], ?_, ?_⟩
    · rw [combineName, if_neg hu]
    · rw [List.append_nil]
      exact splitName_dots (n := 1) hne hu Nat.one_ne_zero
  · cases h
    cases hext : findExtension u with
    | none =>
      refine ⟨u, ?_, splitName_plain hne hu hext⟩
      rw [combineName, if_neg hu, hext]
      rfl
    | some p =>
      refine ⟨u ++ [dot, dot, dot], ?_, splitName_dots (n := 3) hne hu (by decide)⟩
      rw [combineName, if_neg hu, hext]
      rfl
  · cases h
    have hhalf : n / 2 + n / 2 = n := by omega
    refine ⟨u ++ List.replicate n dot, ?_, ?_⟩
    · rw [combineName_dots hne hu (by omega), hhalf]
    · rw [splitName_dots hne hu hn, if_neg h1, if_neg h3, if_pos heven]

theorem recombines_extension (hu : u ≠ []) (hsep : u.getLast? ≠ some sep) (hne : e ≠ [])
    (he : e.all inner = true) : Recombines (u ++ dot :: e) ↔ u.getLast? ≠ some dot := by
  have hsplit := splitName_extension hu hsep hne he
  constructor
  · intro h hdot
    obtain ⟨w, hw, -⟩ := h u (some e) hsplit
    rw [combineName, if_pos hdot, if_pos fun h => hne (Option.some.inj h)] at hw
    cases hw
  · intro hdot b x h
    rw [hsplit] at h
    cases h
    refine ⟨u ++ dot :: e, ?_, hsplit⟩
    rw [combineName, if_neg hdot, List.append_assoc]
    rfl

theorem doubleDot_iff (hne : e ≠ []) (he : e.all inner = true) :
    DoubleDot (u ++ dot :: e) ↔ u.getLast? = some dot := by
  constructor
  · rintro ⟨w, x, hv, -, hx⟩
    have hv' : u ++ dot :: e = (w ++ [dot]) ++ dot :: x := by
      rw [hv, List.append_assoc, List.append_assoc]
      rfl
    have hlen := lastDot_eq (u := u) he
    rw [hv', lastDot_eq hx] at hlen
    rw [(List.append_inj hv' (Nat.succ_injective hlen).symm).1, List.getLast?_concat]
  · intro hlast
    obtain ⟨w, rfl⟩ := List.getLast?_eq_some_iff.mp hlast
    refine ⟨w, e, ?_, hne, he⟩
    rw [List.append_assoc, List.append_assoc]
    rfl

theorem getLast?_of_doubleDot (h : DoubleDot v) : v ≠ [] ∧ v.getLast? ≠ some dot ∧
    ∃ p, findExtension v = some p := by
  obtain ⟨u, e, rfl, hne, he⟩ := h
  have hv : u ++ [dot, dot] ++ e = (u ++ [dot]) ++ dot :: e := by
    rw [List.append_assoc, List.append_assoc]
    rfl
  have hu : u ++ [dot] ≠ [] := fun h => List.cons_ne_nil _ _ (List.append_eq_nil_iff.mp h).2
  have hsep : (u ++ [dot]).getLast? ≠ some sep := by
    rw [List.getLast?_concat]
    decide
  rw [hv]
  refine ⟨fun h => hu (List.append_eq_nil_iff.mp h).1, getLast?_extension hne he, _,
    findExtension_eq_some.mpr ⟨_, e, rfl, rfl, hu, hsep, hne, he⟩⟩

/-- **Splitting a name, combining its parts and splitting again gives the parts back if and only if
the extension is not behind two dots.** -/
theorem recombines_iff (v : Bytes) : Recombines v ↔ ¬DoubleDot v := by
  by_cases hlast : v.getLast? = some dot
  · refine iff_of_true ?_ fun h => (getLast?_of_doubleDot h).2.1 hlast
    obtain ⟨n, hv, hstem⟩ := stem_dots v
    have hn : n ≠ 0 := by
      rintro rfl
      rw [List.replicate_zero, List.append_nil] at hv
      exact hstem (hv ▸ hlast)
    by_cases hne : stem v = []
    · intro b e h
      rw [splitName, if_neg (by rintro rfl; cases hlast), if_neg (not_not_intro hlast),
        if_pos hne] at h
      cases h
    · rw [hv]
      exact recombines_dots hne hstem hn
  · cases hext : findExtension v with
    | none =>
      refine iff_of_true ?_ fun h => ?_
      · intro b e h
        by_cases hv : v = []
        · rw [splitName, if_pos hv] at h
          cases h
        · have hsplit := splitName_plain hv hlast hext
          rw [hsplit] at h
          cases h
          refine ⟨v, ?_, hsplit⟩
          rw [combineName, if_neg hlast, hext]
          rfl
      · obtain ⟨-, -, p, hp⟩ := getLast?_of_doubleDot h
        cases hext.symm.trans hp
    | some p =>
      obtain ⟨u, e, rfl, -, hu, hsep, hne, he⟩ := findExtension_eq_some.mp hext
      rw [recombines_extension hu hsep hne he, doubleDot_iff hne he]

/-- `foo..bar` is split into `foo.` and `bar`, which are not combined. -/
theorem not_recombines_doubleDot : ¬∀ v, Recombines v := by
  intro h
  have hsplit : splitName (str ['f', 'o', 'o', '.', '.', 'b', 'a', 'r']) =
      .ok (str ['f', 'o', 'o', '.'], some (str ['b', 'a', 'r'])) := rfl
  have hfail : combineName (str ['f', 'o', 'o', '.']) (some (str ['b', 'a', 'r'])) true =
      .error .assertion := rfl
  obtain ⟨w, hw, -⟩ := h _ _ _ hsplit
  rw [hfail] at hw
  cases hw

end Build2.Libbuild2.TargetName
