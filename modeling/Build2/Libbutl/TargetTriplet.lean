import Build2.Lib.ByteString
import Build2.Lib.Joined

/-! # Target triplets

The class `target_triplet`: a string `cpu-vendor-system` taken apart, with the version split off the
system and a class derived from it. The components are those between the dashes of the string. Its
positions `f`, `p` and `l` are the dashes after the first, the second and the last but one or two
components.

The string of a triplet is read back unless it is taken for one of another shape (`Unambiguous`). -/

namespace Build2.Libbutl.TargetTriplet

open Build2.Lib.ByteString Build2.Lib.Joined

def dash : UInt8 := ch '-'

structure Triplet where
  cpu : Bytes
  vendor : Bytes
  system : Bytes
  version : Bytes
  class_ : Bytes
  deriving DecidableEq, Repr

/-- Why a string is not recognizable. -/
inductive Invalid
  | missingCpu
  | tooManyComponents
  | missingSystem
  | invalidSystem
  deriving DecidableEq, Repr

/-- "One of the well-known non-vendors." -/
def nonVendors : List Bytes :=
  [str ['l', 'i', 'n', 'u', 'x'], str ['w', 'i', 'n', 'd', 'o', 'w', 's'],
    str ['k', 'f', 'r', 'e', 'e', 'b', 's', 'd']]

/-- "Special VENDOR values", which say nothing. -/
def specialVendors : List Bytes :=
  [str ['p', 'c'], str ['n', 'o', 'n', 'e'], str ['u', 'n', 'k', 'n', 'o', 'w', 'n']]

/-- The vendor that is kept. -/
def keepVendor (v : Bytes) : Bytes := if specialVendors.contains v then [] else v

/-- The systems whose version is split off. -/
def versioned : List Bytes :=
  [str ['d', 'a', 'r', 'w', 'i', 'n'], str ['f', 'r', 'e', 'e', 'b', 's', 'd'],
    str ['o', 'p', 'e', 'n', 'b', 's', 'd'], str ['n', 'e', 't', 'b', 's', 'd'],
    str ['s', 'o', 'l', 'a', 'r', 'i', 's'], str ['a', 'i', 'x'], str ['h', 'p', 'u', 'x'],
    str ['w', 'i', 'n', '3', '2', '-', 'm', 's', 'v', 'c'],
    str ['w', 'i', 'n', 'd', 'o', 'w', 's', '-', 'm', 's', 'v', 'c']]

/-- The length of the system without its version. -/
def systemLength (s : Bytes) : ℕ :=
  match versioned.find? (· <+: s) with
  | some n => n.length
  | none => s.length

/-- "Determine class for some recognized systems." -/
def classOf (vendor system : Bytes) : Bytes :=
  if str ['l', 'i', 'n', 'u', 'x'] <+: system then str ['l', 'i', 'n', 'u', 'x']
  else if vendor = str ['a', 'p', 'p', 'l', 'e'] ∧
      system = str ['d', 'a', 'r', 'w', 'i', 'n'] then str ['m', 'a', 'c', 'o', 's']
  else if system = str ['f', 'r', 'e', 'e', 'b', 's', 'd'] ∨
      system = str ['o', 'p', 'e', 'n', 'b', 's', 'd'] ∨
      system = str ['n', 'e', 't', 'b', 's', 'd'] then str ['b', 's', 'd']
  else if str ['w', 'i', 'n', '3', '2'] <+: system ∨
      str ['w', 'i', 'n', 'd', 'o', 'w', 's'] <+: system ∨
      system = str ['m', 'i', 'n', 'g', 'w', '3', '2'] then
    str ['w', 'i', 'n', 'd', 'o', 'w', 's']
  else str ['o', 't', 'h', 'e', 'r']

/-- The triplet with this cpu, vendor and system, the version still being part of the last. -/
def finish (cpu vendor s : Bytes) : Except Invalid Triplet :=
  if s = [] then .error .missingSystem
  else if s.head? = some dash ∨ s.getLast? = some dash then .error .invalidSystem
  else
    let system := s.take (systemLength s)
    .ok ⟨cpu, vendor, system, s.drop (systemLength s), classOf vendor system⟩

/-- What the components of a string are taken for. -/
def recognize : List Bytes → Except Invalid Triplet
  | [] | [_] | [] :: _ => .error .missingCpu
  | [cpu, system] => finish cpu [] system
  -- Nothing in between the dashes, as in x86_64--netbsd.
  | [cpu, [], system] => finish cpu [] system
  | [cpu, v, system] =>
    if nonVendors.contains v then finish cpu [] (v ++ dash :: system)
    else finish cpu (keepVendor v) system
  | [cpu, v, a, b] =>
    finish cpu (keepVendor v) (if a = str ['n', 'o', 'n', 'e'] then b else a ++ dash :: b)
  | _ => .error .tooManyComponents

/-- `target_triplet (string)`. -/
def parse (s : Bytes) : Except Invalid Triplet := recognize (s.splitOn dash)

/-- `string ()`. -/
def Triplet.string (t : Triplet) : Bytes :=
  let r := t.cpu
  let r := if t.vendor ≠ [] then (if r ≠ [] then r ++ [dash] else r) ++ t.vendor else r
  let r := if t.system ≠ [] then (if r ≠ [] then r ++ [dash] else r) ++ t.system else r
  r ++ t.version

def Triplet.empty (t : Triplet) : Bool := t.cpu.isEmpty

/-- `target_triplet ()`. -/
def Triplet.default : Triplet := ⟨[], [], [], [], []⟩

/-! ### What is recognized -/

/-- The system with its version. -/
def Triplet.sys (t : Triplet) : Bytes := t.system ++ t.version

/-- The string of a triplet is taken for one of no other shape: a system of two components without a
vendor starts with a well-known non-vendor, and a system of one component has no such vendor. -/
structure Unambiguous (t : Triplet) : Prop where
  bare : t.vendor = [] → dash ∈ t.sys → ∃ v ∈ nonVendors, v ++ [dash] <+: t.sys
  vendor : t.vendor ∈ nonVendors → dash ∈ t.sys

section

variable {s cpu vendor : Bytes} {t : Triplet}

theorem systemLength_pos (h : s ≠ []) : 0 < systemLength s := by
  unfold systemLength
  cases hf : versioned.find? (· <+: s) with
  | none => exact List.length_pos_iff.mpr h
  | some n =>
    have hn : ∀ n ∈ versioned, 0 < n.length := by decide
    exact hn n (List.mem_of_find?_eq_some hf)

/-- What is put into a triplet can be read off it. -/
structure Finished (t : Triplet) : Prop where
  system : t.system ≠ []
  head : t.sys.head? ≠ some dash
  last : t.sys.getLast? ≠ some dash
  again : finish t.cpu t.vendor t.sys = .ok t

theorem finished (h : finish cpu vendor s = .ok t) :
    t.cpu = cpu ∧ t.vendor = vendor ∧ t.sys = s ∧ Finished t := by
  have h' := h
  unfold finish at h
  split_ifs at h with h0 h1
  obtain rfl := Except.ok.inj h
  have hs : Triplet.sys ⟨cpu, vendor, s.take (systemLength s), s.drop (systemLength s),
      classOf vendor (s.take (systemLength s))⟩ = s := List.take_append_drop _ _
  rw [not_or] at h1
  refine ⟨rfl, rfl, hs, ⟨?_, by rw [hs]; exact h1.1, by rw [hs]; exact h1.2, by rw [hs]; exact h'⟩⟩
  have hl := systemLength_pos h0
  have hp := List.length_pos_iff.mpr h0
  rw [ne_eq, ← List.length_eq_zero_iff, List.length_take]
  omega

/-- The parts that a string is taken for: a cpu, a vendor and a system of one or two components. -/
structure Parts (cpu vendor sys : Bytes) : Prop where
  ofCpu : cpu ≠ [] ∧ dash ∉ cpu
  ofVendor : dash ∉ vendor ∧ vendor ∉ specialVendors
  ofSys : dash ∉ sys ∨ ∃ a b, sys = a ++ dash :: b ∧ dash ∉ a ∧ dash ∉ b ∧
    (vendor ≠ [] → a ≠ str ['n', 'o', 'n', 'e'])

theorem keepVendor_not_mem {v : Bytes} (h : dash ∉ v) :
    dash ∉ keepVendor v ∧ keepVendor v ∉ specialVendors := by
  unfold keepVendor
  split_ifs with hv
  · decide
  · exact ⟨h, by simpa using hv⟩

theorem no_vendor : dash ∉ ([] : Bytes) ∧ [] ∉ specialVendors := by decide

/-- **What is recognized has these parts.** -/
theorem recognize_eq_ok {xs : List Bytes} (hx : ∀ x ∈ xs, dash ∉ x) (h : recognize xs = .ok t) :
    ∃ cpu vendor sys, Parts cpu vendor sys ∧ finish cpu vendor sys = .ok t := by
  unfold recognize at h
  split at h
  · cases h
  · cases h
  · cases h
  · next cpu s hne =>
    exact ⟨_, _, _, ⟨⟨hne, hx _ (by simp)⟩, no_vendor, Or.inl (hx _ (by simp))⟩, h⟩
  · next cpu s hne =>
    exact ⟨_, _, _, ⟨⟨hne, hx _ (by simp)⟩, no_vendor, Or.inl (hx _ (by simp))⟩, h⟩
  · next cpu v s hne hv =>
    split_ifs at h with hn
    · refine ⟨_, _, _, ⟨⟨hne, hx _ (by simp)⟩, no_vendor, Or.inr ⟨v, s, rfl, hx _ (by simp),
        hx _ (by simp), fun he => absurd rfl he⟩⟩, h⟩
    · exact ⟨_, _, _, ⟨⟨hne, hx _ (by simp)⟩, keepVendor_not_mem (hx _ (by simp)),
        Or.inl (hx _ (by simp))⟩, h⟩
  · next cpu v a b hne =>
    refine ⟨_, _, _, ⟨⟨hne, hx _ (by simp)⟩, keepVendor_not_mem (hx _ (by simp)), ?_⟩, h⟩
    split_ifs with ha
    · exact Or.inl (hx _ (by simp))
    · exact Or.inr ⟨a, b, rfl, hx _ (by simp), hx _ (by simp), fun _ => ha⟩
  · cases h

theorem string_eq (hc : t.cpu ≠ []) (hs : t.system ≠ []) :
    t.string = t.cpu ++ dash :: ((if t.vendor = [] then [] else t.vendor ++ [dash]) ++ t.sys) := by
  unfold Triplet.string Triplet.sys
  by_cases hv : t.vendor = []
  · simp [hv, hs, hc]
  · simp [hv, hs, hc]

theorem keepVendor_eq {v : Bytes} (h : v ∉ specialVendors) : keepVendor v = v :=
  if_neg (by simpa using h)

/-- **The string of an unambiguous triplet is taken for its own parts.** -/
theorem parse_string (hp : Parts t.cpu t.vendor t.sys) (hf : Finished t) (hu : Unambiguous t) :
    parse t.string = .ok t := by
  have hcpu := hp.ofCpu
  obtain ⟨c, cpu, hcons⟩ := List.exists_cons_of_ne_nil hcpu.1
  rw [parse, string_eq hcpu.1 hf.system, List.splitOn_append_cons_self_of_not_mem hcpu.2, hcons]
  have hagain := hf.again
  rw [hcons] at hagain
  by_cases hv : t.vendor = []
  · rw [if_pos hv, List.nil_append]
    rw [hv] at hagain
    rcases hp.ofSys with hs | ⟨a, b, hs, ha, hb, -⟩
    · rw [List.splitOn_eq_singleton hs]
      exact hagain
    -- a system of two components starts with a well-known non-vendor
    obtain ⟨v, hvn, r, hr⟩ := hu.bare hv (by rw [hs]; simp)
    have hvd : ∀ v ∈ nonVendors, v ≠ [] ∧ dash ∉ v := by decide
    have hsplit : t.sys.splitOn dash = [a, b] := by
      rw [hs, List.splitOn_append_cons_self_of_not_mem ha, List.splitOn_eq_singleton hb]
    have hav : a = v := by
      rw [← hr, List.append_assoc, List.singleton_append,
        List.splitOn_append_cons_self_of_not_mem (hvd v hvn).2] at hsplit
      exact (List.cons.inj hsplit).1.symm
    rw [hsplit]
    rw [hs] at hagain
    obtain ⟨x, a, rfl⟩ := List.exists_cons_of_ne_nil (l := a) (by rw [hav]; exact (hvd v hvn).1)
    rw [recognize, if_pos (by rw [hav]; simpa using hvn)]
    · exact hagain
    all_goals simp
  · obtain ⟨x, v, hxv⟩ := List.exists_cons_of_ne_nil hv
    rw [if_neg hv, List.append_assoc, List.singleton_append,
      List.splitOn_append_cons_self_of_not_mem hp.ofVendor.1]
    have hkeep := keepVendor_eq hp.ofVendor.2
    rw [hxv] at hagain hkeep
    rcases hp.ofSys with hs | ⟨a, b, hs, ha, hb, hnone⟩
    · have hn : t.vendor ∉ nonVendors := fun h => hs (hu.vendor h)
      rw [hxv] at hn
      rw [List.splitOn_eq_singleton hs, hxv, recognize, if_neg (by simpa using hn), hkeep]
      · exact hagain
      all_goals simp
    · rw [hs, List.splitOn_append_cons_self_of_not_mem ha, List.splitOn_eq_singleton hb, hxv,
        recognize, if_neg (hnone hv), hkeep, ← hs]
      · exact hagain
      all_goals simp

/-- A triplet as the constructor makes it. -/
def Triplet.Parsed (t : Triplet) : Prop := ∃ s, parse s = .ok t

/-- **The canonical string of a triplet round-trips**, unless it is ambiguous. -/
theorem Triplet.Parsed.parse_string (h : t.Parsed) (hu : Unambiguous t) :
    t.cpu ≠ [] ∧ parse t.string = .ok t := by
  obtain ⟨s, hs⟩ := h
  obtain ⟨cpu, vendor, sys, hp, hfin⟩ :=
    recognize_eq_ok (fun x hx => not_mem_of_mem_splitOn hx) hs
  obtain ⟨rfl, rfl, rfl, hf⟩ := finished hfin
  exact ⟨hp.ofCpu.1, TargetTriplet.parse_string hp hf hu⟩

/-! ### Which strings are read back -/

/-- The components of a triplet whose canonical string is taken for another triplet: four of them,
and with the vendor dropped the first part of the system becomes the vendor, or with `none` dropped
the vendor becomes the first part of the system. -/
def Misread : List Bytes → Prop
  | [_, v, a, _] =>
    (v = [] ∨ v ∈ specialVendors) ∧ a ≠ str ['n', 'o', 'n', 'e'] ∧ a ∉ nonVendors ∨
      v ∈ nonVendors ∧ a = str ['n', 'o', 'n', 'e']
  | _ => False

theorem nil_not_mem_nonVendors : ([] : Bytes) ∉ nonVendors := by decide

/-- A triplet without a dash in the system is ambiguous if its vendor is a well-known non-vendor. -/
theorem unambiguous_of_not_mem (h : dash ∉ t.sys) :
    Unambiguous t ↔ t.vendor ∉ nonVendors :=
  ⟨fun hu hv => h (hu.vendor hv), fun hv => ⟨fun _ hd => absurd hd h, fun hn => absurd hn hv⟩⟩

/-- A triplet with a dash in the system is ambiguous if it has no vendor and the system does not
start with a well-known non-vendor. -/
theorem unambiguous_of_parts {a b : Bytes} (h : t.sys = a ++ dash :: b) (ha : dash ∉ a) :
    Unambiguous t ↔ (t.vendor = [] → a ∈ nonVendors) := by
  have hd : dash ∈ t.sys := by rw [h]; simp
  refine ⟨fun hu hv => ?_, fun hv => ⟨fun h0 _ => ⟨a, hv h0, ?_⟩, fun _ => hd⟩⟩
  · obtain ⟨v, hvn, r, hr⟩ := hu.bare hv hd
    have hvd : dash ∉ v := (by decide : ∀ v ∈ nonVendors, dash ∉ v) v hvn
    rw [h, List.append_assoc, List.singleton_append] at hr
    have hsplit := congrArg (List.splitOn dash) hr
    rw [List.splitOn_append_cons_self_of_not_mem hvd,
      List.splitOn_append_cons_self_of_not_mem ha] at hsplit
    rwa [← (List.cons.inj hsplit).1]
  · rw [h]
    exact ⟨b, by simp⟩

theorem keepVendor_eq_nil {v : Bytes} : keepVendor v = [] ↔ v = [] ∨ v ∈ specialVendors := by
  unfold keepVendor
  split_ifs with h
  · exact ⟨fun _ => Or.inr (by simpa using h), fun _ => rfl⟩
  · exact ⟨Or.inl, fun hv => hv.resolve_right (by simpa using h)⟩

theorem keepVendor_mem {v : Bytes} : keepVendor v ∈ nonVendors ↔ v ∈ nonVendors := by
  unfold keepVendor
  split_ifs with h
  · have hs : ∀ v ∈ specialVendors, v ∉ nonVendors := by decide
    exact ⟨fun hn => absurd hn nil_not_mem_nonVendors,
      fun hn => absurd hn (hs v (by simpa using h))⟩
  · exact Iff.rfl

/-- **The triplet that is recognized is unambiguous unless its components are misread.** -/
theorem unambiguous_recognize {xs : List Bytes} (hx : ∀ x ∈ xs, dash ∉ x)
    (h : recognize xs = .ok t) : Unambiguous t ↔ ¬Misread xs := by
  unfold recognize at h
  split at h
  · cases h
  · cases h
  · cases h
  · obtain ⟨-, hv, hs, -⟩ := finished h
    rw [unambiguous_of_not_mem (by rw [hs]; exact hx _ (by simp)), hv]
    exact ⟨fun _ => id, fun _ => nil_not_mem_nonVendors⟩
  · obtain ⟨-, hv, hs, -⟩ := finished h
    rw [unambiguous_of_not_mem (by rw [hs]; exact hx _ (by simp)), hv]
    exact ⟨fun _ => id, fun _ => nil_not_mem_nonVendors⟩
  · next cpu v s hne hv0 =>
    split_ifs at h with hn
    · obtain ⟨-, hv, hs, -⟩ := finished h
      rw [unambiguous_of_parts hs (hx _ (by simp))]
      exact ⟨fun _ => id, fun _ _ => by simpa using hn⟩
    · obtain ⟨-, hv, hs, -⟩ := finished h
      rw [unambiguous_of_not_mem (by rw [hs]; exact hx _ (by simp)), hv, keepVendor_mem]
      exact ⟨fun _ => id, fun _ => by simpa using hn⟩
  · next cpu v a b hne =>
    obtain ⟨-, hv, hs, -⟩ := finished h
    split_ifs at hs with ha
    · rw [unambiguous_of_not_mem (by rw [hs]; exact hx _ (by simp)), hv, keepVendor_mem, Misread]
      simp [ha]
    · rw [unambiguous_of_parts hs (hx _ (by simp)), hv, keepVendor_eq_nil, Misread]
      simp [ha]
  · cases h

/-- **The string of a triplet is read back only if it is unambiguous.** -/
theorem unambiguous_of_parse_string (hp : Parts t.cpu t.vendor t.sys) (hf : Finished t)
    (h : parse t.string = .ok t) : Unambiguous t := by
  have hcpu := hp.ofCpu
  obtain ⟨c, cpu, hcons⟩ := List.exists_cons_of_ne_nil hcpu.1
  rw [parse, string_eq hcpu.1 hf.system, List.splitOn_append_cons_self_of_not_mem hcpu.2,
    hcons] at h
  rcases hp.ofSys with hs | ⟨a, b, hs, ha, hb, -⟩
  · rw [unambiguous_of_not_mem hs]
    intro hn
    have hv : t.vendor ≠ [] := fun h0 => nil_not_mem_nonVendors (by rwa [← h0])
    obtain ⟨x, v, hxv⟩ := List.exists_cons_of_ne_nil hv
    rw [if_neg hv, List.append_assoc, List.singleton_append,
      List.splitOn_append_cons_self_of_not_mem hp.ofVendor.1, List.splitOn_eq_singleton hs,
      hxv] at h
    rw [hxv] at hn
    rw [recognize, if_pos (by simpa using hn)] at h
    · obtain ⟨-, -, hsys, -⟩ := finished h
      exact hs (by rw [hsys]; simp)
    all_goals simp
  · rw [unambiguous_of_parts hs ha]
    intro hv
    rw [if_pos hv, List.nil_append, hs, List.splitOn_append_cons_self_of_not_mem ha,
      List.splitOn_eq_singleton hb] at h
    have hane : a ≠ [] := by
      rintro rfl
      exact hf.head (by rw [hs]; rfl)
    obtain ⟨x, a, rfl⟩ := List.exists_cons_of_ne_nil hane
    by_contra hn
    rw [recognize, if_neg (by simpa using hn)] at h
    · obtain ⟨-, -, hsys, -⟩ := finished h
      exact hb (by rw [← hsys, hs]; simp)
    all_goals simp

/-- **Canonicalization is stable** exactly for the strings that are not misread. -/
theorem parse_string_iff (h : parse s = .ok t) :
    parse t.string = .ok t ↔ ¬Misread (s.splitOn dash) := by
  have hx : ∀ x ∈ s.splitOn dash, dash ∉ x := fun x hx => not_mem_of_mem_splitOn hx
  rw [← unambiguous_recognize hx h]
  obtain ⟨cpu, vendor, sys, hp, hfin⟩ := recognize_eq_ok hx h
  obtain ⟨rfl, rfl, rfl, hf⟩ := finished hfin
  exact ⟨unambiguous_of_parse_string hp hf, parse_string hp hf⟩

end

/-- `i386-pc-os2-emx`. -/
def os2 : Bytes :=
  str ['i', '3', '8', '6', '-', 'p', 'c', '-', 'o', 's', '2', '-', 'e', 'm', 'x']

/-- What it is canonicalized to. -/
def os2Triplet : Triplet :=
  ⟨str ['i', '3', '8', '6'], [], str ['o', 's', '2', '-', 'e', 'm', 'x'], [],
    str ['o', 't', 'h', 'e', 'r']⟩

theorem parse_string_iff_os2 :
    parse os2Triplet.string = .ok os2Triplet ↔ ¬Misread (os2.splitOn dash) :=
  parse_string_iff (by decide)

/-- Without `pc` the first part of the system is taken for the vendor. -/
theorem os2_misread :
    parse os2 = .ok os2Triplet ∧ parse os2Triplet.string ≠ .ok os2Triplet ∧
      parse os2Triplet.string = .ok ⟨str ['i', '3', '8', '6'], str ['o', 's', '2'],
        str ['e', 'm', 'x'], [], str ['o', 't', 'h', 'e', 'r']⟩ := by
  decide

end Build2.Libbutl.TargetTriplet
