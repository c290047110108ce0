import Mathlib.Data.List.Nodup
import Mathlib.Data.List.Perm.Subperm
import Mathlib.Logic.Relation

/-! # Following links

A partial function links an element to the next one. A search that follows the links ends if only
finitely many elements have a link and no element leads back to itself (`along_isSome`), and it
tells whether an element that can be reached has the property looked for (`along_spec`). -/

namespace Build2.Lib.Chain

open Relation

variable {K : Type} {f : K → Option K} {p : K → Bool}

/-- The link from one element to another. -/
def Link (f : K → Option K) (a b : K) : Prop := f a = some b

/-- No element leads back to itself. -/
def Acyclic (f : K → Option K) : Prop := ∀ a, ¬ TransGen (Link f) a a

/-- Whether an element after `a` has the property; `none` when the fuel runs out. -/
def along (f : K → Option K) (p : K → Bool) : ℕ → K → Option Bool
  | 0, _ => none
  | n + 1, a =>
    match f a with
    | none => some false
    | some b => if p b then some true else along f p n b

/-- **The answer of the search.** -/
theorem along_spec : ∀ {n : ℕ} {a : K} {r : Bool}, along f p n a = some r →
    (r = true ↔ ∃ b, TransGen (Link f) a b ∧ p b = true)
  | 0, _, _, h => by cases h
  | n + 1, a, r, h => by
    rw [along] at h
    cases ha : f a with
    | none =>
      rw [ha] at h
      obtain rfl := Option.some.inj h
      refine ⟨fun h => (Bool.false_ne_true h).elim, ?_⟩
      rintro ⟨b, hb, -⟩
      obtain ⟨c, hc, -⟩ := TransGen.head'_iff.mp hb
      exact absurd (ha.symm.trans hc) (by rintro ⟨⟩)
    | some b =>
      rw [ha] at h
      dsimp only at h
      split_ifs at h with hp
      · obtain rfl := Option.some.inj h
        exact ⟨fun _ => ⟨b, TransGen.single ha, hp⟩, fun _ => rfl⟩
      · rw [along_spec h]
        constructor
        · rintro ⟨c, hc, hpc⟩
          exact ⟨c, TransGen.head ha hc, hpc⟩
        · rintro ⟨c, hc, hpc⟩
          -- the link from `a` is the only one, and `b` is not the element looked for
          obtain ⟨b', hb', hc⟩ := TransGen.head'_iff.mp hc
          obtain rfl := Option.some.inj (ha.symm.trans hb')
          rcases reflTransGen_iff_eq_or_transGen.mp hc with rfl | hc
          · exact absurd hpc hp
          · exact ⟨c, hc, hpc⟩

section Termination

variable {ks : List K}

/-- The elements visited so far all have links and lead to the current one. -/
theorem along_isSome_from (hf : Acyclic f) (hks : ∀ a b, f a = some b → a ∈ ks) :
    ∀ {n : ℕ} {vs : List K} {a : K}, vs.Nodup → (∀ v ∈ vs, v ∈ ks ∧ TransGen (Link f) v a) →
      ks.length < n + vs.length → (along f p n a).isSome = true
  | 0, vs, a, hnd, hvs, hn => by
    have := (List.subperm_of_subset hnd fun v hv => (hvs v hv).1).length_le
    omega
  | n + 1, vs, a, hnd, hvs, hn => by
    rw [along]
    cases ha : f a with
    | none => rfl
    | some b =>
      dsimp only
      split_ifs
      · rfl
      · have hnew : a ∉ vs := fun h => hf a (hvs a h).2
        refine along_isSome_from hf hks (List.nodup_cons.mpr ⟨hnew, hnd⟩) ?_
          (by rw [List.length_cons]; omega)
        intro v hv
        rcases List.mem_cons.mp hv with rfl | hv
        · exact ⟨hks v b ha, TransGen.single ha⟩
        · exact ⟨(hvs v hv).1, TransGen.tail (hvs v hv).2 ha⟩

/-- **The search ends.** -/
theorem along_isSome (hf : Acyclic f) (hks : ∀ a b, f a = some b → a ∈ ks) {n : ℕ} {a : K}
    (hn : ks.length < n) : (along f p n a).isSome = true :=
  along_isSome_from hf hks List.nodup_nil (fun _ h => by cases h) hn

end Termination

end Build2.Lib.Chain
