import Mathlib.Data.List.Pairwise
import Mathlib.Order.Lattice
import Mathlib.Tactic.Common

/-! # Ordered maps

Maps with unique keys, kept as lists of entries in the order of the keys. Keys are compared by their
rank in a linear order, and keys of equal rank are the same key. Inserting the entries of a map one
after the other into an empty map gives it back (`foldl_emplace_entries`). A loop over a map that
grows in its course comes to every entry, or what it inserts behind its back is done already
(`forEach_spec`). -/

namespace Build2.Lib

variable {K V O : Type} [LinearOrder O]

/-- A map from keys to values. -/
structure OrderedMap (rank : K → O) (V : Type) where
  entries : List (K × V)
  sorted : entries.Pairwise fun a b => rank a.1 < rank b.1

namespace OrderedMap

/-- The entries with one more, unless there is one with the same key. -/
def insertEntry (rank : K → O) (e : K × V) : List (K × V) → List (K × V)
  | [] => [e]
  | a :: as =>
    if rank a.1 < rank e.1 then a :: insertEntry rank e as
    else if rank e.1 < rank a.1 then e :: a :: as
    else a :: as

variable {rank : K → O} {e a : K × V} {as : List (K × V)}

theorem mem_insertEntry (h : a ∈ insertEntry rank e as) : a = e ∨ a ∈ as := by
  induction as with
  | nil => exact Or.inl (List.mem_singleton.mp h)
  | cons b as ih =>
    rw [insertEntry] at h
    split_ifs at h
    · rcases List.mem_cons.mp h with rfl | h
      · exact Or.inr List.mem_cons_self
      · exact (ih h).imp_right (List.mem_cons_of_mem _)
    · exact List.mem_cons.mp h
    · exact Or.inr h

theorem sorted_insertEntry (h : as.Pairwise fun a b => rank a.1 < rank b.1) :
    (insertEntry rank e as).Pairwise fun a b => rank a.1 < rank b.1 := by
  induction as with
  | nil => exact List.pairwise_singleton _ _
  | cons b as ih =>
    have hb := (List.pairwise_cons.mp h).1
    rw [insertEntry]
    split_ifs with h1 h2
    · refine List.pairwise_cons.mpr ⟨fun c hc => ?_, ih h.of_cons⟩
      rcases mem_insertEntry hc with rfl | hc
      · exact h1
      · exact hb _ hc
    · refine List.pairwise_cons.mpr ⟨fun c hc => ?_, h⟩
      rcases List.mem_cons.mp hc with rfl | hc
      · exact h2
      · exact h2.trans (hb _ hc)
    · exact h

theorem insertEntry_of_lt (h : ∀ a ∈ as, rank a.1 < rank e.1) :
    insertEntry rank e as = as ++ [e] := by
  induction as with
  | nil => rfl
  | cons b as ih =>
    rw [insertEntry, if_pos (h b List.mem_cons_self),
      ih fun a ha => h a (List.mem_cons_of_mem _ ha), List.cons_append]

/-- The map without entries. -/
def empty (rank : K → O) (V : Type) : OrderedMap rank V := ⟨[], List.Pairwise.nil⟩

/-- `emplace`: nothing happens if the key is there already. -/
def emplace (m : OrderedMap rank V) (k : K) (v : V) : OrderedMap rank V :=
  ⟨insertEntry rank (k, v) m.entries, sorted_insertEntry m.sorted⟩

/-- `find`. -/
def find (m : OrderedMap rank V) (k : K) : Option V :=
  (m.entries.find? fun e => rank e.1 = rank k).map Prod.snd

theorem mem_of_find {m : OrderedMap rank V} {k : K} {v : V} (h : m.find k = some v) :
    ∃ e ∈ m.entries, rank e.1 = rank k := by
  obtain ⟨e, he, -⟩ := Option.map_eq_some_iff.mp h
  exact ⟨e, List.mem_of_find?_eq_some he, by simpa using List.find?_some he⟩

@[ext] theorem ext {m n : OrderedMap rank V} (h : m.entries = n.entries) : m = n := by
  cases m
  cases n
  simpa using h

theorem foldl_emplace (es : List (K × V)) (m : OrderedMap rank V)
    (h : (m.entries ++ es).Pairwise fun a b => rank a.1 < rank b.1) :
    (es.foldl (fun m e => m.emplace e.1 e.2) m).entries = m.entries ++ es := by
  induction es generalizing m with
  | nil => simp
  | cons e es ih =>
    have hlt : ∀ a ∈ m.entries, rank a.1 < rank e.1 := fun a ha =>
      (List.pairwise_append.mp h).2.2 a ha e List.mem_cons_self
    have hm : (m.emplace e.1 e.2).entries = m.entries ++ [e] := insertEntry_of_lt hlt
    rw [List.foldl_cons, ih _ (by rw [hm]; simpa using h), hm]
    simp

/-- **A map is made of its entries.** -/
theorem foldl_emplace_entries (m : OrderedMap rank V) :
    m.entries.foldl (fun n e => n.emplace e.1 e.2) (empty rank V) = m :=
  ext (foldl_emplace m.entries (empty rank V) m.sorted)

/-! ### Lookup -/

section

variable {m : OrderedMap rank V} {j k : K} {v w : V} {f : V → V}

/-- The keys in their order. -/
def keys (m : OrderedMap rank V) : List K := m.entries.map Prod.fst

/-- The value of a key is replaced. -/
def adjust (m : OrderedMap rank V) (k : K) (f : V → V) : OrderedMap rank V where
  entries := m.entries.map fun e => if rank e.1 = rank k then (e.1, f e.2) else e
  sorted := by
    refine List.pairwise_map.mpr (m.sorted.imp fun {a b} h => ?_)
    have hfst : ∀ e : K × V, (if rank e.1 = rank k then (e.1, f e.2) else e).1 = e.1 := by
      intro e
      split_ifs <;> rfl
    rw [hfst, hfst]
    exact h

/-- `erase`. -/
def erase (m : OrderedMap rank V) (k : K) : OrderedMap rank V where
  entries := m.entries.filter fun e => rank e.1 ≠ rank k
  sorted := m.sorted.filter _

theorem find_eq_none : m.find k = none ↔ ∀ e ∈ m.entries, rank e.1 ≠ rank k := by
  simp [find]

theorem find_eq_some (hinj : Function.Injective rank) :
    m.find k = some v ↔ (k, v) ∈ m.entries := by
  constructor
  · intro h
    obtain ⟨e, he, rfl⟩ := Option.map_eq_some_iff.mp h
    have hk : e.1 = k := hinj (by simpa using List.find?_some he)
    rw [← hk]
    exact List.mem_of_find?_eq_some he
  · intro h
    obtain ⟨pre, suf, hsplit⟩ := List.append_of_mem h
    have hlt := (List.pairwise_append.mp (hsplit ▸ m.sorted)).2.2
    have hpre : pre.find? (fun e => rank e.1 = rank k) = none := by
      refine List.find?_eq_none.mpr fun e he => ?_
      simpa using (hlt e he _ List.mem_cons_self).ne
    rw [find, hsplit, List.find?_append, hpre, Option.none_or,
      List.find?_cons_of_pos (by simp)]
    rfl

theorem isSome_find (hinj : Function.Injective rank) : (m.find k).isSome ↔ k ∈ m.keys := by
  rw [Option.isSome_iff_exists]
  simp only [find_eq_some hinj, keys, List.mem_map, Prod.exists, exists_eq_right,
    exists_and_right]

theorem mem_insertEntry_iff (h : as.Pairwise fun a b => rank a.1 < rank b.1) :
    a ∈ insertEntry rank e as ↔ a ∈ as ∨ (∀ b ∈ as, rank b.1 ≠ rank e.1) ∧ a = e := by
  induction as with
  | nil => simp [insertEntry]
  | cons b as ih =>
    have hb := (List.pairwise_cons.mp h).1
    rw [insertEntry]
    split_ifs with h1 h2
    · rw [List.mem_cons, List.mem_cons, ih h.of_cons, List.forall_mem_cons, or_assoc]
      simp [h1.ne]
    · have hne : ∀ c ∈ b :: as, rank c.1 ≠ rank e.1 :=
        List.forall_mem_cons.mpr ⟨h2.ne', fun c hc => (h2.trans (hb c hc)).ne'⟩
      rw [List.mem_cons, or_comm, and_iff_right hne]
    · have heq : rank b.1 = rank e.1 := le_antisymm (not_lt.mp h2) (not_lt.mp h1)
      exact (or_iff_left fun hall => hall.1 b List.mem_cons_self heq).symm

theorem find_emplace [DecidableEq K] (hinj : Function.Injective rank) : (m.emplace k v).find j =
    if j = k then (m.find j).or (some v) else m.find j := by
  refine Option.ext fun w => ?_
  have hmem : (j, w) ∈ (m.emplace k v).entries ↔
      (j, w) ∈ m.entries ∨ m.find k = none ∧ (j, w) = (k, v) := by
    rw [find_eq_none]
    exact mem_insertEntry_iff m.sorted
  rw [find_eq_some hinj, hmem, ← find_eq_some hinj, Prod.mk.injEq]
  split_ifs with h
  · subst h
    cases m.find j <;> simp [eq_comm]
  · simp [h]

theorem find_adjust [DecidableEq K] (hinj : Function.Injective rank) : (m.adjust k f).find j =
    if j = k then (m.find j).map f else m.find j := by
  have hrank : ∀ e : K × V, rank (if rank e.1 = rank k then (e.1, f e.2) else e).1 = rank e.1 := by
    intro e
    split_ifs <;> rfl
  simp only [find, adjust, List.find?_map, Function.comp_def, hrank, Option.map_map]
  cases he : m.entries.find? fun e => rank e.1 = rank j with
  | none => simp
  | some e =>
    obtain rfl : e.1 = j := hinj (by simpa using List.find?_some he)
    simp only [Option.map_some, hinj.eq_iff]
    split_ifs <;> rfl

theorem find_erase [DecidableEq K] (hinj : Function.Injective rank) : (m.erase k).find j =
    if j = k then none else m.find j := by
  refine Option.ext fun w => ?_
  rw [find_eq_some hinj]
  change (j, w) ∈ m.entries.filter _ ↔ _
  rw [List.mem_filter, ← find_eq_some hinj]
  split_ifs with h
  · simp [h]
  · simp [hinj.ne h]

end

/-! ### Loops over a map that grows -/

section

variable {S ε : Type} {map : S → OrderedMap rank V} {body : V → S → Except ε S} {stuck : ε}

/-- The entry behind a key, or the first one. -/
def after (m : OrderedMap rank V) (k : Option K) : Option (K × V) :=
  m.entries.find? fun e => k.all fun k => rank k < rank e.1

/-- A loop over a map that its body may change, from the entry behind a key on. The first argument
bounds the number of rounds. -/
def forEach (map : S → OrderedMap rank V) (body : V → S → Except ε S) (stuck : ε) :
    ℕ → Option K → S → Except ε S
  | 0, _, _ => .error stuck
  | n + 1, k, s =>
    match (map s).after k with
    | none => .ok s
    | some e => do
      let s ← body e.2 s
      forEach map body stuck n (some e.1) s

theorem after_eq_none {m : OrderedMap rank V} {k : Option K} (h : m.after k = none) :
    ∀ e ∈ m.entries, ∃ j ∈ k, rank e.1 ≤ rank j := by
  intro e he
  have hnot := List.find?_eq_none.mp h e he
  cases k with
  | none => simp at hnot
  | some j => exact ⟨j, rfl, by simpa using hnot⟩

/-- The entries that are not behind the next one are those behind the key and the next itself. -/
theorem after_eq_some {m : OrderedMap rank V} {k : Option K} (h : m.after k = some e) :
    e ∈ m.entries ∧ (∀ j ∈ k, rank j < rank e.1) ∧
      ∀ b ∈ m.entries, rank b.1 ≤ rank e.1 → b = e ∨ ∃ j ∈ k, rank b.1 ≤ rank j := by
  obtain ⟨hk, pre, suf, hsplit, hpre⟩ := List.find?_eq_some_iff_append.mp h
  have hsorted := List.pairwise_append.mp (hsplit ▸ m.sorted)
  refine ⟨List.mem_of_find?_eq_some h, fun j hj => ?_, fun b hb hle => ?_⟩
  · obtain rfl : k = some j := hj
    simpa using hk
  · rw [hsplit, List.mem_append, List.mem_cons] at hb
    rcases hb with hb | rfl | hb
    · have hnot := hpre b hb
      cases k with
      | none => simp at hnot
      | some j => exact Or.inr ⟨j, rfl, by simpa using hnot⟩
    · exact Or.inl rfl
    · exact absurd ((List.pairwise_cons.mp hsorted.2.1).1 b hb) hle.not_gt

variable (map body stuck) in
/-- **A loop over a growing map** does all its entries if every round does one, undoes none and
inserts none that is not done. There are no more rounds than keys that the map may have. -/
theorem forEach_spec {I : S → Prop} {D : K → S → Prop} (all : List K)
    (hall : ∀ s, I s → ∀ k ∈ (map s).keys, k ∈ all)
    (hbody : ∀ s e, I s → e ∈ (map s).entries → ∃ s', body e.2 s = .ok s' ∧ I s' ∧ D e.1 s' ∧
      (∀ k, D k s → D k s') ∧ ∀ k ∈ (map s').keys, k ∈ (map s).keys ∨ D k s') :
    ∀ (n : ℕ) (k : Option K) (s : S), I s →
      (all.filter fun j => k.all fun k => rank k < rank j).length < n →
      (∀ e ∈ (map s).entries, ∀ j ∈ k, rank e.1 ≤ rank j → D e.1 s) →
      ∃ s', forEach map body stuck n k s = .ok s' ∧ I s' ∧ ∀ j ∈ (map s').keys, D j s' := by
  intro n
  induction n with
  | zero => exact fun k s hI hn => absurd hn (Nat.not_lt_zero _)
  | succ n ih =>
    intro k s hI hn hdone
    rw [forEach]
    cases hafter : (map s).after k with
    | none =>
      refine ⟨s, rfl, hI, fun j hj => ?_⟩
      obtain ⟨e, he, rfl⟩ := List.mem_map.mp hj
      obtain ⟨i, hi, hle⟩ := after_eq_none hafter e he
      exact hdone e he i hi hle
    | some e =>
      obtain ⟨he, hlt, hbetween⟩ := after_eq_some hafter
      obtain ⟨s', hs', hI', hD, hkeep, hnew⟩ := hbody s e hI he
      have hfewer : (all.filter fun j => (some e.1).all fun k => rank k < rank j).length < n := by
        have heq : (all.filter fun j => (some e.1).all fun k => rank k < rank j) =
            (all.filter fun j => k.all fun k => rank k < rank j).filter
              fun j => rank e.1 < rank j := by
          rw [List.filter_filter]
          refine List.filter_congr fun j _ => ?_
          cases k with
          | none => simp
          | some i =>
            have hi := hlt i rfl
            simp only [Option.all_some, ← Bool.decide_and]
            exact decide_eq_decide.mpr ⟨fun h => ⟨h, hi.trans h⟩, And.left⟩
        have hmem : e.1 ∈ all.filter fun j => k.all fun k => rank k < rank j := by
          refine List.mem_filter.mpr ⟨hall s hI _ (List.mem_map_of_mem he), ?_⟩
          cases k with
          | none => rfl
          | some i => exact decide_eq_true (hlt i rfl)
        have hself : ¬ decide (rank e.1 < rank e.1) = true := by simp
        rw [heq]
        refine Nat.lt_of_lt_of_le ?_ (Nat.le_of_lt_succ hn)
        exact List.length_filter_lt_length_iff_exists.mpr ⟨e.1, hmem, hself⟩
      refine (ih (some e.1) s' hI' hfewer fun b hb j hj hle => ?_).imp fun t ht => ⟨?_, ht.2⟩
      · obtain rfl := Option.some.inj hj
        rcases hnew b.1 (List.mem_map_of_mem hb) with hold | hold
        · obtain ⟨c, hc, hcb⟩ := List.mem_map.mp hold
          rcases hbetween c hc (hcb ▸ hle) with rfl | ⟨i, hi, hle'⟩
          · exact hcb ▸ hD
          · exact hcb ▸ hkeep c.1 (hdone c hc i hi hle')
        · exact hold
      · rw [← ht.1]
        change (body e.2 s >>= _) = _
        rw [hs']
        rfl

end

end OrderedMap

end Build2.Lib
