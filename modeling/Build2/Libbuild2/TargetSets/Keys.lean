import Build2.Libbuild2.TargetSets.Basic

/-! # The keys of the targets

No two nodes of the table are equal, so that a node whose extension is not specified is the only one
with its type, directories and name. Setting its extension keeps the nodes different therefore, and
a complete key finds one node at most. A call is over after its thread's next four parts: whoever
finds that the extension has been set meanwhile does not find a node without one again. -/

namespace Build2.Libbuild2.TargetSets

/-- Equality of keys is equality but for the extensions, one of which may be unspecified. -/
theorem TargetKey.same_iff {x y : TargetKey} :
    x.same y = true ↔ x.base = y.base ∧ (x.ext = none ∨ y.ext = none ∨ x.ext = y.ext) := by
  simp only [same, base, Prod.mk.injEq]
  split_ifs with h
  · simp only [ne_eq, Bool.or_eq_true, decide_eq_true_eq] at h
    simp only [false_iff, not_and]
    tauto
  · simp only [ne_eq, Bool.or_eq_true, decide_eq_true_eq, not_or, not_not] at h
    simp only [Bool.or_eq_true, decide_eq_true_eq]
    tauto

theorem TargetKey.same_comm (x y : TargetKey) : x.same y = y.same x := by
  rw [Bool.eq_iff_iff, same_iff, same_iff]
  constructor
  · rintro ⟨hbase, h⟩
    exact ⟨hbase.symm, by tauto⟩
  · rintro ⟨hbase, h⟩
    exact ⟨hbase.symm, by tauto⟩

/-! ### The set -/

/-- What holds of the set at any time. -/
structure Consistent (s : TargetSet) : Prop where
  /-- No two nodes are equal. -/
  distinct : ∀ (i j : ℕ) (e e' : Entry), s.entries[i]? = some e → s.entries[j]? = some e' → i ≠ j →
    e.key.same e'.key = false
  /-- The target of a node points into the node. -/
  target : ∀ (i : ℕ) (e : Entry), s.entries[i]? = some e →
    ∃ t, s.targets[e.target]? = some t ∧ t.ext = i
  /-- Every target points into the node that it is the target of. -/
  ext : ∀ (a : ℕ) (t : Target), s.targets[a]? = some t →
    ∃ e, s.entries[t.ext]? = some e ∧ e.target = a

/-- The nodes stay, and an extension that is set stays as well. -/
def Grows (s s' : TargetSet) : Prop :=
  ∀ (i : ℕ) (e : Entry), s.entries[i]? = some e → ∃ e', s'.entries[i]? = some e' ∧
    e'.key.base = e.key.base ∧ e'.target = e.target ∧ (e.key.ext ≠ none → e'.key.ext = e.key.ext)

/-- A node is one for a key: its extension is the one of the key, if that has one. -/
def Matches (k : TargetKey) (e : Entry) : Prop :=
  e.key.base = k.base ∧ (k.ext ≠ none → e.key.ext = k.ext)

/-- A target is one for a key. -/
def IsFor (s : TargetSet) (k : TargetKey) (a : ℕ) : Prop :=
  ∃ (i : ℕ) (e : Entry), s.entries[i]? = some e ∧ e.target = a ∧ Matches k e

section
variable {s s' : TargetSet} {k : TargetKey} {i : ℕ} {e : Entry}

theorem Grows.refl (s : TargetSet) : Grows s s := fun _ e he => ⟨e, he, rfl, rfl, fun _ => rfl⟩

theorem IsFor.grows (h : IsFor s k i) (hg : Grows s s') : IsFor s' k i := by
  obtain ⟨j, e, he, htarget, hbase, hext⟩ := h
  obtain ⟨e', he', hbase', htarget', hext'⟩ := hg j e he
  refine ⟨j, e', he', htarget'.trans htarget, hbase'.trans hbase, fun hk => ?_⟩
  have heq := hext hk
  exact (hext' (heq ▸ hk)).trans heq

/-- A complete key is the key of one target at most. -/
theorem IsFor.unique (h : Consistent s) {a b : ℕ} (ha : IsFor s k a) (hb : IsFor s k b)
    (hk : k.ext ≠ none) : a = b := by
  obtain ⟨i, e, he, rfl, hbase, hext⟩ := ha
  obtain ⟨j, e', he', rfl, hbase', hext'⟩ := hb
  by_cases hij : i = j
  · obtain rfl := hij
    rw [he] at he'
    rw [Option.some.inj he']
  · have hsame : e.key.same e'.key = true :=
      TargetKey.same_iff.mpr ⟨hbase.trans hbase'.symm,
        .inr (.inr ((hext hk).trans (hext' hk).symm))⟩
    rw [h.distinct i j e e' he he' hij] at hsame
    simp at hsame

/-! ### Changes -/

theorem getElem?_setExt (s : TargetSet) (i : ℕ) (v : Option String) (j : ℕ) :
    (s.setExt i v).entries[j]? = if i = j then
      (s.entries[j]?).map fun e => { e with key := { e.key with ext := v } }
    else s.entries[j]? := by
  simp only [TargetSet.setExt, List.getElem?_modify]
  split_ifs <;> simp

theorem Grows.setExt (he : s.entries[i]? = some e) (hnone : e.key.ext = none) (v : Option String) :
    Grows s (s.setExt i v) := by
  intro j e' he'
  rw [getElem?_setExt]
  by_cases hij : i = j
  · obtain rfl := hij
    obtain rfl := Option.some.inj (he.symm.trans he')
    refine ⟨{ e with key := { e.key with ext := v } }, ?_, rfl, rfl, fun hne => absurd hnone hne⟩
    rw [if_pos rfl, he]
    rfl
  · exact ⟨e', by rwa [if_neg hij], rfl, rfl, fun _ => rfl⟩

theorem Consistent.setExt (h : Consistent s) (he : s.entries[i]? = some e)
    (hnone : e.key.ext = none) (v : Option String) : Consistent (s.setExt i v) := by
  have hget {j : ℕ} {e' : Entry} (he' : (s.setExt i v).entries[j]? = some e') :
      ∃ e₀, s.entries[j]? = some e₀ ∧ e'.key.base = e₀.key.base ∧ e'.target = e₀.target ∧
        (i ≠ j → e' = e₀) := by
    rw [getElem?_setExt] at he'
    split_ifs at he' with hij
    · obtain ⟨e₀, he₀, rfl⟩ := Option.map_eq_some_iff.mp he'
      exact ⟨e₀, he₀, rfl, rfl, fun hne => absurd hij hne⟩
    · exact ⟨e', he', rfl, rfl, fun _ => rfl⟩
  -- the other nodes differ from this one in more than the extension
  have hother {j : ℕ} {e' : Entry} (hij : i ≠ j) (he' : s.entries[j]? = some e') :
      e.key.base ≠ e'.key.base := by
    intro hbase
    have hsame := TargetKey.same_iff.mpr ⟨hbase, .inl hnone⟩
    rw [h.distinct i j e e' he he' hij] at hsame
    simp at hsame
  refine ⟨fun j k e₁ e₂ h₁ h₂ hjk => ?_, fun j e' he' => ?_, fun a t ht => ?_⟩
  · obtain ⟨d₁, hd₁, hb₁, -, heq₁⟩ := hget h₁
    obtain ⟨d₂, hd₂, hb₂, -, heq₂⟩ := hget h₂
    rw [← Bool.not_eq_true, TargetKey.same_iff, hb₁, hb₂]
    rintro ⟨hbase, hext⟩
    by_cases hij : i = j
    · obtain rfl := hij
      rw [he] at hd₁
      obtain rfl := Option.some.inj hd₁
      exact hother hjk hd₂ hbase
    by_cases hik : i = k
    · obtain rfl := hik
      rw [he] at hd₂
      obtain rfl := Option.some.inj hd₂
      exact hother hij hd₁ hbase.symm
    obtain rfl := heq₁ hij
    obtain rfl := heq₂ hik
    have hsame := TargetKey.same_iff.mpr ⟨hbase, hext⟩
    rw [h.distinct j k _ _ hd₁ hd₂ hjk] at hsame
    simp at hsame
  · obtain ⟨e₀, he₀, -, htarget, -⟩ := hget he'
    rw [htarget]
    exact h.target j e₀ he₀
  · obtain ⟨e₀, he₀, htarget⟩ := h.ext a t ht
    obtain ⟨e', he', -, htarget', -⟩ := Grows.setExt he hnone v _ e₀ he₀
    exact ⟨e', he', htarget'.trans htarget⟩

theorem finish_entries (s : TargetSet) (c : Call) (t : ℕ) : (s.finish c t).entries = s.entries := by
  unfold TargetSet.finish
  split <;> rfl

theorem finish_targets (s : TargetSet) (c : Call) (t a : ℕ) :
    ((s.finish c t).targets[a]?).map Target.ext = (s.targets[a]?).map Target.ext := by
  unfold TargetSet.finish
  split
  · simp only [List.getElem?_modify]
    cases s.targets[a]? with
    | none => rfl
    | some u =>
      change some (if t = a then { u with implied := false } else u).ext = some u.ext
      split_ifs <;> rfl
  · rfl

theorem Grows.finish (h : Grows s s') (c : Call) (t : ℕ) : Grows s (s'.finish c t) := by
  unfold Grows
  rw [finish_entries]
  exact h

theorem IsFor.finish {a : ℕ} (h : IsFor s k a) (c : Call) (t : ℕ) : IsFor (s.finish c t) k a :=
  h.grows ((Grows.refl s).finish c t)

theorem Consistent.finish (h : Consistent s) (c : Call) (t : ℕ) : Consistent (s.finish c t) := by
  refine ⟨?_, fun i e he => ?_, fun a u hu => ?_⟩
  · rw [finish_entries]
    exact h.distinct
  · rw [finish_entries] at he
    obtain ⟨u, hu, rfl⟩ := h.target i e he
    have hmap := finish_targets s c t e.target
    rw [hu] at hmap
    obtain ⟨u', hu', hext⟩ := Option.map_eq_some_iff.mp hmap
    exact ⟨u', hu', hext⟩
  · have hmap := finish_targets s c t a
    rw [hu] at hmap
    obtain ⟨u', hu', hext⟩ := Option.map_eq_some_iff.mp hmap.symm
    rw [finish_entries, ← hext]
    exact h.ext a u' hu'

theorem Grows.append (s : TargetSet) (l : List Entry) (l' : List Target) :
    Grows s ⟨s.entries ++ l, s.targets ++ l'⟩ := by
  intro i e he
  refine ⟨e, ?_, rfl, rfl, fun _ => rfl⟩
  change (s.entries ++ l)[i]? = some e
  rw [List.getElem?_append_left (List.getElem?_eq_some_iff.mp he).1, he]

theorem Consistent.append (h : Consistent s) (hk : ∀ e ∈ s.entries, e.key.same k = false)
    (implied : Bool) :
    Consistent
      ⟨s.entries ++ [⟨k, s.targets.length⟩], s.targets ++ [⟨s.entries.length, implied⟩]⟩ := by
  have hget {j : ℕ} {e : Entry} (he : (s.entries ++ [⟨k, s.targets.length⟩])[j]? = some e) :
      s.entries[j]? = some e ∨ j = s.entries.length ∧ e = ⟨k, s.targets.length⟩ := by
    rw [List.getElem?_append] at he
    split_ifs at he with hlt
    · exact .inl he
    · have hj : j - s.entries.length = 0 := by
        by_contra hne
        obtain ⟨m, hm⟩ := Nat.exists_eq_succ_of_ne_zero hne
        rw [hm] at he
        simp at he
      rw [hj] at he
      exact .inr ⟨by omega, (Option.some.inj he).symm⟩
  refine ⟨fun i j e e' he he' hij => ?_, fun i e he => ?_, fun a t ht => ?_⟩
  · obtain he | ⟨rfl, rfl⟩ := hget he
    · obtain he' | ⟨-, rfl⟩ := hget he'
      · exact h.distinct i j e e' he he' hij
      · exact hk e (List.mem_of_getElem? he)
    · obtain he' | ⟨rfl, -⟩ := hget he'
      · rw [TargetKey.same_comm]
        exact hk e' (List.mem_of_getElem? he')
      · exact absurd rfl hij
  · obtain he | ⟨rfl, rfl⟩ := hget he
    · obtain ⟨t, ht, hext⟩ := h.target i e he
      refine ⟨t, ?_, hext⟩
      change (s.targets ++ _)[e.target]? = some t
      rw [List.getElem?_append_left (List.getElem?_eq_some_iff.mp ht).1, ht]
    · exact ⟨⟨s.entries.length, implied⟩, List.getElem?_concat_length, rfl⟩
  · change (s.targets ++ [_])[a]? = some t at ht
    rw [List.getElem?_append] at ht
    split_ifs at ht with hlt
    · obtain ⟨e, he, htarget⟩ := h.ext a t ht
      refine ⟨e, ?_, htarget⟩
      change (s.entries ++ _)[t.ext]? = some e
      rw [List.getElem?_append_left (List.getElem?_eq_some_iff.mp he).1, he]
    · have ha : a - s.targets.length = 0 := by
        by_contra hne
        obtain ⟨m, hm⟩ := Nat.exists_eq_succ_of_ne_zero hne
        rw [hm] at ht
        simp at ht
      rw [ha] at ht
      obtain rfl := Option.some.inj ht
      refine ⟨⟨k, s.targets.length⟩, List.getElem?_concat_length, ?_⟩
      change s.targets.length = a
      omega

/-! ### The steps -/

/-- Between the locks of `find` the node that has been found is one for the key but for the
extension. -/
def PlaceOk (s : TargetSet) : Place → Prop
  | .branding _ k i => ∃ e, s.entries[i]? = some e ∧ e.key.base = k.base
  | _ => True

theorem PlaceOk.grows {p : Place} (h : PlaceOk s p) (hg : Grows s s') : PlaceOk s' p := by
  unfold PlaceOk at h ⊢
  split at h
  · obtain ⟨e, he, hbase⟩ := h
    obtain ⟨e', he', hbase', -, -⟩ := hg _ e he
    exact ⟨e', he', hbase'.trans hbase⟩
  · trivial

/-- What a step does to the set, and what it returns. -/
structure Right (s : TargetSet) (r : TargetSet × Place × Returned) : Prop where
  consistent : Consistent r.1
  grows : Grows s r.1
  place : PlaceOk r.1 r.2.1
  returned : ∀ k a, r.2.2 = some (k, a) → IsFor r.1 k a

theorem right_none (h : Consistent s) {p : Place} (hp : PlaceOk s p) : Right s (s, p, none) :=
  ⟨h, .refl s, hp, fun _ _ h => by simp at h⟩

theorem right_some {s' : TargetSet} (h : Consistent s') (hg : Grows s s') {a : ℕ}
    (ha : IsFor s' k a) : Right s (s', .idle, some (k, a)) := by
  refine ⟨h, hg, trivial, fun k' a' heq => ?_⟩
  obtain ⟨rfl, rfl⟩ := Prod.mk.inj (Option.some.inj heq)
  exact ha

theorem isFor_setExt (he : s.entries[i]? = some e) (hbase : e.key.base = k.base) :
    IsFor (s.setExt i k.ext) k e.target := by
  refine ⟨i, { e with key := { e.key with ext := k.ext } }, ?_, rfl, hbase, fun _ => rfl⟩
  rw [getElem?_setExt, if_pos rfl, he]
  rfl

theorem isFind_some (h : s.isFind k (some i) = true) :
    ∃ e, s.entries[i]? = some e ∧ e.key.same k = true := by
  unfold TargetSet.isFind at h
  cases he : s.entries[i]? with
  | none => simp [he] at h
  | some e => exact ⟨e, rfl, by simpa [he] using h⟩

theorem isFind_none (h : s.isFind k none = true) : ∀ e ∈ s.entries, e.key.same k = false := by
  unfold TargetSet.isFind at h
  intro e he
  simpa using List.all_eq_true.mp h e he

/-- A node that is equal to a key and does not miss its extension is one for the key. -/
theorem isFor_of_same (he : s.entries[i]? = some e) (hsame : e.key.same k = true)
    (hext : ¬(e.key.ext ≠ k.ext ∧ k.ext ≠ none)) : IsFor s k e.target := by
  refine ⟨i, e, he, rfl, (TargetKey.same_iff.mp hsame).1, fun hk => ?_⟩
  by_contra hne
  exact hext ⟨hne, hk⟩

/-- A node that is equal to a key and misses its extension has none. -/
theorem ext_eq_none (hsame : e.key.same k = true) (hext : e.key.ext ≠ k.ext ∧ k.ext ≠ none) :
    e.key.ext = none := by
  obtain h | h | h := (TargetKey.same_iff.mp hsame).2
  · exact h
  · exact absurd h hext.2
  · exact absurd h hext.1

variable {r : TargetSet × Place × Returned} {c : Call} {p : Place}

/-- **The first part of `find`**: no node is equal to the key, or one is, which may miss the
extension. -/
theorem find_cases {i : Option ℕ} (hr : find s c k i = some r) :
    ((∀ e ∈ s.entries, e.key.same k = false) ∧
      (c = .find ∧ r = (s, .idle, none) ∨
        ∃ implied, c = .insert implied ∧ r = (s, .inserting implied k, none))) ∨
    ∃ i e, s.entries[i]? = some e ∧ e.key.same k = true ∧
      ((e.key.ext = none ∧ k.ext ≠ none ∧ r = (s, .branding c k i, none)) ∨
        ¬(e.key.ext ≠ k.ext ∧ k.ext ≠ none) ∧
          r = (s.finish c e.target, .idle, some (k, e.target))) := by
  unfold find at hr
  split_ifs at hr with hfind
  cases i with
  | none =>
    refine Or.inl ⟨isFind_none hfind, ?_⟩
    cases c with
    | find => exact Or.inl ⟨rfl, (Option.some.inj hr).symm⟩
    | insert implied => exact Or.inr ⟨implied, rfl, (Option.some.inj hr).symm⟩
  | some i =>
    obtain ⟨e, he, hsame⟩ := isFind_some hfind
    simp only [Option.bind_some, he] at hr
    refine Or.inr ⟨i, e, he, hsame, ?_⟩
    split_ifs at hr with hext
    · exact Or.inl ⟨ext_eq_none hsame hext, hext.2, (Option.some.inj hr).symm⟩
    · exact Or.inr ⟨hext, (Option.some.inj hr).symm⟩

/-- **The second part**: the extension is set unless someone has set one. -/
theorem brand_cases (hr : brand s c k i = some r) : ∃ e, s.entries[i]? = some e ∧
    ((e.key.ext ≠ none ∧ r = (s, .finding c k, none)) ∨
      e.key.ext = none ∧
        r = ((s.setExt i k.ext).finish c e.target, .idle, some (k, e.target))) := by
  unfold brand at hr
  cases he : s.entries[i]? with
  | none => simp [he] at hr
  | some e =>
    simp only [he] at hr
    refine ⟨e, rfl, ?_⟩
    split_ifs at hr with hext
    · exact Or.inl ⟨hext, (Option.some.inj hr).symm⟩
    · exact Or.inr ⟨not_not.mp hext, (Option.some.inj hr).symm⟩

/-- **The region of `insert_locked` returns a target**: that of a new node or of one that is equal
to the key, whose extension is set if it misses it. -/
theorem emplace_cases {implied : Bool} {i : Option ℕ} (hr : emplace s implied k i = some r) :
    ((∀ e ∈ s.entries, e.key.same k = false) ∧
      r = (⟨s.entries ++ [⟨k, s.targets.length⟩], s.targets ++ [⟨s.entries.length, implied⟩]⟩,
        .idle, some (k, s.targets.length))) ∨
    ∃ i e s', s.entries[i]? = some e ∧ e.key.same k = true ∧
      (e.key.ext = none ∧ s' = s.setExt i k.ext ∨ ¬(e.key.ext ≠ k.ext ∧ k.ext ≠ none) ∧ s' = s) ∧
        r = (s'.finish (.insert implied) e.target, .idle, some (k, e.target)) := by
  unfold emplace at hr
  split_ifs at hr with hfind
  cases i with
  | none => exact Or.inl ⟨isFind_none hfind, (Option.some.inj hr).symm⟩
  | some i =>
    obtain ⟨e, he, hsame⟩ := isFind_some hfind
    simp only [Option.bind_some, he] at hr
    refine Or.inr ⟨i, e, _, he, hsame, ?_, (Option.some.inj hr).symm⟩
    split_ifs with hext
    · exact Or.inl ⟨ext_eq_none hsame hext, rfl⟩
    · exact Or.inr ⟨hext, rfl⟩

/-- **`ext`** sets the extension of the target's own node unless that has another one. -/
theorem ext_cases (h : Consistent s) {t : ℕ} {v : String} (hr : ext s t v = some r) :
    ∃ i e, s.entries[i]? = some e ∧ e.target = t ∧
      ((e.key.ext = none ∧
          r = (s.setExt i (some v), .idle, some ({ e.key with ext := some v }, t))) ∨
        (e.key.ext = some v ∧ r = (s, .idle, some ({ e.key with ext := some v }, t))) ∨
        ∃ o, e.key.ext = some o ∧ o ≠ v ∧ r = (s, .idle, none)) := by
  unfold ext at hr
  cases ht : s.targets[t]? with
  | none => simp [ht] at hr
  | some tg =>
    obtain ⟨e, he, htarget⟩ := h.ext t tg ht
    simp only [ht, he] at hr
    refine ⟨tg.ext, e, he, htarget, ?_⟩
    cases hext : e.key.ext with
    | none =>
      simp only [hext] at hr
      exact Or.inl ⟨rfl, (Option.some.inj hr).symm⟩
    | some o =>
      simp only [hext] at hr
      split_ifs at hr with hne
      · exact Or.inr (Or.inr ⟨o, rfl, hne, (Option.some.inj hr).symm⟩)
      · exact Or.inr (Or.inl ⟨congrArg _ (not_not.mp hne), (Option.some.inj hr).symm⟩)

theorem find_right (h : Consistent s) {i : Option ℕ} (hr : find s c k i = some r) :
    Right s r := by
  obtain ⟨-, ⟨-, rfl⟩ | ⟨implied, -, rfl⟩⟩ | ⟨i, e, he, hsame, ⟨-, -, rfl⟩ | ⟨hext, rfl⟩⟩ :=
    find_cases hr
  · exact right_none h trivial
  · exact right_none h trivial
  · exact right_none h ⟨e, he, (TargetKey.same_iff.mp hsame).1⟩
  · exact right_some (h.finish c e.target) ((Grows.refl s).finish c e.target)
      ((isFor_of_same he hsame hext).finish c e.target)

theorem brand_right (h : Consistent s) (hp : PlaceOk s (.branding c k i))
    (hr : brand s c k i = some r) : Right s r := by
  obtain ⟨e, he, ⟨-, rfl⟩ | ⟨hnone, rfl⟩⟩ := brand_cases hr
  · exact right_none h trivial
  · obtain ⟨e', he', hbase⟩ := hp
    obtain rfl := Option.some.inj (he.symm.trans he')
    exact right_some ((h.setExt he hnone k.ext).finish c e.target)
      ((Grows.setExt he hnone k.ext).finish c e.target)
      ((isFor_setExt he hbase).finish c e.target)

theorem emplace_right (h : Consistent s) {implied : Bool} {i : Option ℕ}
    (hr : emplace s implied k i = some r) : Right s r := by
  obtain ⟨hnone, rfl⟩ | ⟨i, e, s', he, hsame, ⟨hext, rfl⟩ | ⟨hext, rfl⟩, rfl⟩ := emplace_cases hr
  · refine right_some (h.append hnone implied) (Grows.append s _ _) ?_
    exact ⟨s.entries.length, ⟨k, s.targets.length⟩, List.getElem?_concat_length, rfl, rfl,
      fun _ => rfl⟩
  · exact right_some ((h.setExt he hext k.ext).finish _ e.target)
      ((Grows.setExt he hext k.ext).finish _ e.target)
      ((isFor_setExt he (TargetKey.same_iff.mp hsame).1).finish _ e.target)
  · exact right_some (h.finish _ e.target) ((Grows.refl _).finish _ e.target)
      ((isFor_of_same he hsame hext).finish _ e.target)

theorem ext_right (h : Consistent s) {t : ℕ} {v : String} (hr : ext s t v = some r) :
    Right s r := by
  obtain ⟨i, e, he, rfl, ⟨hext, rfl⟩ | ⟨hext, rfl⟩ | ⟨o, -, -, rfl⟩⟩ := ext_cases h hr
  · exact right_some (h.setExt he hext (some v)) (Grows.setExt he hext (some v))
      (isFor_setExt (k := { e.key with ext := some v }) he rfl)
  · exact right_some h (.refl s) ⟨i, e, he, rfl, rfl, fun _ => hext⟩
  · exact right_none h trivial

theorem region_right (h : Consistent s) (hp : PlaceOk s p) {a : Step}
    (hr : region s a p = some r) : Right s r := by
  unfold region at hr
  split at hr
  · obtain rfl := Option.some.inj hr
    exact right_none h trivial
  · exact find_right h hr
  · exact brand_right h hp hr
  · exact emplace_right h hr
  · exact ext_right h hr
  · simp at hr

/-! ### How calls end -/

/-- The call that a thread is in. -/
def Place.call : Place → Option (Call × TargetKey)
  | .idle => none
  | .finding c k => some (c, k)
  | .branding c k _ => some (c, k)
  | .inserting implied k => some (.insert implied, k)

/-- A node with this type, directories and name has an extension. -/
def Branded (s : TargetSet) (k : TargetKey) : Bool :=
  s.entries.any fun e => e.key.base = k.base && e.key.ext.isSome

/-- How many parts of its call a thread has before it at most. -/
def Place.left (s : TargetSet) : Place → ℕ
  | .idle => 0
  | .inserting _ _ => 1
  | .finding _ k => if Branded s k then 2 else 4
  | .branding _ _ _ => 3

theorem left_finding (s : TargetSet) (c : Call) (k : TargetKey) :
    (Place.finding c k).left s = if Branded s k then 2 else 4 := rfl

/-- What a part of a call comes to: the call goes on with fewer parts before it, or it returns a
target for its key, or it is `find` and no node is equal to the key. -/
structure Answers (s : TargetSet) (a : Step) (p : Place) (r : TargetSet × Place × Returned) :
    Prop where
  begun : ∀ c k, a = .call c k → r.2.1.call = some (c, k)
  call : ∀ c k, p.call = some (c, k) →
    (r.2.1.call = some (c, k) ∧ r.2.2 = none ∧ r.2.1.left r.1 < p.left s) ∨
    (r.2.1 = .idle ∧ ∃ t, r.2.2 = some (k, t) ∧ IsFor r.1 k t) ∨
    (r.2.1 = .idle ∧ r.2.2 = none ∧ c = .find ∧ ∀ e ∈ s.entries, e.key.same k = false)
  ext : ∀ t v, a = .ext t v →
    (∃ k, k.ext = some v ∧ r.2.2 = some (k, t) ∧ IsFor r.1 k t) ∨
    ∃ (i : ℕ) (e : Entry) (o : String), s.entries[i]? = some e ∧ e.target = t ∧
      e.key.ext = some o ∧ o ≠ v

theorem branded_iff : Branded s k = true ↔
    ∃ (i : ℕ) (e : Entry), s.entries[i]? = some e ∧ e.key.base = k.base ∧ e.key.ext ≠ none := by
  unfold Branded
  rw [List.any_eq_true]
  constructor
  · rintro ⟨e, he, h⟩
    rw [Bool.and_eq_true, decide_eq_true_eq, Option.isSome_iff_ne_none] at h
    obtain ⟨i, hi⟩ := List.getElem?_of_mem he
    exact ⟨i, e, hi, h.1, h.2⟩
  · rintro ⟨i, e, hi, hbase, hext⟩
    refine ⟨e, List.mem_of_getElem? hi, ?_⟩
    rw [Bool.and_eq_true, decide_eq_true_eq, Option.isSome_iff_ne_none]
    exact ⟨hbase, hext⟩

/-- **The steps of the other threads** do not add parts to a call. -/
theorem left_mono (hg : Grows s s') (p : Place) : p.left s' ≤ p.left s := by
  cases p with
  | idle => exact Nat.le_refl _
  | inserting implied k => exact Nat.le_refl _
  | branding c k i => exact Nat.le_refl _
  | finding c k =>
    rw [left_finding, left_finding]
    by_cases hb : Branded s k = true
    · obtain ⟨i, e, he, hbase, hext⟩ := branded_iff.mp hb
      obtain ⟨e', he', hbase', -, hext'⟩ := hg i e he
      have hb' : Branded s' k = true :=
        branded_iff.mpr ⟨i, e', he', hbase'.trans hbase, (hext' hext).symm ▸ hext⟩
      exact Nat.le_of_eq ((if_pos hb').trans (if_pos hb).symm)
    · rw [if_neg hb]
      split_ifs <;> omega

/-- A node that misses the extension is the only one for the key. -/
theorem not_branded (h : Consistent s) (he : s.entries[i]? = some e) (hsame : e.key.same k = true)
    (hext : e.key.ext = none) : Branded s k = false := by
  rw [← Bool.not_eq_true, branded_iff]
  rintro ⟨j, e', he', hbase, hext'⟩
  have hij : i ≠ j := by
    rintro rfl
    obtain rfl := Option.some.inj (he.symm.trans he')
    exact hext' hext
  have heq := TargetKey.same_iff.mpr
    ⟨(TargetKey.same_iff.mp hsame).1.trans hbase.symm, Or.inl hext⟩
  rw [h.distinct i j e e' he he' hij] at heq
  simp at heq

/-- **A part of a call.** -/
theorem region_answers (h : Consistent s) (hp : PlaceOk s p) {a : Step}
    (hr : region s a p = some r) : Answers s a p r := by
  have hright := region_right h hp hr
  unfold region at hr
  split at hr
  · rename_i c k
    obtain rfl := Option.some.inj hr
    exact ⟨fun c' k' ha => (by cases ha; rfl), fun _ _ hc => (by cases hc),
      fun _ _ ha => (by cases ha)⟩
  · rename_i i c k
    refine ⟨fun _ _ ha => (by cases ha), fun c' k' hc => ?_, fun _ _ ha => (by cases ha)⟩
    cases hc
    obtain ⟨hnone, ⟨hc, rfl⟩ | ⟨implied, hc, rfl⟩⟩ |
      ⟨j, e, he, hsame, ⟨hext, -, rfl⟩ | ⟨-, rfl⟩⟩ := find_cases hr
    · exact Or.inr (Or.inr ⟨rfl, rfl, hc, hnone⟩)
    · refine Or.inl ⟨congrArg (fun c => some (c, k)) hc.symm, rfl, ?_⟩
      show 1 < (Place.finding c k).left s
      rw [left_finding]
      split_ifs <;> decide
    · refine Or.inl ⟨rfl, rfl, ?_⟩
      rw [left_finding, not_branded h he hsame hext]
      exact Nat.lt_succ_self 3
    · exact Or.inr (Or.inl ⟨rfl, _, rfl, hright.returned _ _ rfl⟩)
  · rename_i c k i
    refine ⟨fun _ _ ha => (by cases ha), fun c' k' hc => ?_, fun _ _ ha => (by cases ha)⟩
    cases hc
    obtain ⟨e, he, ⟨hext, rfl⟩ | ⟨-, rfl⟩⟩ := brand_cases hr
    · refine Or.inl ⟨rfl, rfl, ?_⟩
      obtain ⟨e', he', hbase⟩ := hp
      obtain rfl := Option.some.inj (he.symm.trans he')
      rw [left_finding, branded_iff.mpr ⟨i, e, he, hbase, hext⟩]
      exact Nat.lt_succ_self 2
    · exact Or.inr (Or.inl ⟨rfl, _, rfl, hright.returned _ _ rfl⟩)
  · rename_i i implied k
    refine ⟨fun _ _ ha => (by cases ha), fun c' k' hc => ?_, fun _ _ ha => (by cases ha)⟩
    cases hc
    obtain ⟨-, rfl⟩ | ⟨j, e, s', -, -, -, rfl⟩ := emplace_cases hr
    · exact Or.inr (Or.inl ⟨rfl, _, rfl, hright.returned _ _ rfl⟩)
    · exact Or.inr (Or.inl ⟨rfl, _, rfl, hright.returned _ _ rfl⟩)
  · rename_i t v
    refine ⟨fun _ _ ha => (by cases ha), fun _ _ hc => (by cases hc), fun t' v' ha => ?_⟩
    cases ha
    obtain ⟨i, e, he, htarget, ⟨-, rfl⟩ | ⟨-, rfl⟩ | ⟨o, ho, hne, rfl⟩⟩ := ext_cases h hr
    · exact Or.inl ⟨_, rfl, rfl, hright.returned _ _ rfl⟩
    · exact Or.inl ⟨_, rfl, rfl, hright.returned _ _ rfl⟩
    · exact Or.inr ⟨i, e, o, he, htarget, ho, hne⟩
  · simp at hr

theorem exists_isFind (s : TargetSet) (k : TargetKey) : ∃ i, s.isFind k i = true := by
  by_cases h : ∃ e ∈ s.entries, e.key.same k = true
  · obtain ⟨e, he, hsame⟩ := h
    obtain ⟨i, hi⟩ := List.getElem?_of_mem he
    refine ⟨some i, ?_⟩
    unfold TargetSet.isFind
    simp only [hi, Option.any_some, hsame]
  · refine ⟨none, List.all_eq_true.mpr fun e he => ?_⟩
    rw [Bool.eq_false_iff.mpr fun hsame => h ⟨e, he, hsame⟩]
    rfl

/-- **A thread in a call** can go on. -/
theorem region_proceeds (hp : PlaceOk s p) (hne : p ≠ .idle) :
    ∃ i r, region s (.proceed i) p = some r := by
  cases p with
  | idle => exact absurd rfl hne
  | finding c k =>
    obtain ⟨i, hi⟩ := exists_isFind s k
    refine ⟨i, Option.isSome_iff_exists.mp (show (find s c k i).isSome = true from ?_)⟩
    unfold find
    rw [if_pos hi]
    split
    · split_ifs <;> rfl
    · cases c <;> rfl
  | branding c k i =>
    obtain ⟨e, he, -⟩ := hp
    refine ⟨none, Option.isSome_iff_exists.mp (show (brand s c k i).isSome = true from ?_)⟩
    unfold brand
    simp only [he]
    split_ifs <;> rfl
  | inserting implied k =>
    obtain ⟨i, hi⟩ := exists_isFind s k
    refine ⟨i, Option.isSome_iff_exists.mp (show (emplace s implied k i).isSome = true from ?_)⟩
    unfold emplace
    rw [if_pos hi]
    split <;> rfl

end

/-! ### Runs -/

/-- What holds at any time. -/
structure Sound (s : State) : Prop extends Consistent s.set where
  /-- A thread between the locks. -/
  place : ∀ (j : ℕ) (p : Place), s.threads[j]? = some p → PlaceOk s.set p
  /-- A target is one for the keys that it has been returned for. -/
  returned : ∀ k a, (k, a) ∈ s.returned → IsFor s.set k a
  /-- The calls with a complete key return the same target. -/
  unique : ∀ k a b, (k, a) ∈ s.returned → (k, b) ∈ s.returned → k.ext ≠ none → a = b

section
variable {s : State}

theorem sound_step (h : Sound s) (j : ℕ) (a : Step) :
    Sound (step s j a) ∧ Grows s.set (step s j a).set := by
  unfold step
  cases hj : s.threads[j]? with
  | none => exact ⟨h, .refl _⟩
  | some p =>
    dsimp only
    cases hr : region s.set a p with
    | none => exact ⟨h, .refl _⟩
    | some r =>
      obtain ⟨set, p', ret⟩ := r
      have hright := region_right h.toConsistent (h.place j p hj) hr
      have hreturned : ∀ k a, (k, a) ∈ ret.toList ++ s.returned → IsFor set k a := by
        intro k a hka
        rcases List.mem_append.mp hka with hka | hka
        · exact hright.returned k a (Option.mem_toList.mp hka)
        · exact (h.returned k a hka).grows hright.grows
      refine ⟨⟨hright.consistent, fun i p hi => ?_, hreturned, fun k a b ha hb hk => ?_⟩,
        hright.grows⟩
      · by_cases hij : j = i
        · obtain rfl := hij
          rw [List.getElem?_set_self (List.getElem?_eq_some_iff.mp hj).1] at hi
          exact Option.some.inj hi ▸ hright.place
        · rw [List.getElem?_set_ne hij] at hi
          exact (h.place i p hi).grows hright.grows
      · exact (hreturned k a ha).unique hright.consistent (hreturned k b hb) hk

theorem sound_init (n : ℕ) : Sound { threads := List.replicate n .idle } where
  distinct i j e e' he := by simp at he
  target i e he := by simp at he
  ext a t ht := by simp at ht
  place j p hp := by
    rw [List.eq_of_mem_replicate (List.mem_of_getElem? hp)]
    trivial
  returned k a h := by simp at h
  unique k a b h := by simp at h

theorem sound_foldl (steps : List (ℕ × Step)) :
    ∀ s, Sound s → Sound (steps.foldl (fun s a => step s a.1 a.2) s) := by
  induction steps with
  | nil => exact fun _ h => h
  | cons a steps ih => exact fun s h => ih _ (sound_step h a.1 a.2).1

end

/-- **The target set.** For any number of threads and any interleaving of their steps, no two nodes
are equal, the calls return targets for their keys and the same one for the same complete key, every
target points into its own node, and no step takes away a node or changes an extension that is set.
A thread in a call can go on, each of its parts brings the call closer to its end, which is that it
returns a target unless it is `find` and there is none, and the other threads put nothing
between. -/
theorem targetSet (n : ℕ) (steps : List (ℕ × Step)) (j : ℕ) (a : Step) :
    Sound (run n steps) ∧ Grows (run n steps).set (step (run n steps) j a).set ∧
    ∀ (i : ℕ) (p : Place), (run n steps).threads[i]? = some p →
      (∀ r, region (run n steps).set a p = some r → Answers (run n steps).set a p r) ∧
      (p ≠ .idle → ∃ f r, region (run n steps).set (.proceed f) p = some r) ∧
      p.left (step (run n steps) j a).set ≤ p.left (run n steps).set := by
  have h : Sound (run n steps) := sound_foldl steps _ (sound_init n)
  have hg := (sound_step h j a).2
  refine ⟨h, hg, fun i p hi => ⟨fun r hr => ?_, region_proceeds (h.place i p hi), left_mono hg p⟩⟩
  exact region_answers h.toConsistent (h.place i p hi) hr

end Build2.Libbuild2.TargetSets
