import Build2.Lib.Search

/-! # Searching repositories for a package

`filter` looks for a repository fragment that a package is available from: the given fragment, its
complements and, if asked for, its prerequisites, with the complements of these recursively. -/

namespace Build2.Bpkg.RepositorySearch

open Relation Build2.Lib.Search

/-- The repository fragments `α` with the repositories `ρ` they refer to and what these consist of.
A fragment stands for its name, and the stored objects are taken as loaded. -/
structure Repositories (α ρ : Type) where
  complements : α → List ρ
  prerequisites : α → List ρ
  fragments : ρ → List α

/-- Why a search does not come to an end: an assertion, or a bound on the depth of the recursion
that the source does not have. -/
inductive Stop
  | assertion
  | tooDeep
  deriving DecidableEq, Repr

section

variable {α ρ : Type} [DecidableEq α] (g : Repositories α ρ) (locations : List α)

/-- `find`. The chain is the path from the first fragment to `rf`. -/
def find : ℕ → α → List α → Bool → Except Stop (Option α)
  | 0, _, _, _ => .error .tooDeep
  | n + 1, rf, chain, prereq =>
    if prereq ∧ chain ≠ [] then .error .assertion
    else if rf ∈ chain then .ok none
    else
      locations.findSomeM? fun lrf =>
        if lrf = rf then .ok (some rf)
        -- directly, without loading the fragments
        else if (g.complements rf).any fun r => lrf ∈ g.fragments r then .ok (some lrf)
        else if prereq && (g.prerequisites rf).any fun r => lrf ∈ g.fragments r then .ok (some lrf)
        else do
          -- recursively
          let c ← (g.complements rf).findSomeM? fun cr =>
            (g.fragments cr).findSomeM? fun fr => find n fr (chain ++ [rf]) false
          match c with
          | some r => .ok (some r)
          | none =>
            if prereq then
              (g.prerequisites rf).findSomeM? fun pr =>
                (g.fragments pr).findSomeM? fun fr => find n fr (chain ++ [rf]) false
            else .ok none

/-- `filter`. -/
def filter (n : ℕ) (r : α) (prereq : Bool) : Except Stop (Option α) :=
  find g locations n r [] prereq

end

/-! ### Reachability -/

section

variable {α ρ : Type} (g : Repositories α ρ)

/-- An edge to a fragment of a complement repository. -/
def Complement (x y : α) : Prop := ∃ r ∈ g.complements x, y ∈ g.fragments r

/-- An edge to a fragment of a prerequisite repository. -/
def Prerequisite (x y : α) : Prop := ∃ r ∈ g.prerequisites x, y ∈ g.fragments r

/-- Where a search from `rf` gets to. -/
def Found (prereq : Bool) (rf y : α) : Prop :=
  ReflTransGen (Complement g) rf y ∨
    prereq = true ∧ ∃ p, Prerequisite g rf p ∧ ReflTransGen (Complement g) p y

end

section

variable {α ρ : Type} [DecidableEq α] {g : Repositories α ρ} {locations : List α} {chain : List α}
  {n : ℕ} {rf : α} {prereq : Bool}

omit [DecidableEq α] in
theorem returns_repositories (rs : List ρ) {f : α → Except Stop (Option α)} {p : α → Prop}
    {q : α → Prop} (h : ∀ x, (∃ r ∈ rs, x ∈ g.fragments r) → Returns (f x) p (q x)) :
    Returns (rs.findSomeM? fun r => (g.fragments r).findSomeM? f) p
      (∃ x, (∃ r ∈ rs, x ∈ g.fragments r) ∧ q x) := by
  have hr : ∀ r ∈ rs, Returns ((g.fragments r).findSomeM? f) p (∃ x ∈ g.fragments r, q x) :=
    fun r hr => returns_findSomeM fun x hx => h x ⟨r, hr, hx⟩
  refine (returns_findSomeM hr).imp (fun _ h => h) ?_
  rintro ⟨x, ⟨r, hr, hx⟩, hq⟩
  exact ⟨r, hr, x, hx, hq⟩

/-- **One level of the search**, with what the recursive calls find. -/
theorem returns_find_succ {Q : α → Prop} (hchain : prereq = true → chain = [])
    (hrf : rf ∉ chain) (ih : ∀ z, Returns (find g locations n z (chain ++ [rf]) false)
      (fun y => y ∈ locations ∧ ReflTransGen (Complement g) z y) (Q z)) :
    Returns (find g locations (n + 1) rf chain prereq)
      (fun y => y ∈ locations ∧ Found g prereq rf y)
      (rf ∈ locations ∨ locations ≠ [] ∧ ((∃ z, Complement g rf z ∧ Q z) ∨
        prereq = true ∧ ∃ z, Prerequisite g rf z ∧ Q z)) := by
  have hassert : ¬ (prereq = true ∧ chain ≠ []) := fun h => h.2 (hchain h.1)
  rw [find, if_neg hassert, if_neg hrf]
  refine Returns.imp (returns_findSomeM (p := fun y => y ∈ locations ∧ Found g prereq rf y)
    (q := fun lrf => lrf = rf ∨ (∃ z, Complement g rf z ∧ Q z) ∨
      prereq = true ∧ ∃ z, Prerequisite g rf z ∧ Q z) fun lrf hl => ?_) (fun _ h => h) ?_
  · have hc := returns_repositories (g := g) (g.complements rf) fun z hz =>
      (ih z).imp (r := fun y => y ∈ locations ∧ Found g prereq rf y)
        (fun y hy => ⟨hy.1, Or.inl (.head hz hy.2)⟩) fun h => h
    split_ifs with h1 h2 h3 hpre
    · exact returns_some ⟨h1 ▸ hl, Or.inl .refl⟩
    · obtain ⟨r, hr, hm⟩ := List.any_eq_true.mp h2
      exact returns_some ⟨hl, Or.inl (.single ⟨r, hr, of_decide_eq_true hm⟩)⟩
    · rw [Bool.and_eq_true] at h3
      obtain ⟨r, hr, hm⟩ := List.any_eq_true.mp h3.2
      exact returns_some ⟨hl, Or.inr ⟨h3.1, lrf, ⟨r, hr, of_decide_eq_true hm⟩, .refl⟩⟩
    · have hp := returns_repositories (g := g) (g.prerequisites rf) fun z hz =>
        (ih z).imp (r := fun y => y ∈ locations ∧ Found g prereq rf y)
          (fun y hy => ⟨hy.1, Or.inr ⟨hpre, z, hz, hy.2⟩⟩) fun h => h
      refine (hc.orElse hp).imp (fun _ h => h) ?_
      rintro (h | h | ⟨-, h⟩)
      · exact absurd h h1
      · exact Or.inl h
      · exact Or.inr h
    · refine (hc.orElse (returns_none (q := False) nofun)).imp (fun _ h => h) ?_
      rintro (h | h | ⟨h, -⟩)
      · exact absurd h h1
      · exact Or.inl h
      · exact absurd h hpre
  · rintro (h | ⟨hne, h⟩)
    · exact ⟨rf, h, Or.inl rfl⟩
    · obtain ⟨l, hl⟩ := List.exists_mem_of_ne_nil locations hne
      exact ⟨l, hl, Or.inr h⟩

/-- **The search from a fragment that is not on the chain** finds what can be reached off the chain,
by induction on the depth. -/
theorem returns_find [Fintype α] : ∀ (n : ℕ) (rf : α) (chain : List α), chain.Nodup →
    Fintype.card α < n + chain.length →
    Returns (find g locations n rf chain false)
      (fun y => y ∈ locations ∧ ReflTransGen (Complement g) rf y)
      (rf ∉ chain ∧ ∃ t ∈ locations, Avoiding (Complement g) chain rf t) := by
  intro n
  induction n with
  | zero =>
    intro rf chain hnd hcard
    have := hnd.length_le_card
    omega
  | succ n ih =>
    intro rf chain hnd hcard
    by_cases hrf : rf ∈ chain
    · rw [find, if_neg (by simp), if_pos hrf]
      exact returns_none fun h => h.1 hrf
    have hnd' : (chain ++ [rf]).Nodup := by
      rw [List.nodup_append]
      refine ⟨hnd, List.nodup_singleton rf, fun x hx y hy => ?_⟩
      rw [List.mem_singleton.mp hy]
      exact fun h => hrf (h ▸ hx)
    have hstep : Returns (find g locations (n + 1) rf chain false) _ _ :=
      returns_find_succ nofun hrf fun z => ih z (chain ++ [rf]) hnd' (by simp; omega)
    refine hstep.imp (fun y hy => ⟨hy.1, hy.2.resolve_right fun h => by cases h.1⟩) ?_
    rintro ⟨-, t, ht, hpath⟩
    rcases hpath.cases with rfl | ⟨z, hz, hnew, hzt⟩
    · exact Or.inl ht
    · exact Or.inr ⟨List.ne_nil_of_mem ht, Or.inl ⟨z, hz, hnew, t, ht, hzt⟩⟩

/-- A greater bound on the depth does not change the result. -/
theorem find_succ : ∀ (n : ℕ) (rf : α) (chain : List α) (prereq : Bool) (o : Option α),
    find g locations n rf chain prereq = .ok o →
      find g locations (n + 1) rf chain prereq = .ok o := by
  intro n
  induction n with
  | zero =>
    intro rf chain prereq o h
    cases h
  | succ n ih =>
    intro rf chain prereq o h
    have hrepos : ∀ (rs : List ρ) (c : Option α),
        rs.findSomeM? (fun r => (g.fragments r).findSomeM? fun fr =>
          find g locations n fr (chain ++ [rf]) false) = .ok c →
        rs.findSomeM? (fun r => (g.fragments r).findSomeM? fun fr =>
          find g locations (n + 1) fr (chain ++ [rf]) false) = .ok c := by
      intro rs c
      exact findSomeM_mono fun r _ o => findSomeM_mono fun fr _ o => ih fr _ false o
    rw [find] at h ⊢
    by_cases hassert : prereq = true ∧ chain ≠ []
    · rw [if_pos hassert] at h
      cases h
    rw [if_neg hassert] at h ⊢
    by_cases hrf : rf ∈ chain
    · rw [if_pos hrf] at h ⊢
      exact h
    rw [if_neg hrf] at h ⊢
    refine findSomeM_mono (fun lrf _ o ho => ?_) h
    by_cases h1 : lrf = rf
    · rw [if_pos h1] at ho ⊢
      exact ho
    rw [if_neg h1] at ho ⊢
    split_ifs at ho ⊢ with h2 h3 h4
    · exact ho
    · exact ho
    · cases hc : (g.complements rf).findSomeM? fun r => (g.fragments r).findSomeM? fun fr =>
          find g locations n fr (chain ++ [rf]) false with
      | error e =>
        rw [hc] at ho
        cases ho
      | ok c =>
        rw [hc] at ho
        rw [hrepos _ c hc]
        cases c with
        | some r => exact ho
        | none => exact hrepos _ o ho
    · cases hc : (g.complements rf).findSomeM? fun r => (g.fragments r).findSomeM? fun fr =>
          find g locations n fr (chain ++ [rf]) false with
      | error e =>
        rw [hc] at ho
        cases ho
      | ok c =>
        rw [hc] at ho
        rw [hrepos _ c hc]
        exact ho

/-- **Searching is reachability.** With any sufficient bound on the depth the search comes to an
end, and it finds a fragment if and only if a location can be reached. -/
theorem filter_iff_reachable [Fintype α] (g : Repositories α ρ) (locations : List α) (rf : α)
    (prereq : Bool) : ∃ o, (∀ n, Fintype.card α < n → filter g locations n rf prereq = .ok o) ∧
      (o.isSome = true ↔ ∃ t ∈ locations, t = rf ∨ TransGen (Complement g) rf t ∨
        prereq = true ∧ ∃ p, Prerequisite g rf p ∧ ReflTransGen (Complement g) p t) ∧
      ∀ t ∈ o, t ∈ locations := by
  obtain ⟨o, ho, hsound, hcomplete⟩ :
      Returns (find g locations (Fintype.card α + 1) rf [] prereq) _ _ :=
    returns_find_succ (fun _ => rfl) (by simp) fun z =>
      returns_find (Fintype.card α) z ([] ++ [rf]) (List.nodup_singleton rf) (by simp)
  refine ⟨o, fun n hn => ?_, ⟨fun h => ?_, fun h => hcomplete ?_⟩, fun t ht => (hsound t ht).1⟩
  · induction n, hn using Nat.le_induction with
    | base => exact ho
    | succ n _ ih => exact find_succ n rf [] prereq o ih
  · obtain ⟨t, ht⟩ := Option.isSome_iff_exists.mp h
    obtain ⟨hl, hfound⟩ := hsound t ht
    refine ⟨t, hl, ?_⟩
    rcases hfound with h | h
    · rcases reflTransGen_iff_eq_or_transGen.mp h with h | h
      · exact Or.inl h
      · exact Or.inr (Or.inl h)
    · exact Or.inr (Or.inr h)
  · obtain ⟨t, ht, hreach⟩ := h
    have hne : locations ≠ [] := List.ne_nil_of_mem ht
    have hcomp : ReflTransGen (Complement g) rf t → rf ∈ locations ∨ locations ≠ [] ∧
        ((∃ z, Complement g rf z ∧ z ∉ [] ++ [rf] ∧
            ∃ t ∈ locations, Avoiding (Complement g) ([] ++ [rf]) z t) ∨
          prereq = true ∧ ∃ z, Prerequisite g rf z ∧ z ∉ [] ++ [rf] ∧
            ∃ t ∈ locations, Avoiding (Complement g) ([] ++ [rf]) z t) := by
      intro h
      rcases (avoiding_nil.mpr h).cases with rfl | ⟨z, hz, hnew, hzt⟩
      · exact Or.inl ht
      · exact Or.inr ⟨hne, Or.inl ⟨z, hz, hnew, t, ht, hzt⟩⟩
    rcases hreach with rfl | h | ⟨hpre, p, hp, hpt⟩
    · exact Or.inl ht
    · exact hcomp h.to_reflTransGen
    · -- a path back to `rf` goes on through its complements
      rcases avoiding_or_through rf hpt with h | ⟨hnew, h⟩
      · exact hcomp h
      · exact Or.inr ⟨hne, Or.inr ⟨hpre, p, hp, hnew, t, ht, h⟩⟩

end

end Build2.Bpkg.RepositorySearch
