import Build2.Lib.ByteString

/-! # Values with comments

A manifest value can carry a comment after a `;`. The serializer escapes the `;` characters of the
value with a backslash, the parser undoes that. A backslash itself is not escaped, so a value that
ends with one takes the separator for its own. -/

namespace Build2.Libbutl.Manifest

open Build2.Lib.ByteString

/-! ### The two functions -/

/-- The character of a value with its escape. -/
def escape (c : UInt8) : Bytes := if c = ch ';' then [ch '\\', c] else [c]

/-- `manifest_serializer::merge_comment`. -/
def mergeComment (value comment : Bytes) : Bytes :=
  value.flatMap escape ++ if comment = [] then [] else ch ';' :: ch ' ' :: comment

/-- The size of the value `r` with the character `c`, without trailing spaces. -/
def sizeAfter (r : Bytes) (n : Nat) (c : UInt8) : Nat := if isBlank c then n else r.length + 1

/-- The loop of `split_comment`: the value so far, its size without trailing spaces, and the
position. -/
def splitLoop (r : Bytes) (n : Nat) : Bytes → Bytes × Nat × Bytes
  | [] => (r, n, [])
  | c :: s =>
    if c = ch ';' then (r, n, c :: s)
    else if c = ch '\\' ∧ hd s = ch ';' then splitLoop (r ++ [ch ';']) (r.length + 1) s.tail
    else splitLoop (r ++ [c]) (sizeAfter r n c) s
termination_by s => s.length

/-- `manifest_parser::split_comment`. -/
def splitComment (v : Bytes) : Bytes × Bytes :=
  let (r, n, i) := splitLoop [] 0 v
  (r.take n, i.tail.dropWhile isBlank)

/-! ### The loop -/

section

variable {v t c : Bytes} {b : UInt8}

@[simp] theorem splitLoop_nil (r : Bytes) (n : Nat) : splitLoop r n [] = (r, n, []) := by
  rw [splitLoop]

@[simp] theorem splitLoop_semicolon (r : Bytes) (n : Nat) (s : Bytes) :
    splitLoop r n (ch ';' :: s) = (r, n, ch ';' :: s) := by
  rw [splitLoop, if_pos rfl]

theorem splitLoop_escaped (r : Bytes) (n : Nat) (s : Bytes) :
    splitLoop r n (ch '\\' :: ch ';' :: s) = splitLoop (r ++ [ch ';']) (r.length + 1) s := by
  rw [splitLoop, if_neg (by decide), if_pos ⟨rfl, rfl⟩, List.tail_cons]

theorem splitLoop_other (r : Bytes) (n : Nat) (hb : b ≠ ch ';')
    (h : ¬ (b = ch '\\' ∧ hd t = ch ';')) :
    splitLoop r n (b :: t) = splitLoop (r ++ [b]) (sizeAfter r n b) t := by
  rw [splitLoop, if_neg hb, if_neg h]

theorem hd_escape (h : v ≠ []) : hd (v.flatMap escape ++ t) ≠ ch ';' := by
  obtain ⟨b, v, rfl⟩ := List.exists_cons_of_ne_nil h
  rw [List.flatMap_cons, escape]
  split_ifs with hb
  · exact (by decide : ch '\\' ≠ ch ';')
  · exact hb

/-- **The loop undoes the escapes**, up to a text that the end of the value does not escape. -/
theorem splitLoop_escape : ∀ (v r : Bytes) (n : Nat),
    (hd t = ch ';' → v.getLast? ≠ some (ch '\\')) → ∃ m,
      splitLoop r n (v.flatMap escape ++ t) = splitLoop (r ++ v) m t ∧
      (v = [] → m = n) ∧
      ∀ b, v.getLast? = some b → isBlank b = false → m = (r ++ v).length
  | [], r, n, _ => ⟨n, by rw [List.append_nil]; rfl, fun _ => rfl, nofun⟩
  | b :: v, r, n, h => by
    have hlast : v ≠ [] → (b :: v).getLast? = v.getLast? := fun hv => by
      rw [List.getLast?_cons, List.getLast?_eq_some_getLast hv, Option.getD_some]
    -- one step appends the character and keeps or resets the size
    have hstep : ∃ m, splitLoop r n ((b :: v).flatMap escape ++ t) =
        splitLoop (r ++ [b]) m (v.flatMap escape ++ t) ∧
        (isBlank b = false → m = r.length + 1) := by
      rw [List.flatMap_cons, escape]
      split_ifs with hb
      · subst hb
        exact ⟨_, splitLoop_escaped r n _, fun _ => rfl⟩
      · refine ⟨_, splitLoop_other r n hb ?_, fun hn => if_neg (by simp [hn])⟩
        rintro ⟨rfl, hhd⟩
        by_cases hv : v = []
        · subst hv
          exact h hhd rfl
        · exact hd_escape hv hhd
    obtain ⟨m, hm, hblank⟩ := hstep
    obtain ⟨k, hk, hnil, hsize⟩ := splitLoop_escape v (r ++ [b]) m fun hhd => by
      by_cases hv : v = []
      · rw [hv]
        nofun
      · exact hlast hv ▸ h hhd
    refine ⟨k, ?_, nofun, fun b' hb' hn => ?_⟩
    · rw [hm, hk, List.append_assoc, List.singleton_append]
    · by_cases hv : v = []
      · subst hv
        cases hb'
        rw [hnil rfl, hblank hn, List.length_append, List.length_singleton]
      · rw [hsize b' (hlast hv ▸ hb') hn, List.append_assoc, List.singleton_append]

/-- What has been read stays, and so does what counts of it. -/
theorem splitLoop_extends (r : Bytes) (n : Nat) (s : Bytes) (h : n ≤ r.length) :
    ∃ x m i, splitLoop r n s = (r ++ x, m, i) ∧ n ≤ m := by
  fun_induction splitLoop r n s with
  | case1 r n => exact ⟨[], n, [], by rw [List.append_nil], le_rfl⟩
  | case2 r n s => exact ⟨[], n, _, by rw [List.append_nil], le_rfl⟩
  | case3 r n c s hc he ih =>
    obtain ⟨x, m, i, hx, hm⟩ := ih (by rw [List.length_append]; rfl)
    exact ⟨ch ';' :: x, m, i, by rw [hx, List.append_assoc, List.singleton_append], by omega⟩
  | case4 r n c s hc he ih =>
    have hle : n ≤ sizeAfter r n c ∧ sizeAfter r n c ≤ r.length + 1 := by
      unfold sizeAfter
      split_ifs <;> omega
    obtain ⟨x, m, i, hx, hm⟩ := ih (by rw [List.length_append]; exact hle.2)
    exact ⟨c :: x, m, i, by rw [hx, List.append_assoc, List.singleton_append], hle.1.trans hm⟩

/-! ### Splitting what was merged -/

/-- The value and what follows it, if the value does not escape that. -/
theorem splitComment_escape (hv : ∀ b, v.getLast? = some b → isBlank b = false)
    (ht : t = [] ∨ ∃ s, t = ch ';' :: s ∧ v.getLast? ≠ some (ch '\\')) :
    splitComment (v.flatMap escape ++ t) = (v, t.tail.dropWhile isBlank) := by
  obtain ⟨m, hm, hnil, hsize⟩ := splitLoop_escape (t := t) v [] 0 (by
    rintro hhd
    rcases ht with rfl | ⟨s, rfl, h⟩
    · exact absurd hhd (by decide)
    · exact h)
  have hend : splitLoop ([] ++ v) m t = (v, m, t) := by
    rcases ht with rfl | ⟨s, rfl, -⟩
    · exact splitLoop_nil v m
    · exact splitLoop_semicolon v m s
  have hlen : v.take m = v := by
    by_cases h : v = []
    · rw [h, List.take_nil]
    · rw [hsize _ (List.getLast?_eq_some_getLast h) (hv _ (List.getLast?_eq_some_getLast h))]
      exact List.take_length
  unfold splitComment
  rw [hm, hend]
  exact congrArg (·, t.tail.dropWhile isBlank) hlen

/-- A value that ends with a backslash loses it to the separator. -/
theorem splitComment_backslash (u s : Bytes) :
    (splitComment ((u ++ [ch '\\']).flatMap escape ++ ch ';' :: s)).1 ≠ u ++ [ch '\\'] := by
  have happ : (u ++ [ch '\\']).flatMap escape ++ ch ';' :: s =
      u.flatMap escape ++ ch '\\' :: ch ';' :: s := by
    rw [List.flatMap_append, List.append_assoc]
    rfl
  obtain ⟨m, hm, -⟩ := splitLoop_escape (t := ch '\\' :: ch ';' :: s) u [] 0 (by
    intro h
    exact absurd h (by decide : ch '\\' ≠ ch ';'))
  obtain ⟨x, k, i, hx, hk⟩ := splitLoop_extends (u ++ [ch ';']) (u.length + 1) s
    (by rw [List.length_append]; rfl)
  unfold splitComment
  rw [happ, hm, List.nil_append, splitLoop_escaped, hx]
  intro h
  -- the two differ at the position after `u`
  have hget := congrArg (·[u.length]?) (show (u ++ [ch ';'] ++ x).take k = u ++ [ch '\\'] from h)
  simp only [List.getElem?_append_right le_rfl, Nat.sub_self] at hget
  rw [List.getElem?_take_of_lt (by omega), List.append_assoc,
    List.getElem?_append_right le_rfl, Nat.sub_self] at hget
  exact absurd hget (by decide : some (ch ';') ≠ some (ch '\\'))

/-- **Splitting undoes merging** exactly when there is no comment or the value does not end with a
backslash. -/
theorem splitComment_mergeComment_iff (hv : ∀ b, v.getLast? = some b → isBlank b = false)
    (hc : isBlank (hd c) = false) :
    splitComment (mergeComment v c) = (v, c) ↔ c = [] ∨ v.getLast? ≠ some (ch '\\') := by
  have hdrop : c.dropWhile isBlank = c := by
    cases c with
    | nil => rfl
    | cons b c => exact List.dropWhile_cons_of_neg (by simpa using hc)
  unfold mergeComment
  by_cases hnil : c = []
  · subst hnil
    exact iff_of_true (splitComment_escape hv (Or.inl rfl)) (Or.inl rfl)
  rw [if_neg hnil, or_iff_right hnil]
  constructor
  · rintro h hlast
    obtain ⟨u, rfl⟩ := List.getLast?_eq_some_iff.mp hlast
    exact splitComment_backslash u _ (congrArg Prod.fst h)
  · intro hlast
    rw [splitComment_escape hv (Or.inr ⟨_, rfl, hlast⟩), List.tail_cons,
      List.dropWhile_cons_of_pos (by decide), hdrop]

end

/-- A value with a semicolon and a backslash inside it. -/
theorem splitComment_mergeComment_windows :
    splitComment (mergeComment (str ['c', '\\', ';', 'x']) (str ['y'])) =
      (str ['c', '\\', ';', 'x'], str ['y']) :=
  (splitComment_mergeComment_iff (by
    intro b hb
    cases hb
    decide) (by decide)).mpr (Or.inr (by decide))

/-- The backslash at the end of a directory escapes the separator of the comment. -/
theorem not_splitComment_mergeComment :
    ¬ ∀ v c : Bytes, (∀ b, v.getLast? = some b → isBlank b = false) → isBlank (hd c) = false →
      splitComment (mergeComment v c) = (v, c) := by
  intro h
  have hdir := h (str ['d', '\\']) (str ['x']) (by
    intro b hb
    cases hb
    decide) (by decide)
  exact splitComment_backslash (str ['d']) _ (congrArg Prod.fst hdir)

end Build2.Libbutl.Manifest
