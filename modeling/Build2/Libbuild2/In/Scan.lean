import Build2.Lib.ByteString
import Mathlib.Data.List.Chain

/-! # Substitutions in a line

The scan of a line in `rule::perform_update` of `in/rule.cxx`, and `rule::substitute`. In the strict
mode the symbols of an escape or of a reference run into a symbol that follows them; in the lax mode
the symbol after a name that is not valid is passed by. Otherwise the line is expanded piece by
piece (`scan_iff`). -/

namespace Build2.Libbuild2.In

open Build2.Lib.ByteString

/-- How a run fails: with an "unterminated" symbol or in the lookup of a name. -/
inductive Fault
  | unterminated
  | lookup (name : Bytes)
  deriving DecidableEq, Repr

/-- The names that have been substituted with their values, and the new line. -/
structure Result where
  values : List (Bytes × Bytes)
  line : Except Fault Bytes

namespace Result

/-- A text in front of the line. -/
def prepend (s : Bytes) (r : Result) : Result := { r with line := r.line.map (s ++ ·) }

/-- A substitution in front of the line. -/
def substituted (name v : Bytes) (r : Result) : Result :=
  { values := (name, v) :: r.values, line := r.line.map (v ++ ·) }

end Result

/-- The loop in `substitute` that looks at the characters of a name. -/
def nameChars (first : Bool) : Bytes → Bool
  | [] => true
  | c :: n =>
    (c = ch '_' || (if first then isAlpha c else isAlnum c) || (c = ch '.' && n ≠ [])) &&
      nameChars false n

/-- A name that is substituted in the lax mode. -/
def isVariable (n : Bytes) : Bool := nameChars true n

section

variable (sym : UInt8) (strict : Bool) (lookup : Bytes → Option Bytes)

/-- `substitute`, where `lookup` fails or gives the value. The result is `none` if the substitution
is to be ignored. -/
def substitute (n : Bytes) : Except Fault (Option Bytes) :=
  if !strict && !isVariable n then .ok none
  else
    match lookup n with
    | none => .error (.lookup n)
    | some v => .ok (some v)

/-- The loop that looks for the other end: what is between the symbols, where in the strict mode one
of a pair of symbols has been erased, and what comes after the closing one. -/
def findEnd : Bytes → Option (Bytes × Bytes)
  | [] => none
  | c :: t =>
    if c = sym then
      match t with
      | [] => some ([], [])
      | d :: u =>
        if strict && d = sym then (findEnd u).map fun p => (d :: p.1, p.2) else some ([], d :: u)
    else (findEnd t).map fun p => (c :: p.1, p.2)

variable {sym strict} in
theorem findEnd_length {s n u : Bytes} (h : findEnd sym strict s = some (n, u)) :
    u.length < s.length := by
  fun_induction findEnd sym strict s generalizing n u with
  | case1 => cases h
  | case2 => cases h; simp
  | case3 d t hd ih =>
    cases hf : findEnd sym strict t with
    | none => simp [hf] at h
    | some p =>
      have hlt := ih hf
      simp only [hf, Option.map_some, Option.some.injEq, Prod.mk.injEq] at h
      obtain ⟨-, rfl⟩ := h
      simp only [List.length_cons]
      omega
  | case4 => cases h; simp
  | case5 c t hc ih =>
    cases hf : findEnd sym strict t with
    | none => simp [hf] at h
    | some p =>
      have hlt := ih hf
      simp only [hf, Option.map_some, Option.some.injEq, Prod.mk.injEq] at h
      obtain ⟨-, rfl⟩ := h
      simp only [List.length_cons]
      omega

/-- The scan of a line from the position that the text `done` has been edited to. -/
def scanFrom (done : Bytes) : Bytes → Result
  | [] => ⟨[], .ok done⟩
  | c :: t =>
    if c ≠ sym then scanFrom (done ++ [c]) t
    else
      match _h : findEnd sym strict t with
      | none => ⟨[], if strict then .error .unterminated else .ok (done ++ c :: t)⟩
      | some (n, u) =>
        if n = [] then
          -- an escape, or just a double symbol in the lax mode
          if strict then scanFrom (done ++ [c]) u else scanFrom (done ++ [c]) t
        else
          match substitute strict lookup n with
          | .error f => ⟨[], .error f⟩
          | .ok (some v) =>
            let r := scanFrom (done ++ v) u
            { r with values := (n, v) :: r.values }
          | .ok none => scanFrom (done ++ c :: (n ++ [c])) u
termination_by s => s.length
decreasing_by
  all_goals simp only [List.length_cons]
  all_goals try have := findEnd_length _h
  all_goals omega

/-- The scan of a line. -/
def scan (s : Bytes) : Result := scanFrom sym strict lookup [] s

/-! ### Steps of the scan -/

variable {sym strict lookup} {s t u n done a : Bytes} {c : UInt8}

theorem findEnd_run (hn : sym ∉ n) (s : Bytes) :
    findEnd sym strict (n ++ s) = (findEnd sym strict s).map fun p => (n ++ p.1, p.2) := by
  induction n with
  | nil => simp
  | cons c n ih =>
    obtain ⟨hc, hn⟩ := not_or.mp (mt List.mem_cons.mpr hn)
    have hstep : findEnd sym strict (c :: (n ++ s))
        = (findEnd sym strict (n ++ s)).map fun p => (c :: p.1, p.2) := by
      rw [findEnd.eq_def]
      exact if_neg (Ne.symm hc)
    rw [List.cons_append, hstep, ih hn]
    cases findEnd sym strict s <;> rfl

theorem findEnd_none (hs : sym ∉ s) : findEnd sym strict s = none := by
  rw [← List.append_nil s, findEnd_run hs]
  rfl

theorem findEnd_close (hs : s.head? ≠ some sym) :
    findEnd sym strict (sym :: s) = some ([], s) := by
  cases s with
  | nil => simp [findEnd]
  | cons d u =>
    have hd : d ≠ sym := fun h => hs (by rw [h]; rfl)
    simp [findEnd, hd]

theorem findEnd_lax (s : Bytes) : findEnd sym false (sym :: s) = some ([], s) := by
  cases s with
  | nil => simp [findEnd]
  | cons d u => simp [findEnd]

/-- In the strict mode a pair of symbols becomes a part of the name. -/
theorem findEnd_pair (s : Bytes) :
    findEnd sym true (sym :: sym :: s) = (findEnd sym true s).map fun p => (sym :: p.1, p.2) := by
  simp [findEnd]

theorem prepend_nil (r : Result) : r.prepend [] = r := by
  obtain ⟨vs, l⟩ := r
  cases l <;> rfl

theorem prepend_prepend (a b : Bytes) (r : Result) :
    (r.prepend b).prepend a = r.prepend (a ++ b) := by
  obtain ⟨vs, l⟩ := r
  cases l with
  | error f => rfl
  | ok l => simp [Result.prepend, Except.map]

theorem scanFrom_char (hc : c ≠ sym) :
    scanFrom sym strict lookup done (c :: t) = scanFrom sym strict lookup (done ++ [c]) t := by
  rw [scanFrom, if_pos hc]

theorem scanFrom_open (h : findEnd sym strict t = none) :
    scanFrom sym strict lookup done (sym :: t)
      = ⟨[], if strict then .error .unterminated else .ok (done ++ sym :: t)⟩ := by
  rw [scanFrom, if_neg (not_not.mpr rfl)]
  split
  · rfl
  · rename_i heq
    rw [h] at heq
    cases heq

theorem scanFrom_double (h : findEnd sym strict t = some ([], u)) :
    scanFrom sym strict lookup done (sym :: t)
      = scanFrom sym strict lookup (done ++ [sym]) (if strict then u else t) := by
  rw [scanFrom, if_neg (not_not.mpr rfl)]
  split
  · rename_i heq
    rw [h] at heq
    cases heq
  · rename_i heq
    rw [h] at heq
    cases heq
    rw [if_pos rfl]
    cases strict <;> rfl

/-- What comes of a name that is not empty. -/
theorem scanFrom_name (h : findEnd sym strict t = some (n, u)) (hn : n ≠ []) :
    scanFrom sym strict lookup done (sym :: t)
      = match substitute strict lookup n with
        | .error f => ⟨[], .error f⟩
        | .ok (some v) =>
          { scanFrom sym strict lookup (done ++ v) u with
            values := (n, v) :: (scanFrom sym strict lookup (done ++ v) u).values }
        | .ok none => scanFrom sym strict lookup (done ++ sym :: (n ++ [sym])) u := by
  rw [scanFrom, if_neg (not_not.mpr rfl)]
  split
  · rename_i heq
    rw [h] at heq
    cases heq
  · rename_i heq
    rw [h] at heq
    cases heq
    rw [if_neg hn]

theorem scanFrom_done (done s : Bytes) :
    scanFrom sym strict lookup done s = (scan sym strict lookup s).prepend done := by
  unfold scan
  induction hl : s.length using Nat.strong_induction_on generalizing done s with
  | _ l ih =>
    subst hl
    have hrec : ∀ (done a u : Bytes), u.length < s.length →
        scanFrom sym strict lookup (done ++ a) u
          = (scanFrom sym strict lookup ([] ++ a) u).prepend done := by
      intro done a u hu
      rw [ih u.length hu (done ++ a) u rfl, ih u.length hu ([] ++ a) u rfl, prepend_prepend,
        List.nil_append]
    cases s with
    | nil =>
      rw [scanFrom, scanFrom]
      simp [Result.prepend, Except.map]
    | cons c t =>
      by_cases hc : c = sym
      · subst hc
        cases hf : findEnd c strict t with
        | none =>
          rw [scanFrom_open hf, scanFrom_open hf]
          cases strict <;> simp [Result.prepend, Except.map]
        | some p =>
          obtain ⟨n, u⟩ := p
          have hu := findEnd_length hf
          have hu' : u.length < (c :: t).length := by
            rw [List.length_cons]
            omega
          by_cases hn : n = []
          · subst hn
            rw [scanFrom_double hf, scanFrom_double hf]
            cases strict with
            | false => exact hrec done [c] t (by simp)
            | true => exact hrec done [c] u hu'
          · rw [scanFrom_name hf hn, scanFrom_name hf hn]
            cases substitute strict lookup n with
            | error f => rfl
            | ok x =>
              cases x with
              | none => exact hrec done (c :: (n ++ [c])) u hu'
              | some v =>
                simp only [hrec done v u hu']
                rfl
      · rw [scanFrom_char hc, scanFrom_char hc]
        exact hrec done [c] t (by simp)

/-! ### The scan piece by piece -/

theorem scan_nil : scan sym strict lookup [] = ⟨[], .ok []⟩ := by
  rw [scan, scanFrom]

theorem scan_char (hc : c ≠ sym) :
    scan sym strict lookup (c :: t) = (scan sym strict lookup t).prepend [c] := by
  rw [scan, scanFrom_char hc, scanFrom_done, List.nil_append]

theorem scan_open (h : findEnd sym strict t = none) :
    scan sym strict lookup (sym :: t)
      = ⟨[], if strict then .error .unterminated else .ok (sym :: t)⟩ :=
  scanFrom_open h

theorem scan_double (h : findEnd sym strict t = some ([], u)) :
    scan sym strict lookup (sym :: t)
      = (scan sym strict lookup (if strict then u else t)).prepend [sym] := by
  rw [scan, scanFrom_double h, scanFrom_done, List.nil_append]

theorem scan_name (h : findEnd sym strict t = some (n, u)) (hn : n ≠ []) :
    scan sym strict lookup (sym :: t)
      = match substitute strict lookup n with
        | .error f => ⟨[], .error f⟩
        | .ok (some v) => (scan sym strict lookup u).substituted n v
        | .ok none => (scan sym strict lookup u).prepend (sym :: (n ++ [sym])) := by
  rw [scan, scanFrom_name h hn]
  simp only [scanFrom_done _ u, List.nil_append]
  rfl

/-! ### The strict mode -/

/-- A piece of a line: a character, a doubled symbol or a reference. -/
inductive Piece
  | char (c : UInt8)
  | escape
  | ref (n : Bytes)
  deriving DecidableEq, Repr

namespace Piece

variable (sym)

def text : Piece → Bytes
  | .char c => [c]
  | .escape => [sym, sym]
  | .ref n => sym :: (n ++ [sym])

/-- Only the pieces that are for it contain the symbol. -/
def Sound : Piece → Prop
  | .char c => c ≠ sym
  | .escape => True
  | .ref n => n ≠ [] ∧ sym ∉ n

instance (p : Piece) : Decidable (p.Sound sym) :=
  match p with
  | .char _ => inferInstanceAs (Decidable (_ ≠ _))
  | .escape => inferInstanceAs (Decidable True)
  | .ref _ => inferInstanceAs (Decidable (_ ∧ _))

/-- The piece starts and ends with the symbol. -/
def isSymbol : Piece → Bool
  | .char _ => false
  | .escape => true
  | .ref _ => true

/-- What the piece is turned into, in front of what comes of the rest of the line. -/
def turn (lookup : Bytes → Option Bytes) (r : Result) : Piece → Result
  | .char c => r.prepend [c]
  | .escape => r.prepend [sym]
  | .ref n =>
    match lookup n with
    | none => ⟨[], .error (.lookup n)⟩
    | some v => r.substituted n v

end Piece

variable (sym lookup) in
/-- The line with doubled symbols reduced to one and references replaced by their values. -/
def expand : List Piece → Result
  | [] => ⟨[], .ok []⟩
  | p :: ps => p.turn sym lookup (expand ps)

variable (sym) in
def textOf (ps : List Piece) : Bytes := ps.flatMap (Piece.text sym)

/-- An escape or a reference is not directly followed by another one. -/
def Apart (p q : Piece) : Prop := ¬(p.isSymbol = true ∧ q.isSymbol = true)

instance (p q : Piece) : Decidable (Apart p q) := inferInstanceAs (Decidable ¬_)

variable {p q : Piece} {ps : List Piece}

theorem substitute_strict (n : Bytes) :
    substitute true lookup n
      = match lookup n with
        | none => .error (.lookup n)
        | some v => .ok (some v) := rfl

/-- **A piece is turned into what it stands for** unless a symbol follows it and its own. -/
theorem scan_piece (hp : p.Sound sym) (hs : p.isSymbol = true → s.head? ≠ some sym) :
    scan sym true lookup (p.text sym ++ s) = p.turn sym lookup (scan sym true lookup s) := by
  cases p with
  | char c => exact scan_char hp
  | escape =>
    have h : findEnd sym true (sym :: s) = _ := findEnd_close (hs rfl)
    exact (scan_double h).trans rfl
  | ref n =>
    obtain ⟨hn, hsym⟩ := hp
    have h : findEnd sym true (n ++ sym :: s) = some (n, s) := by
      rw [findEnd_run hsym, findEnd_close (hs rfl)]
      simp
    have ht : (Piece.ref n).text sym ++ s = sym :: (n ++ sym :: s) := by simp [Piece.text]
    rw [ht, scan_name h hn, substitute_strict, Piece.turn]
    cases lookup n <;> rfl

theorem head_of_apart (hq : q.Sound sym) (ha : Apart p q) (hp : p.isSymbol = true) :
    (textOf sym (q :: ps)).head? ≠ some sym := by
  cases q with
  | char c => exact fun h => hq (Option.some.inj h)
  | escape => exact absurd ⟨hp, rfl⟩ ha
  | ref n => exact absurd ⟨hp, rfl⟩ ha

theorem head_textOf (hs : ∀ p ∈ ps, p.Sound sym) (hc : (p :: ps).IsChain Apart)
    (hp : p.isSymbol = true) : (textOf sym ps).head? ≠ some sym := by
  cases ps with
  | nil => simp [textOf]
  | cons q ps => exact head_of_apart (hs q (by simp)) (List.isChain_cons_cons.mp hc).1 hp

theorem scan_textOf (hs : ∀ p ∈ ps, p.Sound sym) (hc : ps.IsChain Apart) :
    scan sym true lookup (textOf sym ps) = expand sym lookup ps := by
  induction ps with
  | nil => exact scan_nil
  | cons p ps ih =>
    have hps := fun q hq => hs q (List.mem_cons_of_mem p hq)
    rw [textOf, List.flatMap_cons, expand, ← ih hps hc.tail]
    exact scan_piece (hs p (by simp)) (head_textOf hps hc)

/-- The scan does not find the end of a substitution, or it substitutes a name with the symbol. -/
def Astray (sym : UInt8) (r : Result) : Prop :=
  r.line = .error .unterminated ∨ ∃ x ∈ r.values, sym ∈ x.1

theorem astray_of_pair (hn : sym ∉ n) (s : Bytes) :
    Astray sym (scan sym true (fun _ => some []) (sym :: (n ++ sym :: sym :: s))) := by
  have h : findEnd sym true (n ++ sym :: sym :: s)
      = (findEnd sym true s).map fun p => (n ++ sym :: p.1, p.2) := by
    rw [findEnd_run hn, findEnd_pair]
    cases findEnd sym true s <;> rfl
  cases hf : findEnd sym true s with
  | none =>
    rw [hf] at h
    rw [scan_open h]
    exact .inl rfl
  | some x =>
    rw [hf] at h
    rw [scan_name h (by simp), substitute_strict]
    exact .inr ⟨_, List.mem_cons_self, by simp⟩

theorem astray_turn {r : Result} (p : Piece) (h : Astray sym r) :
    Astray sym (p.turn sym (fun _ => some []) r) := by
  rcases h with h | ⟨x, hx, hsym⟩
  · refine .inl ?_
    cases p <;> simp [Piece.turn, Result.prepend, Result.substituted, h, Except.map]
  · refine .inr ⟨x, ?_, hsym⟩
    cases p with
    | char c => exact hx
    | escape => exact hx
    | ref n => exact List.mem_cons_of_mem _ hx

theorem astray_textOf (hs : ∀ p ∈ ps, p.Sound sym) (hc : ¬ps.IsChain Apart) :
    Astray sym (scan sym true (fun _ => some []) (textOf sym ps)) := by
  induction ps with
  | nil => exact absurd .nil hc
  | cons p ps ih =>
    have hps := fun q hq => hs q (List.mem_cons_of_mem p hq)
    cases ps with
    | nil => exact absurd (.singleton p) hc
    | cons q ps =>
      by_cases ha : Apart p q
      · rw [List.isChain_cons_cons, not_and] at hc
        have hpiece : scan sym true (fun _ => some []) (textOf sym (p :: q :: ps)) = _ :=
          scan_piece (hs p (by simp)) (head_of_apart (hs q (by simp)) ha)
        rw [hpiece]
        exact astray_turn p (ih hps (hc ha))
      · obtain ⟨hp, hq⟩ := not_not.mp ha
        obtain ⟨s, hqs⟩ : ∃ s, textOf sym (q :: ps) = sym :: s := by
          cases q with
          | char c => cases hq
          | escape => exact ⟨_, rfl⟩
          | ref n => exact ⟨_, rfl⟩
        have ht : textOf sym (p :: q :: ps) = p.text sym ++ sym :: s := by
          rw [← hqs]
          rfl
        rw [ht]
        cases p with
        | char c => cases hp
        | escape => exact astray_of_pair (n := []) (by simp) s
        | ref n =>
          have ht : (Piece.ref n).text sym ++ sym :: s = sym :: (n ++ sym :: sym :: s) := by
            simp [Piece.text]
          rw [ht]
          exact astray_of_pair (hs (.ref n) (by simp)).2 s

/-- What a line stands for is not astray if all names have values. -/
theorem not_astray_expand (hs : ∀ p ∈ ps, p.Sound sym) :
    ¬Astray sym (expand sym (fun _ => some []) ps) := by
  have h : (∃ l, (expand sym (fun _ => some []) ps).line = .ok l) ∧
      ∀ x ∈ (expand sym (fun _ => some []) ps).values, sym ∉ x.1 := by
    induction ps with
    | nil => exact ⟨⟨[], rfl⟩, by simp [expand]⟩
    | cons p ps ih =>
      obtain ⟨⟨l, hl⟩, hv⟩ := ih fun q hq => hs q (List.mem_cons_of_mem p hq)
      have hp := hs p (by simp)
      cases p with
      | char c => exact ⟨⟨[c] ++ l, congrArg (Except.map ([c] ++ ·)) hl⟩, hv⟩
      | escape => exact ⟨⟨[sym] ++ l, congrArg (Except.map ([sym] ++ ·)) hl⟩, hv⟩
      | ref n =>
        refine ⟨⟨[] ++ l, congrArg (Except.map ([] ++ ·)) hl⟩, fun x hx => ?_⟩
        rcases List.mem_cons.mp hx with rfl | hx
        · exact hp.2
        · exact hv x hx
  rintro (hu | ⟨x, hx, hsym⟩)
  · obtain ⟨l, hl⟩ := h.1
    rw [hl] at hu
    cases hu
  · exact h.2 x hx hsym

theorem scan_strict_iff (hs : ∀ p ∈ ps, p.Sound sym) :
    (∀ lookup, scan sym true lookup (textOf sym ps) = expand sym lookup ps) ↔
      ps.IsChain Apart := by
  refine ⟨fun h => by_contra fun hc => ?_, fun hc lookup => scan_textOf hs hc⟩
  have ha := astray_textOf hs hc
  rw [h] at ha
  exact not_astray_expand hs ha

/-! ### The lax mode -/

variable (sym) in
/-- The reference that a symbol opens: a valid name up to the next symbol, and what comes after. -/
def reference (t : Bytes) : Option (Bytes × Bytes) :=
  match t.dropWhile (· ≠ sym) with
  | [] => none
  | _ :: u =>
    let n := t.takeWhile (· ≠ sym)
    if n ≠ [] ∧ isVariable n = true then some (n, u) else none

theorem reference_length (h : reference sym t = some (n, u)) : u.length < t.length := by
  have hle := (List.dropWhile_sublist (l := t) (· ≠ sym)).length_le
  unfold reference at h
  split at h
  · cases h
  · rename_i c v hv
    dsimp only at h
    split_ifs at h
    obtain ⟨-, rfl⟩ := Prod.mk.inj (Option.some.inj h)
    rw [hv, List.length_cons] at hle
    omega

variable (sym lookup) in
/-- The line with references replaced by their values and all other characters copied. -/
def replace : Bytes → Result
  | [] => ⟨[], .ok []⟩
  | c :: t =>
    if c = sym then
      match _h : reference sym t with
      | none => (replace t).prepend [c]
      | some (n, u) =>
        match lookup n with
        | none => ⟨[], .error (.lookup n)⟩
        | some v => (replace u).substituted n v
    else (replace t).prepend [c]
termination_by s => s.length
decreasing_by
  all_goals simp only [List.length_cons]
  all_goals try have := reference_length _h
  all_goals omega

/-- No symbol that is passed by as the end of a name that is not valid opens a reference. -/
inductive Clean (sym : UInt8) : Bytes → Prop
  | nil : Clean sym []
  | char {c : UInt8} {t : Bytes} : c ≠ sym → Clean sym t → Clean sym (c :: t)
  | unterminated {t : Bytes} : sym ∉ t → Clean sym (sym :: t)
  | double {u : Bytes} : Clean sym (sym :: u) → Clean sym (sym :: sym :: u)
  | ref {n u : Bytes} : n ≠ [] → sym ∉ n → isVariable n = true → Clean sym u →
      Clean sym (sym :: (n ++ sym :: u))
  | pass {n u : Bytes} : n ≠ [] → sym ∉ n → isVariable n = false → reference sym u = none →
      Clean sym u → Clean sym (sym :: (n ++ sym :: u))

theorem reference_none (ht : sym ∉ t) : reference sym t = none := by
  have h : t.dropWhile (· ≠ sym) = [] :=
    List.dropWhile_eq_nil_iff.mpr fun b hb => by simpa using ne_of_mem_of_not_mem hb ht
  rw [reference, h]

theorem reference_append (hn : sym ∉ n) (u : Bytes) :
    reference sym (n ++ sym :: u)
      = if n ≠ [] ∧ isVariable n = true then some (n, u) else none := by
  have hin : ∀ b ∈ n, (decide (b ≠ sym)) = true := fun b hb => by
    simpa using ne_of_mem_of_not_mem hb hn
  have hst : Stops (fun b => decide (b ≠ sym)) (sym :: u) := stops_cons.mpr (by simp)
  rw [reference, dropWhile_run hin hst]
  dsimp only
  rw [takeWhile_run hin hst]

theorem replace_nil : replace sym lookup [] = ⟨[], .ok []⟩ := by
  rw [replace]

theorem replace_char (hc : c ≠ sym) :
    replace sym lookup (c :: t) = (replace sym lookup t).prepend [c] := by
  rw [replace, if_neg hc]

theorem replace_copy (h : reference sym t = none) :
    replace sym lookup (sym :: t) = (replace sym lookup t).prepend [sym] := by
  rw [replace, if_pos rfl]
  split
  · rfl
  · rename_i heq
    rw [h] at heq
    cases heq

theorem replace_ref (h : reference sym t = some (n, u)) :
    replace sym lookup (sym :: t)
      = match lookup n with
        | none => ⟨[], .error (.lookup n)⟩
        | some v => (replace sym lookup u).substituted n v := by
  rw [replace, if_pos rfl]
  split
  · rename_i heq
    rw [h] at heq
    cases heq
  · rename_i heq
    rw [h] at heq
    cases heq
    rfl

theorem replace_run (hn : sym ∉ n) (s : Bytes) :
    replace sym lookup (n ++ s) = (replace sym lookup s).prepend n := by
  induction n with
  | nil => exact (prepend_nil _).symm
  | cons c n ih =>
    obtain ⟨hc, hn⟩ := not_or.mp (mt List.mem_cons.mpr hn)
    rw [List.cons_append, replace_char (Ne.symm hc), ih hn, prepend_prepend, List.singleton_append]

theorem findEnd_name (hn : sym ∉ n) (u : Bytes) :
    findEnd sym false (n ++ sym :: u) = some (n, u) := by
  rw [findEnd_run hn, findEnd_lax]
  simp

theorem scan_ref (hne : n ≠ []) (hn : sym ∉ n) (hv : isVariable n = true) :
    scan sym false lookup (sym :: (n ++ sym :: u))
      = match lookup n with
        | none => ⟨[], .error (.lookup n)⟩
        | some v => (scan sym false lookup u).substituted n v := by
  have hs : substitute false lookup n
      = match lookup n with
        | none => .error (.lookup n)
        | some v => .ok (some v) := if_neg (by simp [hv])
  rw [scan_name (findEnd_name hn u) hne, hs]
  cases lookup n <;> rfl

theorem scan_pass (hne : n ≠ []) (hn : sym ∉ n) (hv : isVariable n = false) :
    scan sym false lookup (sym :: (n ++ sym :: u))
      = (scan sym false lookup u).prepend (sym :: (n ++ [sym])) := by
  have hs : substitute false lookup n = .ok none := if_pos (by simp [hv])
  rw [scan_name (findEnd_name hn u) hne, hs]

theorem replace_pass (hn : sym ∉ n) (hv : isVariable n = false) :
    replace sym lookup (sym :: (n ++ sym :: u))
      = (replace sym lookup (sym :: u)).prepend (sym :: n) := by
  have href : reference sym (n ++ sym :: u) = none := by
    rw [reference_append hn, if_neg (by simp [hv])]
  rw [replace_copy href, replace_run hn, prepend_prepend, List.singleton_append]

theorem scan_of_clean (h : Clean sym s) :
    scan sym false lookup s = replace sym lookup s := by
  induction h with
  | nil => rw [scan_nil, replace_nil]
  | char hc _ ih => rw [scan_char hc, replace_char hc, ih]
  | @unterminated t ht =>
    rw [scan_open (findEnd_none ht), replace_copy (reference_none ht)]
    have h : replace sym lookup (t ++ []) = _ := replace_run ht []
    rw [List.append_nil] at h
    rw [h, replace_nil]
    simp [Result.prepend, Except.map]
  | @double u _ ih =>
    have href : reference sym (sym :: u) = none := by
      have h := reference_append (List.not_mem_nil (a := sym)) u
      simpa using h
    rw [scan_double (findEnd_lax u), replace_copy href]
    exact congrArg _ ih
  | ref hne hn hv _ ih =>
    have href := reference_append hn
    rw [scan_ref hne hn hv, replace_ref ((href _).trans (if_pos ⟨hne, hv⟩)), ih]
  | pass hne hn hv href _ ih =>
    rw [scan_pass hne hn hv, replace_pass hn hv, replace_copy href, prepend_prepend, ih]
    simp

theorem prepend_injective {r r' : Result} (h : r.prepend a = r'.prepend a) : r = r' := by
  obtain ⟨vs, l⟩ := r
  obtain ⟨vs', l'⟩ := r'
  obtain ⟨hv, hl⟩ := Result.mk.inj h
  have hv : vs = vs' := hv
  cases l <;> cases l' <;> simp_all [Except.map]

theorem substituted_injective {r r' : Result} {v : Bytes}
    (h : r.substituted n v = r'.substituted n v) : r = r' := by
  obtain ⟨vs, l⟩ := r
  obtain ⟨vs', l'⟩ := r'
  obtain ⟨hv, hl⟩ := Result.mk.inj h
  have hv : vs = vs' := (List.cons.inj hv).2
  cases l <;> cases l' <;> simp_all [Except.map]

theorem replace_ok (sym : UInt8) (lookup : Bytes → Bytes) (s : Bytes) :
    ∃ l, (replace sym (fun n => some (lookup n)) s).line = .ok l := by
  induction hl : s.length using Nat.strong_induction_on generalizing s with
  | _ l ih =>
    subst hl
    cases s with
    | nil => exact ⟨[], by rw [replace_nil]⟩
    | cons c t =>
      by_cases hc : c = sym
      · subst hc
        cases href : reference c t with
        | none =>
          obtain ⟨l, hl⟩ := ih t.length (by simp) t rfl
          exact ⟨[c] ++ l, by rw [replace_copy href]; exact congrArg (Except.map ([c] ++ ·)) hl⟩
        | some x =>
          obtain ⟨n, u⟩ := x
          have hu : u.length < (c :: t).length := (reference_length href).trans (by simp)
          obtain ⟨l, hl⟩ := ih u.length hu u rfl
          exact ⟨lookup n ++ l, by
            rw [replace_ref href]
            exact congrArg (Except.map (lookup n ++ ·)) hl⟩
      · obtain ⟨l, hl⟩ := ih t.length (by simp) t rfl
        exact ⟨[c] ++ l, by rw [replace_char hc]; exact congrArg (Except.map ([c] ++ ·)) hl⟩

/-- A value that does not start with the symbol tells a reference from a symbol that is copied. -/
theorem ref_ne_copy {r : Result} (href : reference sym t = some (n, u)) :
    r.prepend [sym] ≠ replace sym (fun _ => some [sym + 1]) (sym :: t) := by
  intro h
  obtain ⟨l, hl⟩ := replace_ok sym (fun _ => [sym + 1]) u
  have hline := congrArg Result.line h
  rw [replace_ref href] at hline
  obtain ⟨vs, x⟩ := r
  simp only [Result.prepend, Result.substituted, hl] at hline
  cases x with
  | error f => cases hline
  | ok x =>
    have hsym : sym = sym + 1 := (List.cons.inj (Except.ok.inj hline)).1
    simp at hsym

/-- Every line is read from its first symbol. -/
theorem exists_symbol (sym : UInt8) (t : Bytes) :
    sym ∉ t ∨ ∃ n u, t = n ++ sym :: u ∧ sym ∉ n := by
  by_cases h : sym ∈ t
  · obtain ⟨n, u, rfl, hn⟩ := List.eq_append_cons_of_mem h
    exact .inr ⟨n, u, rfl, hn⟩
  · exact .inl h

theorem clean_of_scan (s : Bytes)
    (h : ∀ f : Bytes → Bytes, scan sym false (fun n => some (f n)) s
      = replace sym (fun n => some (f n)) s) : Clean sym s := by
  induction hl : s.length using Nat.strong_induction_on generalizing s with
  | _ l ih =>
    subst hl
    cases s with
    | nil => exact .nil
    | cons c t =>
      by_cases hc : c = sym
      · subst hc
        rcases exists_symbol c t with ht | ⟨n, u, rfl, hn⟩
        · exact .unterminated ht
        · have hlen : u.length < (c :: (n ++ c :: u)).length := by
            simp only [List.length_cons, List.length_append]
            omega
          by_cases hne : n = []
          · subst hne
            refine .double (ih _ (by simp) (c :: u) (fun f => ?_) rfl)
            have href : reference c (c :: u) = none := by
              have h := reference_append (List.not_mem_nil (a := c)) u
              simpa using h
            have hf := h f
            rw [List.nil_append, scan_double (findEnd_lax u), replace_copy href] at hf
            exact prepend_injective hf
          · cases hv : isVariable n with
            | true =>
              refine .ref hne hn hv (ih _ hlen u (fun f => ?_) rfl)
              have hf := h f
              rw [scan_ref hne hn hv,
                replace_ref ((reference_append hn u).trans (if_pos ⟨hne, hv⟩))] at hf
              exact substituted_injective hf
            | false =>
              have hf : ∀ f : Bytes → Bytes,
                  (scan c false (fun n => some (f n)) u).prepend [c]
                    = replace c (fun n => some (f n)) (c :: u) := by
                intro f
                have hf := h f
                rw [scan_pass hne hn hv, replace_pass hn hv, ← List.singleton_append (l := _ ++ _),
                  ← List.append_assoc, ← prepend_prepend] at hf
                exact prepend_injective hf
              cases href : reference c u with
              | some x => exact absurd (hf _) (ref_ne_copy href)
              | none =>
                refine .pass hne hn hv href (ih _ hlen u (fun f => ?_) rfl)
                have hf := hf f
                rw [replace_copy href] at hf
                exact prepend_injective hf
      · refine .char hc (ih _ (by simp) t (fun f => ?_) rfl)
        have hf := h f
        rw [scan_char hc, replace_char hc] at hf
        exact prepend_injective hf

/-- **The scan does what the modes promise.** In the strict mode a line of pieces is expanded
whatever the values if and only if no escape or reference directly follows another one. In the lax
mode the references are replaced whatever the values if and only if no symbol that is passed by as
the end of a name that is not valid opens a reference. -/
theorem scan_iff (sym : UInt8) :
    (∀ ps : List Piece, (∀ p ∈ ps, p.Sound sym) →
      ((∀ lookup, scan sym true lookup (textOf sym ps) = expand sym lookup ps) ↔
        ps.IsChain Apart)) ∧
      ∀ s : Bytes, (∀ lookup, scan sym false lookup s = replace sym lookup s) ↔ Clean sym s :=
  ⟨fun _ hs => scan_strict_iff hs,
    fun s => ⟨fun h => clean_of_scan s fun _ => h _, fun hc _ => scan_of_clean hc⟩⟩

/-- `a$$b$x$`. -/
theorem scan_iff_line :
    scan (ch '$') true (fun _ => some (str ['v'])) (str ['a', '$', '$', 'b', '$', 'x', '$'])
      = ⟨[(str ['x'], str ['v'])], .ok (str ['a', '$', 'b', 'v'])⟩ :=
  ((scan_iff (ch '$')).1 [.char (ch 'a'), .escape, .char (ch 'b'), .ref (str ['x'])]
    (by decide)).mpr (by decide) _

/-- In `$$$$` the name `$` is looked up, and in `$5$x$` nothing is replaced. -/
theorem scan_ne :
    scan (ch '$') true (fun _ => some []) (textOf (ch '$') [.escape, .escape])
        ≠ expand (ch '$') (fun _ => some []) [.escape, .escape] ∧
      scan (ch '$') false (fun _ => some []) (str ['$', '5', '$', 'x', '$'])
        ≠ replace (ch '$') (fun _ => some []) (str ['$', '5', '$', 'x', '$']) := by
  constructor
  · intro h
    have ha : Astray (ch '$') (scan (ch '$') true (fun _ => some []) _) :=
      astray_of_pair (List.not_mem_nil (a := ch '$')) [ch '$']
    exact not_astray_expand (by decide) (h ▸ ha)
  · have hscan : scan (ch '$') false (fun _ => some []) (str ['$', '5', '$', 'x', '$'])
        = ((scan (ch '$') false (fun _ => some []) (str ['x', '$']))).prepend
            (str ['$', '5', '$']) :=
      scan_pass (n := str ['5']) (by decide) (by decide) (by decide)
    have hreplace : replace (ch '$') (fun _ => some []) (str ['$', '5', '$', 'x', '$'])
        = (replace (ch '$') (fun _ => some []) (str ['$', 'x', '$'])).prepend (str ['$', '5']) :=
      replace_pass (n := str ['5']) (by decide) (by decide)
    have href : replace (ch '$') (fun _ => some []) (str ['$', 'x', '$'])
        = (replace (ch '$') (fun _ => some []) []).substituted (str ['x']) [] :=
      replace_ref (by decide)
    have hx : scan (ch '$') false (fun _ => some []) (str ['x', '$'])
        = ⟨[], .ok (str ['x', '$'])⟩ :=
      (scan_char (by decide)).trans (congrArg _ (scan_open (by decide)))
    rw [hscan, hreplace, href, replace_nil, hx]
    intro h
    exact absurd (congrArg (fun r => r.values) h) (by simp [Result.prepend, Result.substituted])

end

end Build2.Libbuild2.In
