import Build2.Libbuild2.In.Update

/-! # What is substituted does not depend on the values

A value that has been substituted is not scanned again, so that a line has the same names with any
values: it is cut into segments without them (`segments`, `scan_segments`), and so are all lines of
the input (`names`). With the names the records that a run saves (`processLoop_written`) and its
first failure (`output_missing`) are known. -/

namespace Build2.Libbuild2.In

open Build2.Lib.ByteString Build2.Libbuild2.Depdbs

/-- A part of a line: a text that is copied, a name that is substituted, or a symbol without another
end. -/
inductive Segment
  | copy (s : Bytes)
  | name (n : Bytes)
  | unterminated
  deriving DecidableEq

namespace Segment

/-- What the segment is turned into, in front of what comes of the rest of the line. -/
def turn (lookup : Bytes → Option Bytes) (r : Result) : Segment → Result
  | .copy s => r.prepend s
  | .name n =>
    match lookup n with
    | none => ⟨[], .error (.lookup n)⟩
    | some v => r.substituted n v
  | .unterminated => ⟨[], .error .unterminated⟩

/-- The name that is substituted. -/
def name? : Segment → Option Bytes
  | .name n => some n
  | _ => none

end Segment

/-- The line that the segments make. -/
def assemble (lookup : Bytes → Option Bytes) : List Segment → Result
  | [] => ⟨[], .ok []⟩
  | g :: gs => g.turn lookup (assemble lookup gs)

/-- The names of the segments. -/
def namesOf (gs : List Segment) : List Bytes := gs.filterMap Segment.name?

section

variable (lookup : Bytes → Option Bytes) {gs : List Segment}

end

/-! ### Segments of a line -/

section

variable (sym : UInt8) (strict : Bool)

/-- The segments of a line. -/
def segments : Bytes → List Segment
  | [] => []
  | c :: t =>
    if c ≠ sym then .copy [c] :: segments t
    else
      match _h : findEnd sym strict t with
      | none => if strict then [.unterminated] else [.copy (c :: t)]
      | some (n, u) =>
        if n = [] then
          if strict then .copy [c] :: segments u else .copy [c] :: segments t
        else if strict || isVariable n then .name n :: segments u
        else .copy (c :: (n ++ [c])) :: segments u
termination_by s => s.length
decreasing_by
  all_goals simp only [List.length_cons]
  all_goals try have := findEnd_length _h
  all_goals omega

variable {sym strict} {s t u n : Bytes} {c : UInt8}

end

/-! ### The lines of the input -/

section

variable (cfg : Config) (sha256 : Bytes → List (Fin 16)) (lookup : Bytes → Option Bytes)

/-- The names of the lines with the numbers of the lines. -/
def names (ln : ℕ) : List Bytes → List (ℕ × Bytes)
  | [] => []
  | s :: ss =>
    (namesOf (segments cfg.sym cfg.strict s)).map (fun n => (ln, n)) ++ names ((ln + 1) % 2 ^ 64) ss

/-- The record of a name with its current value. -/
def current (x : ℕ × Bytes) : Bytes := record sha256 x.1 x.2 ((lookup x.2).getD [])

variable {cfg sha256 lookup}

end

end Build2.Libbuild2.In
