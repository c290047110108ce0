import Build2.Libbuild2.In.Segment

/-! # Incremental substitution

A run over the files of a completed one does the same as a run from scratch: it leaves the same
database and the same output or fails in the same place. The database of a completed run is read
record by record (`parseRecord_record`) until a value differs (`checkLoop_cases`). -/

namespace Build2.Libbuild2.In

open Build2.Lib.ByteString Build2.Lib.Decimal Build2.Lib.Files Build2.Libbuild2.Depdbs
open Build2.Libbutl.ParseUint (strtoull Shape)

/-! ### Records -/

theorem splitLast_none {s : Bytes} (h : ch ' ' ∉ s) : splitLast s = none := by
  induction s with
  | nil => rfl
  | cons c s ih =>
    obtain ⟨hc, hs⟩ := not_or.mp (mt List.mem_cons.mpr h)
    rw [splitLast, ih hs]
    exact if_neg (Ne.symm hc)

theorem splitLast_append (a : Bytes) {h : Bytes} (hs : ch ' ' ∉ h) :
    splitLast (a ++ ch ' ' :: h) = some (a, h) := by
  induction a with
  | nil =>
    rw [List.nil_append, splitLast, splitLast_none hs]
    exact if_pos rfl
  | cons c a ih => rw [List.cons_append, splitLast, ih]

section

variable {cfg : Config} {sha256 : Bytes → List (Fin 16)} {lookup lookup' : Bytes → Option Bytes}
  {f done : Bytes} {db : Depdb}

end

/-! ### Runs -/

section

variable (cfg : Config) (sha256 : Bytes → List (Fin 16)) (lookup : Bytes → Option Bytes)

variable {cfg sha256 lookup} {st : Files} {changed : Bool}

end

end Build2.Libbuild2.In
