import Mathlib.Data.List.Range
import Mathlib.Data.List.Sublists
import Mathlib.Logic.Function.Basic

/-! # Ring buffers

The `size` elements of a ring buffer stand in the slots of an array of the length `depth` from
`head` on, the slot after the last one being the first one. -/

namespace Build2.Lib.Ring

variable {α : Type*}

/-- The slot of the element with the number `i`. -/
def slot (depth head i : ℕ) : ℕ := (head + i) % depth

/-- The elements in their order. -/
def contents (depth head size : ℕ) (data : ℕ → α) : List α :=
  (List.range size).map fun i => data (slot depth head i)

/-- The slot after a slot. -/
def next (depth i : ℕ) : ℕ := if i ≠ depth - 1 then i + 1 else 0

/-- The slot before a slot. -/
def prev (depth i : ℕ) : ℕ := if i ≠ 0 then i - 1 else depth - 1

theorem slot_lt {depth : ℕ} (h : 0 < depth) (head i : ℕ) : slot depth head i < depth :=
  Nat.mod_lt _ h

theorem slot_zero {depth head : ℕ} (h : head < depth) : slot depth head 0 = head :=
  Nat.mod_eq_of_lt h

theorem slot_eq {depth head i : ℕ} (hh : head < depth) (hi : i < depth) :
    slot depth head i = if head + i < depth then head + i else head + i - depth := by
  unfold slot
  split_ifs with h
  · exact Nat.mod_eq_of_lt h
  · rw [Nat.mod_eq_sub_mod (by omega), Nat.mod_eq_of_lt (by omega)]

theorem slot_inj {depth head i j : ℕ} (hh : head < depth) (hi : i < depth) (hj : j < depth) :
    slot depth head i = slot depth head j ↔ i = j := by
  rw [slot_eq hh hi, slot_eq hh hj]
  split_ifs <;> omega

theorem next_slot {depth head i : ℕ} (hh : head < depth) (hi : i + 1 < depth) :
    next depth (slot depth head i) = slot depth head (i + 1) := by
  rw [slot_eq hh hi, slot_eq hh (by omega), next]
  split_ifs <;> omega

theorem prev_slot {depth head i : ℕ} (hh : head < depth) (hi : i + 1 < depth) :
    prev depth (slot depth head (i + 1)) = slot depth head i := by
  rw [slot_eq hh hi, slot_eq hh (by omega), prev]
  split_ifs <;> omega

theorem next_lt {depth i : ℕ} (h : i < depth) : next depth i < depth := by
  unfold next
  split_ifs <;> omega

theorem slot_next {depth head i : ℕ} (hh : head < depth) (hi : i + 1 < depth) :
    slot depth (next depth head) i = slot depth head (i + 1) := by
  rw [slot_eq (next_lt hh) (by omega), slot_eq hh hi]
  unfold next
  split_ifs <;> omega

@[simp] theorem length_contents (depth head size : ℕ) (data : ℕ → α) :
    (contents depth head size data).length = size := by
  simp [contents]

theorem contents_succ (depth head size : ℕ) (data : ℕ → α) :
    contents depth head (size + 1) data =
      contents depth head size data ++ [data (slot depth head size)] := by
  simp [contents, List.range_succ]

theorem contents_pop {depth head size : ℕ} (hh : head < depth) (hs : size < depth) (data : ℕ → α) :
    contents depth head (size + 1) data =
      data head :: contents depth (next depth head) size data := by
  unfold contents
  rw [List.range_succ_eq_map, List.map_cons, slot_zero hh, List.map_map]
  refine congrArg _ (List.map_congr_left fun i hi => ?_)
  have hi := List.mem_range.mp hi
  exact congrArg data (slot_next hh (by omega)).symm

theorem contents_update {depth head size : ℕ} (hh : head < depth) (hs : size < depth)
    (data : ℕ → α) (x : α) :
    contents depth head size (Function.update data (slot depth head size) x) =
      contents depth head size data := by
  refine List.map_congr_left fun i hi => Function.update_of_ne ?_ x data
  have hi := List.mem_range.mp hi
  rw [Ne, slot_inj hh (by omega) hs]
  omega

theorem contents_push {depth head size : ℕ} (hh : head < depth) (hs : size < depth)
    (data : ℕ → α) (x : α) :
    contents depth head (size + 1) (Function.update data (slot depth head size) x) =
      contents depth head size data ++ [x] := by
  rw [contents_succ, contents_update hh hs, Function.update_self]

end Build2.Lib.Ring
