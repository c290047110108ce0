import Build2.Lib.ByteString

/-! # Files changed in place

A file that is truncated, positioned and written to byte by byte. A program that may be stopped at
any time leaves the file as the first steps of what it does have made it. -/

namespace Build2.Lib.Files

open ByteString

/-- A step of the operating system. -/
inductive Step
  | truncate (n : ℕ)
  | seek (n : ℕ)
  | put (b : UInt8)
  deriving DecidableEq, Repr

/-- The content of an open file and the position in it. -/
structure File where
  content : Bytes
  position : ℕ := 0

/-- The file after a step. -/
def File.step (f : File) : Step → File
  | .truncate n => { f with content := f.content.take n }
  | .seek n => { f with position := n }
  | .put b =>
    { content := f.content.take f.position ++ b :: f.content.drop (f.position + 1)
      position := f.position + 1 }

/-- What a file with the content becomes. -/
def after (s : Bytes) (steps : List Step) : Bytes := (steps.foldl File.step ⟨s, 0⟩).content

/-- Bytes that are written one after the other. -/
def puts (s : Bytes) : List Step := s.map Step.put

@[simp] theorem after_nil (s : Bytes) : after s [] = s := rfl

theorem puts_append (s t : Bytes) : puts (s ++ t) = puts s ++ puts t := List.map_append

theorem take_puts (s : Bytes) (k : ℕ) : (puts s).take k = puts (s.take k) := by
  rw [puts, puts, List.map_take]

theorem foldl_puts {f : File} (h : f.position = f.content.length) (s : Bytes) :
    ((puts s).foldl File.step f).content = f.content ++ s := by
  induction s generalizing f with
  | nil => simp [puts]
  | cons b s ih =>
    have hstep : (f.step (.put b)).content = f.content ++ [b] := by
      simp [File.step, h, List.drop_of_length_le]
    have hpos : (f.step (.put b)).position = (f.step (.put b)).content.length := by
      rw [hstep]
      simp [File.step, h]
    rw [puts, List.map_cons, List.foldl_cons]
    rw [show s.map Step.put = puts s from rfl, ih hpos, hstep, List.append_assoc]
    rfl

theorem after_puts (s : Bytes) : after [] (puts s) = s := by
  rw [after, foldl_puts rfl]
  rfl

theorem after_truncate {s t : Bytes} {n : ℕ} (hn : n ≤ s.length) :
    after s (.truncate n :: .seek n :: puts t) = s.take n ++ t := by
  rw [after, List.foldl_cons, List.foldl_cons, foldl_puts]
  · rfl
  · simp [File.step, hn]

theorem after_put_same {s t : Bytes} {b : UInt8} :
    after (s ++ b :: t) [.seek s.length, .put b] = s ++ b :: t := by
  simp [after, File.step]

/-- Whenever a program is stopped that truncates a file and goes on writing, the file is as it was
or is a first part of what it becomes. -/
theorem after_take_truncate {s t : Bytes} {n : ℕ} (hn : n ≤ s.length) (k : ℕ) :
    after s ((.truncate n :: .seek n :: puts t).take k) = s ∨
      after s ((.truncate n :: .seek n :: puts t).take k) <+: s.take n ++ t := by
  match k with
  | 0 => exact .inl rfl
  | 1 => exact .inr (List.prefix_append _ _)
  | k + 2 =>
    right
    rw [List.take_succ_cons, List.take_succ_cons, take_puts, after_truncate hn]
    exact (List.prefix_append_right_inj _).mpr (List.take_prefix _ _)

end Build2.Lib.Files
