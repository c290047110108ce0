import Build2.Lib.Blocks
import Build2.Lib.ByteString
import Mathlib.Algebra.Group.Nat.Defs
import Mathlib.Tactic.Ring

/-! # Padded messages

A message is hashed in blocks of 64 bytes: a bit that is set follows it, zeros, and the number of
its bits in the last eight bytes. -/

namespace Build2.Lib

open ByteString

/-- The last `n` digits of a number for the base 256, the most significant one first. -/
def bigEndian (n x : ℕ) : Bytes := (List.range n).map fun i => UInt8.ofNat (x / 256 ^ (n - 1 - i))

/-- The number of these digits. -/
def ofBigEndian (l : Bytes) : ℕ := l.foldl (fun x b => 256 * x + b.toNat) 0

/-- The zeros between the end of a message and its length. -/
def zeros (len : ℕ) : ℕ := (119 - len % 64) % 64

/-- A padded message. -/
def padded (m : Bytes) : Bytes :=
  m ++ 0x80 :: List.replicate (zeros m.length) 0 ++ bigEndian 8 (8 * m.length)

theorem zeros_lt (len : ℕ) : zeros len < 64 := Nat.mod_lt _ (by decide)

end Build2.Lib
