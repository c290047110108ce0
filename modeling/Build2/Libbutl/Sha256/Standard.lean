import Build2.Lib.Digest
import Build2.Libbutl.Sha256.Basic

/-! # The standard's SHA-256

The hash of a message as the standard defines it: the working variables move on in every round, the
functions of three words are the logical ones, and the message is padded as a whole. -/

namespace Build2.Libbutl.Sha256c.Standard

open Build2.Lib Build2.Lib.ByteString

/-- The word has the bits of `y` where `x` is set, and of `z` elsewhere. -/
def choose (x y z : UInt32) : UInt32 := (x &&& y) ^^^ (~~~x &&& z)

/-- The word has the bits that at least two of the words have. -/
def majority (x y z : UInt32) : UInt32 := (x &&& y) ^^^ (x &&& z) ^^^ (y &&& z)

def rotateRight (x : UInt32) (n : ℕ) : UInt32 := ⟨x.toBitVec.rotateRight n⟩

def sum0 (x : UInt32) : UInt32 := rotateRight x 2 ^^^ rotateRight x 13 ^^^ rotateRight x 22

def sum1 (x : UInt32) : UInt32 := rotateRight x 6 ^^^ rotateRight x 11 ^^^ rotateRight x 25

def sigma0 (x : UInt32) : UInt32 := rotateRight x 7 ^^^ rotateRight x 18 ^^^ (x >>> 3)

def sigma1 (x : UInt32) : UInt32 := rotateRight x 17 ^^^ rotateRight x 19 ^^^ (x >>> 10)

/-- A word of the message schedule, from those of the block. -/
def word (m : ℕ → UInt32) (t : ℕ) : UInt32 :=
  if t < 16 then m t
  else sigma1 (word m (t - 2)) + word m (t - 7) + sigma0 (word m (t - 15)) + word m (t - 16)

/-- The working variables. -/
structure Working where
  a : UInt32
  b : UInt32
  c : UInt32
  d : UInt32
  e : UInt32
  f : UInt32
  g : UInt32
  h : UInt32
  deriving DecidableEq

/-- A round with a constant and a word of the schedule. -/
def nextVars (k w : UInt32) (v : Working) : Working :=
  let t1 := v.h + sum1 v.e + choose v.e v.f v.g + k + w
  let t2 := sum0 v.a + majority v.a v.b v.c
  ⟨t1 + t2, v.a, v.b, v.c, v.d + t1, v.e, v.f, v.g⟩

def Working.add (v w : Working) : Working :=
  ⟨v.a + w.a, v.b + w.b, v.c + w.c, v.d + w.d, v.e + w.e, v.f + w.f, v.g + w.g, v.h + w.h⟩

/-- The words of a block. -/
def blockWord (block : Bytes) (t : ℕ) : UInt32 :=
  UInt32.ofNat (ofBigEndian ((block.drop (4 * t)).take 4))

/-- The working variables after `n` rounds. -/
def rounds (m : ℕ → UInt32) (v : Working) : ℕ → Working
  | 0 => v
  | n + 1 => nextVars (constants.getD n 0) (word m n) (rounds m v n)

/-- A block is taken into the hash. -/
def compress (v : Working) (block : Bytes) : Working := v.add (rounds (blockWord block) v 64)

def initial : Working :=
  ⟨0x6a09e667, 0xbb67ae85, 0x3c6ef372, 0xa54ff53a, 0x510e527f, 0x9b05688c, 0x1f83d9ab, 0x5be0cd19⟩

/-- The bytes of a hash. -/
def Working.bytes (v : Working) : Bytes :=
  [v.a, v.b, v.c, v.d, v.e, v.f, v.g, v.h].flatMap fun u => bigEndian 4 u.toNat

/-- The hash of a message. -/
def sha256 (m : Bytes) : Bytes := (foldBlocks 64 compress initial (padded m)).bytes

end Build2.Libbutl.Sha256c.Standard
