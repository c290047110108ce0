import Build2.Lib.Blocks
import Build2.Lib.ByteString

/-! # SHA-256

The functions of `sha256c.c` and the class `sha256` over them. The eight working variables stay
where they are and their names go round (`rndr`). A context keeps what is left over of the data and
the number of its bits; the rest of its buffer has what was there before. -/

namespace Build2.Libbutl.Sha256c

open Build2.Lib
open Build2.Lib.ByteString (Bytes str)

/-! ### Bytes and words -/

/-- `be32dec_vect`. -/
def be32decVect : Bytes → List UInt32
  | a :: b :: c :: d :: p =>
    (a.toUInt32 <<< 24 ||| b.toUInt32 <<< 16 ||| c.toUInt32 <<< 8 ||| d.toUInt32) :: be32decVect p
  | _ => []

/-- `be32enc`. -/
def be32enc (u : UInt32) : Bytes :=
  [(u >>> 24 &&& 0xff).toUInt8, (u >>> 16 &&& 0xff).toUInt8, (u >>> 8 &&& 0xff).toUInt8,
    (u &&& 0xff).toUInt8]

/-- `be64enc`. -/
def be64enc (u : UInt64) : Bytes :=
  [(u >>> 56 &&& 0xff).toUInt8, (u >>> 48 &&& 0xff).toUInt8, (u >>> 40 &&& 0xff).toUInt8,
    (u >>> 32 &&& 0xff).toUInt8, (u >>> 24 &&& 0xff).toUInt8, (u >>> 16 &&& 0xff).toUInt8,
    (u >>> 8 &&& 0xff).toUInt8, (u &&& 0xff).toUInt8]

/-! ### The transformation of a block -/

/-- `Ch`. -/
def ch (x y z : UInt32) : UInt32 := (x &&& (y ^^^ z)) ^^^ z

/-- `Maj`. -/
def maj (x y z : UInt32) : UInt32 := (x &&& (y ||| z)) ||| (y &&& z)

/-- `ROTR`. -/
def rotr (x n : UInt32) : UInt32 := (x >>> n) ||| (x <<< (32 - n))

/-- `S0`. -/
def bigS0 (x : UInt32) : UInt32 := rotr x 2 ^^^ rotr x 13 ^^^ rotr x 22

/-- `S1`. -/
def bigS1 (x : UInt32) : UInt32 := rotr x 6 ^^^ rotr x 11 ^^^ rotr x 25

/-- `s0`. -/
def smallS0 (x : UInt32) : UInt32 := rotr x 7 ^^^ rotr x 18 ^^^ (x >>> 3)

/-- `s1`. -/
def smallS1 (x : UInt32) : UInt32 := rotr x 17 ^^^ rotr x 19 ^^^ (x >>> 10)

/-- The constants of the rounds. -/
def constants : List UInt32 :=
  [0x428a2f98, 0x71374491, 0xb5c0fbcf, 0xe9b5dba5, 0x3956c25b, 0x59f111f1, 0x923f82a4, 0xab1c5ed5,
   0xd807aa98, 0x12835b01, 0x243185be, 0x550c7dc3, 0x72be5d74, 0x80deb1fe, 0x9bdc06a7, 0xc19bf174,
   0xe49b69c1, 0xefbe4786, 0x0fc19dc6, 0x240ca1cc, 0x2de92c6f, 0x4a7484aa, 0x5cb0a9dc, 0x76f988da,
   0x983e5152, 0xa831c66d, 0xb00327c8, 0xbf597fc7, 0xc6e00bf3, 0xd5a79147, 0x06ca6351, 0x14292967,
   0x27b70a85, 0x2e1b2138, 0x4d2c6dfc, 0x53380d13, 0x650a7354, 0x766a0abb, 0x81c2c92e, 0x92722c85,
   0xa2bfe8a1, 0xa81a664b, 0xc24b8b70, 0xc76c51a3, 0xd192e819, 0xd6990624, 0xf40e3585, 0x106aa070,
   0x19a4c116, 0x1e376c08, 0x2748774c, 0x34b0bcb5, 0x391c0cb3, 0x4ed8aa4a, 0x5b9cca4f, 0x682e6ff3,
   0x748f82ee, 0x78a5636f, 0x84c87814, 0x8cc70208, 0x90befffa, 0xa4506ceb, 0xbef9a3f7, 0xc67178f2]

/-- Eight words. -/
abbrev Words := Vector UInt32 8

/-- `n % 8`. -/
def slot (n : ℕ) : Fin 8 := Fin.ofNat 8 n

/-- `RNDr`, with `RND`. -/
def rndr (w : List UInt32) (i : ℕ) (k : UInt32) (s : Words) : Words :=
  let d := slot (67 - i)
  let h := slot (71 - i)
  let t0 := s.get h + bigS1 (s.get (slot (68 - i))) +
    ch (s.get (slot (68 - i))) (s.get (slot (69 - i))) (s.get (slot (70 - i))) + (w.getD i 0 + k)
  let t1 := bigS0 (s.get (slot (64 - i))) +
    maj (s.get (slot (64 - i))) (s.get (slot (65 - i))) (s.get (slot (66 - i)))
  (s.set d (s.get d + t0) d.isLt).set h (t0 + t1) h.isLt

/-- The loop that extends the message schedule by `n` words. -/
def extend : ℕ → List UInt32 → List UInt32
  | 0, w => w
  | n + 1, w =>
    let i := w.length
    extend n (w ++ [smallS1 (w.getD (i - 2) 0) + w.getD (i - 7) 0 +
      smallS0 (w.getD (i - 15) 0) + w.getD (i - 16) 0])

/-- `SHA256_Transform`. -/
def transform (state : Words) (block : Bytes) : Words :=
  let w := extend 48 (be32decVect block)
  let s := (List.range 64).foldl (fun s i => rndr w i (constants.getD i 0) s) state
  Vector.ofFn fun i => state.get i + s.get i

/-! ### Contexts -/

/-- `SHA256_CTX`. -/
structure Context where
  state : Words
  count : UInt64
  buf : Bytes
  size : buf.length = 64

/-- `memcpy (&buf[r], src, len)`. -/
def Context.put (c : Context) (r : ℕ) (src : Bytes) : Context :=
  { c with
    buf := overwrite c.buf r src
    size := (length_overwrite c.buf r src).trans c.size }

/-- The initial state. -/
def initial : Words :=
  ⟨#[0x6A09E667, 0xBB67AE85, 0x3C6EF372, 0xA54FF53A, 0x510E527F, 0x9B05688C, 0x1F83D9AB,
    0x5BE0CD19], rfl⟩

/-- `SHA256_Init`. It does not write the buffer. -/
def Context.init (c : Context) : Context := { c with state := initial, count := 0 }

/-- The number of bytes in the buffer. -/
def Context.used (c : Context) : ℕ := (c.count >>> 3 &&& 0x3f).toNat

/-- `SHA256_Update`. -/
def Context.update (c : Context) (src : Bytes) : Context :=
  let r := c.used
  let bitlen := UInt64.ofNat src.length <<< 3
  let c := { c with count := c.count + bitlen }
  if src.length < 64 - r then c.put r src
  else
    -- The current block is finished, and then complete blocks are taken from the data.
    let c := c.put r (src.take (64 - r))
    let c := { c with state := transform c.state c.buf }
    let src := src.drop (64 - r)
    let c := { c with state := foldBlocks 64 transform c.state src }
    c.put 0 (leftOver 64 src)

/-- `PAD`. -/
def padding : Bytes := 0x80 :: List.replicate 63 0

/-- `SHA256_Pad`. -/
def Context.pad (c : Context) : Context :=
  let len := be64enc c.count
  let r := c.used
  let plen := if r < 56 then 56 - r else 120 - r
  (c.update (padding.take plen)).update len

/-- `SHA256_Final`. The context is cleared. -/
def Context.final (c : Context) : Bytes := c.pad.state.toList.flatMap be32enc

/-- `hex_map`. -/
def hexMap : Bytes :=
  str ['0', '1', '2', '3', '4', '5', '6', '7', '8', '9', 'a', 'b', 'c', 'd', 'e', 'f']

end Build2.Libbutl.Sha256c

/-! ### The class -/

namespace Build2.Libbutl

open Build2.Lib.ByteString

/-- `sha256`, as long as the result was not extracted. -/
structure Sha256 where
  ctx : Sha256c.Context
  empty : Bool

/-- `sha256::reset`. -/
def Sha256.reset (s : Sha256) : Sha256 := ⟨s.ctx.init, true⟩

/-- `sha256::append` for data. -/
def Sha256.append (s : Sha256) (b : Bytes) : Sha256 :=
  if b.length ≠ 0 then ⟨s.ctx.update b, false⟩ else s

/-- `sha256::append` for a string, with its NUL. -/
def Sha256.appendString (s : Sha256) (b : Bytes) : Sha256 := s.append (b ++ [0])

/-- `sha256::append` for a character or a number, from its bytes in memory. -/
def Sha256.appendIntegral (s : Sha256) (x : Bytes) : Sha256 :=
  let r := s.ctx.used
  if x.length < 64 - r then
    let c := s.ctx.put r x
    { s with ctx := { c with count := c.count + UInt64.ofNat x.length <<< 3 } }
  else s.append x

/-- `sha256::binary`. -/
def Sha256.binary (s : Sha256) : Bytes := s.ctx.final

/-- `sha256::string`. -/
def Sha256.string (s : Sha256) : Bytes :=
  s.binary.flatMap fun (b : UInt8) =>
    [Sha256c.hexMap.getD (b >>> 4).toNat 0, Sha256c.hexMap.getD (b &&& 0x0f).toNat 0]

end Build2.Libbutl
