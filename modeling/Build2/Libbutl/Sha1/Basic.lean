import Build2.Libbutl.Sha256.Basic

/-! # SHA-1

The functions of `sha1.c` and the class `sha1` over them. The words of the message schedule are kept
in a ring of sixteen. The bytes of words are given the most significant one first, so that those of
the buffer need no exchange. -/

namespace Build2.Libbutl.Sha1c

open Build2.Lib
open Build2.Lib.ByteString (Bytes)

/-! ### The transformation of a block -/

/-- `_K`. -/
def constants : List UInt32 := [0x5a827999, 0x6ed9eba1, 0x8f1bbcdc, 0xca62c1d6]

/-- `K`. -/
def k (t : ℕ) : UInt32 := constants.getD (t / 20) 0

/-- `F0`. -/
def f0 (b c d : UInt32) : UInt32 := (b &&& c) ||| (~~~b &&& d)

/-- `F1` and `F3`. -/
def f1 (b c d : UInt32) : UInt32 := (b ^^^ c) ^^^ d

/-- `F2`. -/
def f2 (b c d : UInt32) : UInt32 := (b &&& c) ||| (b &&& d) ||| (c &&& d)

/-- `S`. -/
def s (n x : UInt32) : UInt32 := (x <<< n) ||| (x >>> (32 - n))

/-- The variables `a` to `e`. -/
structure Vars where
  a : UInt32
  b : UInt32
  c : UInt32
  d : UInt32
  e : UInt32
  deriving DecidableEq

/-- `W (s) = ...`. -/
def extend (w : List UInt32) (s : ℕ) : List UInt32 :=
  w.set s (Sha1c.s 1 (w.getD ((s + 13) % 16) 0 ^^^ w.getD ((s + 8) % 16) 0 ^^^
    w.getD ((s + 2) % 16) 0 ^^^ w.getD s 0))

/-- The rest of the body of a loop. -/
def mix (f : UInt32 → UInt32 → UInt32 → UInt32) (t : ℕ) (w : List UInt32) (v : Vars) : Vars :=
  ⟨s 5 v.a + f v.b v.c v.d + v.e + w.getD (t % 16) 0 + k t, v.a, s 30 v.b, v.c, v.d⟩

/-- The body of the first loop. -/
def bodyFirst (x : List UInt32 × Vars) (t : ℕ) : List UInt32 × Vars :=
  let w := if t ≥ 16 then extend x.1 (t % 16) else x.1
  (w, mix f0 t w x.2)

/-- The body of the other loops. -/
def body (f : UInt32 → UInt32 → UInt32 → UInt32) (x : List UInt32 × Vars) (t : ℕ) :
    List UInt32 × Vars :=
  let w := extend x.1 (t % 16)
  (w, mix f t w x.2)

/-- `sha1_step`, on the words of the hash. -/
def transform (h : Vars) (block : Bytes) : Vars :=
  let x := (List.range' 0 20).foldl bodyFirst (Sha256c.be32decVect block, h)
  let x := (List.range' 20 20).foldl (body f1) x
  let x := (List.range' 40 20).foldl (body f2) x
  let x := (List.range' 60 20).foldl (body f1) x
  ⟨h.a + x.2.a, h.b + x.2.b, h.c + x.2.c, h.d + x.2.d, h.e + x.2.e⟩

/-! ### Contexts -/

/-- `sha1_ctxt`. -/
structure Context where
  h : Vars
  c : UInt64
  m : Bytes
  size : m.length = 64
  count : UInt8

/-- `sha1_init`. -/
def Context.init : Context where
  h := ⟨0x67452301, 0xefcdab89, 0x98badcfe, 0x10325476, 0xc3d2e1f0⟩
  c := 0
  m := List.replicate 64 0
  size := List.length_replicate
  count := 0

/-- `sha1_step`. The buffer is cleared. -/
def Context.step (c : Context) : Context :=
  { c with h := transform c.h c.m, m := List.replicate 64 0, size := List.length_replicate }

/-- Bytes are copied into the buffer. -/
def Context.copy (c : Context) (src : Bytes) : Context :=
  { c with
    m := overwrite c.m (c.count % 64).toNat src
    size := (length_overwrite c.m _ src).trans c.size
    count := (c.count + UInt8.ofNat src.length) % 64 }

/-- A step if the buffer is full. -/
def Context.stepIfFull (c : Context) : Context := if c.count % 64 = 0 then c.step else c

/-- `PUTPAD`. -/
def Context.putPad (c : Context) (x : UInt8) : Context := (c.copy [x]).stepIfFull

/-- `sha1_pad`. -/
def Context.pad (c : Context) : Context :=
  let c := c.putPad 0x80
  let padlen := 64 - (c.count % 64).toNat
  let c := if padlen < 8 then (c.copy (List.replicate padlen 0)).step else c
  let padlen := 64 - (c.count % 64).toNat
  let c := c.copy (List.replicate (padlen - 8) 0)
  (Sha256c.be64enc c.c).foldl Context.putPad c

/-- `sha1_loop`. -/
def Context.loop (ctxt : Context) (input : Bytes) : Context :=
  if 0 < input.length then
    let gaplen := 64 - (ctxt.count % 64).toNat
    let copysiz := if gaplen < input.length then gaplen else input.length
    let c := ctxt.copy (input.take copysiz)
    let c := { c with c := c.c + UInt64.ofNat copysiz * 8 }
    c.stepIfFull.loop (input.drop copysiz)
  else ctxt
termination_by input.length
decreasing_by
  have hgap : 0 < 64 - (ctxt.count % 64).toNat := by
    rw [UInt8.toNat_mod]
    exact Nat.sub_pos_of_lt (Nat.mod_lt _ (by decide))
  rw [List.length_drop]
  split_ifs <;> omega

/-- `sha1_result`. -/
def Context.result (c : Context) : Bytes :=
  let h := c.pad.h
  [h.a, h.b, h.c, h.d, h.e].flatMap Sha256c.be32enc

end Build2.Libbutl.Sha1c

/-! ### The class -/

namespace Build2.Libbutl

open Build2.Lib.ByteString

/-- `sha1`, as long as the result was not extracted. -/
structure Sha1 where
  ctx : Sha1c.Context
  empty : Bool

/-- `sha1::reset`. -/
def Sha1.reset : Sha1 := ⟨Sha1c.Context.init, true⟩

/-- `sha1::append` for data. -/
def Sha1.append (s : Sha1) (b : Bytes) : Sha1 :=
  if b.length ≠ 0 then ⟨s.ctx.loop b, false⟩ else s

/-- `sha1::append` for a string, with its NUL. -/
def Sha1.appendString (s : Sha1) (b : Bytes) : Sha1 := s.append (b ++ [0])

/-- `sha1::binary`. -/
def Sha1.binary (s : Sha1) : Bytes := s.ctx.result

/-- `sha1::string`. -/
def Sha1.string (s : Sha1) : Bytes :=
  s.binary.flatMap fun (b : UInt8) =>
    [Sha256c.hexMap.getD (b >>> 4).toNat 0, Sha256c.hexMap.getD (b &&& 0x0f).toNat 0]

end Build2.Libbutl
