import Mathlib.Data.List.Basic
import Mathlib.Data.Vector.Defs

/-!
# `sha256.c`

The context's buffer is kept as the bytes waiting in it; `datalen` is how many there are. Feeding
the context byte by byte makes `sha256_update` a fold, so that a message may be split between calls
at any point: what the clock hashes is a function of the bytes alone.
-/

namespace CpeClock

/-- `SHA256_BLOCK_SIZE` bytes: a digest. -/
abbrev Digest := Vector UInt8 32

namespace Sha256

/-- The eight words of a state, and the working variables of a round. -/
structure Words where
  (a b c d e f g h : UInt32)

/-- `SHA256_CTX`. -/
structure Ctx where
  data : List UInt8
  bitlen : UInt64
  state : Words

def rotRight (a b : UInt32) : UInt32 := (a >>> b) ||| (a <<< (32 - b))
def ch (x y z : UInt32) : UInt32 := (x &&& y) ^^^ (~~~x &&& z)
def maj (x y z : UInt32) : UInt32 := (x &&& y) ^^^ (x &&& z) ^^^ (y &&& z)
def ep0 (x : UInt32) : UInt32 := rotRight x 2 ^^^ rotRight x 13 ^^^ rotRight x 22
def ep1 (x : UInt32) : UInt32 := rotRight x 6 ^^^ rotRight x 11 ^^^ rotRight x 25
def sig0 (x : UInt32) : UInt32 := rotRight x 7 ^^^ rotRight x 18 ^^^ (x >>> 3)
def sig1 (x : UInt32) : UInt32 := rotRight x 17 ^^^ rotRight x 19 ^^^ (x >>> 10)

def k : List UInt32 := [
  0x428a2f98, 0x71374491, 0xb5c0fbcf, 0xe9b5dba5, 0x3956c25b, 0x59f111f1, 0x923f82a4, 0xab1c5ed5,
  0xd807aa98, 0x12835b01, 0x243185be, 0x550c7dc3, 0x72be5d74, 0x80deb1fe, 0x9bdc06a7, 0xc19bf174,
  0xe49b69c1, 0xefbe4786, 0x0fc19dc6, 0x240ca1cc, 0x2de92c6f, 0x4a7484aa, 0x5cb0a9dc, 0x76f988da,
  0x983e5152, 0xa831c66d, 0xb00327c8, 0xbf597fc7, 0xc6e00bf3, 0xd5a79147, 0x06ca6351, 0x14292967,
  0x27b70a85, 0x2e1b2138, 0x4d2c6dfc, 0x53380d13, 0x650a7354, 0x766a0abb, 0x81c2c92e, 0x92722c85,
  0xa2bfe8a1, 0xa81a664b, 0xc24b8b70, 0xc76c51a3, 0xd192e819, 0xd6990624, 0xf40e3585, 0x106aa070,
  0x19a4c116, 0x1e376c08, 0x2748774c, 0x34b0bcb5, 0x391c0cb3, 0x4ed8aa4a, 0x5b9cca4f, 0x682e6ff3,
  0x748f82ee, 0x78a5636f, 0x84c87814, 0x8cc70208, 0x90befffa, 0xa4506ceb, 0xbef9a3f7, 0xc67178f2]

/-- `m[i]` for `i < 16`: four bytes of the block, the first the most significant. -/
def blockWord (data : List UInt8) (i : Nat) : UInt32 :=
  let byte j := (data.getD (4 * i + j) 0).toUInt32
  (byte 0 <<< 24) ||| (byte 1 <<< 16) ||| (byte 2 <<< 8) ||| byte 3

/-- `m[i]` for `i ≥ 16`, appended to those before it. -/
def extend (m : List UInt32) (i : Nat) : List UInt32 :=
  m ++ [sig1 (m.getD (i - 2) 0) + m.getD (i - 7) 0 + sig0 (m.getD (i - 15) 0) + m.getD (i - 16) 0]

def schedule (data : List UInt8) : List UInt32 :=
  (List.range' 16 48).foldl extend ((List.range 16).map (blockWord data))

/-- One round, with the round's constant and schedule word. -/
def round (v : Words) (km : UInt32 × UInt32) : Words :=
  let t1 := v.h + ep1 v.e + ch v.e v.f v.g + km.1 + km.2
  let t2 := ep0 v.a + maj v.a v.b v.c
  { a := t1 + t2, b := v.a, c := v.b, d := v.c, e := v.d + t1, f := v.e, g := v.f, h := v.g }

def sha256Transform (state : Words) (data : List UInt8) : Words :=
  let v := (k.zip (schedule data)).foldl round state
  { a := state.a + v.a, b := state.b + v.b, c := state.c + v.c, d := state.d + v.d
    e := state.e + v.e, f := state.f + v.f, g := state.g + v.g, h := state.h + v.h }

def sha256Init : Ctx where
  data := []
  bitlen := 0
  state := {
    a := 0x6a09e667, b := 0xbb67ae85, c := 0x3c6ef372, d := 0xa54ff53a
    e := 0x510e527f, f := 0x9b05688c, g := 0x1f83d9ab, h := 0x5be0cd19 }

/-- `sha256_update`, one byte. -/
def updateByte (ctx : Ctx) (b : UInt8) : Ctx :=
  let data := ctx.data ++ [b]
  if data.length = 64 then
    { data := [], bitlen := ctx.bitlen + 512, state := sha256Transform ctx.state data }
  else
    { ctx with data := data }

def sha256Update (ctx : Ctx) (data : List UInt8) : Ctx := data.foldl updateByte ctx

/-- Byte `i` of a word, the first the most significant. -/
def wordByte (w : UInt32) (i : Nat) : UInt8 := ((w >>> (24 - 8 * i).toUInt32) &&& 0xff).toUInt8

def sha256Final (ctx : Ctx) : Digest :=
  -- Pad whatever data is left in the buffer.
  let padded := ctx.data ++ [0x80]
  let (state, data) :=
    if ctx.data.length < 56 then
      (ctx.state, padded ++ List.replicate (56 - padded.length) 0)
    else
      (sha256Transform ctx.state (padded ++ List.replicate (64 - padded.length) 0),
        List.replicate 56 0)
  -- Append to the padding the total message's length in bits and transform.
  let bitlen := ctx.bitlen + ctx.data.length.toUInt64 * 8
  let length := (List.range 8).map fun i => (bitlen >>> (56 - 8 * i).toUInt64).toUInt8
  let state := sha256Transform state (data ++ length)
  let words := [state.a, state.b, state.c, state.d, state.e, state.f, state.g, state.h]
  Vector.ofFn fun i => wordByte (words.getD (i / 4) 0) (i % 4)

end Sha256
end CpeClock
