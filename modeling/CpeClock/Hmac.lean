import CpeClock.Sha256

/-!
# `hmac.c`

The keyed hash. The counter's eight bytes, in the order in which the (little-endian) machine
stores them, extend the key. The hash is a parameter, a function of the bytes passed to
`sha256_update`; `sha256` is the one the clock uses.
-/

namespace CpeClock

open Sha256

/-- A hash of a byte string, `sha256_init`, `sha256_update` and `sha256_final` in one. -/
abbrev Hash := List UInt8 → Digest

def sha256 : Hash := fun data => sha256Final (sha256Update sha256Init data)

def hmacBlockSize : Nat := 64

/-- `(const uint8_t *) counter`. -/
def counterData (counter : UInt64) : List UInt8 :=
  (List.range 8).map fun i => (counter >>> (8 * i).toUInt64).toUInt8

/-- `k_pad` for the inner hash: the key, the counter, and zeros, as far as they fit. -/
def kPad (keyData : List UInt8) (counter : UInt64) : List UInt8 :=
  let key := (keyData.take hmacBlockSize).map (· ^^^ 0x36)
  let keyed := key ++ ((counterData counter).take (hmacBlockSize - key.length)).map (· ^^^ 0x36)
  keyed ++ List.replicate (hmacBlockSize - keyed.length) 0x36

def hmacSha256 (hash : Hash) (keyData : List UInt8) (counter : UInt64) (message : List UInt8) :
    Digest :=
  let digest := hash (kPad keyData counter ++ message)
  hash ((kPad keyData counter).map (· ^^^ (0x5c ^^^ 0x36)) ++ digest.toList)

/-- The first of the two vectors in `test_hmac433.c`. -/
example : (hmacSha256 sha256 [0x6b, 0x65, 0x79, 0x64, 0x61, 0x74, 0x61] 0
      [0x6d, 0x65, 0x73, 0x73, 0x61, 0x67, 0x65]).toList
    = [0xea, 0x2e, 0xd4, 0x62, 0x58, 0x6c, 0x61, 0xa9, 0xc2, 0x95, 0xd7, 0xb5, 0x2c, 0x95, 0x1f,
       0x07, 0x8d, 0x6d, 0x17, 0x61, 0x71, 0x16, 0xfa, 0x84, 0x38, 0x70, 0xc3, 0x86, 0x59, 0x0f,
       0x1f, 0x1d] := by
  decide +kernel

end CpeClock
