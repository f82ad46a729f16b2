import CpeClock.Lib.BlockStream
import Mathlib.Data.Nat.Digits.Defs
import Mathlib.Data.Nat.Nth
import Mathlib.Data.Nat.NthRoot.Defs
import Mathlib.Data.Nat.Prime.Defs

/-!
# SHA-256, as the Secure Hash Standard has it

Nothing here is taken from a program: words are strings of 32 bits, `ROTR` is a rotation of them,
the round constants are read off the cube roots of the first 64 primes and the initial hash value
off the square roots of the first eight. A message is padded in one piece, cut into blocks, and the
blocks are chained.
-/

namespace CpeClock
namespace Lib
namespace Sha2

abbrev Word := BitVec 32

/-! ## The functions -/

def ch (x y z : Word) : Word := (x &&& y) ^^^ (~~~x &&& z)
def maj (x y z : Word) : Word := (x &&& y) ^^^ (x &&& z) ^^^ (y &&& z)
def bigSigma0 (x : Word) : Word := x.rotateRight 2 ^^^ x.rotateRight 13 ^^^ x.rotateRight 22
def bigSigma1 (x : Word) : Word := x.rotateRight 6 ^^^ x.rotateRight 11 ^^^ x.rotateRight 25
def smallSigma0 (x : Word) : Word := x.rotateRight 7 ^^^ x.rotateRight 18 ^^^ x >>> 3
def smallSigma1 (x : Word) : Word := x.rotateRight 17 ^^^ x.rotateRight 19 ^^^ x >>> 10

/-! ## The constants -/

/-- The first 32 bits of the fractional part of the `n`th root of prime number `t`, counted from
    zero. -/
noncomputable def rootBits (n t : ℕ) : Word :=
  BitVec.ofNat 32 (Nat.nthRoot n (Nat.nth Nat.Prime t * 2 ^ (32 * n)))

noncomputable def constant (t : ℕ) : Word := rootBits 3 t

/-- A hash value, and the working variables of a round. -/
structure HashValue where
  (a b c d e f g h : Word)

noncomputable def initial : HashValue :=
  ⟨rootBits 2 0, rootBits 2 1, rootBits 2 2, rootBits 2 3, rootBits 2 4, rootBits 2 5,
    rootBits 2 6, rootBits 2 7⟩

/-! ## One block -/

/-- The `t`th word of the message schedule. -/
def messageWord (block : List UInt8) (t : ℕ) : Word :=
  if t < 16 then
    BitVec.ofNat 32 (Nat.ofDigits 256 (((block.drop (4 * t)).take 4).map UInt8.toNat).reverse)
  else
    smallSigma1 (messageWord block (t - 2)) + messageWord block (t - 7)
      + smallSigma0 (messageWord block (t - 15)) + messageWord block (t - 16)
termination_by t
decreasing_by all_goals omega

noncomputable def round (block : List UInt8) (v : HashValue) (t : ℕ) : HashValue :=
  let t1 := v.h + bigSigma1 v.e + ch v.e v.f v.g + constant t + messageWord block t
  let t2 := bigSigma0 v.a + maj v.a v.b v.c
  { a := t1 + t2, b := v.a, c := v.b, d := v.c, e := v.d + t1, f := v.e, g := v.f, h := v.g }

/-- The hash value after one more block: 64 rounds, and the sum with the value before. -/
noncomputable def hashBlock (h : HashValue) (block : List UInt8) : HashValue :=
  let v := (List.range 64).foldl (round block) h
  { a := h.a + v.a, b := h.b + v.b, c := h.c + v.c, d := h.d + v.d
    e := h.e + v.e, f := h.f + v.f, g := h.g + v.g, h := h.h + v.h }

/-! ## A message -/

/-- A number, in so many bytes, the most significant first. -/
def bigEndianBytes (bytes n : ℕ) : List UInt8 :=
  (List.range bytes).map fun i => UInt8.ofNat (n / 256 ^ (bytes - 1 - i))

/-- The padded message: a bit 1, as many zeros as it takes, and the length in bits, to fill up a
    block. -/
def padded (message : List UInt8) : List UInt8 :=
  message ++ 0x80 :: List.replicate ((119 - message.length % 64) % 64) 0
    ++ bigEndianBytes 8 (8 * message.length)

def HashValue.bytes (h : HashValue) : List UInt8 :=
  [h.a, h.b, h.c, h.d, h.e, h.f, h.g, h.h].flatMap fun w => bigEndianBytes 4 w.toNat

/-- SHA-256 of a message. -/
noncomputable def sha256 (message : List UInt8) : List UInt8 :=
  (BlockStream.chain hashBlock 64 initial (padded message)).bytes

theorem length_bigEndianBytes (bytes n : ℕ) : (bigEndianBytes bytes n).length = bytes := by
  rw [bigEndianBytes, List.length_map, List.length_range]

/-! ## The constants, computed -/

/-- The first 64 primes. -/
def primes : List ℕ := (List.range 312).filter Nat.Prime

theorem nth_prime {t : ℕ} (ht : t < 64) : Nat.nth Nat.Prime t = primes.getD t 0 := by
  have hcount : ∀ t < 64, (primes.getD t 0).Prime ∧ Nat.count Nat.Prime (primes.getD t 0) = t := by
    decide +kernel
  obtain ⟨hprime, hplace⟩ := hcount t ht
  rw [← Nat.nth_count hprime, hplace]

theorem rootBits_eq (n : ℕ) {t : ℕ} (ht : t < 64) :
    rootBits n t = BitVec.ofNat 32 (Nat.nthRoot n (primes.getD t 0 * 2 ^ (32 * n))) := by
  rw [rootBits, nth_prime ht]

end Sha2
end Lib
end CpeClock
