import Mathlib.Data.List.Basic

/-!
# HMAC

The standard construction of a keyed hash from a hash that works in blocks. The key is brought to
the length of a block, by hashing it if it is longer and by zeros if it is shorter, and the block so
made stands before the text in the inner hash and before the inner digest in the outer one, each
time under a mask of its own.
-/

namespace CpeClock
namespace Lib
namespace KeyedHash

variable (hash : List UInt8 → List UInt8) (blockSize : Nat)

/-- The key, with the length of a block. -/
def keyBlock (key : List UInt8) : List UInt8 :=
  let key := if blockSize < key.length then hash key else key
  key ++ List.replicate (blockSize - key.length) 0

def ipad : UInt8 := 0x36

def opad : UInt8 := 0x5c

def hmac (key text : List UInt8) : List UInt8 :=
  hash ((keyBlock hash blockSize key).map (· ^^^ opad)
    ++ hash ((keyBlock hash blockSize key).map (· ^^^ ipad) ++ text))

variable {hash blockSize}

theorem keyBlock_of_le {key : List UInt8} (h : key.length ≤ blockSize) :
    keyBlock hash blockSize key = key ++ List.replicate (blockSize - key.length) 0 := by
  unfold keyBlock
  rw [if_neg (Nat.not_lt.mpr h)]

/-- Keys of the same length that fit in a block are told apart by their blocks. -/
theorem keyBlock_inj {key key' : List UInt8} (hlength : key.length = key'.length)
    (h : key.length ≤ blockSize)
    (hblock : keyBlock hash blockSize key = keyBlock hash blockSize key') : key = key' := by
  rw [keyBlock_of_le h, keyBlock_of_le (hlength ▸ h), ← hlength] at hblock
  exact List.append_cancel_right hblock

/-- The outer block can be had from the inner one in place. -/
theorem map_ipad_map_opad (block : List UInt8) :
    (block.map (· ^^^ ipad)).map (· ^^^ (opad ^^^ ipad)) = block.map (· ^^^ opad) := by
  have hmask (b : UInt8) : b ^^^ ipad ^^^ (opad ^^^ ipad) = b ^^^ opad := by
    rw [UInt8.xor_comm opad, ← UInt8.xor_assoc, UInt8.xor_assoc b, UInt8.xor_self, UInt8.xor_zero]
  rw [List.map_map]
  exact List.map_congr_left fun b _ => hmask b

/-- The computation that keeps one buffer: the inner block, then the outer in its place. -/
theorem hmac_eq {key block : List UInt8}
    (h : block = (keyBlock hash blockSize key).map (· ^^^ ipad)) (text : List UInt8) :
    hash (block.map (· ^^^ (opad ^^^ ipad)) ++ hash (block ++ text))
      = hmac hash blockSize key text := by
  rw [h, map_ipad_map_opad]
  rfl

end KeyedHash
end Lib
end CpeClock
