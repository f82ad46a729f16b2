import Mathlib.Data.List.Basic
import Mathlib.Data.Nat.Bitwise

/-!
# Copying bits one at a time

The loop that packs bits into words, whatever the two word sizes: bit number `k` of a stream
is OR-ed into word `idx k` at place `sh k`, over words that start at zero. Its specification
is one bit of one word (`scatterBits_testBit`).
-/

namespace CpeClock
namespace Lib

def scatterStep (idx sh bit : Nat → Nat) (ws : List Nat) (k : Nat) : List Nat :=
  ws.modify (idx k) (· ||| bit k <<< sh k)

/-- `n` turns, over `m` words. -/
def scatterBits (m n : Nat) (idx sh bit : Nat → Nat) : List Nat :=
  (List.range n).foldl (scatterStep idx sh bit) (List.replicate m 0)

@[simp]
theorem scatterBits_zero (m : Nat) (idx sh bit : Nat → Nat) :
    scatterBits m 0 idx sh bit = List.replicate m 0 := rfl

theorem scatterBits_succ (m n : Nat) (idx sh bit : Nat → Nat) :
    scatterBits m (n + 1) idx sh bit
      = (scatterBits m n idx sh bit).modify (idx n) (· ||| bit n <<< sh n) := by
  rw [scatterBits, List.range_succ, List.foldl_append]
  rfl

@[simp]
theorem length_scatterBits (m n : Nat) (idx sh bit : Nat → Nat) :
    (scatterBits m n idx sh bit).length = m := by
  induction n with
  | zero => simp
  | succ n ih => rw [scatterBits_succ, List.length_modify, ih]

theorem testBit_shiftLeft_of_le_one {v : Nat} (hv : v ≤ 1) (s b : Nat) :
    (v <<< s).testBit b = decide (s = b ∧ v = 1) := by
  rw [Nat.testBit_shiftLeft]
  rcases Nat.le_one_iff_eq_zero_or_eq_one.mp hv with rfl | rfl
  · simp
  · rw [Bool.eq_iff_iff, Bool.and_eq_true, decide_eq_true_eq, decide_eq_true_eq,
      Nat.testBit_one_eq_true_iff_self_eq_zero]
    omega

/-- **One bit of one word**: it is set when some turn of the loop sets it. -/
theorem scatterBits_testBit {m n : Nat} {idx sh bit : Nat → Nat} (hbit : ∀ k, bit k ≤ 1)
    {q : Nat} (hq : q < m) (b : Nat) :
    ((scatterBits m n idx sh bit).getD q 0).testBit b = true
      ↔ ∃ k < n, idx k = q ∧ sh k = b ∧ bit k = 1 := by
  induction n with
  | zero => simp [List.getD_eq_getElem?_getD, hq]
  | succ n ih =>
    have hlen : q < (scatterBits m n idx sh bit).length := by simpa using hq
    have hstep : (scatterBits m (n + 1) idx sh bit).getD q 0
        = if idx n = q then (scatterBits m n idx sh bit).getD q 0 ||| bit n <<< sh n
          else (scatterBits m n idx sh bit).getD q 0 := by
      rw [scatterBits_succ, List.getD_eq_getElem?_getD, List.getElem?_modify,
        List.getD_eq_getElem?_getD, List.getElem?_eq_getElem hlen]
      by_cases h : idx n = q
      · simp [h]
      · simp [h]
    have hsplit : (∃ k < n + 1, idx k = q ∧ sh k = b ∧ bit k = 1)
        ↔ (∃ k < n, idx k = q ∧ sh k = b ∧ bit k = 1)
          ∨ (idx n = q ∧ sh n = b ∧ bit n = 1) := by
      constructor
      · rintro ⟨k, hk, h⟩
        rcases Nat.lt_succ_iff_lt_or_eq.mp hk with hlt | rfl
        · exact Or.inl ⟨k, hlt, h⟩
        · exact Or.inr h
      · rintro (⟨k, hk, h⟩ | h)
        · exact ⟨k, Nat.lt_succ_of_lt hk, h⟩
        · exact ⟨n, Nat.lt_succ_self n, h⟩
    rw [hstep, hsplit, ← ih]
    by_cases h : idx n = q
    · rw [if_pos h, Nat.testBit_or, testBit_shiftLeft_of_le_one (hbit n), Bool.or_eq_true,
        decide_eq_true_eq]
      simp [h]
    · rw [if_neg h]
      simp [h]

end Lib
end CpeClock
