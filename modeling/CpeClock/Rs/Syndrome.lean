import CpeClock.Lib.ErrorLocator
import CpeClock.Rs.Codec
import CpeClock.Rs.Forms

/-!
# The syndrome loops, in the field

A received word is a function `y` from the 31 positions to the field: 21 data symbols, then
10 parity symbols. The coefficient of position `p` belongs to `x ^ (30 - p)`, so `y` is the
polynomial whose values at `x, …, x ^ 10` the two syndrome loops compute by Horner's rule.
-/

namespace CpeClock
namespace Rs

open Polynomial

/-- The value at `β` of the word `y`, read as a polynomial of degree at most `n`. -/
def wordEval (y : Nat → Gf32) (n : Nat) (β : Gf32) : Gf32 :=
  ∑ p ∈ Finset.range (n + 1), y p * β ^ (n - p)

/-- The syndromes of a word, as the polynomial the decoder works on. -/
noncomputable def synPoly (y : Nat → Gf32) : Gf32[X] :=
  ∑ i ∈ Finset.range 10, C (wordEval y 30 (Gf32.x ^ (i + 1))) * X ^ i

theorem synPoly_coeff {y : Nat → Gf32} {i : Nat} (hi : i < 10) :
    (synPoly y).coeff i = wordEval y 30 (Gf32.x ^ (i + 1)) := by
  rw [synPoly, finsetSum_coeff, Finset.sum_eq_single i]
  · rw [coeff_C_mul_X_pow, if_pos rfl]
  · intro j _ hne
    rw [coeff_C_mul_X_pow, if_neg (Ne.symm hne)]
  · intro hnot
    exact absurd (Finset.mem_range.mpr hi) hnot

theorem wordEval_zero (y : Nat → Gf32) (β : Gf32) : wordEval y 0 β = y 0 := by
  simp [wordEval]

theorem wordEval_succ (y : Nat → Gf32) (n : Nat) (β : Gf32) :
    wordEval y (n + 1) β = wordEval y n β * β + y (n + 1) := by
  rw [wordEval, Finset.sum_range_succ, Nat.sub_self, pow_zero, mul_one, wordEval,
    Finset.sum_mul]
  congr 1
  refine Finset.sum_congr rfl fun p hp => ?_
  have hle : p ≤ n := Nat.lt_succ_iff.mp (Finset.mem_range.mp hp)
  rw [mul_assoc, ← pow_succ, Nat.succ_sub hle]

theorem foldl_horner (y : Nat → Gf32) (β : Gf32) (n : Nat) :
    (seg y 1 n).foldl (fun s e => s * β + e) (y 0) = wordEval y n β := by
  induction n with
  | zero => exact (wordEval_zero y β).symm
  | succ n ih =>
    rw [seg_succ_right, List.foldl_append, ih, wordEval_succ, Nat.add_comm 1 n]
    rfl

/-! ## The source's loops -/

theorem val_and_nn (a : Gf32) : a.val.val &&& rs32.nn = a.val.val :=
  (Nat.and_two_pow_sub_one_eq_mod a.val.val 5).trans (Nat.mod_eq_of_lt a.val_lt)

/-- The body of the syndrome loops is one turn of Horner's rule. -/
theorem synStep_eq (i : Nat) (s d : Gf32) :
    synStep rs32 i s.val.val d.val.val = (s * Gf32.x ^ (i + 1) + d).val.val := by
  have hexp : (rs32.fcr + i) * rs32.prim = i + 1 := by
    show (1 + i) * 1 = i + 1
    omega
  unfold synStep
  rw [val_and_nn, hexp, rsModnn_rs32]
  by_cases hs : s = 0
  · rw [if_pos (val_eq_zero_iff.mpr hs), hs, zero_mul, zero_add]
  · rw [if_neg (fun h => hs (val_eq_zero_iff.mp h)), show rs32.index s.val.val = log s from rfl,
      alpha_mod, pow_add, x_pow_log hs, Gf32.val_add, Nat.xor_comm]

theorem synSweep_eq (es : List Gf32) (s : Nat → Gf32) (n : Nat) :
    (vals es).foldl (fun syn d => syn.mapIdx fun i t => synStep rs32 i t d) (vals (seg s 0 n))
      = vals (seg (fun i => es.foldl (fun t e => t * Gf32.x ^ (i + 1) + e) (s i)) 0 n) := by
  induction es generalizing s with
  | nil => rfl
  | cons e es ih =>
    have hstep : (vals (seg s 0 n)).mapIdx (fun i t => synStep rs32 i t e.val.val)
        = vals (seg (fun i => s i * Gf32.x ^ (i + 1) + e) 0 n) :=
      mapIdx_vals fun i _ => synStep_eq i (s i) e
    show (vals es).foldl _ ((vals (seg s 0 n)).mapIdx fun i t => synStep rs32 i t e.val.val) = _
    rw [hstep, ih]
    rfl

/-- **The syndromes are the values of the word at `x, …, x ^ 10`.** -/
theorem syndromes_eq (y : Nat → Gf32) :
    syndromes rs32 (vals (seg y 0 21)) (vals (seg y 21 10))
      = vals (seg (synPoly y).coeff 0 10) := by
  have hinit : List.replicate rs32.nroots ((vals (seg y 0 21)).getD 0 0 &&& rs32.nn)
      = vals (seg (fun _ => y 0) 0 10) := by
    rw [vals_getD (by decide), val_and_nn]
    rfl
  have htail : (vals (seg y 0 21)).tail = vals (seg y 1 20) := by
    rw [seg_succ]; rfl
  unfold syndromes
  dsimp only
  rw [hinit, htail, ← List.foldl_append, ← vals_append, seg_append, synSweep_eq]
  congr 1
  refine seg_congr fun i _ hi => ?_
  rw [synPoly_coeff (by omega), foldl_horner]

/-- The test for "data[] is a codeword": the OR of the syndromes is zero only if all are. -/
theorem foldl_or_eq_zero_iff (l : List Nat) (q : Nat) :
    l.foldl (· ||| ·) q = 0 ↔ q = 0 ∧ ∀ v ∈ l, v = 0 := by
  induction l generalizing q with
  | nil => simp
  | cons v l ih =>
    rw [List.foldl_cons, ih, Nat.or_eq_zero_iff, List.forall_mem_cons, and_assoc]

theorem syndromes_zero_iff (y : Nat → Gf32) :
    (vals (seg (synPoly y).coeff 0 10)).foldl (· ||| ·) 0 = 0
      ↔ ∀ i < 10, wordEval y 30 (Gf32.x ^ (i + 1)) = 0 := by
  rw [foldl_or_eq_zero_iff]
  constructor
  · rintro ⟨-, h⟩ i hi
    rw [← synPoly_coeff hi]
    refine val_eq_zero_iff.mp (h _ ?_)
    exact List.mem_map_of_mem (f := fun a : Gf32 => a.val.val)
      (List.mem_map_of_mem (List.mem_range'_1.mpr ⟨Nat.zero_le i, by omega⟩))
  · intro h
    refine ⟨rfl, fun v hv => ?_⟩
    obtain ⟨a, ha, rfl⟩ := List.mem_map.mp hv
    obtain ⟨i, hi, rfl⟩ := List.mem_map.mp ha
    have hi10 : i < 10 := by have := List.mem_range'_1.mp hi; omega
    rw [synPoly_coeff hi10, h i hi10]
    rfl

end Rs
end CpeClock
