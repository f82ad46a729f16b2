import CpeClock.Rs.Correct

/-!
# `encode_rs8` makes codewords

The encoder is a shift register that divides by the generator polynomial. At a root `β` of
the generator one turn multiplies the register's value by `β` and adds `d * β ^ 10`
(`encodeStep_eq`), so after the data the register holds minus what the data contribute there,
and data and parity together vanish at all ten roots.
-/

namespace CpeClock
namespace Rs

/-- The coefficients of the generator polynomial, read from their index form. -/
def genCoeff (i : Nat) : Gf32 := Gf32.x ^ rs32.genpoly.getD i 0

/-- The ten roots of the generator polynomial, which is monic of degree ten. -/
theorem generator_root : ∀ i < 10,
    ∑ j ∈ Finset.range 10, genCoeff j * (Gf32.x ^ (i + 1)) ^ j = (Gf32.x ^ (i + 1)) ^ 10 := by
  decide +kernel

def regNext (q : Nat → Gf32) (d : Gf32) (j : Nat) : Gf32 :=
  if j < 9 then q (j + 1) + (d + q 0) * genCoeff (9 - j) else (d + q 0) * genCoeff 0

theorem fb_mul_genCoeff {fb : Gf32} (hfb : fb ≠ 0) (i : Nat) :
    rs32.alpha (rsModnn rs32 (log fb + rs32.genpoly.getD i 0)) = (fb * genCoeff i).val.val := by
  rw [rsModnn_rs32, alpha_mod, pow_add, x_pow_log hfb, genCoeff]

theorem encodeStep_eq (q : Nat → Gf32) (d : Gf32) :
    encodeStep rs32 (vals (seg q 0 10)) d.val.val = vals (seg (regNext q d) 0 10) := by
  have hfb : rs32.index ((d.val.val &&& rs32.nn) ^^^ (vals (seg q 0 10)).getD 0 0)
      = log (d + q 0) := by
    rw [val_and_nn, vals_getD (by decide), ← Gf32.val_add]
    rfl
  -- The XORs before the shift.
  have hmid : (if log (d + q 0) ≠ rs32.nn then
        (vals (seg q 0 10)).mapIdx fun j p => if 1 ≤ j ∧ j < rs32.nroots then
          p ^^^ rs32.alpha (rsModnn rs32 (log (d + q 0) + rs32.genpoly.getD (rs32.nroots - j) 0))
          else p
      else vals (seg q 0 10))
      = vals (seg (fun j => if 1 ≤ j then q j + (d + q 0) * genCoeff (10 - j) else q j) 0 10) := by
    by_cases hz : d + q 0 = 0
    · rw [hz, if_log_zero]
      refine congrArg vals (seg_congr fun j _ _ => ?_)
      rw [zero_mul, add_zero, ite_self]
    · rw [if_log_ne hz]
      refine mapIdx_vals fun j hj => ?_
      by_cases h1 : 1 ≤ j
      · rw [if_pos ⟨h1, hj⟩, if_pos h1, fb_mul_genCoeff hz, Gf32.val_add]
        rfl
      · rw [if_neg (fun h => h1 h.1), if_neg h1]
  have hlast : (if log (d + q 0) ≠ rs32.nn then
        rs32.alpha (rsModnn rs32 (log (d + q 0) + rs32.genpoly.getD 0 0)) else 0)
      = ((d + q 0) * genCoeff 0).val.val := by
    by_cases hz : d + q 0 = 0
    · rw [hz, if_log_zero, zero_mul]
      rfl
    · rw [if_log_ne hz, fb_mul_genCoeff hz]
  unfold encodeStep
  dsimp only
  rw [hfb, hmid, hlast, seg_succ, seg_succ_right (regNext q d), vals_append]
  -- The shift: register `j` takes what `j + 1` held.
  rfl

theorem wordEval_regNext (q : Nat → Gf32) (d : Gf32) {i : Nat} (hi : i < 10) :
    wordEval (regNext q d) 9 (Gf32.x ^ (i + 1))
      = wordEval q 9 (Gf32.x ^ (i + 1)) * Gf32.x ^ (i + 1) + d * (Gf32.x ^ (i + 1)) ^ 10 := by
  have hroot := generator_root i hi
  generalize Gf32.x ^ (i + 1) = β at *
  simp only [wordEval, Finset.sum_range_succ, Finset.sum_range_zero, regNext] at hroot ⊢
  norm_num at hroot ⊢
  linear_combination (d + q 0) * hroot

theorem encodeRs8_eq (es : List Gf32) (q : Nat → Gf32) :
    ∃ q', encodeRs8 rs32 (vals es) (vals (seg q 0 10)) = vals (seg q' 0 10) ∧
      ∀ i < 10, wordEval q' 9 (Gf32.x ^ (i + 1))
        = es.foldl (fun s e => s * Gf32.x ^ (i + 1) + e * (Gf32.x ^ (i + 1)) ^ 10)
            (wordEval q 9 (Gf32.x ^ (i + 1))) := by
  induction es generalizing q with
  | nil => exact ⟨q, rfl, fun _ _ => rfl⟩
  | cons e es ih =>
    obtain ⟨q', hq', hval⟩ := ih (regNext q e)
    refine ⟨q', ?_, fun i hi => ?_⟩
    · show encodeRs8 rs32 (vals es) (encodeStep rs32 (vals (seg q 0 10)) e.val.val) = _
      rw [encodeStep_eq, hq']
    · rw [hval i hi, List.foldl_cons, wordEval_regNext q e hi]

/-! ## Splitting a word -/

theorem wordEval_split (c : Nat → Gf32) (m n : Nat) (β : Gf32) :
    wordEval c (m + 1 + n) β
      = wordEval c m β * β ^ (n + 1) + wordEval (fun j => c (m + 1 + j)) n β := by
  induction n with
  | zero => rw [Nat.add_zero, wordEval_succ, wordEval_zero, Nat.zero_add, pow_one]
  | succ n ih =>
    rw [← Nat.add_assoc, wordEval_succ, ih, wordEval_succ, add_mul, mul_assoc, ← pow_succ,
      add_assoc]
    rfl

theorem foldl_scaled_horner (es : List Gf32) (β γ s : Gf32) :
    es.foldl (fun s e => s * β + e * γ) (s * γ) = es.foldl (fun s e => s * β + e) s * γ := by
  induction es generalizing s with
  | nil => rfl
  | cons e es ih =>
    rw [List.foldl_cons, List.foldl_cons, ← ih,
      show s * γ * β + e * γ = (s * β + e) * γ by ring]

/-- **Data followed by their parity form a codeword.** -/
theorem encodeRs8_codeword (m : Nat → Gf32) :
    ∃ c, IsCodeword c ∧ (∀ p < 21, c p = m p) ∧
      encodeRs8 rs32 (vals (seg m 0 21)) (List.replicate 10 0) = vals (seg c 21 10) := by
  obtain ⟨q, hq, hval⟩ := encodeRs8_eq (seg m 0 21) (fun _ => 0)
  refine ⟨fun p => if p < 21 then m p else q (p - 21), fun i hi => ?_, fun p hp => if_pos hp,
    ?_⟩
  · have hdata : wordEval (fun p => if p < 21 then m p else q (p - 21)) 20 (Gf32.x ^ (i + 1))
        = wordEval m 20 (Gf32.x ^ (i + 1)) := by
      refine Finset.sum_congr rfl fun p hp => ?_
      simp only [if_pos (show p < 21 from Finset.mem_range.mp hp)]
    have hpar : wordEval (fun j => (fun p => if p < 21 then m p else q (p - 21)) (20 + 1 + j)) 9
          (Gf32.x ^ (i + 1)) = wordEval q 9 (Gf32.x ^ (i + 1)) := by
      refine Finset.sum_congr rfl fun j _ => ?_
      simp only [if_neg (show ¬ 20 + 1 + j < 21 by omega), show 20 + 1 + j - 21 = j by omega]
    have hzero : wordEval (fun _ => 0) 9 (Gf32.x ^ (i + 1))
        = 0 * (Gf32.x ^ (i + 1)) ^ 10 := by
      simp [wordEval]
    rw [show 30 = 20 + 1 + 9 from rfl, wordEval_split, hdata, hpar, hval i hi, hzero,
      foldl_scaled_horner, seg_succ, List.foldl_cons, zero_mul, zero_add, foldl_horner]
    exact Gf32.add_self _
  · have hrep : vals (seg (fun _ => 0) 0 10) = List.replicate 10 0 := by decide +kernel
    rw [← hrep, hq]
    unfold seg
    rw [List.range'_eq_map_range, List.range'_eq_map_range, List.map_map, List.map_map]
    refine congrArg vals (List.map_congr_left fun j _ => ?_)
    show q (0 + j) = if 21 + j < 21 then m (21 + j) else q (21 + j - 21)
    rw [if_neg (by omega), Nat.zero_add, Nat.add_sub_cancel_left]

end Rs
end CpeClock
