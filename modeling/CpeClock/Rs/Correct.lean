import CpeClock.Rs.Locator

/-!
# `decode_rs8` corrects five errors

First what the decoder computes for *any* word (`decodeRs8_eq`): the connection polynomial
`p` of the syndromes, its roots, and at each root the quotient of the truncated product
`p * S` by the derivative of `p`. Then the bounded case: when the word differs from a
codeword in at most five positions, `p` is the locator of these positions, so the roots are
exactly theirs and the quotients exactly the errors (`decodeRs8_corrects`).
-/

namespace CpeClock
namespace Rs

open Polynomial Lib

/-! ## The error values -/

theorem omegaOf_eq {S p : Gf32[X]} {deg : Nat} (hdeg : deg ≤ 10) :
    omegaOf rs32 (logs (seg S.coeff 0 10)) (logs (seg p.coeff 0 11)) deg
      = logs (seg (p * S).coeff 0 deg) := by
  refine map_range_eq_logs fun i hi => ?_
  have hsum : (p * S).coeff i = ∑ j ∈ Finset.range (i + 1), S.coeff (i - j) * p.coeff j := by
    rw [coeff_mul, Finset.Nat.sum_antidiagonal_eq_sum_range_succ_mk]
    exact Finset.sum_congr rfl fun j _ => mul_comm _ _
  rw [hsum]
  refine congrArg rs32.index (foldr_xor_range fun j hj q => ?_)
  rw [logs_getD (by omega), logs_getD (by omega), rsModnn_rs32, rs32_nn]
  exact guarded_mul q (S.coeff (i - j)) (p.coeff j)

theorem forneyNum_eq (W : Nat → Gf32) (deg root : Nat) :
    forneyNum rs32 (logs (seg W 0 deg)) root
      = (∑ i ∈ Finset.range deg, W i * (Gf32.x ^ root) ^ i).val.val := by
  unfold forneyNum
  rw [length_logs, length_seg]
  refine foldr_xor_range fun i hi q => ?_
  rw [logs_getD hi, rsModnn_rs32, rs32_nn, guarded_mul_pow, ← pow_mul, Nat.mul_comm i root]

theorem natCast_two_mul (h : Nat) : ((2 * h : Nat) : Gf32) = 0 := by
  have htwo : (2 : Gf32) = 0 := by rw [← one_add_one_eq_two]; exact Gf32.add_self 1
  push_cast
  rw [htwo, zero_mul]

theorem sum_range_two_mul (f : Nat → Gf32) (m : Nat) :
    ∑ n ∈ Finset.range (2 * m), f n
      = ∑ h ∈ Finset.range m, (f (2 * h) + f (2 * h + 1)) := by
  induction m with
  | zero => simp
  | succ m ih =>
    rw [Nat.mul_succ, Finset.sum_range_succ, Finset.sum_range_succ, ih, Finset.sum_range_succ,
      add_assoc]

/-- In characteristic two the derivative keeps the odd coefficients only. -/
theorem derivative_eval_eq {p : Gf32[X]} (hdeg : p.natDegree ≤ 10) (z : Gf32) :
    (derivative p).eval z
      = ∑ h ∈ Finset.range (min p.natDegree 9 / 2 + 1), p.coeff (2 * h + 1) * z ^ (2 * h) := by
  have hlt : (derivative p).natDegree < 2 * 6 := by
    have := natDegree_derivative_le p
    omega
  rw [eval_eq_sum_range' hlt, sum_range_two_mul]
  have hterm : ∀ h, (derivative p).coeff (2 * h) * z ^ (2 * h)
        + (derivative p).coeff (2 * h + 1) * z ^ (2 * h + 1)
      = p.coeff (2 * h + 1) * z ^ (2 * h) := by
    intro h
    have heven := natCast_two_mul h
    rw [coeff_derivative, coeff_derivative]
    push_cast at heven ⊢
    have hone : (1 + 1 : Gf32) = 0 := Gf32.add_self 1
    rw [heven, zero_add, mul_one, hone, mul_zero, zero_mul, add_zero]
  rw [Finset.sum_congr rfl fun h _ => hterm h]
  symm
  refine Finset.sum_subset ?_ fun h _ hnot => ?_
  · intro h hh
    have := Finset.mem_range.mp hh
    exact Finset.mem_range.mpr (by omega)
  · have hgt : ¬ h < min p.natDegree 9 / 2 + 1 := fun hh => hnot (Finset.mem_range.mpr hh)
    rw [coeff_eq_zero_of_natDegree_lt (by omega), zero_mul]

theorem forneyDen_eq {p : Gf32[X]} (hdeg : p.natDegree ≤ 10) (root : Nat) :
    forneyDen rs32 (logs (seg p.coeff 0 11)) p.natDegree root
      = ((derivative p).eval (Gf32.x ^ root)).val.val := by
  rw [derivative_eval_eq hdeg]
  refine foldr_xor_range fun h hh q => ?_
  dsimp only
  have h11 : 2 * h + 1 < 11 := by
    have hn : rs32.nroots - 1 = 9 := rfl
    rw [hn] at hh
    omega
  rw [logs_getD h11, rsModnn_rs32, rs32_nn, guarded_mul_pow, ← pow_mul, Nat.mul_comm root]

/-! ## Applying the errors -/

theorem modify_vals (y : Nat → Gf32) (n k : Nat) (c : Gf32) :
    (vals (seg y 0 n)).modify k (· ^^^ c.val.val)
      = vals (seg (fun j => if j = k then y j + c else y j) 0 n) := by
  apply List.ext_getElem
  · simp
  · intro i h1 h2
    have hi : i < n := by simpa using h2
    rw [List.getElem_modify]
    by_cases hik : i = k
    · subst hik
      simp [vals, seg, Gf32.val_add]
    · simp [vals, seg, hik, Ne.symm hik]

/-- One correction: the quotient of numerator and denominator is added at the location. -/
theorem applyError_eq {p S : Gf32[X]} (hdeg : p.natDegree ≤ 10) (y : Nat → Gf32) {root : Nat}
    (hden : (derivative p).eval (Gf32.x ^ root) ≠ 0) :
    applyError rs32 (logs (seg p.coeff 0 11)) (logs (seg (p * S).coeff 0 p.natDegree))
        p.natDegree 0 (vals (seg y 0 21)) (root, root - 1)
      = vals (seg (fun k => if k = root - 1 then
          y k + (∑ i ∈ Finset.range p.natDegree, (p * S).coeff i * (Gf32.x ^ root) ^ i)
            / (derivative p).eval (Gf32.x ^ root) else y k) 0 21) := by
  unfold applyError
  dsimp only
  rw [forneyNum_eq, forneyDen_eq hdeg]
  have hnum2 : rs32.index (rs32.alpha (rsModnn rs32 (root * (rs32.fcr - 1) + rs32.nn))) = 0 := by
    rw [show root * (rs32.fcr - 1) + rs32.nn = 31 by rw [show rs32.fcr - 1 = 0 from rfl]; rfl,
      rsModnn_rs32]
    rfl
  rw [hnum2]
  generalize (∑ i ∈ Finset.range p.natDegree, (p * S).coeff i * (Gf32.x ^ root) ^ i) = num
  generalize hd : (derivative p).eval (Gf32.x ^ root) = den at hden ⊢
  by_cases hnum : num = 0
  · rw [if_neg (fun h => h.1 (val_eq_zero_iff.mpr hnum)), hnum, zero_div]
    simp only [add_zero, ite_self]
  · rw [if_pos ⟨fun h => hnum (val_eq_zero_iff.mp h), Nat.zero_le _⟩, Nat.add_zero, rs32_nn,
      rsModnn_rs32, show rs32.index num.val.val = log num from rfl,
      show rs32.index den.val.val = log den from rfl, log_div hnum hden, alpha_log, Nat.sub_zero]
    split
    · exact modify_vals y 21 (root - 1) (num / den)
    · -- A location in the parity: `data` has no such entry.
      rename_i hpar
      have hpar' : ¬ root - 1 < 21 := hpar
      congr 1
      refine seg_congr fun k _ hk => ?_
      rw [if_neg (by omega)]

noncomputable def errAt (p S : Gf32[X]) (k : Nat) : Gf32 :=
  (∑ i ∈ Finset.range p.natDegree, (p * S).coeff i * (Gf32.x ^ (k + 1)) ^ i)
    / (derivative p).eval (Gf32.x ^ (k + 1))

theorem applyErrors_eq {p S : Gf32[X]} (hdeg : p.natDegree ≤ 10) :
    ∀ (roots : List Nat) (y : Nat → Gf32), roots.Nodup → (∀ i ∈ roots, 1 ≤ i) →
      (∀ i ∈ roots, (derivative p).eval (Gf32.x ^ i) ≠ 0) →
      (roots.map fun i => (i, i - 1)).foldl
          (applyError rs32 (logs (seg p.coeff 0 11)) (logs (seg (p * S).coeff 0 p.natDegree))
            p.natDegree 0) (vals (seg y 0 21))
        = vals (seg (fun k => if k + 1 ∈ roots then y k + errAt p S k else y k) 0 21)
  | [], y, _, _, _ => by simp
  | i :: roots, y, hnd, hpos, hden => by
    obtain ⟨hni, hnd'⟩ := List.nodup_cons.mp hnd
    have hi := hpos i List.mem_cons_self
    rw [List.map_cons, List.foldl_cons,
      applyError_eq hdeg y (hden i List.mem_cons_self),
      applyErrors_eq hdeg roots _ hnd' (fun j hj => hpos j (List.mem_cons_of_mem _ hj))
        (fun j hj => hden j (List.mem_cons_of_mem _ hj))]
    congr 1
    refine seg_congr fun k _ _ => ?_
    by_cases hk : k + 1 = i
    · subst hk
      rw [if_neg hni, Nat.add_sub_cancel, if_pos rfl, if_pos List.mem_cons_self, errAt]
    · have hk' : k ≠ i - 1 := by omega
      simp only [if_neg hk', List.mem_cons, hk, false_or]

/-! ## The decoder on any word -/

noncomputable def connection (y : Nat → Gf32) : Gf32[X] := (BM.run (synPoly y) 10).lam

theorem connection_natDegree_le (y : Nat → Gf32) : (connection y).natDegree ≤ 10 := by
  obtain ⟨_, _, h⟩ := BMInv.run (synPoly y) 10
  exact le_trans h.lam_deg h.el_le

theorem connection_coeff_zero (y : Nat → Gf32) : (connection y).coeff 0 = 1 := by
  obtain ⟨_, _, h⟩ := BMInv.run (synPoly y) 10
  exact h.lam_zero

/-- **What `decode_rs8` computes**, for every received word. -/
theorem decodeRs8_eq (y : Nat → Gf32) :
    decodeRs8 rs32 (vals (seg y 0 21)) (vals (seg y 21 10))
      = if ∀ i < 10, wordEval y 30 (Gf32.x ^ (i + 1)) = 0 then some (0, vals (seg y 0 21))
        else if (connection y).natDegree ≠ (rootExps (connection y) 1 31).length then none
        else some ((rootExps (connection y) 1 31).length,
          ((rootExps (connection y) 1 31).reverse.map fun i => (i, i - 1)).foldl
            (applyError rs32 (logs (seg (connection y).coeff 0 11))
              (logs (seg (connection y * synPoly y).coeff 0 (connection y).natDegree))
              (connection y).natDegree 0) (vals (seg y 0 21))) := by
  have hdeg := connection_natDegree_le y
  have hpad : rs32.nn - rs32.nroots - (vals (seg y 0 21)).length = 0 := by
    rw [length_vals, length_seg]; rfl
  have hlam : (berlekampMassey rs32 (logs (seg (synPoly y).coeff 0 10))).lambda.map rs32.index
      = logs (seg (connection y).coeff 0 11) := lambda_index_form (synPoly y)
  unfold decodeRs8
  dsimp only
  rw [hpad, syndromes_eq, map_index_vals, hlam, degLambda_eq hdeg,
    chienSearch_rootExps hdeg (connection_coeff_zero y), omegaOf_eq hdeg, List.length_map,
    ← List.map_reverse]
  by_cases hz : ∀ i < 10, wordEval y 30 (Gf32.x ^ (i + 1)) = 0
  · rw [if_pos ((syndromes_zero_iff y).mpr hz), if_pos hz]
  · rw [if_neg (fun h => hz ((syndromes_zero_iff y).mp h)), if_neg hz]

/-! ## Five errors -/

/-- A codeword: all ten syndromes are zero. -/
def IsCodeword (c : Nat → Gf32) : Prop := ∀ i < 10, wordEval c 30 (Gf32.x ^ (i + 1)) = 0

/-- The positions at which two words differ. -/
def diffSet (y c : Nat → Gf32) : Finset Nat := (Finset.range 31).filter fun p => y p ≠ c p

theorem mem_diffSet {y c : Nat → Gf32} {p : Nat} : p ∈ diffSet y c ↔ p < 31 ∧ y p ≠ c p := by
  rw [diffSet, Finset.mem_filter, Finset.mem_range]

def posLoc (p : Nat) : Gf32 := Gf32.x ^ (30 - p)

/-- The weight of a position: the error there, times its locator (the first root is `x`). -/
def posWeight (y c : Nat → Gf32) (p : Nat) : Gf32 := (y p + c p) * posLoc p

theorem posLoc_ne_zero (p : Nat) : posLoc p ≠ 0 := pow_ne_zero _ Gf32.x_ne_zero

theorem diffSet_subset (y c : Nat → Gf32) : diffSet y c ⊆ Finset.range 31 :=
  Finset.filter_subset _ _

theorem posLoc_injOn {E : Finset Nat} (hE : E ⊆ Finset.range 31) : Set.InjOn posLoc E := by
  intro p hp q hq h
  have hp' := Finset.mem_range.mp (hE hp)
  have hq' := Finset.mem_range.mp (hE hq)
  have := x_pow_injOn (by omega) (by omega) h
  omega

theorem posWeight_ne_zero {y c : Nat → Gf32} {p : Nat} (hp : p ∈ diffSet y c) :
    posWeight y c p ≠ 0 := by
  refine mul_ne_zero (fun h => (mem_diffSet.mp hp).2 ?_) (posLoc_ne_zero p)
  rw [← Gf32.sub_eq] at h
  exact sub_eq_zero.mp h

/-- **The syndromes of a word near a codeword are the power sums of its errors.** -/
theorem powerSums_diffSet {y c : Nat → Gf32} (hc : IsCodeword c) :
    PowerSums (synPoly y) 10 (diffSet y c) posLoc (posWeight y c) := by
  intro i hi
  rw [synPoly_coeff hi]
  have hsum : wordEval y 30 (Gf32.x ^ (i + 1))
      = ∑ p ∈ Finset.range 31, (y p + c p) * (Gf32.x ^ (i + 1)) ^ (30 - p) := by
    have h0 := hc i hi
    rw [wordEval] at h0 ⊢
    rw [← add_zero (∑ p ∈ Finset.range (30 + 1), y p * (Gf32.x ^ (i + 1)) ^ (30 - p)), ← h0,
      ← Finset.sum_add_distrib]
    exact Finset.sum_congr rfl fun p _ => (add_mul _ _ _).symm
  rw [hsum, diffSet, Finset.sum_filter]
  refine Finset.sum_congr rfl fun p _ => ?_
  by_cases hp : y p = c p
  · rw [if_neg (fun h => h hp), hp, Gf32.add_self, zero_mul]
  · rw [if_pos hp, posWeight, posLoc, mul_assoc, ← pow_succ', ← pow_mul, ← pow_mul,
      Nat.mul_comm]

theorem posLoc_inv {p : Nat} (hp : p < 31) : (posLoc p)⁻¹ = Gf32.x ^ (p + 1) := by
  rw [posLoc]
  refine inv_eq_of_mul_eq_one_right ?_
  rw [← pow_add, show 30 - p + (p + 1) = 31 by omega, Gf32.x_pow_31]

/-- The exponents at which the locator vanishes are the positions, one up. -/
theorem mem_rootExps_locator {E : Finset Nat} (hE : E ⊆ Finset.range 31) {i : Nat} :
    i ∈ rootExps (locator E posLoc) 1 31 ↔ 1 ≤ i ∧ i - 1 ∈ E := by
  rw [rootExps, List.mem_filter, List.mem_range'_1, decide_eq_true_eq,
    locator_eval_eq_zero_iff]
  constructor
  · rintro ⟨⟨h1, h2⟩, p, hp, hmul⟩
    have hp31 := Finset.mem_range.mp (hE hp)
    have hlog := congrArg log hmul
    rw [posLoc, ← pow_add, log_x_pow, log_one] at hlog
    have : p = i - 1 := by omega
    exact ⟨h1, this ▸ hp⟩
  · rintro ⟨h1, hp⟩
    have hp31 := Finset.mem_range.mp (hE hp)
    refine ⟨⟨h1, by omega⟩, i - 1, hp, ?_⟩
    rw [posLoc, ← pow_add, show 30 - (i - 1) + i = 31 by omega, Gf32.x_pow_31]

theorem rootExps_locator_length {E : Finset Nat} (hE : E ⊆ Finset.range 31) :
    (rootExps (locator E posLoc) 1 31).length = E.card := by
  have himage : (rootExps (locator E posLoc) 1 31).toFinset = E.image (· + 1) := by
    ext i
    rw [List.mem_toFinset, mem_rootExps_locator hE, Finset.mem_image]
    constructor
    · rintro ⟨h1, hp⟩
      exact ⟨i - 1, hp, by omega⟩
    · rintro ⟨p, hp, rfl⟩
      exact ⟨by omega, by rwa [Nat.add_sub_cancel]⟩
  rw [← List.toFinset_card_of_nodup (rootExps_nodup _ _ _), himage,
    Finset.card_image_of_injective _ (add_left_injective 1)]

theorem eval_eq_sum_of_degree_lt {p : Gf32[X]} {n : Nat} (hp : p.degree < n) (z : Gf32) :
    p.eval z = ∑ i ∈ Finset.range n, p.coeff i * z ^ i := by
  by_cases h0 : p = 0
  · simp [h0]
  · exact eval_eq_sum_range' ((natDegree_lt_iff_degree_lt h0).mpr hp) z

section Within

variable {y c : Nat → Gf32} (hc : IsCodeword c) (he : (diffSet y c).card ≤ 5)

include hc he

/-- The iteration ends in the locator of the positions in error. -/
theorem connection_eq_locator : connection y = locator (diffSet y c) posLoc := by
  obtain ⟨om, g, hinv⟩ := BMInv.run (synPoly y) 10
  exact (hinv.eq_locator (powerSums_diffSet hc) (posLoc_injOn (diffSet_subset y c))
    (fun p _ => posLoc_ne_zero p) (fun p hp => posWeight_ne_zero hp) (by omega)).1

theorem connection_natDegree : (connection y).natDegree = (diffSet y c).card := by
  rw [connection_eq_locator hc he, natDegree_locator fun p _ => posLoc_ne_zero p]

/-- The numerator of the quotients is the evaluator: the key equation, below `X ^ 10`. -/
theorem numerator_eq_evaluator (z : Gf32) :
    ∑ i ∈ Finset.range (diffSet y c).card, (connection y * synPoly y).coeff i * z ^ i
      = (evaluator (diffSet y c) posLoc (posWeight y c)).eval z := by
  have hkey := (keyEq_locator (powerSums_diffSet (y := y) hc)).eq
  rw [← connection_eq_locator hc he] at hkey
  rw [eval_eq_sum_of_degree_lt (evaluator_degree_lt (diffSet y c) posLoc (posWeight y c))]
  refine Finset.sum_congr rfl fun i hi => ?_
  have hi5 := Finset.mem_range.mp hi
  have hcoeff := X_pow_dvd_iff.mp hkey i (by omega)
  rw [coeff_sub] at hcoeff
  rw [sub_eq_zero.mp hcoeff]

/-- **At the root of a position in error the quotient is the error there.** -/
theorem errAt_eq {p : Nat} (hp : p ∈ diffSet y c) :
    errAt (connection y) (synPoly y) p = y p + c p := by
  have hp31 := (mem_diffSet.mp hp).1
  rw [errAt, connection_natDegree hc he, numerator_eq_evaluator hc he, ← posLoc_inv hp31,
    connection_eq_locator hc he, forney (posLoc_injOn (diffSet_subset y c)) hp (posLoc_ne_zero p),
    Gf32.neg_eq, posWeight, mul_div_assoc, div_self (posLoc_ne_zero p), mul_one]

/-- Ten zero syndromes leave no room for an error. -/
theorem diffSet_eq_empty (hz : IsCodeword y) : diffSet y c = ∅ := by
  by_contra hne
  obtain ⟨p, hp⟩ := Finset.nonempty_iff_ne_empty.mpr hne
  have hdvd : X ^ 10 ∣ synPoly y := by
    rw [X_pow_dvd_iff]
    intro i hi
    rw [synPoly_coeff hi, hz i hi]
  have h0 : errAt (connection y) (synPoly y) p = 0 := by
    rw [errAt, connection_natDegree hc he, Finset.sum_eq_zero, zero_div]
    intro i hi
    have hi5 := Finset.mem_range.mp hi
    rw [X_pow_dvd_iff.mp (hdvd.mul_left _) i (by omega), zero_mul]
  rw [errAt_eq hc he hp, ← Gf32.sub_eq] at h0
  exact (mem_diffSet.mp hp).2 (sub_eq_zero.mp h0)

theorem mem_rootExps_connection {i : Nat} :
    i ∈ rootExps (connection y) 1 31 ↔ 1 ≤ i ∧ i - 1 ∈ diffSet y c := by
  rw [connection_eq_locator hc he]
  exact mem_rootExps_locator (diffSet_subset y c)

theorem derivative_ne_zero_at_root {i : Nat} (hi : i ∈ rootExps (connection y) 1 31) :
    (derivative (connection y)).eval (Gf32.x ^ i) ≠ 0 := by
  obtain ⟨h1, hp⟩ := (mem_rootExps_connection hc he).mp hi
  have hinv := posLoc_inv (mem_diffSet.mp hp).1
  rw [Nat.sub_add_cancel h1] at hinv
  rw [← hinv, connection_eq_locator hc he, derivative_locator_eval_inv hp (posLoc_ne_zero _)]
  exact mul_ne_zero (neg_ne_zero.mpr (posLoc_ne_zero _))
    (prod_erase_ne_zero (posLoc_injOn (diffSet_subset y c)) hp (posLoc_ne_zero _))

/-- **Up to five errors are corrected.** A word that differs from a codeword in `e ≤ 5`
    positions, data or parity, makes `decode_rs8` return `e` and leave the codeword's data. -/
theorem decodeRs8_corrects :
    decodeRs8 rs32 (vals (seg y 0 21)) (vals (seg y 21 10))
      = some ((diffSet y c).card, vals (seg c 0 21)) := by
  have hlen : (rootExps (connection y) 1 31).length = (diffSet y c).card := by
    rw [connection_eq_locator hc he, rootExps_locator_length (diffSet_subset y c)]
  have hsame : ∀ p < 31, p ∉ diffSet y c → y p = c p := by
    intro p hp hnot
    by_contra hne
    exact hnot (mem_diffSet.mpr ⟨hp, hne⟩)
  rw [decodeRs8_eq]
  split
  · rename_i hz
    have hE := diffSet_eq_empty hc he hz
    rw [hE, Finset.card_empty]
    congr 2
    refine congrArg vals (seg_congr fun p _ hp => hsame p (by omega) ?_)
    rw [hE]
    exact Finset.notMem_empty p
  · rw [if_neg (fun h => h (by rw [connection_natDegree hc he, hlen])), hlen,
      applyErrors_eq (connection_natDegree_le y) _ y
        (List.nodup_reverse.mpr (rootExps_nodup _ _ _))
        (fun i hi => ((mem_rootExps_connection hc he).mp (List.mem_reverse.mp hi)).1)
        (fun i hi => derivative_ne_zero_at_root hc he (List.mem_reverse.mp hi))]
    congr 2
    refine congrArg vals (seg_congr fun p _ hp => ?_)
    have hmem : p + 1 ∈ (rootExps (connection y) 1 31).reverse ↔ p ∈ diffSet y c := by
      rw [List.mem_reverse, mem_rootExps_connection hc he, Nat.add_sub_cancel]
      exact and_iff_right (by omega)
    by_cases hpE : p ∈ diffSet y c
    · rw [if_pos (hmem.mpr hpE), errAt_eq hc he hpE, ← add_assoc, Gf32.add_self, zero_add]
    · rw [if_neg (fun h => hpE (hmem.mp h))]
      exact hsame p (by omega) hpE

end Within

end Rs
end CpeClock
