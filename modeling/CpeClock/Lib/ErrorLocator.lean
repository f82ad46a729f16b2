import CpeClock.Lib.BerlekampMassey
import Mathlib.Algebra.Polynomial.BigOperators
import Mathlib.Algebra.Polynomial.Derivative
import Mathlib.RingTheory.Coprime.Lemmas
import Mathlib.Algebra.Ring.GeomSum
import Mathlib.LinearAlgebra.Lagrange

/-!
# Error locators, evaluators, and the values at the roots

A finite set `E` of error positions, each with a locator `x k` and a weight `c k`, gives the
power sums `∑ k ∈ E, c k * x k ^ i`. The locator `∏ (1 - x k X)` and its evaluator solve the
key equation of the polynomial with these coefficients (`keyEq_locator`), they are coprime,
and so the Berlekamp–Massey iteration ends in exactly this pair as soon as the syndrome is
twice as long as `E` is large (`BMInv.eq_locator`).

Two sections read the same facts backwards: a polynomial with as many roots as its degree is a
locator (`eq_locator_of_roots`), and whoever solves the key equation with a locator has power
sums of its positions, for weights that partial fractions give (`KeyEq.exists_powerSums`).

The last section is Forney's formula: at the root that belongs to `k`, the evaluator over the
derivative of the locator is `-c k / x k`.
-/

namespace CpeClock
namespace Lib

open Polynomial Finset

variable {K : Type*} [Field K] {ι : Type*}

noncomputable def locFactor (x : ι → K) (k : ι) : K[X] := 1 - C (x k) * X

noncomputable def locator (E : Finset ι) (x : ι → K) : K[X] := ∏ k ∈ E, locFactor x k

/-- `S` starts with the power sums of the positions in `E`. -/
def PowerSums (S : K[X]) (n : ℕ) (E : Finset ι) (x c : ι → K) : Prop :=
  ∀ i < n, S.coeff i = ∑ k ∈ E, c k * x k ^ i

/-! ## Degrees and values at zero -/

theorem natDegree_locFactor_le (x : ι → K) (k : ι) : (locFactor x k).natDegree ≤ 1 := by
  unfold locFactor
  refine le_trans (natDegree_sub_le _ _) (max_le (by simp) ?_)
  exact le_trans (natDegree_C_mul_le _ _) natDegree_X_le

theorem natDegree_locator_le (E : Finset ι) (x : ι → K) :
    (locator E x).natDegree ≤ E.card := by
  unfold locator
  refine le_trans (natDegree_prod_le _ _) ?_
  calc ∑ k ∈ E, (locFactor x k).natDegree
      ≤ ∑ _k ∈ E, 1 := Finset.sum_le_sum fun k _ => natDegree_locFactor_le x k
    _ = E.card := by simp

@[simp]
theorem locFactor_eval (x : ι → K) (k : ι) (y : K) : (locFactor x k).eval y = 1 - x k * y := by
  simp [locFactor]

theorem locator_eval (E : Finset ι) (x : ι → K) (y : K) :
    (locator E x).eval y = ∏ k ∈ E, (1 - x k * y) := by
  simp [locator, eval_prod]

theorem locator_coeff_zero (E : Finset ι) (x : ι → K) : (locator E x).coeff 0 = 1 := by
  rw [coeff_zero_eq_eval_zero, locator_eval]
  simp

/-! ## Roots -/

theorem locator_eval_eq_zero_iff {E : Finset ι} {x : ι → K} {y : K} :
    (locator E x).eval y = 0 ↔ ∃ k ∈ E, x k * y = 1 := by
  rw [locator_eval, prod_eq_zero_iff]
  refine exists_congr fun k => and_congr_right fun _ => ?_
  rw [sub_eq_zero, eq_comm]

theorem natDegree_locator {E : Finset ι} {x : ι → K} (hx : ∀ k ∈ E, x k ≠ 0) :
    (locator E x).natDegree = E.card := by
  have hfac : ∀ k ∈ E, (locFactor x k).natDegree = 1 := by
    intro k hk
    have : locFactor x k = C (-(x k)) * X + C 1 := by simp [locFactor]; ring
    rw [this, natDegree_linear (neg_ne_zero.mpr (hx k hk))]
  rw [locator, natDegree_prod]
  · rw [sum_congr rfl hfac]; simp
  · intro k hk h0
    have := hfac k hk
    rw [h0, natDegree_zero] at this
    exact zero_ne_one this

/-- **A polynomial with as many roots as its degree is a locator.** -/
theorem eq_locator_of_roots {E : Finset ι} {x : ι → K} {p : K[X]} (hinj : Set.InjOn x E)
    (hx : ∀ k ∈ E, x k ≠ 0) (h0 : p.coeff 0 = 1) (hdeg : p.natDegree ≤ E.card)
    (hroot : ∀ k ∈ E, p.eval (x k)⁻¹ = 0) : p = locator E x := by
  classical
  -- The roots, and zero, at which both are one.
  have hcard : (insert 0 (E.image fun k => (x k)⁻¹)).card = E.card + 1 := by
    rw [card_insert_of_notMem, card_image_of_injOn]
    · exact fun k hk j hj h => hinj hk hj (inv_injective h)
    · intro hmem
      obtain ⟨k, hk, hzero⟩ := mem_image.mp hmem
      exact inv_ne_zero (hx k hk) hzero
  have hlt : ∀ q : K[X], q.natDegree ≤ E.card →
      q.degree < (insert 0 (E.image fun k => (x k)⁻¹)).card := fun q hq =>
    lt_of_le_of_lt degree_le_natDegree (by rw [hcard]; exact_mod_cast Nat.lt_succ_of_le hq)
  refine eq_of_degrees_lt_of_eval_finset_eq _ (hlt p hdeg) (hlt _ (natDegree_locator_le E x))
    fun y hy => ?_
  rcases mem_insert.mp hy with rfl | hy
  · rw [← coeff_zero_eq_eval_zero, ← coeff_zero_eq_eval_zero, h0, locator_coeff_zero]
  · obtain ⟨k, hk, rfl⟩ := mem_image.mp hy
    rw [hroot k hk, locator_eval_eq_zero_iff.mpr ⟨k, hk, mul_inv_cancel₀ (hx k hk)⟩]

/-! ## Power sums as geometric series -/

/-- One position's geometric series, multiplied by its own factor, telescopes. -/
theorem locFactor_mul_geom (x : ι → K) (k : ι) (n : ℕ) :
    locFactor x k * ∑ i ∈ range n, (C (x k) * X) ^ i = 1 - (C (x k) * X) ^ n :=
  mul_neg_geom_sum _ _

theorem powerSums_sub_dvd {S : K[X]} {n : ℕ} {E : Finset ι} {x c : ι → K}
    (hS : PowerSums S n E x c) :
    X ^ n ∣ S - ∑ k ∈ E, C (c k) * ∑ i ∈ range n, (C (x k) * X) ^ i := by
  rw [X_pow_dvd_iff]
  intro d hd
  rw [coeff_sub, hS d hd, finsetSum_coeff, sub_eq_zero]
  refine sum_congr rfl fun k _ => ?_
  rw [coeff_C_mul, finsetSum_coeff]
  congr 1
  rw [sum_eq_single d]
  · rw [mul_pow, ← C_pow, coeff_C_mul_X_pow, if_pos rfl]
  · intro i _ hne
    rw [mul_pow, ← C_pow, coeff_C_mul_X_pow, if_neg (Ne.symm hne)]
  · intro hnot
    exact absurd (mem_range.mpr hd) hnot

/-! ## The evaluator -/

theorem isCoprime_locFactor {x : ι → K} {k : ι} {p : K[X]} (hx : x k ≠ 0)
    (hp : p.eval (x k)⁻¹ ≠ 0) : IsCoprime (locFactor x k) p := by
  obtain ⟨v, hv⟩ := X_sub_C_dvd_sub_C_eval (a := (x k)⁻¹) (p := p)
  refine ⟨C (p.eval (x k)⁻¹)⁻¹ * (C (x k)⁻¹ * v), C (p.eval (x k)⁻¹)⁻¹, ?_⟩
  have hcx : C (x k)⁻¹ * C (x k) = (1 : K[X]) := by rw [← C_mul, inv_mul_cancel₀ hx, C_1]
  have hcp : C (p.eval (x k)⁻¹)⁻¹ * C (p.eval (x k)⁻¹) = (1 : K[X]) := by
    rw [← C_mul, inv_mul_cancel₀ hp, C_1]
  unfold locFactor
  linear_combination C (p.eval (x k)⁻¹)⁻¹ * hv + hcp
    - (C (p.eval (x k)⁻¹)⁻¹ * v * X) * hcx

variable [DecidableEq ι]

/-- The error evaluator of a set of positions with weights `c`. -/
noncomputable def evaluator (E : Finset ι) (x c : ι → K) : K[X] :=
  ∑ k ∈ E, C (c k) * locator (E.erase k) x

theorem locator_erase {E : Finset ι} {k : ι} (hk : k ∈ E) (x : ι → K) :
    locFactor x k * locator (E.erase k) x = locator E x :=
  mul_prod_erase E (locFactor x) hk

theorem evaluator_degree_lt (E : Finset ι) (x c : ι → K) :
    (evaluator E x c).degree < E.card := by
  unfold evaluator
  refine lt_of_le_of_lt (degree_sum_le _ _) ?_
  rw [Finset.sup_lt_iff (WithBot.bot_lt_coe _)]
  intro k hk
  refine lt_of_le_of_lt degree_le_natDegree ?_
  have hle : (C (c k) * locator (E.erase k) x).natDegree ≤ (E.erase k).card :=
    le_trans (natDegree_C_mul_le _ _) (natDegree_locator_le _ _)
  have hlt : (E.erase k).card < E.card := card_erase_lt_of_mem hk
  exact_mod_cast lt_of_le_of_lt hle hlt

/-! ## The key equation -/

/-- **The locator and its evaluator solve the key equation.** -/
theorem keyEq_locator {S : K[X]} {n : ℕ} {E : Finset ι} {x c : ι → K}
    (hS : PowerSums S n E x c) : KeyEq S n (locator E x) (evaluator E x c) E.card where
  deg := natDegree_locator_le E x
  eval_deg := evaluator_degree_lt E x c
  coeff_zero := locator_coeff_zero E x
  eq := by
    have hgeo : locator E x * ∑ k ∈ E, C (c k) * ∑ i ∈ range n, (C (x k) * X) ^ i
          - evaluator E x c
        = ∑ k ∈ E, -(C (c k) * locator (E.erase k) x * (C (x k) * X) ^ n) := by
      rw [evaluator, mul_sum, ← sum_sub_distrib]
      refine sum_congr rfl fun k hk => ?_
      rw [← locator_erase hk x]
      linear_combination (C (c k) * locator (E.erase k) x) * locFactor_mul_geom x k n
    have hsplit : locator E x * S - evaluator E x c
        = locator E x * (S - ∑ k ∈ E, C (c k) * ∑ i ∈ range n, (C (x k) * X) ^ i)
          + (locator E x * ∑ k ∈ E, C (c k) * ∑ i ∈ range n, (C (x k) * X) ^ i
            - evaluator E x c) := by ring
    rw [hsplit, hgeo]
    refine dvd_add ((powerSums_sub_dvd hS).mul_left _) (dvd_sum fun k _ => ?_)
    rw [mul_pow]
    exact ((Dvd.intro_left _ rfl).mul_left _).neg_right

/-! ## Coprimality -/

/-- At the root that belongs to `k` only `k`'s own term of the evaluator is left. -/
theorem evaluator_eval_inv {E : Finset ι} {x c : ι → K} {k : ι} (hk : k ∈ E) (hx : x k ≠ 0) :
    (evaluator E x c).eval (x k)⁻¹ = c k * ∏ j ∈ E.erase k, (1 - x j * (x k)⁻¹) := by
  rw [evaluator, eval_finsetSum, sum_eq_single k]
  · rw [eval_mul, eval_C, locator_eval]
  · intro j hj hne
    rw [eval_mul, locator_eval,
      prod_eq_zero (mem_erase.mpr ⟨Ne.symm hne, hk⟩) (by rw [mul_inv_cancel₀ hx, sub_self]),
      mul_zero]
  · intro hnot
    exact absurd hk hnot

theorem prod_erase_ne_zero {E : Finset ι} {x : ι → K} (hinj : Set.InjOn x E) {k : ι}
    (hk : k ∈ E) (hx : x k ≠ 0) : ∏ j ∈ E.erase k, (1 - x j * (x k)⁻¹) ≠ 0 := by
  rw [prod_ne_zero_iff]
  intro j hj h0
  obtain ⟨hne, hjE⟩ := mem_erase.mp hj
  refine hne (hinj hjE hk ?_)
  have h1 : x j * (x k)⁻¹ = 1 := (sub_eq_zero.mp h0).symm
  calc x j = x j * (x k)⁻¹ * x k := by rw [mul_assoc, inv_mul_cancel₀ hx, mul_one]
    _ = x k := by rw [h1, one_mul]

theorem isCoprime_locator {E : Finset ι} {x c : ι → K} (hinj : Set.InjOn x E)
    (hx : ∀ k ∈ E, x k ≠ 0) (hc : ∀ k ∈ E, c k ≠ 0) :
    IsCoprime (locator E x) (evaluator E x c) := by
  refine IsCoprime.prod_left fun k hk => isCoprime_locFactor (hx k hk) ?_
  rw [evaluator_eval_inv hk (hx k hk)]
  exact mul_ne_zero (hc k hk) (prod_erase_ne_zero hinj hk (hx k hk))

/-- **The iteration ends in the locator**: with a syndrome of power sums at least twice as
    long as the number of positions, the connection polynomial and its evaluator are exactly
    the locator and the evaluator of these positions. -/
theorem BMInv.eq_locator {S : K[X]} {n : ℕ} {st : BM K} {om g : K[X]} {E : Finset ι}
    {x c : ι → K} (h : BMInv S n st om g) (hS : PowerSums S n E x c)
    (hinj : Set.InjOn x E) (hx : ∀ k ∈ E, x k ≠ 0) (hc : ∀ k ∈ E, c k ≠ 0)
    (hn : 2 * E.card ≤ n) : st.lam = locator E x ∧ om = evaluator E x c := by
  obtain ⟨q, hq0, hL, hW⟩ := h.dvd_of_keyEq (keyEq_locator hS) hn
  have hunit : IsUnit q :=
    (isCoprime_locator hinj hx hc).isUnit_of_dvd' (hL ▸ Dvd.intro_left _ rfl)
      (hW ▸ Dvd.intro_left _ rfl)
  obtain ⟨u, -, hu⟩ := isUnit_iff.mp hunit
  have hq : q = 1 := by
    rw [← hu, coeff_C_zero] at hq0
    rw [← hu, hq0, C_1]
  rw [hq, mul_one] at hL hW
  exact ⟨hL.symm, hW.symm⟩

/-! ## Weights from an evaluator -/

/-- Partial fractions: whatever is shorter than the locator is an evaluator. -/
theorem exists_evaluator_eq {E : Finset ι} {x : ι → K} (hinj : Set.InjOn x E)
    (hx : ∀ k ∈ E, x k ≠ 0) {W : K[X]} (hW : W.degree < E.card) :
    ∃ c, W = evaluator E x c := by
  refine ⟨fun k => W.eval (x k)⁻¹ / ∏ j ∈ E.erase k, (1 - x j * (x k)⁻¹), ?_⟩
  refine eq_of_degrees_lt_of_eval_index_eq E (v := fun k => (x k)⁻¹)
    (fun k hk j hj h => hinj hk hj (inv_injective h)) hW (evaluator_degree_lt E x _) fun k hk => ?_
  rw [evaluator_eval_inv hk (hx k hk), div_mul_cancel₀ _ (prod_erase_ne_zero hinj hk (hx k hk))]

/-- **Who solves the key equation with a locator is a power sum of its positions.** -/
theorem KeyEq.exists_powerSums {S W : K[X]} {n : ℕ} {E : Finset ι} {x : ι → K}
    (hinj : Set.InjOn x E) (hx : ∀ k ∈ E, x k ≠ 0)
    (h : KeyEq S n (locator E x) W E.card) : ∃ c, PowerSums S n E x c := by
  obtain ⟨c, hc⟩ := exists_evaluator_eq hinj hx h.eval_deg
  refine ⟨c, fun i hi => ?_⟩
  -- The sequence that really is the power sum solves the same key equation.
  let T : K[X] := ∑ i ∈ range n, C (∑ k ∈ E, c k * x k ^ i) * X ^ i
  have hT : PowerSums T n E x c := by
    intro i hi
    rw [finsetSum_coeff, sum_eq_single i]
    · rw [coeff_C_mul_X_pow, if_pos rfl]
    · intro j _ hne
      rw [coeff_C_mul_X_pow, if_neg (Ne.symm hne)]
    · exact fun hnot => absurd (mem_range.mpr hi) hnot
  have hdvd : X ^ n ∣ locator E x * (S - T) := by
    have hsplit : locator E x * (S - T)
        = (locator E x * S - W) - (locator E x * T - evaluator E x c) := by rw [hc]; ring
    rw [hsplit]
    exact dvd_sub h.eq (keyEq_locator hT).eq
  have hunit := isCoprime_X_pow (locator_coeff_zero E x) n
  have hcoeff := X_pow_dvd_iff.mp (hunit.dvd_of_dvd_mul_left hdvd) i hi
  rw [← hT i hi]
  rw [coeff_sub] at hcoeff
  exact sub_eq_zero.mp hcoeff

/-! ## Forney's formula -/

theorem derivative_locator_eval_inv {E : Finset ι} {x : ι → K} {k : ι} (hk : k ∈ E)
    (hx : x k ≠ 0) :
    (derivative (locator E x)).eval (x k)⁻¹
      = -(x k) * ∏ j ∈ E.erase k, (1 - x j * (x k)⁻¹) := by
  rw [← locator_erase hk x, derivative_mul, eval_add, eval_mul, eval_mul, locFactor_eval,
    mul_inv_cancel₀ hx, sub_self, zero_mul, add_zero, locator_eval]
  simp [locFactor]

/-- **Forney's formula.** -/
theorem forney {E : Finset ι} {x c : ι → K} (hinj : Set.InjOn x E) {k : ι} (hk : k ∈ E)
    (hx : x k ≠ 0) :
    (evaluator E x c).eval (x k)⁻¹ / (derivative (locator E x)).eval (x k)⁻¹
      = -(c k / x k) := by
  rw [evaluator_eval_inv hk hx, derivative_locator_eval_inv hk hx]
  rw [mul_div_mul_right _ _ (prod_erase_ne_zero hinj hk hx), div_neg]

end Lib
end CpeClock
