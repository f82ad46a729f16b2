import Mathlib.Algebra.Polynomial.FieldDivision
import Mathlib.Tactic.LinearCombination
import Mathlib.Tactic.Ring

/-!
# Berlekamp–Massey over a field

The iteration that grows a connection polynomial `lam` for a syndrome polynomial `S`, one
coefficient of `S` at a time. Nothing here knows about a code, a table of logarithms or a
fixed length: the state is two polynomials and a length, and the step is the textbook one.

What is carried is more than the usual length argument. `BMInv` adds the two evaluator
polynomials `om` and `g` that no implementation computes, and the determinant

    lam * g - om * (X * b) = -X ^ r

which ties the four together. Everything is read off that identity: a solution of the same
key equation is a combination of the two columns (`BMInv.cramer`), so no solution is
shorter than `el` (`BMInv.el_le_of_keyEq`), and a short one is a multiple of `lam`
(`BMInv.dvd_of_keyEq`). Massey's theorem on linear complexity is not needed.
-/

namespace CpeClock
namespace Lib

open Polynomial

variable {K : Type*} [Field K]

/-- The state of the iteration: the connection polynomial, the correction polynomial and the
    current length. -/
structure BM (K : Type*) [Field K] where
  lam : K[X]
  b : K[X]
  el : ℕ

namespace BM

noncomputable def init : BM K := ⟨1, 1, 0⟩

/-- The discrepancy at coefficient `r`: what `lam * S` should have had as zero. -/
noncomputable def discr (S : K[X]) (r : ℕ) (st : BM K) : K := (st.lam * S).coeff r

open Classical in
/-- One step, at coefficient `r` (counted from zero). -/
noncomputable def step (S : K[X]) (r : ℕ) (st : BM K) : BM K :=
  if st.discr S r = 0 then { st with b := X * st.b }
  else if 2 * st.el ≤ r then
    { lam := st.lam - C (st.discr S r) * (X * st.b)
      b := C (st.discr S r)⁻¹ * st.lam
      el := r + 1 - st.el }
  else
    { st with
      lam := st.lam - C (st.discr S r) * (X * st.b)
      b := X * st.b }

noncomputable def run (S : K[X]) : ℕ → BM K
  | 0 => init
  | n + 1 => (run S n).step S n

end BM

/-- The invariant after `r` coefficients. `om` is the evaluator `lam` solves the key equation
    with, and `g` the one that goes with `X * b`, whose key equation is off by exactly
    `X ^ r`. -/
structure BMInv (S : K[X]) (r : ℕ) (st : BM K) (om g : K[X]) : Prop where
  el_le : st.el ≤ r
  lam_zero : st.lam.coeff 0 = 1
  lam_deg : st.lam.natDegree ≤ st.el
  om_deg : om.degree < st.el
  b_deg : st.b.natDegree ≤ r - st.el
  g_deg : g.natDegree ≤ r - st.el
  lam_eq : X ^ r ∣ st.lam * S - om
  b_eq : X ^ (r + 1) ∣ X * st.b * S - g - X ^ r
  det : st.lam * g - om * (X * st.b) = -X ^ r

theorem BMInv.init (S : K[X]) : BMInv S 0 BM.init 0 (-1) where
  el_le := Nat.le_refl _
  lam_zero := by simp [BM.init]
  lam_deg := by simp [BM.init]
  om_deg := by simp [BM.init]
  b_deg := by simp [BM.init]
  g_deg := by simp
  lam_eq := by simp
  b_eq := by
    have h : X * (BM.init : BM K).b * S - (-1) - X ^ 0 = X * S := by
      simp only [BM.init]; ring
    rw [h, zero_add, pow_one]
    exact Dvd.intro _ rfl
  det := by simp [BM.init]

/-! ## What one step does to the key equations -/

/-- An evaluator shorter than `r` has no coefficient at `r`, so the discrepancy is what the
    key equation of `lam` leaves over at `X ^ r`. -/
theorem BMInv.discr_eq {S : K[X]} {r : ℕ} {st : BM K} {om g : K[X]} (h : BMInv S r st om g) :
    st.discr S r = (st.lam * S - om).coeff r := by
  have hlt : om.degree < (r : WithBot ℕ) :=
    lt_of_lt_of_le h.om_deg (by exact_mod_cast h.el_le)
  rw [coeff_sub, coeff_eq_zero_of_degree_lt hlt, sub_zero, BM.discr]

theorem BMInv.lam_eq_succ {S : K[X]} {r : ℕ} {st : BM K} {om g : K[X]}
    (h : BMInv S r st om g) :
    X ^ (r + 1) ∣ st.lam * S - om - C (st.discr S r) * X ^ r := by
  rw [X_pow_dvd_iff]
  intro d hd
  rw [coeff_sub, coeff_C_mul_X_pow]
  rcases Nat.lt_succ_iff_lt_or_eq.mp hd with hlt | rfl
  · rw [if_neg (Nat.ne_of_lt hlt), sub_zero]
    exact X_pow_dvd_iff.mp h.lam_eq d hlt
  · rw [if_pos rfl, h.discr_eq, sub_self]

/-- Cancelling the discrepancy against `X * b` solves the key equation one further. -/
theorem BMInv.cancel_eq {S : K[X]} {r : ℕ} {st : BM K} {om g : K[X]}
    (h : BMInv S r st om g) :
    X ^ (r + 1) ∣
      (st.lam - C (st.discr S r) * (X * st.b)) * S - (om - C (st.discr S r) * g) := by
  have hsplit : (st.lam - C (st.discr S r) * (X * st.b)) * S - (om - C (st.discr S r) * g)
      = (st.lam * S - om - C (st.discr S r) * X ^ r)
        - C (st.discr S r) * (X * st.b * S - g - X ^ r) := by ring
  rw [hsplit]
  exact dvd_sub h.lam_eq_succ (h.b_eq.mul_left _)

theorem BMInv.cancel_coeff_zero {S : K[X]} {r : ℕ} {st : BM K} {om g : K[X]}
    (h : BMInv S r st om g) (d : K) :
    (st.lam - C d * (X * st.b)).coeff 0 = 1 := by
  simp [h.lam_zero]

/-- Multiplying the correction pair by `X` moves its own key equation along. -/
theorem BMInv.shift_eq {S : K[X]} {r : ℕ} {st : BM K} {om g : K[X]}
    (h : BMInv S r st om g) :
    X ^ (r + 1 + 1) ∣ X * (X * st.b) * S - X * g - X ^ (r + 1) := by
  have hsplit : X * (X * st.b) * S - X * g - X ^ (r + 1)
      = X * (X * st.b * S - g - X ^ r) := by ring
  rw [hsplit, pow_succ' X (r + 1)]
  exact mul_dvd_mul_left X h.b_eq

/-! ## Degrees of the updated polynomials -/

theorem natDegree_X_mul_le (p : K[X]) {n : ℕ} (h : p.natDegree ≤ n) :
    (X * p).natDegree ≤ n + 1 := by
  refine le_trans natDegree_mul_le ?_
  rw [natDegree_X, Nat.add_comm]
  exact Nat.add_le_add_right h 1

theorem degree_mul_lt {p q : K[X]} {a b n : ℕ} (hp : p.natDegree ≤ a) (hq : q.degree < b)
    (hab : a + b ≤ n) : (p * q).degree < n := by
  by_cases hq0 : q = 0
  · simp [hq0]
  · have hqb : q.natDegree < b := (natDegree_lt_iff_degree_lt hq0).mpr hq
    have hpq : (p * q).natDegree ≤ p.natDegree + q.natDegree := natDegree_mul_le
    refine lt_of_le_of_lt degree_le_natDegree ?_
    exact_mod_cast (by omega : (p * q).natDegree < n)

theorem BMInv.cancel_natDegree {S : K[X]} {r : ℕ} {st : BM K} {om g : K[X]}
    (h : BMInv S r st om g) (d : K) {n : ℕ} (hel : st.el ≤ n) (hr : r + 1 - st.el ≤ n) :
    (st.lam - C d * (X * st.b)).natDegree ≤ n := by
  refine le_trans (natDegree_sub_le _ _) (max_le (le_trans h.lam_deg hel) ?_)
  refine le_trans (natDegree_C_mul_le _ _) (le_trans (natDegree_X_mul_le _ h.b_deg) ?_)
  have := h.el_le
  omega

theorem BMInv.cancel_om_degree {S : K[X]} {r : ℕ} {st : BM K} {om g : K[X]}
    (h : BMInv S r st om g) (d : K) {n : ℕ} (hel : st.el ≤ n) (hr : r + 1 - st.el ≤ n) :
    (om - C d * g).degree < n := by
  have hlr := h.el_le
  refine lt_of_le_of_lt (degree_sub_le _ _) (max_lt ?_ ?_)
  · exact lt_of_lt_of_le h.om_deg (by exact_mod_cast hel)
  · refine lt_of_le_of_lt degree_le_natDegree ?_
    have hg : (C d * g).natDegree ≤ r - st.el := le_trans (natDegree_C_mul_le _ _) h.g_deg
    exact_mod_cast (by omega : (C d * g).natDegree < n)

/-! ## The step keeps the invariant -/

theorem BMInv.step_zero {S : K[X]} {r : ℕ} {st : BM K} {om g : K[X]} (h : BMInv S r st om g)
    (hd : st.discr S r = 0) :
    BMInv S (r + 1) { st with b := X * st.b } om (X * g) where
  el_le := Nat.le_succ_of_le h.el_le
  lam_zero := h.lam_zero
  lam_deg := h.lam_deg
  om_deg := h.om_deg
  b_deg := by
    have := natDegree_X_mul_le _ h.b_deg
    have := h.el_le
    simp only
    omega
  g_deg := by
    have := natDegree_X_mul_le _ h.g_deg
    have := h.el_le
    simp only
    omega
  lam_eq := by
    have hs := h.lam_eq_succ
    rw [hd, C_0, zero_mul, sub_zero] at hs
    exact hs
  b_eq := h.shift_eq
  det := by
    show st.lam * (X * g) - om * (X * (X * st.b)) = -X ^ (r + 1)
    linear_combination X * h.det

theorem BMInv.step_keep {S : K[X]} {r : ℕ} {st : BM K} {om g : K[X]} (h : BMInv S r st om g)
    (hlong : ¬ 2 * st.el ≤ r) :
    BMInv S (r + 1)
      { st with
        lam := st.lam - C (st.discr S r) * (X * st.b)
        b := X * st.b }
      (om - C (st.discr S r) * g) (X * g) where
  el_le := Nat.le_succ_of_le h.el_le
  lam_zero := h.cancel_coeff_zero _
  lam_deg := h.cancel_natDegree _ (Nat.le_refl st.el) (show r + 1 - st.el ≤ st.el by omega)
  om_deg := h.cancel_om_degree _ (Nat.le_refl st.el) (show r + 1 - st.el ≤ st.el by omega)
  b_deg := by
    have := natDegree_X_mul_le _ h.b_deg
    have := h.el_le
    simp only
    omega
  g_deg := by
    have := natDegree_X_mul_le _ h.g_deg
    have := h.el_le
    simp only
    omega
  lam_eq := h.cancel_eq
  b_eq := h.shift_eq
  det := by
    show (st.lam - C (st.discr S r) * (X * st.b)) * (X * g)
        - (om - C (st.discr S r) * g) * (X * (X * st.b)) = -X ^ (r + 1)
    linear_combination X * h.det

theorem BMInv.step_grow {S : K[X]} {r : ℕ} {st : BM K} {om g : K[X]} (h : BMInv S r st om g)
    (hd : st.discr S r ≠ 0) (hshort : 2 * st.el ≤ r) :
    BMInv S (r + 1)
      { lam := st.lam - C (st.discr S r) * (X * st.b)
        b := C (st.discr S r)⁻¹ * st.lam
        el := r + 1 - st.el }
      (om - C (st.discr S r) * g) (X * (C (st.discr S r)⁻¹ * om)) := by
  have hC : C (st.discr S r)⁻¹ * C (st.discr S r) = (1 : K[X]) := by
    rw [← C_mul, inv_mul_cancel₀ hd, C_1]
  have hel : st.el ≤ r + 1 - st.el := by omega
  refine ⟨by simp, h.cancel_coeff_zero _, h.cancel_natDegree _ hel (Nat.le_refl _),
    h.cancel_om_degree _ hel (Nat.le_refl _), ?_, ?_, h.cancel_eq, ?_, ?_⟩
  · refine le_trans (natDegree_C_mul_le _ _) ?_
    have := h.lam_deg
    simp only
    omega
  · -- `om` is shorter than `el`, so one factor `X` still fits.
    by_cases hom : om = 0
    · simp [hom]
    · have hdeg : om.natDegree < st.el := (natDegree_lt_iff_degree_lt hom).mpr h.om_deg
      have hle : (C (st.discr S r)⁻¹ * om).natDegree ≤ st.el - 1 :=
        le_trans (natDegree_C_mul_le _ _) (by omega)
      have := natDegree_X_mul_le _ hle
      simp only
      omega
  · -- The old pair, scaled by the inverse discrepancy, is off by exactly `X ^ (r + 1)`.
    have hsplit : X * (C (st.discr S r)⁻¹ * st.lam) * S - X * (C (st.discr S r)⁻¹ * om)
          - X ^ (r + 1)
        = X * (C (st.discr S r)⁻¹ * (st.lam * S - om - C (st.discr S r) * X ^ r)) := by
      linear_combination X ^ (r + 1) * hC
    show X ^ (r + 1 + 1) ∣ X * (C (st.discr S r)⁻¹ * st.lam) * S
        - X * (C (st.discr S r)⁻¹ * om) - X ^ (r + 1)
    rw [hsplit, pow_succ' X (r + 1)]
    exact mul_dvd_mul_left X (h.lam_eq_succ.mul_left _)
  · show (st.lam - C (st.discr S r) * (X * st.b)) * (X * (C (st.discr S r)⁻¹ * om))
        - (om - C (st.discr S r) * g) * (X * (C (st.discr S r)⁻¹ * st.lam)) = -X ^ (r + 1)
    linear_combination X * h.det + (X * (st.lam * g - om * (X * st.b))) * hC

/-- **One step keeps the invariant**, whatever the discrepancy. -/
theorem BMInv.step {S : K[X]} {r : ℕ} {st : BM K} {om g : K[X]} (h : BMInv S r st om g) :
    ∃ om' g', BMInv S (r + 1) (st.step S r) om' g' := by
  unfold BM.step
  split
  · rename_i hd
    exact ⟨_, _, h.step_zero hd⟩
  · rename_i hd
    split
    · rename_i hshort
      exact ⟨_, _, h.step_grow hd hshort⟩
    · rename_i hlong
      exact ⟨_, _, h.step_keep hlong⟩

theorem BMInv.run (S : K[X]) (n : ℕ) : ∃ om g, BMInv S n (BM.run S n) om g := by
  induction n with
  | zero => exact ⟨0, -1, BMInv.init S⟩
  | succ n ih =>
    obtain ⟨om, g, h⟩ := ih
    exact h.step

/-! ## Every other solution is a combination of the two columns -/

theorem eq_zero_of_X_pow_dvd {p : K[X]} {r : ℕ} (hdvd : X ^ r ∣ p) (hdeg : p.degree < r) :
    p = 0 := by
  ext d
  rw [coeff_zero]
  by_cases hd : d < r
  · exact X_pow_dvd_iff.mp hdvd d hd
  · refine coeff_eq_zero_of_degree_lt (lt_of_lt_of_le hdeg ?_)
    exact_mod_cast Nat.le_of_not_lt hd

theorem isCoprime_X_pow {p : K[X]} (h0 : p.coeff 0 = 1) (n : ℕ) : IsCoprime (X ^ n) p := by
  obtain ⟨q, hq⟩ : X ∣ p - 1 := by
    rw [X_dvd_iff, coeff_sub, h0, coeff_one_zero, sub_self]
  exact IsCoprime.pow_left ⟨-q, 1, by linear_combination hq⟩

/-- A solution `(L, W)` of the key equation modulo `X ^ r`: the pair an error locator and its
    evaluator are. -/
structure KeyEq (S : K[X]) (r : ℕ) (L W : K[X]) (e : ℕ) : Prop where
  deg : L.natDegree ≤ e
  eval_deg : W.degree < e
  coeff_zero : L.coeff 0 = 1
  eq : X ^ r ∣ L * S - W

/-- **Cramer's rule in the two columns.** The first cofactor does not vanish at zero, the
    second carries the difference of the two evaluators. -/
theorem BMInv.cramer {S : K[X]} {r : ℕ} {st : BM K} {om g L W : K[X]} {e : ℕ}
    (h : BMInv S r st om g) (hk : KeyEq S r L W e) :
    ∃ A, L * g - W * (X * st.b) = X ^ r * A ∧ A.coeff 0 = -1 ∧
      -(L * X ^ r) = st.lam * (X ^ r * A) + X * st.b * (st.lam * W - om * L) := by
  have hsplit : L * g - W * (X * st.b)
      = X * st.b * (L * S - W) - L * (X * st.b * S - g - X ^ r) - L * X ^ r := by ring
  obtain ⟨u, hu⟩ := hk.eq
  obtain ⟨v, hv⟩ := h.b_eq
  refine ⟨X * st.b * u - L * (X * v) - L, ?_, ?_, ?_⟩
  · rw [hsplit, hu, hv]; ring
  · simp [hk.coeff_zero]
  · have hA : L * g - W * (X * st.b) = X ^ r * (X * st.b * u - L * (X * v) - L) := by
      rw [hsplit, hu, hv]; ring
    rw [← hA]
    linear_combination -L * h.det

/-- **No solution is shorter than `el`.** -/
theorem BMInv.el_le_of_keyEq {S : K[X]} {r : ℕ} {st : BM K} {om g L W : K[X]} {e : ℕ}
    (h : BMInv S r st om g) (hk : KeyEq S r L W e) : st.el ≤ e := by
  obtain ⟨A, hA, hA0, -⟩ := h.cramer hk
  by_contra hlt
  have hlr := h.el_le
  -- A cofactor that is not zero needs degree `r`, and `e + r - el` is below it.
  have hdeg : (L * g - W * (X * st.b)).degree < (r : WithBot ℕ) := by
    have hg : g.degree < (r - st.el + 1 : ℕ) :=
      lt_of_le_of_lt degree_le_natDegree (by exact_mod_cast Nat.lt_succ_of_le h.g_deg)
    refine lt_of_le_of_lt (degree_sub_le _ _) (max_lt ?_ ?_)
    · exact degree_mul_lt hk.deg hg (by omega)
    · rw [mul_comm]
      exact degree_mul_lt (natDegree_X_mul_le _ h.b_deg) hk.eval_deg (by omega)
  have hzero := eq_zero_of_X_pow_dvd (Dvd.intro A hA.symm) hdeg
  have hA' : A = 0 := by
    rw [hzero] at hA
    rcases mul_eq_zero.mp hA.symm with hX | hA'
    · exact absurd hX (pow_ne_zero r X_ne_zero)
    · exact hA'
  rw [hA', coeff_zero] at hA0
  exact one_ne_zero (neg_eq_zero.mp hA0.symm)

/-- **A solution at most half as long as the syndrome is a multiple of `lam`**, and its
    evaluator is the same multiple of `om`. -/
theorem BMInv.dvd_of_keyEq {S : K[X]} {r : ℕ} {st : BM K} {om g L W : K[X]} {e : ℕ}
    (h : BMInv S r st om g) (hk : KeyEq S r L W e) (he : 2 * e ≤ r) :
    ∃ q : K[X], q.coeff 0 = 1 ∧ L = st.lam * q ∧ W = om * q := by
  obtain ⟨A, -, hA0, hcomb⟩ := h.cramer hk
  have hel := h.el_le_of_keyEq hk
  have hcross : st.lam * W - om * L = 0 := by
    apply eq_zero_of_X_pow_dvd (r := r)
    · have hsplit : st.lam * W - om * L
          = L * (st.lam * S - om) - st.lam * (L * S - W) := by ring
      rw [hsplit]
      exact dvd_sub (h.lam_eq.mul_left _) (hk.eq.mul_left _)
    · refine lt_of_le_of_lt (degree_sub_le _ _) (max_lt ?_ ?_)
      · exact degree_mul_lt h.lam_deg hk.eval_deg (by omega)
      · rw [mul_comm]
        exact degree_mul_lt hk.deg h.om_deg (by omega)
  rw [hcross, mul_zero, add_zero] at hcomb
  have hX : (X ^ r : K[X]) ≠ 0 := pow_ne_zero r X_ne_zero
  have hL : L = st.lam * -A := by
    apply mul_right_cancel₀ hX
    linear_combination -hcomb
  have hlam : st.lam ≠ 0 := by
    intro h0
    have := h.lam_zero
    rw [h0, coeff_zero] at this
    exact zero_ne_one this
  refine ⟨-A, by simp [hA0], hL, ?_⟩
  apply mul_left_cancel₀ hlam
  rw [hL] at hcross
  linear_combination hcross

end Lib
end CpeClock
