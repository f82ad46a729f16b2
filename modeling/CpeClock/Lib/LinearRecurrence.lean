import CpeClock.Lib.BerlekampMassey

/-!
# The shortest recurrence of a sequence, and which one the iteration picks

A recurrence of length `e` for the first `n` coefficients of `S` is a polynomial that cancels
every coefficient from `e` to `n`. Up to half of `n` the shortest is the only one of its
length. Beyond that there are several, and the iteration of `Lib.BM` ends in one of them:
this file says which, by a property of the recurrence and not by a run (`Chosen`,
`chosen_iff`).

The argument is one factorisation. Two shortest recurrences differ by a multiple `u` of
`X * b`, with `u` shorter than `2 * e - n` (`BMInv.eq_sub_of_keyEq`); and `b` is a shift of
the recurrence `lam'` the iteration had when the length last grew (`BM.Grown`). So they differ
in what they leave when `lam'` is divided out, and the iteration is the one that leaves
nothing between `X ^ (n - m)` and `X ^ (e - e')`.
-/

namespace CpeClock
namespace Lib

open Polynomial

variable {K : Type*} [Field K]

/-- `lam` is a linear recurrence of length `e` for the first `n` coefficients of `S`. -/
structure Recurs (S : K[X]) (n : ℕ) (lam : K[X]) (e : ℕ) : Prop where
  coeff_zero : lam.coeff 0 = 1
  deg : lam.natDegree ≤ e
  cancels : ∀ k, e ≤ k → k < n → (lam * S).coeff k = 0

structure Shortest (S : K[X]) (n : ℕ) (lam : K[X]) (e : ℕ) : Prop where
  recurs : Recurs S n lam e
  least : ∀ {lam' e'}, Recurs S n lam' e' → e ≤ e'

/-- Where the length last grew: the first `m` coefficients have a recurrence shorter than `e`,
    one coefficient more has none. -/
structure LastShorter (S : K[X]) (e m : ℕ) (lam' : K[X]) (e' : ℕ) : Prop where
  shortest : Shortest S m lam' e'
  lt : e' < e
  grows : ∀ {lam'' e''}, Recurs S (m + 1) lam'' e'' → e ≤ e''

/-- A shortest recurrence that is a multiple of the last shorter one up to `X ^ (e - e')`, by a
    factor of degree below `n - m`. Where everything before `m` is zero (`e' = 0`), it also has
    the first coefficient that is not, at `X ^ e`. -/
structure Chosen (S : K[X]) (n : ℕ) (lam : K[X]) (e : ℕ) : Prop where
  shortest : Shortest S n lam e
  settled : ∀ {m lam' e'}, LastShorter S e m lam' e' →
    ∃ A : K[X], A.natDegree < n - m ∧
      X ^ (e - e' + 1) ∣ lam - A * lam' + C (if e' = 0 then S.coeff m else 0) * X ^ (e - e')

/-! ## Recurrences and key equations -/

theorem KeyEq.recurs {S L W : K[X]} {n e : ℕ} (h : KeyEq S n L W e) : Recurs S n L e where
  coeff_zero := h.coeff_zero
  deg := h.deg
  cancels k hek hkn := by
    have hcoeff := X_pow_dvd_iff.mp h.eq k hkn
    have hW : W.coeff k = 0 :=
      coeff_eq_zero_of_degree_lt (lt_of_lt_of_le h.eval_deg (by exact_mod_cast hek))
    rwa [coeff_sub, hW, sub_zero] at hcoeff

/-- The evaluator of a recurrence is the product, cut off at its length. -/
noncomputable def cutOff (p : K[X]) (e : ℕ) : K[X] := ∑ i ∈ Finset.range e, C (p.coeff i) * X ^ i

theorem cutOff_coeff (p : K[X]) (e k : ℕ) :
    (cutOff p e).coeff k = if k < e then p.coeff k else 0 := by
  rw [cutOff, finsetSum_coeff]
  simp only [coeff_C_mul_X_pow]
  rw [Finset.sum_ite_eq]
  simp only [Finset.mem_range]

theorem cutOff_degree_lt (p : K[X]) (e : ℕ) : (cutOff p e).degree < e := by
  rw [degree_lt_iff_coeff_zero]
  intro k hk
  rw [cutOff_coeff, if_neg (Nat.not_lt.mpr hk)]

theorem Recurs.keyEq {S lam : K[X]} {n e : ℕ} (h : Recurs S n lam e) :
    KeyEq S n lam (cutOff (lam * S) e) e where
  deg := h.deg
  eval_deg := cutOff_degree_lt _ _
  coeff_zero := h.coeff_zero
  eq := by
    rw [X_pow_dvd_iff]
    intro k hk
    rw [coeff_sub, cutOff_coeff]
    by_cases hke : k < e
    · rw [if_pos hke, sub_self]
    · rw [if_neg hke, sub_zero, h.cancels k (Nat.not_lt.mp hke) hk]

/-- A recurrence for more coefficients is one for fewer. -/
theorem Recurs.mono {S lam : K[X]} {n m e : ℕ} (h : Recurs S n lam e) (hmn : m ≤ n) :
    Recurs S m lam e :=
  ⟨h.coeff_zero, h.deg, fun k hek hkm => h.cancels k hek (Nat.lt_of_lt_of_le hkm hmn)⟩

/-- **The iteration ends in a shortest recurrence.** -/
theorem BM.shortest_run (S : K[X]) (n : ℕ) : Shortest S n (BM.run S n).lam (BM.run S n).el := by
  obtain ⟨om, g, h⟩ := BMInv.run S n
  have hkey : KeyEq S n (BM.run S n).lam om (BM.run S n).el :=
    ⟨h.lam_deg, h.om_deg, h.lam_zero, h.lam_eq⟩
  exact ⟨hkey.recurs, fun hrec => h.el_le_of_keyEq hrec.keyEq⟩

theorem Shortest.length_eq {S lam : K[X]} {n e : ℕ} (h : Shortest S n lam e) :
    e = (BM.run S n).el :=
  le_antisymm (h.least (BM.shortest_run S n).recurs) ((BM.shortest_run S n).least h.recurs)

theorem BM.el_mono (S : K[X]) {m n : ℕ} (hmn : m ≤ n) : (BM.run S m).el ≤ (BM.run S n).el :=
  (BM.shortest_run S m).least ((BM.shortest_run S n).recurs.mono hmn)

/-! ## Two recurrences of the shortest length -/

/-- **Two shortest recurrences differ by a multiple of `X * b`**, the shorter the longer the
    sequence. -/
theorem BMInv.eq_sub_of_keyEq {S : K[X]} {r : ℕ} {st : BM K} {om g L W : K[X]}
    (h : BMInv S r st om g) (hk : KeyEq S r L W st.el) :
    ∃ u, L = st.lam - X * st.b * u ∧ (u ≠ 0 → u.natDegree + r < 2 * st.el) := by
  obtain ⟨A, hA, hA0, hcomb⟩ := h.cramer hk
  have hel := h.el_le
  -- With the shortest length there is no room for more than the constant of the cofactor.
  have hAone : A = -1 := by
    have hdeg : (X ^ r * A).natDegree ≤ r := by
      rw [← hA]
      refine le_trans (natDegree_sub_le _ _) (max_le ?_ ?_)
      · have := h.g_deg
        have := hk.deg
        exact le_trans natDegree_mul_le (by omega)
      · have hb := natDegree_X_mul_le _ h.b_deg
        by_cases hW : W = 0
        · simp [hW]
        · have hWdeg : W.natDegree < st.el := (natDegree_lt_iff_degree_lt hW).mpr hk.eval_deg
          exact le_trans natDegree_mul_le (by omega)
    have hA0' : A.natDegree = 0 := by
      by_cases hzero : A = 0
      · rw [hzero, natDegree_zero]
      · rw [natDegree_mul (pow_ne_zero r X_ne_zero) hzero, natDegree_X_pow] at hdeg
        omega
    rw [eq_C_of_natDegree_eq_zero hA0', hA0, C_neg, C_1]
  obtain ⟨u, hu⟩ : X ^ r ∣ st.lam * W - om * L := by
    have hsplit : st.lam * W - om * L
        = L * (st.lam * S - om) - st.lam * (L * S - W) := by ring
    rw [hsplit]
    exact dvd_sub (h.lam_eq.mul_left _) (hk.eq.mul_left _)
  refine ⟨u, ?_, fun hu0 => ?_⟩
  · apply mul_right_cancel₀ (pow_ne_zero r (X_ne_zero (R := K)))
    rw [hAone, hu] at hcomb
    linear_combination -hcomb
  · have hlt : (st.lam * W - om * L).degree < (2 * st.el : ℕ) := by
      refine lt_of_le_of_lt (degree_sub_le _ _) (max_lt ?_ ?_)
      · exact degree_mul_lt h.lam_deg hk.eval_deg (by omega)
      · rw [mul_comm]
        exact degree_mul_lt hk.deg h.om_deg (by omega)
    rw [hu] at hlt
    have hne : (X ^ r * u : K[X]) ≠ 0 := mul_ne_zero (pow_ne_zero r X_ne_zero) hu0
    have hnat := (natDegree_lt_iff_degree_lt hne).mpr hlt
    rw [natDegree_mul (pow_ne_zero r X_ne_zero) hu0, natDegree_X_pow] at hnat
    omega

/-- **Up to half of the sequence there is one shortest recurrence.** -/
theorem Shortest.eq_of_two_mul_le {S lam : K[X]} {n e : ℕ} (h : Shortest S n lam e)
    (hhalf : 2 * e ≤ n) : lam = (BM.run S n).lam := by
  obtain ⟨om, g, hinv⟩ := BMInv.run S n
  have hlen := h.length_eq
  obtain ⟨u, hu, hdeg⟩ := hinv.eq_sub_of_keyEq (hlen ▸ h.recurs.keyEq)
  have hu0 : u = 0 := by
    by_contra hne
    have := hdeg hne
    omega
  rw [hu, hu0, mul_zero, sub_zero]

/-! ## What the iteration remembers -/

/-- The state after `n` coefficients, in terms of the state `old` at `m`, where the length last
    grew. -/
structure BM.Grown (S : K[X]) (n m : ℕ) (old st : BM K) (A : K[X]) : Prop where
  lt : m < n
  discr_ne : old.discr S m ≠ 0
  short : 2 * old.el ≤ m
  el : st.el + old.el = m + 1
  b : st.b = X ^ (n - m - 1) * (C (old.discr S m)⁻¹ * old.lam)
  lam : st.lam = A * old.lam - C (old.discr S m) * (X * old.b)
  deg : A.natDegree < n - m

theorem BM.Grown.step_zero {S : K[X]} {n m : ℕ} {old st : BM K} {A : K[X]}
    (h : BM.Grown S n m old st A) : BM.Grown S (n + 1) m old { st with b := X * st.b } A where
  lt := Nat.lt_succ_of_lt h.lt
  discr_ne := h.discr_ne
  short := h.short
  el := h.el
  b := by
    have hlt := h.lt
    show X * st.b = _
    rw [h.b, ← mul_assoc, ← pow_succ', show n - m - 1 + 1 = n + 1 - m - 1 by omega]
  lam := h.lam
  deg := Nat.lt_of_lt_of_le h.deg (by omega)

theorem BM.Grown.step_keep {S : K[X]} {n m : ℕ} {old st : BM K} {A : K[X]}
    (h : BM.Grown S n m old st A) (d : K) :
    BM.Grown S (n + 1) m old { st with lam := st.lam - C d * (X * st.b), b := X * st.b }
      (A - C (d * (old.discr S m)⁻¹) * X ^ (n - m)) where
  lt := Nat.lt_succ_of_lt h.lt
  discr_ne := h.discr_ne
  short := h.short
  el := h.el
  b := h.step_zero.b
  lam := by
    obtain ⟨k, rfl⟩ := Nat.exists_eq_add_of_lt h.lt
    show st.lam - C d * (X * st.b) = _
    rw [h.b, h.lam, show m + k + 1 - m - 1 = k by omega, show m + k + 1 - m = k + 1 by omega,
      pow_succ, C_mul]
    ring
  deg := by
    have hlt := h.lt
    have hA := h.deg
    refine lt_of_le_of_lt (natDegree_sub_le _ _) (max_lt (by omega) ?_)
    exact lt_of_le_of_lt (natDegree_C_mul_X_pow_le _ _) (by omega)

theorem BM.Grown.of_grow (S : K[X]) (n : ℕ) {st : BM K} (hd : st.discr S n ≠ 0)
    (hshort : 2 * st.el ≤ n) :
    BM.Grown S (n + 1) n st
      { lam := st.lam - C (st.discr S n) * (X * st.b)
        b := C (st.discr S n)⁻¹ * st.lam
        el := n + 1 - st.el } 1 where
  lt := Nat.lt_succ_self n
  discr_ne := hd
  short := hshort
  el := by
    show n + 1 - st.el + st.el = n + 1
    omega
  b := by
    show C (st.discr S n)⁻¹ * st.lam = _
    rw [show n + 1 - n - 1 = 0 by omega, pow_zero, one_mul]
  lam := by rw [one_mul]
  deg := by
    rw [natDegree_one]
    omega

/-- **The iteration is where it started, or it remembers where the length last grew.** -/
theorem BM.grown_run (S : K[X]) (n : ℕ) :
    BM.run S n = ⟨1, X ^ n, 0⟩ ∨ ∃ m A, BM.Grown S n m (BM.run S m) (BM.run S n) A := by
  induction n with
  | zero => exact .inl (by rw [BM.run, BM.init, pow_zero])
  | succ n ih =>
    rw [BM.run]
    unfold BM.step
    split
    · rcases ih with hinit | ⟨m, A, hgrown⟩
      · refine .inl ?_
        rw [hinit, pow_succ']
      · exact .inr ⟨m, A, hgrown.step_zero⟩
    · rename_i hd
      split
      · rename_i hshort
        exact .inr ⟨n, 1, .of_grow S n hd hshort⟩
      · rename_i hlong
        rcases ih with hinit | ⟨m, A, hgrown⟩
        · rw [hinit] at hlong
          exact absurd (Nat.zero_le n) hlong
        · exact .inr ⟨m, _, hgrown.step_keep _⟩

/-! ## Which recurrence the iteration ends in -/

/-- What the last growth takes from `lam'` starts past `X ^ (e - e')`, but for the very first
    growth. -/
theorem BM.Grown.settled {S : K[X]} {n m : ℕ} {st : BM K} {A : K[X]}
    (h : BM.Grown S n m (BM.run S m) st A) :
    X ^ (st.el - (BM.run S m).el + 1) ∣ st.lam - A * (BM.run S m).lam
      + C (if (BM.run S m).el = 0 then S.coeff m else 0) * X ^ (st.el - (BM.run S m).el) := by
  have hel := h.el
  have hshort := h.short
  have hlam : st.lam - A * (BM.run S m).lam
      = -(C ((BM.run S m).discr S m) * (X * (BM.run S m).b)) := by
    rw [h.lam]
    ring
  rw [hlam]
  rcases BM.grown_run S m with hinit | ⟨m', A', hold⟩
  · have hm : st.el = m + 1 := by rw [hinit] at hel; exact hel
    have hdiscr : (BM.run S m).discr S m = S.coeff m := by rw [BM.discr, hinit, one_mul]
    rw [hdiscr, hinit, if_pos rfl, hm, Nat.sub_zero, ← pow_succ', neg_add_cancel]
    exact dvd_zero _
  · have hel' := hold.el
    have hshort' := hold.short
    have hpos : (BM.run S m).el ≠ 0 := by
      have := hold.lt
      omega
    have hsplit : X * (BM.run S m).b
        = X ^ (m - m') * (C ((BM.run S m').discr S m')⁻¹ * (BM.run S m').lam) := by
      have hlt := hold.lt
      rw [hold.b, ← mul_assoc, ← pow_succ', show m - m' - 1 + 1 = m - m' by omega]
    have hpow : (X ^ (st.el - (BM.run S m).el + 1) : K[X]) ∣ X ^ (m - m') :=
      pow_dvd_pow X (by omega)
    rw [if_neg hpos, C_0, zero_mul, add_zero, hsplit]
    exact ((hpow.mul_right _).mul_left _).neg_right

/-- Where the length last grew is where the iteration last grew. -/
theorem LastShorter.eq_grown {S lam' : K[X]} {n m m₀ e' : ℕ} {A : K[X]}
    (h : LastShorter S (BM.run S n).el m lam' e')
    (hgrown : BM.Grown S n m₀ (BM.run S m₀) (BM.run S n) A) :
    m = m₀ ∧ lam' = (BM.run S m₀).lam ∧ e' = (BM.run S m₀).el := by
  have hlen := h.shortest.length_eq
  have hlt := h.lt
  have hel := hgrown.el
  have hshort := hgrown.short
  -- The iteration has its present length right after `m₀`, and a shorter one up to it.
  have hafter : (BM.run S n).el ≤ (BM.run S (m₀ + 1)).el := by
    rw [BM.run, BM.step, if_neg hgrown.discr_ne, if_pos hgrown.short]
    show (BM.run S n).el ≤ m₀ + 1 - (BM.run S m₀).el
    omega
  have hm : m = m₀ := by
    rcases Nat.lt_trichotomy m m₀ with hless | heq | hmore
    · have hgrows := h.grows (BM.shortest_run S (m + 1)).recurs
      have := BM.el_mono S (show m + 1 ≤ m₀ from hless)
      omega
    · exact heq
    · have := BM.el_mono S (show m₀ + 1 ≤ m from hmore)
      omega
  subst hm
  exact ⟨rfl, h.shortest.eq_of_two_mul_le (by omega), hlen⟩

theorem BM.chosen_run (S : K[X]) (n : ℕ) : Chosen S n (BM.run S n).lam (BM.run S n).el where
  shortest := BM.shortest_run S n
  settled := by
    intro m lam' e' hlast
    rcases BM.grown_run S n with hinit | ⟨m₀, A, hgrown⟩
    · have hlt := hlast.lt
      rw [hinit] at hlt
      exact absurd hlt (Nat.not_lt_zero _)
    · obtain ⟨rfl, rfl, rfl⟩ := hlast.eq_grown hgrown
      exact ⟨A, hgrown.deg, hgrown.settled⟩

/-- The iteration's last growth is one of the sequence. -/
theorem BM.Grown.lastShorter {S : K[X]} {n m : ℕ} {A : K[X]}
    (h : BM.Grown S n m (BM.run S m) (BM.run S n) A) :
    LastShorter S (BM.run S n).el m (BM.run S m).lam (BM.run S m).el where
  shortest := BM.shortest_run S m
  lt := by
    have := h.el
    have := h.short
    omega
  grows := by
    intro lam'' e'' hrec
    have hafter : (BM.run S (m + 1)).el = m + 1 - (BM.run S m).el := by
      rw [BM.run, BM.step, if_neg h.discr_ne, if_pos h.short]
    have hle := (BM.shortest_run S (m + 1)).least hrec
    have := h.el
    omega

/-- A multiple of `X * b` that is not zero shows when `lam'` is divided out. -/
theorem eq_zero_of_settled {K : Type*} [Field K] {lam' B u : K[X]} {d : K} {k j : ℕ} (hd : d ≠ 0)
    (h0 : lam'.coeff 0 = 1) (hB : B.natDegree < k) (hu : u ≠ 0 → k + u.natDegree < j)
    (hdvd : X ^ j ∣ (B + X ^ k * (C d * u)) * lam') : u = 0 := by
  have hdvd' := (isCoprime_X_pow h0 j).dvd_of_dvd_mul_right hdvd
  by_contra hne
  have hcoeff := X_pow_dvd_iff.mp hdvd' (k + u.natDegree) (hu hne)
  rw [coeff_add, coeff_eq_zero_of_natDegree_lt (by omega), zero_add, Nat.add_comm, coeff_X_pow_mul,
    coeff_C_mul] at hcoeff
  rcases mul_eq_zero.mp hcoeff with h | h
  · exact hd h
  · exact hne (leadingCoeff_eq_zero.mp h)

/-- **The iteration ends in the chosen recurrence**, and in no other. -/
theorem chosen_iff {S lam : K[X]} {n e : ℕ} :
    Chosen S n lam e ↔ lam = (BM.run S n).lam ∧ e = (BM.run S n).el := by
  constructor
  · intro h
    have hlen := h.shortest.length_eq
    refine ⟨?_, hlen⟩
    rcases BM.grown_run S n with hinit | ⟨m, A, hgrown⟩
    · refine h.shortest.eq_of_two_mul_le ?_
      rw [hlen, hinit]
      exact Nat.zero_le n
    · obtain ⟨om, g, hinv⟩ := BMInv.run S n
      subst hlen
      obtain ⟨u, hu, hdeg⟩ := hinv.eq_sub_of_keyEq h.shortest.recurs.keyEq
      obtain ⟨A₁, hA₁, hdvd₁⟩ := h.settled hgrown.lastShorter
      have hel := hgrown.el
      have hlt := hgrown.lt
      have hshort := hgrown.short
      have hsplit : (A - A₁ + X ^ (n - m) * (C (-((BM.run S m).discr S m)⁻¹) * u))
            * (BM.run S m).lam
          = (lam - A₁ * (BM.run S m).lam
              + C (if (BM.run S m).el = 0 then S.coeff m else 0)
                * X ^ ((BM.run S n).el - (BM.run S m).el))
            - ((BM.run S n).lam - A * (BM.run S m).lam
              + C (if (BM.run S m).el = 0 then S.coeff m else 0)
                * X ^ ((BM.run S n).el - (BM.run S m).el)) := by
        rw [hu, hgrown.b, show (X ^ (n - m) : K[X]) = X ^ (n - m - 1) * X by
          rw [← pow_succ, Nat.sub_add_cancel (by omega)], C_neg]
        ring
      have hu0 : u = 0 := by
        refine eq_zero_of_settled (neg_ne_zero.mpr (inv_ne_zero hgrown.discr_ne))
          (BM.shortest_run S m).recurs.coeff_zero ?_ (fun hne => ?_)
          (hsplit ▸ dvd_sub hdvd₁ hgrown.settled)
        · exact lt_of_le_of_lt (natDegree_sub_le _ _) (max_lt hgrown.deg hA₁)
        · have := hdeg hne
          omega
      rw [hu, hu0, mul_zero, sub_zero]
  · rintro ⟨rfl, rfl⟩
    exact BM.chosen_run S n

end Lib
end CpeClock
