import CpeClock.Rs.Syndrome

/-!
# Berlekamp–Massey and the Chien search, in the field

The loop on arrays follows the iteration of `Lib.BM` on polynomials (`BmRel`, kept by every
turn), and the search that updates eleven registers in index form returns the exponents at
which the resulting polynomial vanishes. The early exit of the search loses nothing: a
polynomial has no more roots than its degree.
-/

namespace CpeClock
namespace Rs

open Polynomial Lib

/-! ## Berlekamp–Massey -/

/-- The arrays hold the first eleven coefficients of the two polynomials. -/
structure BmRel (st : BmState) (bm : BM Gf32) : Prop where
  lambda : st.lambda = vals (seg bm.lam.coeff 0 11)
  b : st.b = logs (seg bm.b.coeff 0 11)
  el : st.el = bm.el

theorem discrepancy_eq {S lam : Gf32[X]} {r : Nat} (hr : r < 10) :
    discrepancy rs32 (logs (seg S.coeff 0 10)) (vals (seg lam.coeff 0 11)) (r + 1)
      = ((lam * S).coeff r).val.val := by
  rw [coeff_mul, Finset.Nat.sum_antidiagonal_eq_sum_range_succ_mk]
  refine foldl_xor fun i hi q => ?_
  rw [vals_getD (by omega), logs_getD (by omega), rsModnn_rs32]
  have hne : (lam.coeff i).val.val ≠ 0 ↔ log (lam.coeff i) ≠ 31 := by
    rw [Ne, Ne, val_eq_zero_iff, log_eq_31_iff]
  have hidx : r + 1 - i - 1 = r - i := by omega
  simp only [hne, hidx]
  exact guarded_mul q (lam.coeff i) (S.coeff (r - i))

theorem bmUpdate_eq {st : BmState} {bm : BM Gf32} (h : BmRel st bm) (d : Gf32) (hd : d ≠ 0) :
    bmUpdate rs32 st (log d) = vals (seg (bm.lam - C d * (X * bm.b)).coeff 0 11) := by
  have hcoeff : ∀ i, (bm.lam - C d * (X * bm.b)).coeff (i + 1)
      = bm.lam.coeff (i + 1) + d * bm.b.coeff i := by
    intro i
    rw [coeff_sub, coeff_C_mul, coeff_X_mul, Gf32.sub_eq]
  have hzero : (bm.lam - C d * (X * bm.b)).coeff 0 = bm.lam.coeff 0 := by
    rw [coeff_sub, coeff_C_mul, coeff_X_mul_zero, mul_zero, sub_zero]
  rw [seg_succ, bmUpdate, h.lambda, h.b, vals_getD (by decide), hzero]
  refine congrArg (List.cons _) (map_range_eq_vals fun i hi => ?_)
  have hi10 : i < 10 := hi
  rw [logs_getD (by omega), vals_getD (by omega), rsModnn_rs32, rs32_nn, Nat.zero_add,
    Nat.add_comm 1 i, hcoeff, Gf32.val_add]
  by_cases hb : bm.b.coeff i = 0
  · rw [if_neg (not_not_intro (log_eq_31_iff.mpr hb)), hb, mul_zero]
    exact (Nat.xor_zero _).symm
  · rw [if_pos (log_ne_31 hb), alpha_log_add hd hb]

theorem bmShift_eq (b : Gf32[X]) :
    bmShift rs32 (logs (seg b.coeff 0 11)) = logs (seg (X * b).coeff 0 11) := by
  have htake : (seg b.coeff 0 11).take 10 = seg b.coeff 0 10 := by
    rw [seg_succ_right, List.take_append_of_le_length (by simp)]
    exact List.take_of_length_le (by simp)
  have hshift : seg (X * b).coeff 1 10 = seg b.coeff 0 10 := by
    unfold seg
    rw [List.range'_eq_map_range, List.range'_eq_map_range, List.map_map, List.map_map]
    refine List.map_congr_left fun i _ => ?_
    show (X * b).coeff (1 + i) = b.coeff (0 + i)
    rw [Nat.add_comm 1 i, coeff_X_mul, Nat.zero_add]
  rw [seg_succ (X * b : Gf32[X]).coeff, bmShift, logs, ← List.map_take,
    show rs32.nroots = 10 from rfl, htake, logs, List.map_cons, hshift, coeff_X_mul_zero]
  rfl

theorem bmScale_eq (lam : Gf32[X]) {d : Gf32} (hd : d ≠ 0) :
    bmScale rs32 (vals (seg lam.coeff 0 11)) (log d) = logs (seg (C d⁻¹ * lam).coeff 0 11) := by
  refine map_range_eq_logs fun i hi => ?_
  have hi11 : i < 11 := hi
  rw [vals_getD hi11, coeff_C_mul, show rs32.index (lam.coeff i).val.val = log (lam.coeff i)
    from rfl, rsModnn_rs32]
  by_cases hl : lam.coeff i = 0
  · rw [if_pos (val_eq_zero_iff.mpr hl), hl, mul_zero]
    rfl
  · rw [if_neg (fun h => hl (val_eq_zero_iff.mp h)), mul_comm, ← div_eq_mul_inv]
    exact log_div hl hd

/-- **One turn of the source's loop is one step of the iteration.** -/
theorem BmRel.step {S : Gf32[X]} {st : BmState} {bm : BM Gf32} (h : BmRel st bm) {r : Nat}
    (hr : r < 10) :
    BmRel (bmStep rs32 (logs (seg S.coeff 0 10)) st (r + 1)) (bm.step S r) := by
  have hdis : rs32.index (discrepancy rs32 (logs (seg S.coeff 0 10)) st.lambda (r + 1))
      = log (bm.discr S r) := by
    rw [h.lambda, discrepancy_eq hr]; rfl
  have hel := h.el
  unfold bmStep BM.step
  simp only [hdis, rs32_nn, log_eq_31_iff, Nat.add_sub_cancel, hel]
  split
  · exact ⟨h.lambda, by rw [h.b]; exact bmShift_eq _, rfl⟩
  · rename_i hd
    split
    · exact ⟨bmUpdate_eq h _ hd, by rw [h.lambda]; exact bmScale_eq _ hd, rfl⟩
    · exact ⟨bmUpdate_eq h _ hd, by rw [h.b]; exact bmShift_eq _, rfl⟩

theorem BmRel.init :
    BmRel ⟨1 :: List.replicate rs32.nroots 0, (1 :: List.replicate rs32.nroots 0).map rs32.index,
      0⟩ BM.init := by
  have hone : vals (seg (1 : Gf32[X]).coeff 0 11) = 1 :: List.replicate rs32.nroots 0 := by
    simp [vals, seg, coeff_one, List.range']
    decide
  refine ⟨hone.symm, ?_, rfl⟩
  rw [← hone, map_index_vals]
  rfl

/-- The whole loop computes what the iteration does with the ten syndromes. -/
theorem berlekampMassey_rel (S : Gf32[X]) :
    BmRel (berlekampMassey rs32 (logs (seg S.coeff 0 10))) (BM.run S 10) := by
  have hrun : ∀ n ≤ 10, BmRel ((List.range' 1 n).foldl
      (bmStep rs32 (logs (seg S.coeff 0 10)))
      ⟨1 :: List.replicate rs32.nroots 0, (1 :: List.replicate rs32.nroots 0).map rs32.index, 0⟩)
      (BM.run S n) := by
    intro n
    induction n with
    | zero => intro _; exact BmRel.init
    | succ n ih =>
      intro hn
      rw [List.range'_1_concat, List.foldl_append, Nat.add_comm 1 n]
      exact (ih (by omega)).step (by omega)
  exact hrun 10 (Nat.le_refl 10)

theorem lambda_index_form (S : Gf32[X]) :
    (berlekampMassey rs32 (logs (seg S.coeff 0 10))).lambda.map rs32.index
      = logs (seg (BM.run S 10).lam.coeff 0 11) := by
  rw [(berlekampMassey_rel S).lambda, map_index_vals]

/-! ## The degree -/

/-- Over the first `n` entries the loop keeps the last one that is not zero. -/
theorem degLambda_loop (p : Gf32[X]) {n : Nat} (hn : n ≤ 11) :
    let m := (List.range n).foldl (fun deg i =>
      if (logs (seg p.coeff 0 11)).getD i 0 ≠ rs32.nn then i else deg) 0
    (∀ i, m < i → i < n → p.coeff i = 0) ∧ (m = 0 ∨ p.coeff m ≠ 0) := by
  induction n with
  | zero => exact ⟨fun i _ h => absurd h (Nat.not_lt_zero i), .inl rfl⟩
  | succ n ih =>
    obtain ⟨habove, hlast⟩ := ih (by omega)
    dsimp only
    rw [List.range_succ, List.foldl_append, List.foldl_cons, List.foldl_nil,
      logs_getD (by omega), rs32_nn]
    by_cases hp : p.coeff n = 0
    · rw [if_neg (not_not_intro (log_eq_31_iff.mpr hp))]
      refine ⟨fun i hi hin => ?_, hlast⟩
      rcases Nat.lt_succ_iff_lt_or_eq.mp hin with hlt | rfl
      · exact habove i hi hlt
      · exact hp
    · rw [if_pos (log_ne_31 hp)]
      exact ⟨fun i hi hin => absurd hin (by omega), .inr hp⟩

theorem degLambda_eq {p : Gf32[X]} (hdeg : p.natDegree ≤ 10) :
    degLambda rs32 (logs (seg p.coeff 0 11)) = p.natDegree := by
  have hloop := degLambda_loop p (Nat.le_refl 11)
  change (∀ i, degLambda rs32 (logs (seg p.coeff 0 11)) < i → i < 11 → p.coeff i = 0) ∧
    (degLambda rs32 (logs (seg p.coeff 0 11)) = 0 ∨
      p.coeff (degLambda rs32 (logs (seg p.coeff 0 11))) ≠ 0) at hloop
  obtain ⟨habove, hlast⟩ := hloop
  apply le_antisymm
  · rcases hlast with h0 | hne
    · rw [h0]
      exact Nat.zero_le _
    · exact le_natDegree_of_ne_zero hne
  · rw [natDegree_le_iff_coeff_eq_zero]
    intro i hi
    by_cases hi11 : i < 11
    · exact habove i hi hi11
    · exact coeff_eq_zero_of_natDegree_lt (by omega)

/-! ## The Chien search -/

/-- The registers after `i` turns: coefficient `j` times `x ^ (i * j)`. -/
noncomputable def chienCoeff (p : Gf32[X]) (i j : Nat) : Gf32 := p.coeff j * Gf32.x ^ (i * j)

theorem chienReg_eq {p : Gf32[X]} (i : Nat) :
    chienReg rs32 p.natDegree (logs (seg (chienCoeff p i) 0 11))
      = logs (seg (chienCoeff p (i + 1)) 0 11) := by
  refine mapIdx_logs fun j _ => ?_
  have hsucc : chienCoeff p (i + 1) j = chienCoeff p i j * Gf32.x ^ j := by
    rw [chienCoeff, chienCoeff, mul_assoc, ← pow_add, Nat.succ_mul]
  rw [hsucc, rsModnn_rs32]
  by_cases hz : chienCoeff p i j = 0
  · rw [if_neg (fun h => h.2.2 (log_eq_31_iff.mpr hz)), hz, zero_mul]
  · have hj : j ≤ p.natDegree := by
      refine le_natDegree_of_ne_zero fun h0 => hz ?_
      rw [chienCoeff, h0, zero_mul]
    by_cases hj0 : j = 0
    · rw [if_neg (fun h => by omega), hj0, pow_zero, mul_one]
    · rw [if_pos ⟨by omega, hj, log_ne_31 hz⟩, log_mul_x_pow hz]

theorem chienSum_eq {p : Gf32[X]} (hdeg : p.natDegree ≤ 10) (h0 : p.coeff 0 = 1) (i : Nat) :
    chienSum rs32 p.natDegree (logs (seg (chienCoeff p i) 0 11))
      = (p.eval (Gf32.x ^ i)).val.val := by
  have hsum : p.eval (Gf32.x ^ i)
      = 1 + ∑ j ∈ Finset.range p.natDegree, chienCoeff p i (1 + j) := by
    rw [eval_eq_sum_range, Finset.sum_range_succ', h0, pow_zero, mul_one, add_comm]
    congr 1
    refine Finset.sum_congr rfl fun j _ => ?_
    rw [chienCoeff, Nat.add_comm 1 j, pow_mul]
  rw [hsum]
  refine foldr_xor (q := 1) fun j h1 h2 q => ?_
  rw [logs_getD (by omega), rs32_nn]
  have hg := guarded_mul_pow q (chienCoeff p i j) 0
  rw [pow_zero, mul_one, Nat.add_zero] at hg
  rw [← hg]
  by_cases hz : chienCoeff p i j = 0
  · have hzero := not_not_intro (log_eq_31_iff.mpr hz)
    rw [if_neg hzero, if_neg hzero]
  · have hlt := log_lt hz
    rw [if_pos (log_ne_31 hz), if_pos (log_ne_31 hz),
      Nat.mod_eq_of_lt hlt]

/-- The exponents in `1 .. 31` at which a polynomial vanishes. -/
noncomputable def rootExps (p : Gf32[X]) (a n : Nat) : List Nat :=
  (List.range' a n).filter fun i => p.eval (Gf32.x ^ i) = 0

theorem rootExps_nodup (p : Gf32[X]) (a n : Nat) : (rootExps p a n).Nodup :=
  (List.nodup_range').filter _

theorem rootExps_root {p : Gf32[X]} {a : Nat} (h : p.eval (Gf32.x ^ a) = 0) (n : Nat) :
    rootExps p a (n + 1) = a :: rootExps p (a + 1) n := by
  rw [rootExps, List.range'_succ, List.filter_cons_of_pos (by simpa using h)]
  rfl

theorem rootExps_noRoot {p : Gf32[X]} {a : Nat} (h : p.eval (Gf32.x ^ a) ≠ 0) (n : Nat) :
    rootExps p a (n + 1) = rootExps p (a + 1) n := by
  rw [rootExps, List.range'_succ, List.filter_cons_of_neg (by simpa using h)]
  rfl

/-- What the search stores: each exponent with its error location. -/
theorem chienSearch_eq {p : Gf32[X]} (hdeg : p.natDegree ≤ 10) (h0 : p.coeff 0 = 1) :
    ∀ (n a : Nat) (found : List (Nat × Nat)), a + n ≤ 31 →
      found.length + (rootExps p (a + 1) n).length ≤ p.natDegree →
      chienSearch rs32 p.natDegree (List.range' (a + 1) n) a
          (logs (seg (chienCoeff p a) 0 11)) found
        = found ++ (rootExps p (a + 1) n).map fun i => (i, i - 1)
  | 0, a, found, _, _ => by simp [chienSearch, rootExps]
  | n + 1, a, found, ha, hlen => by
    have hk : n ≠ 0 → rsModnn rs32 (a + rs32.iprim) = a + 1 := by
      intro hn
      rw [rsModnn_rs32]
      exact Nat.mod_eq_of_lt (show a + 1 < 31 by omega)
    -- With nothing left to try, the location for the next turn is never read.
    have hnext : ∀ found', found'.length + (rootExps p (a + 1 + 1) n).length ≤ p.natDegree →
        chienSearch rs32 p.natDegree (List.range' (a + 1 + 1) n) (rsModnn rs32 (a + rs32.iprim))
          (logs (seg (chienCoeff p (a + 1)) 0 11)) found'
        = found' ++ (rootExps p (a + 1 + 1) n).map fun i => (i, i - 1) := by
      intro found' hf
      by_cases hn : n = 0
      · subst hn
        simp [chienSearch, rootExps]
      · rw [hk hn]
        exact chienSearch_eq hdeg h0 n (a + 1) found' (by omega) hf
    rw [List.range'_succ, chienSearch]
    simp only [chienReg_eq, chienSum_eq hdeg h0, Ne, val_eq_zero_iff]
    by_cases hroot : p.eval (Gf32.x ^ (a + 1)) = 0
    · rw [rootExps_root hroot] at hlen ⊢
      rw [List.length_cons] at hlen
      rw [if_neg (not_not_intro hroot)]
      split
      · rename_i hfull
        -- The count has reached the degree: there is no further root.
        have hnil : rootExps p (a + 1 + 1) n = [] := by
          apply List.eq_nil_of_length_eq_zero
          rw [List.length_append, List.length_singleton] at hfull
          omega
        rw [hnil]
        rfl
      · rw [hnext _ (by rw [List.length_append, List.length_singleton]; omega)]
        simp
    · rw [rootExps_noRoot hroot] at hlen ⊢
      rw [if_pos hroot]
      exact hnext _ hlen

/-- No more exponents than the degree: distinct exponents are distinct roots. -/
theorem rootExps_length_le {p : Gf32[X]} (hp : p ≠ 0) :
    (rootExps p 1 31).length ≤ p.natDegree := by
  classical
  have hinj : Set.InjOn (fun i => Gf32.x ^ i) ((rootExps p 1 31).toFinset : Set Nat) := by
    intro i hi j hj hij
    have hi' := List.mem_range'_1.mp (List.mem_of_mem_filter (List.mem_toFinset.mp hi))
    have hj' := List.mem_range'_1.mp (List.mem_of_mem_filter (List.mem_toFinset.mp hj))
    have hlog := congrArg log hij
    simp only [log_x_pow] at hlog
    omega
  have hsub : (rootExps p 1 31).toFinset.image (fun i => Gf32.x ^ i) ⊆ p.roots.toFinset := by
    intro z hz
    obtain ⟨i, hi, rfl⟩ := Finset.mem_image.mp hz
    rw [Multiset.mem_toFinset, mem_roots hp]
    simpa using (List.mem_filter.mp (List.mem_toFinset.mp hi)).2
  calc (rootExps p 1 31).length
      = (rootExps p 1 31).toFinset.card :=
        (List.toFinset_card_of_nodup (rootExps_nodup p 1 31)).symm
    _ = ((rootExps p 1 31).toFinset.image fun i => Gf32.x ^ i).card :=
        (Finset.card_image_of_injOn hinj).symm
    _ ≤ p.roots.toFinset.card := Finset.card_le_card hsub
    _ ≤ p.natDegree := le_trans (Multiset.toFinset_card_le _) (card_roots' p)

/-- **The Chien search finds the roots**, each with the location it stands for. -/
theorem chienSearch_rootExps {p : Gf32[X]} (hdeg : p.natDegree ≤ 10) (h0 : p.coeff 0 = 1) :
    chienSearch rs32 p.natDegree (List.range' 1 rs32.nn) (rs32.iprim - 1)
        (logs (seg p.coeff 0 11)) []
      = (rootExps p 1 31).map fun i => (i, i - 1) := by
  have hp : p ≠ 0 := by
    rintro rfl
    exact zero_ne_one h0
  have hreg : seg p.coeff 0 11 = seg (chienCoeff p 0) 0 11 :=
    seg_congr fun j _ _ => by rw [chienCoeff, Nat.zero_mul, pow_zero, mul_one]
  rw [hreg]
  have h := chienSearch_eq hdeg h0 31 0 [] (by decide)
    (by simpa using rootExps_length_le hp)
  rw [List.nil_append] at h
  exact h

end Rs
end CpeClock
