import CpeClock.Lib.LinearRecurrence
import CpeClock.Rs.Correct

/-!
# `decode_rs8`: which words it accepts

The decoder compares the degree of a polynomial with the number of its roots, and both belong
to the loops before. What that comes to is a property of the ten syndromes alone: their
recurrence, the one the iteration picks where there are several, is the locator of a set of
positions (`decodeRs8_isSome_iff`). With five positions, and as long a recurrence as there are
positions, there is a codeword to go to (`LocatedAt.near`); with more, or with a recurrence
longer than that, there is none within five symbols (`LocatedAt.card_eq_of_near`).
-/

namespace CpeClock
namespace Rs

open Polynomial Lib

/-- The recurrence of the ten syndromes has length `e` and is the locator of the positions in
    `E`. -/
def LocatedAt (y : Nat → Gf32) (E : Finset Nat) (e : Nat) : Prop :=
  E ⊆ Finset.range 31 ∧ Chosen (synPoly y) 10 (locator E posLoc) e

theorem locatedAt_iff {y : Nat → Gf32} {E : Finset Nat} {e : Nat} :
    LocatedAt y E e ↔ E ⊆ Finset.range 31 ∧ locator E posLoc = connection y ∧
      e = (BM.run (synPoly y) 10).el :=
  and_congr_right fun _ => chosen_iff

/-! ## The test of the degree -/

/-- **As many roots as the degree** is to be the locator of a set of positions. -/
theorem natDegree_eq_roots_iff {p : Gf32[X]} (h0 : p.coeff 0 = 1) :
    p.natDegree = (rootExps p 1 31).length
      ↔ ∃ E ⊆ Finset.range 31, locator E posLoc = p := by
  constructor
  · intro hlen
    have hroot : ∀ i ∈ rootExps p 1 31, 1 ≤ i ∧ i < 32 ∧ p.eval (Gf32.x ^ i) = 0 := fun i hi => by
      obtain ⟨hi', heval⟩ := List.mem_filter.mp hi
      have := List.mem_range'_1.mp hi'
      exact ⟨this.1, this.2, of_decide_eq_true heval⟩
    let E := (rootExps p 1 31).toFinset.image (· - 1)
    have hmem : ∀ q ∈ E, q + 1 ∈ rootExps p 1 31 := fun q hq => by
      obtain ⟨i, hi, rfl⟩ := Finset.mem_image.mp hq
      have hi' := List.mem_toFinset.mp hi
      have := (hroot i hi').1
      rwa [Nat.sub_add_cancel this]
    have hE : E ⊆ Finset.range 31 := fun q hq => by
      have := (hroot _ (hmem q hq)).2.1
      exact Finset.mem_range.mpr (by omega)
    have hcard : E.card = (rootExps p 1 31).length := by
      rw [← List.toFinset_card_of_nodup (rootExps_nodup p 1 31)]
      refine Finset.card_image_of_injOn fun i hi j hj hij => ?_
      have := (hroot i (List.mem_toFinset.mp hi)).1
      have := (hroot j (List.mem_toFinset.mp hj)).1
      have hij' : i - 1 = j - 1 := hij
      omega
    refine ⟨E, hE, (eq_locator_of_roots (posLoc_injOn hE) (fun q _ => posLoc_ne_zero q) h0
      (by rw [hcard, hlen]) fun q hq => ?_).symm⟩
    rw [posLoc_inv (Finset.mem_range.mp (hE hq))]
    exact (hroot _ (hmem q hq)).2.2
  · rintro ⟨E, hE, rfl⟩
    rw [natDegree_locator fun p _ => posLoc_ne_zero p, rootExps_locator_length hE]

theorem connection_of_isCodeword {y : Nat → Gf32} (hy : IsCodeword y) : connection y = 1 := by
  obtain ⟨om, g, hinv⟩ := BMInv.run (synPoly y) 10
  have hone : Recurs (synPoly y) 10 1 0 :=
    ⟨coeff_one_zero, by rw [natDegree_one], fun k _ hk => by
      rw [one_mul, synPoly_coeff hk, hy k hk]⟩
  have hlen := (BM.shortest_run (synPoly y) 10).least hone
  have hdeg : (connection y).natDegree = 0 :=
    Nat.le_zero.mp (le_trans hinv.lam_deg hlen)
  rw [eq_C_of_natDegree_eq_zero hdeg, connection_coeff_zero, C_1]

/-- **What `decode_rs8` accepts**: the words whose syndromes are located. -/
theorem decodeRs8_isSome_iff (y : Nat → Gf32) :
    (decodeRs8 rs32 (vals (seg y 0 21)) (vals (seg y 21 10))).isSome = true
      ↔ ∃ E e, LocatedAt y E e := by
  have hlocated : (∃ E e, LocatedAt y E e)
      ↔ (connection y).natDegree = (rootExps (connection y) 1 31).length := by
    rw [natDegree_eq_roots_iff (connection_coeff_zero y)]
    simp only [locatedAt_iff]
    constructor
    · rintro ⟨E, -, hE, hlam, -⟩
      exact ⟨E, hE, hlam⟩
    · rintro ⟨E, hE, hlam⟩
      exact ⟨E, _, hE, hlam, rfl⟩
  rw [hlocated, decodeRs8_eq]
  split
  · rename_i hz
    have hone : natDegree (1 : Gf32[X]) = (rootExps 1 1 31).length :=
      (natDegree_eq_roots_iff coeff_one_zero).mpr ⟨∅, Finset.empty_subset _, rfl⟩
    rw [connection_of_isCodeword hz]
    exact ⟨fun _ => hone, fun _ => rfl⟩
  · split
    · rename_i hne
      exact ⟨fun h => absurd h (by simp), fun h => absurd h hne⟩
    · rename_i heq
      exact ⟨fun _ => not_not.mp heq, fun _ => rfl⟩

/-! ## Where there is a codeword -/

/-- **A recurrence as long as its positions are many leads to a codeword**: its weights are the
    errors. -/
theorem LocatedAt.near {y : Nat → Gf32} {E : Finset Nat} (h : LocatedAt y E E.card) :
    ∃ c, IsCodeword c ∧ (diffSet y c).card ≤ E.card := by
  obtain ⟨hE, hchosen⟩ := h
  obtain ⟨w, hw⟩ := hchosen.shortest.recurs.keyEq.exists_powerSums (posLoc_injOn hE)
    fun p _ => posLoc_ne_zero p
  refine ⟨fun p => if p ∈ E then y p + w p / posLoc p else y p, fun i hi => ?_, ?_⟩
  · have hsum : wordEval (fun p => if p ∈ E then y p + w p / posLoc p else y p) 30
          (Gf32.x ^ (i + 1))
        = wordEval y 30 (Gf32.x ^ (i + 1)) + ∑ p ∈ E, w p * posLoc p ^ i := by
      have hover : ∑ p ∈ E, w p * posLoc p ^ i
          = ∑ p ∈ Finset.range 31, if p ∈ E then w p * posLoc p ^ i else 0 := by
        rw [Finset.sum_ite_mem, Finset.inter_eq_right.mpr hE]
      rw [hover, wordEval, wordEval, ← Finset.sum_add_distrib]
      refine Finset.sum_congr rfl fun p _ => ?_
      by_cases hp : p ∈ E
      · have hpow : (Gf32.x ^ (i + 1)) ^ (30 - p) = posLoc p * posLoc p ^ i := by
          rw [posLoc, ← pow_succ', ← pow_mul, ← pow_mul, Nat.mul_comm]
        rw [if_pos hp, if_pos hp, add_mul, hpow, ← mul_assoc (w p / posLoc p),
          div_mul_cancel₀ _ (posLoc_ne_zero p)]
      · rw [if_neg hp, if_neg hp, add_zero]
    rw [hsum, ← synPoly_coeff hi, hw i hi, Gf32.add_self]
  · refine Finset.card_le_card fun p hp => ?_
    by_contra hnot
    exact (mem_diffSet.mp hp).2 (if_neg hnot).symm

/-- **Within five symbols of a codeword** the recurrence has the length of its positions. -/
theorem LocatedAt.card_eq_of_near {y c : Nat → Gf32} {E : Finset Nat} {e : Nat}
    (h : LocatedAt y E e) (hc : IsCodeword c) (he : (diffSet y c).card ≤ 5) :
    E.card = e ∧ e ≤ 5 := by
  obtain ⟨-, hlam, hlen⟩ := locatedAt_iff.mp h
  obtain ⟨om, g, hinv⟩ := BMInv.run (synPoly y) 10
  have hcard : E.card = (diffSet y c).card := by
    rw [← connection_natDegree hc he, ← hlam, natDegree_locator fun p _ => posLoc_ne_zero p]
  have hle : e ≤ (diffSet y c).card := by
    rw [hlen]
    exact hinv.el_le_of_keyEq (keyEq_locator (powerSums_diffSet hc))
  have hge : E.card ≤ e := by
    rw [← natDegree_locator fun p (_ : p ∈ E) => posLoc_ne_zero p, hlam, hlen]
    exact hinv.lam_deg
  omega

end Rs
end CpeClock
