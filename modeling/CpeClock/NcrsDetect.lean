import CpeClock.NcrsDecode
import CpeClock.Rs.Detect
import Mathlib.LinearAlgebra.Vandermonde

/-!
# `ncrs_decode`: what a success is worth

An attempt succeeds when the recurrence of its ten syndromes is the locator of a set of positions
(`attemptDecode_isSome_iff`). With as long a recurrence as there are positions, five at most, that
is a codeword within reach and the success is one (`near_iff`). With any other length there is no
codeword within reach and a success is announced all the same: the syndromes of `sampleDeceptive`
are all zero but the first, the recurrence is 1 with length 1, the locator of no position, and the
answer is "perfect transmission". Such words are the only failures (`ncrsDecode_honest_iff`).
-/

namespace CpeClock
namespace Ncrs

open Rs Lib

/-! ## Packing undoes unpacking -/

theorem msgBit_unpackBits (data : List Nat) {k : Nat} (hk : k < 105) :
    msgBit (bytes (ofBytes 14 (unpackBits data))) k = symBit data k := by
  have hbyte : (bytes (ofBytes 14 (unpackBits data))).getD (k / 8) 0
      = (unpackBits data).getD (k / 8) 0 % 256 := by
    rw [bytes_getD _ (by omega)]
    simp only [ofBytes, Vector.getElem_ofFn, UInt8.toNat_ofNat']
  have hbit : ((unpackBits data).getD (k / 8) 0).testBit (7 - k % 8) = true
      ↔ symBit data k = 1 := by
    rw [unpackBits_eq, scatterBits_testBit (symBit_le_one data) (by omega)]
    constructor
    · rintro ⟨k', -, hdiv, hmod, h⟩
      rwa [show k = k' by omega]
    · exact fun h => ⟨k, hk, rfl, rfl, h⟩
  have hplace : 7 - k % 8 < 8 := by omega
  have hle := symBit_le_one data k
  rw [msgBit, hbyte, show (256 : Nat) = 2 ^ 8 from rfl, Nat.testBit_mod_two_pow,
    decide_eq_true hplace, Bool.true_and]
  by_cases hset : ((unpackBits data).getD (k / 8) 0).testBit (7 - k % 8) = true
  · rw [hset, hbit.mp hset]
    rfl
  · have hne : symBit data k ≠ 1 := fun h => hset (hbit.mpr h)
    rw [Bool.not_eq_true] at hset
    rw [hset]
    show 0 = symBit data k
    omega

/-- **Packing undoes unpacking**, on five-bit symbols. -/
theorem packBits_unpackBits {data : List Nat} (hlen : data.length = 21)
    (hfive : ∀ i < 21, data.getD i 0 < 32) :
    packBits (bytes (ofBytes 14 (unpackBits data))) = data := by
  have hsymbol : ∀ i < 21,
      (packBits (bytes (ofBytes 14 (unpackBits data)))).getD i 0 = data.getD i 0 := by
    intro i hi
    apply Nat.eq_of_testBit_eq
    intro b
    rw [Bool.eq_iff_iff, packBits_testBit _ hi]
    by_cases hb : b < 5
    · rw [msgBit_unpackBits data (by omega), symBit, bool_toNat_eq_one, and_iff_right hb,
        show (5 * i + (4 - b)) / 5 = i by omega, show 4 - (5 * i + (4 - b)) % 5 = b by omega]
    · have hlt : data.getD i 0 < 2 ^ b :=
        lt_of_lt_of_le (hfive i hi)
          (show 2 ^ 5 ≤ 2 ^ b from Nat.pow_le_pow_right (by decide) (Nat.not_lt.mp hb))
      rw [Nat.testBit_lt_two_pow hlt]
      exact ⟨fun h => absurd h.1 hb, fun h => absurd h (by decide)⟩
  apply List.ext_getElem
  · rw [length_packBits, hlen]
  · intro i h1 h2
    have h := hsymbol i (hlen ▸ h2)
    rwa [List.getD_eq_getElem _ _ h1, List.getD_eq_getElem _ _ h2] at h

/-- A message and what is sent of it have the same code. -/
theorem ncrsEncode_unpackBits (rs : RsControl) (msg : Message) :
    ncrsEncode rs (ofBytes 14 (unpackBits (packBits (bytes msg)))) = ncrsEncode rs msg := by
  unfold ncrsEncode
  rw [packBits_unpackBits (length_packBits _) fun i hi => packBits_lt _ hi]

/-! ## Codewords -/

theorem wordEval_sub_parity {y c : Nat → Gf32} (hdata : ∀ p < 21, y p = c p) (β : Gf32) :
    wordEval y 30 β - wordEval c 30 β
      = ∑ k : Fin 10, β ^ k.val * (y (30 - k) - c (30 - k)) := by
  rw [Fin.sum_univ_eq_sum_range (fun k => β ^ k * (y (30 - k) - c (30 - k))) 10]
  have hterm : ∀ k ∈ Finset.range 31,
      y (31 - 1 - k) * β ^ (30 - (31 - 1 - k)) - c (31 - 1 - k) * β ^ (30 - (31 - 1 - k))
        = β ^ k * (y (30 - k) - c (30 - k)) := by
    intro k hk
    have hk31 := Finset.mem_range.mp hk
    rw [← sub_mul, mul_comm, show 30 - (31 - 1 - k) = k by omega]
  rw [wordEval, wordEval, ← Finset.sum_sub_distrib, ← Finset.sum_range_reflect,
    Finset.sum_congr rfl hterm]
  symm
  refine Finset.sum_subset (Finset.range_mono (by decide)) fun k hk hnot => ?_
  rw [Finset.mem_range] at hk hnot
  rw [hdata (30 - k) (by omega), sub_self, mul_zero]

/-- The data of a codeword determine its parity: the difference has ten roots and ten terms. -/
theorem codeword_unique {y c : Nat → Gf32} (hy : IsCodeword y) (hc : IsCodeword c)
    (hdata : ∀ p < 21, y p = c p) : ∀ p < 31, y p = c p := by
  have hparity : (fun k : Fin 10 => y (30 - k) - c (30 - k)) = 0 := by
    refine Matrix.eq_zero_of_forall_index_sum_pow_mul_eq_zero
      (f := fun i : Fin 10 => Gf32.x ^ (i.val + 1)) (fun i j hij => ?_) fun i => ?_
    · have hexp := x_pow_injOn (by omega) (by omega) hij
      exact Fin.ext (by omega)
    · rw [← wordEval_sub_parity hdata, hy i i.isLt, hc i i.isLt, sub_zero]
  intro p hp
  by_cases hp21 : p < 21
  · exact hdata p hp21
  · have h := congrFun hparity ⟨30 - p, by omega⟩
    have hidx : 30 - (30 - p) = p := by omega
    simp only [Pi.zero_apply, hidx] at h
    exact sub_eq_zero.mp h

/-- A codeword is the code of the message its data unpack to. -/
theorem wordOf_ncrsEncode {c : Nat → Gf32} (hcode : IsCodeword c) :
    ∀ p < 31, c p = wordOf (ncrsEncode rs32 (ofBytes 14 (unpackBits (vals (seg c 0 21))))) p := by
  obtain ⟨-, hcode', hdata⟩ := ncrsEncode_codeword (ofBytes 14 (unpackBits (vals (seg c 0 21))))
  have hlt : ∀ i < 21, (vals (seg c 0 21)).getD i 0 < 32 := fun i hi => by
    rw [vals_getD hi]
    exact (c i).val_lt
  rw [packBits_unpackBits (by rw [length_vals, length_seg]) hlt] at hdata
  refine codeword_unique hcode hcode' fun p hp => ?_
  have h := congrArg (fun l => l.getD p 0) hdata
  simp only [vals_getD hp] at h
  exact (Gf32.ext_val h).symm

/-! ## Successes -/

/-- The code of some message is at most five symbols away. -/
def Near (rs : RsControl) (word : NcCode) : Prop :=
  ∃ msg, symbolDist word (ncrsEncode rs msg) ≤ 5

/-- **A word is near a code** exactly when its syndromes are located at five positions at most,
    by a recurrence no longer than that. -/
theorem near_iff {word : NcCode} (hfive : FiveBit word) {E : Finset Nat} {e : Nat}
    (h : LocatedAt (wordOf word) E e) : Near rs32 word ↔ E.card = e ∧ e ≤ 5 := by
  constructor
  · rintro ⟨msg, hd⟩
    obtain ⟨hfive', hcode, -⟩ := ncrsEncode_codeword msg
    exact h.card_eq_of_near hcode (by rwa [card_diffSet_wordOf hfive hfive'])
  · rintro ⟨rfl, he⟩
    obtain ⟨c, hcode, hcard⟩ := h.near
    refine ⟨ofBytes 14 (unpackBits (vals (seg c 0 21))), ?_⟩
    have hsame := wordOf_ncrsEncode hcode
    rw [← card_diffSet_wordOf hfive (ncrsEncode_codeword _).1]
    refine le_trans (Finset.card_le_card fun p hp => ?_) (le_trans hcard he)
    obtain ⟨hp31, hne⟩ := mem_diffSet.mp hp
    exact mem_diffSet.mpr ⟨hp31, by rwa [hsame p hp31]⟩

/-- The syndromes of the word that attempt `shift_attempt` reads are located. -/
def AttemptLocated (encoded : NcCode) (shiftAttempt : Nat) (E : Finset Nat) (e : Nat) : Prop :=
  LocatedAt (wordOf (alignedWord encoded (shiftOffset shiftAttempt))) E e

/-- **What an attempt accepts.** -/
theorem attemptDecode_isSome_iff {encoded : NcCode} (h : FiveBit encoded) (shiftAttempt : Nat) :
    (attemptDecode rs32 (paddedMessage encoded) (shiftOffset shiftAttempt)).isSome = true
      ↔ ∃ E e, AttemptLocated encoded shiftAttempt E e := by
  rw [attemptDecode_eq h]
  exact decodeRs8_isSome_iff _

/-! ## The first success -/

theorem shiftAttempts_eq_some {rs : RsControl} {padded : List Nat} {a : Nat}
    {r : Nat × List Nat} {l : List Nat} (hsorted : l.Pairwise (· < ·))
    (h : shiftAttempts rs padded l = some (a, r)) :
    a ∈ l ∧ attemptDecode rs padded (shiftOffset a) = some r ∧
      ∀ b ∈ l, b < a → attemptDecode rs padded (shiftOffset b) = none := by
  induction l with
  | nil => cases h
  | cons b rest ih =>
    obtain ⟨hfirst, hrest⟩ := List.pairwise_cons.mp hsorted
    cases hb : attemptDecode rs padded (shiftOffset b) with
    | some result =>
      rw [shiftAttempts_cons hb] at h
      injection h with h
      injection h with ha hr
      subst ha hr
      refine ⟨List.mem_cons_self, hb, fun b' hb' hlt => ?_⟩
      rcases List.mem_cons.mp hb' with heq | hmem
      · exact absurd hlt (heq ▸ Nat.lt_irrefl _)
      · exact absurd (hfirst b' hmem) (Nat.lt_asymm hlt)
    | none =>
      simp only [shiftAttempts, hb] at h
      obtain ⟨hmem, ha, hearlier⟩ := ih hrest h
      refine ⟨List.mem_cons_of_mem b hmem, ha, fun b' hb' hlt => ?_⟩
      rcases List.mem_cons.mp hb' with heq | hmem'
      · exact heq ▸ hb
      · exact hearlier b' hmem' hlt

/-- What `ncrs_decode` announces: the attempt and the corrections can be read off the return
    code. -/
theorem ncrsDecode_eq_of_some {rs : RsControl} (original : Message) {encoded : NcCode}
    {attempt corrections : Nat} {data : List Nat} (hattempt : attempt < 7)
    (h : shiftAttempts rs (paddedMessage encoded) (List.range (maxShiftDistance * 2 + 1))
      = some (attempt, corrections, data)) :
    ((ncrsDecode rs original encoded).1 - 1) % 10 = attempt ∧
      ((ncrsDecode rs original encoded).1 - 1) / 10 = corrections ∧
      (ncrsDecode rs original encoded).2 = ofBytes 14 (unpackBits data) := by
  have hdecode : ncrsDecode rs original encoded
      = (1 + attempt + corrections * 10, ofBytes 14 (unpackBits data)) := by
    rw [ncrsDecode, h]
  rw [hdecode]
  refine ⟨?_, ?_, rfl⟩
  · show (1 + attempt + corrections * 10 - 1) % 10 = attempt
    omega
  · show (1 + attempt + corrections * 10 - 1) / 10 = corrections
    omega

/-- **When a success is one.** What `ncrs_decode` announces is true (the word it read is `c ≤ 5`
    symbols away from the code of the message) if and only if the first attempt whose syndromes are
    located has a recurrence as long as there are positions, and five at most. -/
theorem ncrsDecode_honest_iff {rs : RsControl} (hrs : ncrsInit = some rs) {original : Message}
    {encoded : NcCode} (hfive : FiveBit encoded) :
    (0 < (ncrsDecode rs original encoded).1 →
        let rc := (ncrsDecode rs original encoded).1
        let msg := (ncrsDecode rs original encoded).2
        symbolDist (alignedWord encoded (shiftOffset ((rc - 1) % 10))) (ncrsEncode rs msg)
            = (rc - 1) / 10 ∧ (rc - 1) / 10 ≤ 5)
      ↔ ∀ attempt < maxShiftDistance * 2 + 1, ∀ E e, AttemptLocated encoded attempt E e →
          (∀ earlier < attempt, ∀ E' e', ¬ AttemptLocated encoded earlier E' e') →
          E.card = e ∧ e ≤ 5 := by
  obtain rfl : rs32 = rs := Option.some.inj (ncrsInit_eq.symm.trans hrs)
  have hsorted : (List.range (maxShiftDistance * 2 + 1)).Pairwise (· < ·) :=
    List.pairwise_lt_range
  dsimp only
  constructor
  · intro hhonest attempt hattempt E e hlocated hnone
    have hmem := List.mem_range.mpr hattempt
    have hsome := isSome_shiftAttempts hmem
      ((attemptDecode_isSome_iff hfive attempt).mpr ⟨E, e, hlocated⟩)
    obtain ⟨⟨first, corrections, data⟩, hloop⟩ := Option.isSome_iff_exists.mp hsome
    obtain ⟨hfirst, haccepted, hearlier⟩ := shiftAttempts_eq_some hsorted hloop
    obtain ⟨E', e', hlocated'⟩ :=
      (attemptDecode_isSome_iff hfive first).mp (by rw [haccepted]; rfl)
    -- The loop stops at the first attempt that is located.
    obtain rfl : first = attempt := by
      rcases Nat.lt_trichotomy first attempt with hlt | heq | hgt
      · exact absurd hlocated' (hnone first hlt E' e')
      · exact heq
      · have hsome' := (attemptDecode_isSome_iff hfive attempt).mpr ⟨E, e, hlocated⟩
        rw [hearlier attempt hmem hgt] at hsome'
        exact absurd hsome' (by decide)
    obtain ⟨hshift, -, -⟩ := ncrsDecode_eq_of_some original (List.mem_range.mp hfirst) hloop
    obtain ⟨hdist, hle⟩ := hhonest (ncrsDecode_pos_iff.mpr hsome)
    rw [hshift] at hdist
    exact (near_iff (hfive.alignedWord _) hlocated).mp ⟨_, hdist ▸ hle⟩
  · intro hcondition hpos
    obtain ⟨⟨first, corrections, data⟩, hloop⟩ :=
      Option.isSome_iff_exists.mp (ncrsDecode_pos_iff.mp hpos)
    obtain ⟨hfirst, haccepted, hearlier⟩ := shiftAttempts_eq_some hsorted hloop
    obtain ⟨hshift, hcorrections, hmsg⟩ :=
      ncrsDecode_eq_of_some original (List.mem_range.mp hfirst) hloop
    obtain ⟨E, e, hlocated⟩ :=
      (attemptDecode_isSome_iff hfive first).mp (by rw [haccepted]; rfl)
    have hnone : ∀ earlier < first, ∀ E' e', ¬ AttemptLocated encoded earlier E' e' := by
      intro earlier hlt E' e' hlocated'
      have hsome := (attemptDecode_isSome_iff hfive earlier).mpr ⟨E', e', hlocated'⟩
      have hmem : earlier ∈ List.range (maxShiftDistance * 2 + 1) :=
        List.mem_range.mpr (Nat.lt_trans hlt (List.mem_range.mp hfirst))
      rw [hearlier earlier hmem hlt] at hsome
      exact absurd hsome (by decide)
    obtain ⟨msg, hd⟩ := (near_iff (hfive.alignedWord _) hlocated).mpr
      (hcondition first (List.mem_range.mp hfirst) E e hlocated hnone)
    rw [attemptDecode_corrects hfive hd] at haccepted
    obtain ⟨rfl, rfl⟩ := Prod.mk.inj (Option.some.inj haccepted)
    rw [hshift, hcorrections, hmsg, ncrsEncode_unpackBits]
    exact ⟨rfl, hd⟩

/-- A damaged code within reach, read at the first alignment: its syndromes are located by a
    recurrence as long as they should be, and the five corrections announced are five. -/
theorem ncrsDecode_honest_sample :
    FiveBit sampleDamaged ∧
      (ncrsDecode rs32 (Vector.replicate 14 0) sampleDamaged).1 = 51 ∧
      symbolDist (alignedWord sampleDamaged (shiftOffset 0))
        (ncrsEncode rs32 (ncrsDecode rs32 (Vector.replicate 14 0) sampleDamaged).2) = 5 := by
  have hfive : FiveBit sampleDamaged := by decide +kernel
  have hnear : Near rs32 (alignedWord sampleDamaged (shiftOffset 0)) :=
    ⟨sampleMessage, by decide +kernel⟩
  have hlocated : ∃ E e, AttemptLocated sampleDamaged 0 E e := by
    rw [← attemptDecode_isSome_iff hfive]
    obtain ⟨msg, hd⟩ := hnear
    rw [attemptDecode_corrects hfive hd]
    rfl
  have hcondition : ∀ attempt < maxShiftDistance * 2 + 1, ∀ E e,
      AttemptLocated sampleDamaged attempt E e →
      (∀ earlier < attempt, ∀ E' e', ¬ AttemptLocated sampleDamaged earlier E' e') →
      E.card = e ∧ e ≤ 5 := by
    intro attempt _ E e h hnone
    rcases Nat.eq_zero_or_pos attempt with rfl | hpos
    · exact (near_iff (hfive.alignedWord _) h).mp hnear
    · obtain ⟨E', e', h'⟩ := hlocated
      exact absurd h' (hnone 0 hpos E' e')
  have hrc : (ncrsDecode rs32 (Vector.replicate 14 0) sampleDamaged).1 = 51 := by decide +kernel
  have h := (@ncrsDecode_honest_iff rs32 ncrsInit_eq (Vector.replicate 14 0) sampleDamaged
    hfive).mpr hcondition
  refine ⟨hfive, hrc, ?_⟩
  have hdist := (h (by rw [hrc]; decide)).1
  simpa only [hrc] using hdist

/-- A word with one syndrome, the first, that is not zero. -/
def sampleDeceptive : NcCode :=
  #v[0, 0, 1, 0, 0, 1, 0, 0, 3, 0, 0, 31, 0, 0, 10, 0, 0, 14, 0, 0, 4, 0, 0, 19, 0, 0, 7, 0, 0, 15,
    0]

/-- Announced as a perfect transmission, ten symbols away from the code of the message. -/
theorem ncrsDecode_deceived :
    FiveBit sampleDeceptive ∧
      (ncrsDecode rs32 (Vector.replicate 14 255) sampleDeceptive).1 = 1 ∧
      symbolDist (alignedWord sampleDeceptive (shiftOffset 0))
        (ncrsEncode rs32 (ncrsDecode rs32 (Vector.replicate 14 255) sampleDeceptive).2) = 10 := by
  decide +kernel

end Ncrs
end CpeClock
