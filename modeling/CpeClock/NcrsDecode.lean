import CpeClock.NcrsCorrect
import Mathlib.Tactic.IntervalCases

/-!
# `ncrs_decode`: what it corrects, and which shifts it recovers

The loop over alignments stops at the first success, so two facts are enough for everything
here: what one attempt gives (`attemptDecode_corrects`), and how far an attempt's word is from
the code when the symbols arrived shifted (`symbolDist_alignedWord_le`).

The offsets read are `3, 3, 2, 4, 1, 5, 0` (`map_shiftOffset`): attempt 1 repeats attempt 0, and
offset 6, which would undo a shift of three symbols towards the end, is never read although
`padded_message` has room for it.
-/

namespace CpeClock
namespace Ncrs

open Rs

theorem ncrsInit_eq : ncrsInit = some rs32 := initRs_eq_rs32

/-! ## The loop over alignments -/

theorem shiftAttempts_cons {rs : RsControl} {padded : List Nat} {a : Nat} {rest : List Nat}
    {corrections : Nat} {data : List Nat}
    (h : attemptDecode rs padded (shiftOffset a) = some (corrections, data)) :
    shiftAttempts rs padded (a :: rest) = some (a, corrections, data) := by
  rw [shiftAttempts, h]

theorem isSome_shiftAttempts {rs : RsControl} {padded : List Nat} {a : Nat} :
    ∀ {l : List Nat}, a ∈ l → (attemptDecode rs padded (shiftOffset a)).isSome →
      (shiftAttempts rs padded l).isSome
  | b :: rest, ha, hsome => by
    rw [shiftAttempts]
    cases hb : attemptDecode rs padded (shiftOffset b) with
    | some r => rfl
    | none =>
      rcases List.mem_cons.mp ha with rfl | ha
      · rw [hb] at hsome
        exact absurd hsome (by decide)
      · exact isSome_shiftAttempts ha hsome

theorem exists_of_isSome_shiftAttempts {rs : RsControl} {padded : List Nat} {l : List Nat}
    (h : (shiftAttempts rs padded l).isSome) :
    ∃ a ∈ l, (attemptDecode rs padded (shiftOffset a)).isSome := by
  induction l with
  | nil => exact absurd h (by rw [shiftAttempts]; decide)
  | cons b rest ih =>
    rw [shiftAttempts] at h
    cases hb : attemptDecode rs padded (shiftOffset b) with
    | some r => exact ⟨b, List.mem_cons_self, by rw [hb]; rfl⟩
    | none =>
      rw [hb] at h
      obtain ⟨a, ha, hsome⟩ := ih h
      exact ⟨a, List.mem_cons_of_mem b ha, hsome⟩

theorem ncrsDecode_pos_iff {rs : RsControl} {original : Message} {encoded : NcCode} :
    0 < (ncrsDecode rs original encoded).1
      ↔ (shiftAttempts rs (paddedMessage encoded)
          (List.range (maxShiftDistance * 2 + 1))).isSome := by
  unfold ncrsDecode
  cases shiftAttempts rs (paddedMessage encoded) (List.range (maxShiftDistance * 2 + 1)) with
  | none => simp
  | some r => simp

theorem map_shiftOffset :
    (List.range (maxShiftDistance * 2 + 1)).map shiftOffset = [3, 3, 2, 4, 1, 5, 0] := by
  decide

/-! ## No shift -/

theorem paddedMessage_getD (encoded : NcCode) {n : Nat} (hn : n < 31) :
    (paddedMessage encoded).getD (maxShiftDistance + n) 0 = encoded[n].toNat := by
  rw [← bytes_getD encoded hn]
  simp [paddedMessage, List.getD_eq_getElem?_getD, List.getElem?_append, bytes, hn]

theorem alignedWord_unshifted (encoded : NcCode) :
    alignedWord encoded (shiftOffset 0) = encoded := by
  apply Vector.ext
  intro n hn
  simp only [alignedWord, Vector.getElem_ofFn]
  rw [show shiftOffset 0 = maxShiftDistance from rfl, paddedMessage_getD encoded hn]
  exact UInt8.ofNat_toNat

/-- **Error correction.** A code with at most five symbols altered, wherever they are, decodes to
    the message; the return code is one plus ten for each altered symbol. -/
theorem ncrsDecode_corrects {rs : RsControl} (hrs : ncrsInit = some rs) {msg original : Message}
    {encoded : NcCode} {e : Nat} (hmsg : Fits msg) (hsyms : FiveBit encoded)
    (he : symbolDist encoded (ncrsEncode rs msg) = e) (h5 : e ≤ 5) :
    ncrsDecode rs original encoded = (1 + 10 * e, msg) := by
  obtain rfl : rs32 = rs := Option.some.inj (ncrsInit_eq.symm.trans hrs)
  have hattempt : attemptDecode rs32 (paddedMessage encoded) (shiftOffset 0)
      = some (e, packBits (bytes msg)) := by
    have hnear : symbolDist (alignedWord encoded (shiftOffset 0)) (ncrsEncode rs32 msg) ≤ 5 := by
      rw [alignedWord_unshifted, he]
      exact h5
    have h := attemptDecode_corrects hsyms hnear
    rwa [alignedWord_unshifted, he] at h
  have hloop : shiftAttempts rs32 (paddedMessage encoded)
      (List.range (maxShiftDistance * 2 + 1)) = some (0, e, packBits (bytes msg)) :=
    shiftAttempts_cons hattempt
  rw [ncrsDecode, hloop]
  show (1 + 0 + e * 10, _) = _
  rw [unpackBits_packBits hmsg, Nat.add_zero, Nat.mul_comm]

/-- A message whose code is not near any other codeword after a shift. -/
def sampleMessage : Message :=
  #v[5, 42, 79, 116, 153, 190, 227, 8, 45, 82, 119, 156, 193, 128]

/-- The sample's code with three data symbols and two parity symbols altered. -/
def sampleDamaged : NcCode :=
  ((((ncrsEncode rs32 sampleMessage).set 0 31).set 2 7).set 16 0 |>.set 17 9).set 30 1

theorem ncrsDecode_corrects_sample :
    ncrsDecode rs32 (Vector.replicate 14 0) sampleDamaged = (51, sampleMessage) :=
  ncrsDecode_corrects ncrsInit_eq (e := 5) (by decide) (by decide +kernel) (by decide +kernel)
    (by decide)

/-! ## Shifts -/

/-- A code moved by `s` symbols, towards the end for `s > 0`, with zeros filled in. -/
def shiftCode (s : Int) (code : NcCode) : NcCode :=
  Vector.ofFn fun n : Fin 31 =>
    if 0 ≤ (n : Int) - s ∧ (n : Int) - s < 31 then code.toList.getD ((n : Int) - s).toNat 0 else 0

theorem shiftCode_getElem (s : Int) (code : NcCode) {n m : Nat} (hn : n < 31) (hm : m < 31)
    (h : (m : Int) = n + s) : (shiftCode s code)[m] = code[n] := by
  have hsub : (m : Int) - s = n := by omega
  have hle : ¬ (m : Int) < s := by omega
  simp [shiftCode, hsub, hn, hle, List.getD_eq_getElem?_getD]

/-- The symbols a shift by `s` pushes out of the word. -/
theorem card_pushed_out {s : Int} (hlo : -3 ≤ s) (hhi : s ≤ 3) :
    (Finset.univ.filter fun n : Fin 31 => ¬ (0 ≤ (n : Int) + s ∧ (n : Int) + s < 31)).card
      = s.natAbs := by
  interval_cases s <;> decide

/-- **The alignment that undoes a shift reads a word near the code**: the symbols that differ are
    those altered and those lost. -/
theorem symbolDist_alignedWord_le {s : Int} (hlo : -3 ≤ s) (hhi : s ≤ 3)
    (received code : NcCode) :
    symbolDist (alignedWord received (3 + s).toNat) code
      ≤ symbolDist received (shiftCode s code) + s.natAbs := by
  have hread : ∀ (n : Fin 31) (m : Fin 31), (m : Int) = n + s →
      (alignedWord received (3 + s).toNat)[n] = received[m] := by
    intro n m hm
    have hidx : (3 + s).toNat + n = maxShiftDistance + m := by
      show _ = 3 + (m : Nat)
      omega
    show (alignedWord received (3 + s).toNat)[(n : Nat)] = received[(m : Nat)]
    simp only [alignedWord, Vector.getElem_ofFn]
    rw [hidx, paddedMessage_getD received m.isLt]
    exact UInt8.ofNat_toNat
  rw [← card_pushed_out hlo hhi]
  unfold symbolDist hammingDist
  -- A differing symbol was pushed out, or it is one that was altered, `s` places further on.
  have hinj : Set.InjOn (fun n : Fin 31 => Fin.ofNat 31 ((n : Int) + s).toNat)
      {n : Fin 31 | 0 ≤ (n : Int) + s ∧ (n : Int) + s < 31} := by
    intro n hn m hm hnm
    have hval := congrArg Fin.val hnm
    simp only [Fin.val_ofNat] at hval
    obtain ⟨hn0, hn1⟩ := hn
    obtain ⟨hm0, hm1⟩ := hm
    apply Fin.ext
    omega
  calc _ ≤ (Finset.univ.filter fun n : Fin 31 =>
              (0 ≤ (n : Int) + s ∧ (n : Int) + s < 31) ∧
                (alignedWord received (3 + s).toNat)[n] ≠ code[n]).card
            + (Finset.univ.filter fun n : Fin 31 =>
                ¬ (0 ≤ (n : Int) + s ∧ (n : Int) + s < 31)).card := by
          refine le_trans (Finset.card_le_card fun n hn => ?_) (Finset.card_union_le _ _)
          rw [Finset.mem_union, Finset.mem_filter, Finset.mem_filter]
          by_cases hin : 0 ≤ (n : Int) + s ∧ (n : Int) + s < 31
          · exact .inl ⟨Finset.mem_univ _, hin, (Finset.mem_filter.mp hn).2⟩
          · exact .inr ⟨Finset.mem_univ _, hin⟩
    _ ≤ _ := by
          refine Nat.add_le_add_right (Finset.card_le_card_of_injOn
            (fun n : Fin 31 => Fin.ofNat 31 ((n : Int) + s).toNat) ?_
            (hinj.mono fun n hn => ((Finset.mem_filter.mp hn).2).1)) _
          intro n hn
          obtain ⟨hin, hne⟩ := (Finset.mem_filter.mp hn).2
          have hm : ((Fin.ofNat 31 ((n : Int) + s).toNat : Fin 31) : Int) = n + s := by
            simp only [Fin.val_ofNat]
            omega
          refine Finset.mem_filter.mpr ⟨Finset.mem_univ _, ?_⟩
          have hshift := shiftCode_getElem s code n.isLt (Fin.isLt _) hm
          rw [hread n _ hm] at hne
          exact fun heq => hne (heq.trans hshift)

/-- The alignment that undoes a shift by `s` is among the attempts exactly when `s ≠ 3`. -/
theorem exists_shiftOffset_iff {s : Int} (hlo : -3 ≤ s) (hhi : s ≤ 3) :
    (∃ attempt ∈ List.range (maxShiftDistance * 2 + 1), (shiftOffset attempt : Int) = 3 + s)
      ↔ s ≠ 3 := by
  have hmap : (∃ attempt ∈ List.range (maxShiftDistance * 2 + 1),
        (shiftOffset attempt : Int) = 3 + s) ↔ (3 + s).toNat ∈ [3, 3, 2, 4, 1, 5, 0] := by
    rw [← map_shiftOffset, List.mem_map]
    refine exists_congr fun attempt => and_congr_right fun _ => ?_
    omega
  rw [hmap]
  simp only [List.mem_cons, List.not_mem_nil, or_false]
  omega

/-- The return code is positive exactly when one of the offsets up to 5 gives a word that is
    accepted. So a code that was moved by three symbols towards the end, which only offset 6 would
    undo, has a positive return code exactly when another alignment of it is accepted. -/
theorem ncrsDecode_pos_iff_offset {rs : RsControl} {original : Message} {encoded : NcCode} :
    0 < (ncrsDecode rs original encoded).1
      ↔ ∃ offset < 6, (attemptDecode rs (paddedMessage encoded) offset).isSome := by
  rw [ncrsDecode_pos_iff]
  constructor
  · intro h
    obtain ⟨a, ha, hsome⟩ := exists_of_isSome_shiftAttempts h
    have hmem : shiftOffset a ∈ [3, 3, 2, 4, 1, 5, 0] :=
      map_shiftOffset ▸ List.mem_map_of_mem ha
    refine ⟨shiftOffset a, ?_, hsome⟩
    simp only [List.mem_cons, List.not_mem_nil, or_false] at hmem
    omega
  · rintro ⟨offset, hlt, hsome⟩
    have hmem : offset ∈ [3, 3, 2, 4, 1, 5, 0] := by
      simp only [List.mem_cons, List.not_mem_nil, or_false]
      omega
    rw [← map_shiftOffset, List.mem_map] at hmem
    obtain ⟨a, ha, rfl⟩ := hmem
    exact isSome_shiftAttempts ha hsome

/-- The code of the zero message is the same at every shift. -/
example : (ncrsDecode rs32 (Vector.replicate 14 0)
    (shiftCode 3 (ncrsEncode rs32 (Vector.replicate 14 0)))).1 = 1 := by
  decide +kernel

/-- **Shift recovery.** For a code moved by `s` symbols with up to `5 - |s|` more altered,
    `ncrs_decode` has the alignment that undoes the shift among its attempts, and so returns a
    positive code, exactly when the shift is not the largest one towards the end. -/
theorem ncrsDecode_shifted_iff {rs : RsControl} (hrs : ncrsInit = some rs)
    {msg original : Message} {s : Int} {received : NcCode}
    (hlo : -(maxShiftDistance : Int) ≤ s) (hhi : s ≤ maxShiftDistance) (hsyms : FiveBit received)
    (hd : symbolDist received (shiftCode s (ncrsEncode rs msg)) ≤ 5 - s.natAbs) :
    ((∃ attempt ∈ List.range (maxShiftDistance * 2 + 1),
          (shiftOffset attempt : Int) = maxShiftDistance + s) ∧
        0 < (ncrsDecode rs original received).1)
      ↔ s ≠ maxShiftDistance := by
  obtain rfl : rs32 = rs := Option.some.inj (ncrsInit_eq.symm.trans hrs)
  have hlo3 : -3 ≤ s := hlo
  have hhi3 : s ≤ 3 := hhi
  constructor
  · exact fun h => (exists_shiftOffset_iff hlo3 hhi3).mp h.1
  · intro hs
    obtain ⟨attempt, hmem, hoff⟩ := (exists_shiftOffset_iff hlo3 hhi3).mpr hs
    refine ⟨⟨attempt, hmem, hoff⟩, ncrsDecode_pos_iff.mpr (isSome_shiftAttempts hmem ?_)⟩
    have hoff' : shiftOffset attempt = (3 + s).toNat := by omega
    have hnear : symbolDist (alignedWord received (shiftOffset attempt)) (ncrsEncode rs32 msg)
        ≤ 5 := by
      rw [hoff']
      have := symbolDist_alignedWord_le hlo3 hhi3 received (ncrsEncode rs32 msg)
      omega
    rw [attemptDecode_corrects hsyms hnear]
    rfl

/-- Two symbols lost at the end, and three more altered. -/
def sampleShifted : NcCode :=
  (((shiftCode 2 (ncrsEncode rs32 sampleMessage)).set 5 1).set 6 1).set 7 0

theorem ncrsDecode_shifted_sample :
    (∃ attempt ∈ List.range (maxShiftDistance * 2 + 1),
        (shiftOffset attempt : Int) = maxShiftDistance + 2) ∧
      0 < (ncrsDecode rs32 (Vector.replicate 14 0) sampleShifted).1 ∧
      ncrsDecode rs32 (Vector.replicate 14 0) sampleShifted = (56, sampleMessage) := by
  have hshifted := (@ncrsDecode_shifted_iff rs32 ncrsInit_eq sampleMessage (Vector.replicate 14 0)
    2 sampleShifted (by decide) (by decide) (by decide +kernel) (by decide +kernel)).mpr (by decide)
  exact ⟨hshifted.1, hshifted.2, by decide +kernel⟩

/-- A code that lost three symbols at the end, and nothing else, is given up. -/
theorem ncrsDecode_shift_three_fails :
    ncrsInit = some rs32 ∧ Fits sampleMessage ∧ (3 : Int) ≤ maxShiftDistance ∧
      symbolDist (shiftCode 3 (ncrsEncode rs32 sampleMessage))
          (shiftCode 3 (ncrsEncode rs32 sampleMessage)) ≤ 5 - (3 : Int).natAbs ∧
      (∀ attempt ∈ List.range (maxShiftDistance * 2 + 1),
        (shiftOffset attempt : Int) ≠ maxShiftDistance + 3) ∧
      (ncrsDecode rs32 (Vector.replicate 14 0)
        (shiftCode 3 (ncrsEncode rs32 sampleMessage))).1 = 0 := by
  refine ⟨ncrsInit_eq, by decide, by decide, by simp [symbolDist], by decide, ?_⟩
  decide +kernel

end Ncrs
end CpeClock
