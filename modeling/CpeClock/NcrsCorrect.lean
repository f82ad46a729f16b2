import CpeClock.Lib.BitScatter
import CpeClock.Ncrs
import CpeClock.Rs.Encode
import Mathlib.InformationTheory.Hamming

/-!
# The message codec: packing, interleaving, and what one attempt decodes

Everything between the 14 bytes and the Reed–Solomon word is a rearrangement: the bits are
regrouped (`unpackBits_packBits`) and the symbols permuted (`wordPos`). So a code that is
near `ncrs_encode(message)`, read from whatever offset, is a word near the message's
codeword, and one attempt of `ncrs_decode` on it gives the message back
(`attemptDecode_corrects`).
-/

namespace CpeClock
namespace Ncrs

open Rs Lib

/-! ## Bits -/

/-- Bit `k` of a message, most significant bit of each byte first. -/
def msgBit (original : List Nat) (k : Nat) : Nat :=
  ((original.getD (k / 8) 0).testBit (7 - k % 8)).toNat

/-- Bit `k` of the data symbols, most significant bit of each symbol first. -/
def symBit (data : List Nat) (k : Nat) : Nat :=
  ((data.getD (k / 5) 0).testBit (4 - k % 5)).toNat

theorem msgBit_le_one (original : List Nat) (k : Nat) : msgBit original k ≤ 1 :=
  Bool.toNat_le _

theorem symBit_le_one (data : List Nat) (k : Nat) : symBit data k ≤ 1 := Bool.toNat_le _

theorem bool_toNat_eq_one {b : Bool} : b.toNat = 1 ↔ b = true := by cases b <;> decide

theorem pack_bit (v : Nat) {s : Nat} (hs : s < 8) :
    ((v <<< s) % 256) >>> 7 = (v.testBit (7 - s)).toNat := by
  apply Nat.eq_of_testBit_eq
  intro j
  rw [Nat.testBit_shiftRight, show (256 : Nat) = 2 ^ 8 from rfl, Nat.testBit_mod_two_pow,
    Nat.testBit_shiftLeft]
  cases j with
  | zero =>
    have hle : s ≤ 7 := by omega
    cases v.testBit (7 - s) <;> simp [hle]
  | succ j =>
    have hge : ¬ 7 + (j + 1) < 8 := by omega
    cases v.testBit (7 - s) <;> simp [hge, Nat.testBit_succ]

theorem unpack_bit (v s : Nat) : (v >>> s) &&& 1 = (v.testBit s).toNat := by
  rw [Nat.and_one_is_mod, Nat.shiftRight_eq_div_pow, Nat.testBit_eq_decide_div_mod_eq]
  rcases Nat.mod_two_eq_zero_or_one (v / 2 ^ s) with h | h <;> rw [h] <;> rfl

/-- The two bit loops are the same loop. -/
theorem packBits_eq (original : List Nat) :
    packBits original
      = scatterBits 21 105 (fun k => k / 5) (fun k => 4 - k % 5) (msgBit original) := by
  unfold packBits scatterBits
  congr 1
  funext data k
  rw [packStep, scatterStep, pack_bit _ (Nat.mod_lt k (by decide))]
  rfl

theorem unpackBits_eq (data : List Nat) :
    unpackBits data
      = scatterBits 14 105 (fun k => k / 8) (fun k => 7 - k % 8) (symBit data) := by
  unfold unpackBits scatterBits
  congr 1
  funext original k
  rw [unpackStep, scatterStep, unpack_bit]
  rfl

theorem packBits_testBit (original : List Nat) {i : Nat} (hi : i < 21) (b : Nat) :
    ((packBits original).getD i 0).testBit b = true
      ↔ b < 5 ∧ msgBit original (5 * i + (4 - b)) = 1 := by
  rw [packBits_eq, scatterBits_testBit (msgBit_le_one original) hi]
  constructor
  · rintro ⟨k, hk, h1, h2, h3⟩
    have hk' : k = 5 * i + (4 - b) := by omega
    exact ⟨by omega, hk' ▸ h3⟩
  · rintro ⟨hb, h⟩
    exact ⟨5 * i + (4 - b), by omega, by omega, by omega, h⟩

theorem packBits_lt (original : List Nat) {i : Nat} (hi : i < 21) :
    (packBits original).getD i 0 < 32 := by
  refine Nat.lt_pow_two_of_testBit (n := 5) _ fun b hb => ?_
  rw [← Bool.not_eq_true, packBits_testBit original hi]
  exact fun h => absurd h.1 (by omega)

@[simp]
theorem length_packBits (original : List Nat) : (packBits original).length = 21 := by
  rw [packBits_eq, length_scatterBits]

theorem symBit_packBits (original : List Nat) {k : Nat} (hk : k < 105) :
    symBit (packBits original) k = msgBit original k := by
  have hb := packBits_testBit original (show k / 5 < 21 by omega) (4 - k % 5)
  have hidx : 5 * (k / 5) + (4 - (4 - k % 5)) = k := by omega
  rw [hidx] at hb
  have hle := msgBit_le_one original k
  unfold symBit
  by_cases hset : ((packBits original).getD (k / 5) 0).testBit (4 - k % 5) = true
  · rw [hset, (hb.mp hset).2]; rfl
  · have hne : msgBit original k ≠ 1 := fun h => hset (hb.mpr ⟨by omega, h⟩)
    rw [Bool.not_eq_true] at hset
    rw [hset]
    show 0 = msgBit original k
    omega

/-- A message only uses the 105 bits that are sent. -/
def Fits (msg : Message) : Prop := msg.toList.getD 13 0 &&& 0x7f = 0

instance (msg : Message) : Decidable (Fits msg) := by unfold Fits; infer_instance

theorem bytes_getD {n : Nat} (v : Vector UInt8 n) {i : Nat} (hi : i < n) :
    (bytes v).getD i 0 = v[i].toNat := by
  simp [bytes, List.getD_eq_getElem?_getD, hi]

theorem Fits.testBit {msg : Message} (h : Fits msg) {b : Nat} (hb : b < 7) :
    msg[13].toNat.testBit b = false := by
  have h0 : msg[13].toNat &&& 127 = 0 := by
    have hlast : msg.toList.getD 13 0 = msg[13] := by simp [List.getD_eq_getElem?_getD]
    rw [Fits, hlast] at h
    have := congrArg UInt8.toNat h
    simpa using this
  have hbit := congrArg (fun n => n.testBit b) h0
  simp only [Nat.testBit_and, Nat.zero_testBit] at hbit
  have h127 : (127 : Nat).testBit b = true := by
    rw [show (127 : Nat) = 2 ^ 7 - 1 from rfl, Nat.testBit_two_pow_sub_one]
    simpa using hb
  rwa [h127, Bool.and_true] at hbit

/-- **Unpacking undoes packing**, on messages that use only the 105 bits. -/
theorem unpackBits_packBits {msg : Message} (hmsg : Fits msg) :
    ofBytes 14 (unpackBits (packBits (bytes msg))) = msg := by
  apply Vector.ext
  intro q hq
  have hbyte : (unpackBits (packBits (bytes msg))).getD q 0 = msg[q].toNat := by
    apply Nat.eq_of_testBit_eq
    intro b
    rw [Bool.eq_iff_iff, unpackBits_eq,
      scatterBits_testBit (symBit_le_one _) hq]
    have hbitOf : ∀ b < 8, msgBit (bytes msg) (8 * q + (7 - b)) = 1
        ↔ msg[q].toNat.testBit b = true := by
      intro b hb
      unfold msgBit
      rw [show (8 * q + (7 - b)) / 8 = q by omega, bytes_getD msg hq,
        show 7 - (8 * q + (7 - b)) % 8 = b by omega, bool_toNat_eq_one]
    constructor
    · rintro ⟨k, hk, h1, h2, h3⟩
      rw [symBit_packBits _ hk, show k = 8 * q + (7 - b) by omega] at h3
      exact (hbitOf b (by omega)).mp h3
    · intro hset
      have hb : b < 8 := by
        by_contra hge
        have hlt := Nat.testBit_lt_two_pow
          (lt_of_lt_of_le msg[q].toNat_lt (Nat.pow_le_pow_right (by decide) (Nat.le_of_not_lt hge)))
        rw [hlt] at hset
        exact absurd hset (by decide)
      by_cases hk : 8 * q + (7 - b) < 105
      · exact ⟨8 * q + (7 - b), hk, by omega, by omega, by
          rw [symBit_packBits _ hk]; exact (hbitOf b hb).mpr hset⟩
      · -- The seven bits that are not sent.
        have hq13 : q = 13 := by omega
        subst hq13
        rw [hmsg.testBit (by omega)] at hset
        exact absurd hset (by decide)
  simp only [ofBytes, Vector.getElem_ofFn]
  rw [hbyte]
  exact UInt8.ofNat_toNat

/-! ## Interleaving -/

/-- Where symbol `p` of the Reed–Solomon word (data, then parity) stands in the code. -/
def wordPos (p : Nat) : Nat := if p < 21 then 3 * (p / 2) + p % 2 else 3 * (p - 21) + 2

/-- Which symbol of the Reed–Solomon word stands at place `n` of the code. -/
def codePos (n : Nat) : Nat := if n % 3 = 2 then 21 + n / 3 else 2 * (n / 3) + n % 3

theorem wordPos_lt {p : Nat} (hp : p < 31) : wordPos p < 31 := by
  unfold wordPos; split <;> omega

theorem codePos_lt {n : Nat} (hn : n < 31) : codePos n < 31 := by
  unfold codePos; split <;> omega

theorem codePos_wordPos {p : Nat} (hp : p < 31) : codePos (wordPos p) = p := by
  unfold wordPos
  split
  · rw [codePos, if_neg (by omega)]; omega
  · rw [codePos, if_pos (by omega)]; omega

theorem wordPos_codePos (n : Nat) (hn : n < 31) : wordPos (codePos n) = n := by
  unfold codePos
  split
  · rw [wordPos, if_neg (by omega)]; omega
  · rw [wordPos, if_pos (by omega)]; omega

def sym (v : Nat) : Gf32 := ⟨⟨v % 32, Nat.mod_lt v (by decide)⟩⟩

theorem sym_val {v : Nat} (hv : v < 32) : (sym v).val.val = v := Nat.mod_eq_of_lt hv

theorem sym_val_val (a : Gf32) : sym a.val.val = a :=
  Gf32.ext_val (sym_val a.val_lt)

theorem sym_inj {v w : Nat} (hv : v < 32) (hw : w < 32) (h : sym v = sym w) : v = w := by
  rw [← sym_val hv, h, sym_val hw]

def wordOf (code : NcCode) (p : Nat) : Gf32 := sym ((bytes code).getD (wordPos p) 0)

def FiveBit (code : NcCode) : Prop := ∀ i : Fin 31, code[i] < 32

instance (code : NcCode) : Decidable (FiveBit code) := by unfold FiveBit; infer_instance

theorem FiveBit.bytes_lt {code : NcCode} (h : FiveBit code) {n : Nat} (hn : n < 31) :
    (bytes code).getD n 0 < 32 := by
  rw [bytes_getD code hn]
  have := h ⟨n, hn⟩
  simpa [UInt8.lt_iff_toNat_lt] using this

/-- **The code of a message is a codeword that carries its data**, rearranged. -/
theorem ncrsEncode_codeword (msg : Message) :
    FiveBit (ncrsEncode rs32 msg) ∧ IsCodeword (wordOf (ncrsEncode rs32 msg)) ∧
      vals (seg (wordOf (ncrsEncode rs32 msg)) 0 21) = packBits (bytes msg) := by
  have hdata : packBits (bytes msg)
      = vals (seg (fun p => sym ((packBits (bytes msg)).getD p 0)) 0 21) := by
    apply List.ext_getElem
    · simp
    · intro p h1 h2
      have hp : p < 21 := by simpa using h1
      have hlt := packBits_lt (bytes msg) hp
      rw [List.getD_eq_getElem?_getD, List.getElem?_eq_getElem h1] at hlt
      simp only [vals, seg, List.getElem_map, List.getElem_range', Nat.one_mul, Nat.zero_add,
        List.getD_eq_getElem?_getD, List.getElem?_eq_getElem h1, Option.getD_some]
      exact (sym_val hlt).symm
  obtain ⟨c, hc, hm, hpar⟩ :=
    encodeRs8_codeword fun p => sym ((packBits (bytes msg)).getD p 0)
  have hcdata : vals (seg c 0 21) = packBits (bytes msg) := by
    rw [hdata]
    exact congrArg vals (seg_congr fun p _ hp => hm p (by omega))
  have hsym : ∀ n < 31, (bytes (ncrsEncode rs32 msg)).getD n 0 = (c (codePos n)).val.val := by
    intro n hn
    have hinter : interleave (packBits (bytes msg))
        (encodeRs8 rs32 (packBits (bytes msg)) (List.replicate 10 0)) n
          = (c (codePos n)).val.val := by
      rw [← hcdata, hcdata, hdata, hpar, ← hdata, ← hcdata, interleave, codePos]
      split
      · simp [vals, seg, List.getD_eq_getElem?_getD, show n / 3 < 10 by omega]
      · rw [vals_getD (by omega)]
    have hlt := (c (codePos n)).val_lt
    rw [bytes_getD _ hn]
    simp only [ncrsEncode, ofBytes, Vector.getElem_ofFn]
    rw [List.getD_eq_getElem?_getD, List.getElem?_map, List.getElem?_range hn]
    simp only [Option.map_some, Option.getD_some, hinter, UInt8.toNat_ofNat']
    omega
  have hword : ∀ p < 31, wordOf (ncrsEncode rs32 msg) p = c p := by
    intro p hp
    rw [wordOf, hsym _ (wordPos_lt hp), codePos_wordPos hp, sym_val_val]
  refine ⟨fun i => ?_, fun i hi => ?_, ?_⟩
  · have h := hsym i i.isLt
    rw [bytes_getD _ i.isLt] at h
    rw [UInt8.lt_iff_toNat_lt]
    exact lt_of_eq_of_lt h (c (codePos i)).val_lt
  · rw [← hc i hi]
    exact Finset.sum_congr rfl fun p hp => by rw [hword p (Finset.mem_range.mp hp)]
  · rw [← hcdata]
    exact congrArg vals (seg_congr fun p _ hp => hword p (by omega))

/-! ## One attempt -/

/-- The 31 symbols an attempt reads when it starts at offset `i` of the padded message. -/
def alignedWord (encoded : NcCode) (i : Nat) : NcCode :=
  Vector.ofFn fun n => UInt8.ofNat ((paddedMessage encoded).getD (i + n) 0)

theorem paddedMessage_getD_lt {encoded : NcCode} (h : FiveBit encoded) (n : Nat) :
    (paddedMessage encoded).getD n 0 < 32 := by
  have hall : ∀ v ∈ paddedMessage encoded, v < 32 := by
    intro v hv
    simp only [paddedMessage, List.mem_append, List.mem_replicate] at hv
    rcases hv with (⟨-, rfl⟩ | hv) | ⟨-, rfl⟩
    · decide
    · obtain ⟨n, hn, rfl⟩ := List.mem_iff_getElem.mp hv
      have hn31 : n < 31 := by simpa [bytes] using hn
      have := h.bytes_lt hn31
      rwa [List.getD_eq_getElem?_getD, List.getElem?_eq_getElem hn] at this
    · decide
  rw [List.getD_eq_getElem?_getD]
  cases hget : (paddedMessage encoded)[n]? with
  | none => exact (by decide : 0 < 32)
  | some v => exact hall v (List.mem_of_getElem? hget)

theorem alignedWord_getD {encoded : NcCode} (h : FiveBit encoded) (i : Nat) {n : Nat}
    (hn : n < 31) :
    (bytes (alignedWord encoded i)).getD n 0 = (paddedMessage encoded).getD (i + n) 0 := by
  have hlt := paddedMessage_getD_lt h (i + n)
  rw [bytes_getD _ hn]
  simp only [alignedWord, Vector.getElem_ofFn, UInt8.toNat_ofNat']
  omega

theorem FiveBit.alignedWord {encoded : NcCode} (h : FiveBit encoded) (i : Nat) :
    FiveBit (alignedWord encoded i) := by
  intro n
  have hlt := paddedMessage_getD_lt h (i + n)
  have hget := alignedWord_getD h i n.isLt
  rw [bytes_getD _ n.isLt] at hget
  rw [UInt8.lt_iff_toNat_lt]
  exact lt_of_eq_of_lt hget hlt

/-- The data and the parity of a code: "Copy interleaved data and parity", without a shift. -/
def deinterleave (word : NcCode) : List Nat × List Nat :=
  ((List.range 21).map fun k => (bytes word).getD (3 * (k / 2) + k % 2) 0,
    (List.range 10).map fun k => (bytes word).getD (3 * k + 2) 0)

theorem deinterleave_eq {word : NcCode} (h : FiveBit word) :
    deinterleave word = (vals (seg (wordOf word) 0 21), vals (seg (wordOf word) 21 10)) := by
  have hread : ∀ p < 31, (wordOf word p).val.val = (bytes word).getD (wordPos p) 0 := fun p hp =>
    sym_val (h.bytes_lt (wordPos_lt hp))
  have hdata : (deinterleave word).1 = vals (seg (wordOf word) 0 21) := by
    refine map_range_eq_vals fun k hk => ?_
    rw [Nat.zero_add, hread k (by omega), wordPos, if_pos hk]
  have hparity : (deinterleave word).2 = vals (seg (wordOf word) 21 10) := by
    refine map_range_eq_vals fun k hk => ?_
    rw [hread (21 + k) (by omega), wordPos, if_neg (by omega), Nat.add_sub_cancel_left]
  exact Prod.ext hdata hparity

theorem attemptDecode_deinterleave (rs : RsControl) {encoded : NcCode} (h : FiveBit encoded)
    (i : Nat) :
    attemptDecode rs (paddedMessage encoded) i
      = decodeRs8 rs (deinterleave (alignedWord encoded i)).1
          (deinterleave (alignedWord encoded i)).2 := by
  have hdata : ∀ k ∈ List.range 21, (paddedMessage encoded).getD (i + 3 * (k / 2) + k % 2) 0
      = (bytes (alignedWord encoded i)).getD (3 * (k / 2) + k % 2) 0 := by
    intro k hk
    have hk21 := List.mem_range.mp hk
    rw [alignedWord_getD h i (by omega), Nat.add_assoc]
  have hparity : ∀ k ∈ List.range 10, (paddedMessage encoded).getD (i + 3 * k + 2) 0
      = (bytes (alignedWord encoded i)).getD (3 * k + 2) 0 := by
    intro k hk
    have hk10 := List.mem_range.mp hk
    rw [alignedWord_getD h i (by omega), Nat.add_assoc]
  rw [attemptDecode, List.map_congr_left hdata, List.map_congr_left hparity]
  rfl

theorem attemptDecode_eq {encoded : NcCode} (h : FiveBit encoded) (i : Nat) :
    attemptDecode rs32 (paddedMessage encoded) i
      = decodeRs8 rs32 (vals (seg (wordOf (alignedWord encoded i)) 0 21))
          (vals (seg (wordOf (alignedWord encoded i)) 21 10)) := by
  rw [attemptDecode_deinterleave rs32 h, deinterleave_eq (h.alignedWord i)]

/-- The number of symbols in which two codes differ. -/
def symbolDist (a b : NcCode) : Nat := hammingDist (fun i : Fin 31 => a[i]) (fun i => b[i])

theorem card_diffSet_wordOf {a b : NcCode} (ha : FiveBit a) (hb : FiveBit b) :
    (diffSet (wordOf a) (wordOf b)).card = symbolDist a b := by
  have hne : ∀ n (hn : n < 31), a[n] ≠ b[n] ↔ wordOf a (codePos n) ≠ wordOf b (codePos n) := by
    intro n hn
    rw [wordOf, wordOf, wordPos_codePos n hn, bytes_getD a hn, bytes_getD b hn, not_iff_not]
    constructor
    · intro h; rw [h]
    · intro h
      have := sym_inj (UInt8.lt_iff_toNat_lt.mp (ha ⟨n, hn⟩))
        (UInt8.lt_iff_toNat_lt.mp (hb ⟨n, hn⟩)) h
      exact UInt8.toNat_inj.mp this
  symm
  unfold symbolDist hammingDist
  refine Finset.card_bij (fun (n : Fin 31) _ => codePos n) ?_ ?_ ?_
  · intro n hn
    have hmem := (Finset.mem_filter.mp hn).2
    exact mem_diffSet.mpr ⟨codePos_lt n.isLt, (hne n n.isLt).mp hmem⟩
  · intro n _ m _ hnm
    have := congrArg wordPos hnm
    rw [wordPos_codePos n n.isLt, wordPos_codePos m m.isLt] at this
    exact Fin.ext this
  · intro p hp
    obtain ⟨hp31, hpne⟩ := mem_diffSet.mp hp
    refine ⟨⟨wordPos p, wordPos_lt hp31⟩, ?_, codePos_wordPos hp31⟩
    refine Finset.mem_filter.mpr ⟨Finset.mem_univ _, ?_⟩
    refine (hne (wordPos p) (wordPos_lt hp31)).mpr ?_
    rwa [codePos_wordPos hp31]

/-- **An attempt that reads a word within five symbols of a message's code gives the message's
    data**, and the number of symbols that differ. -/
theorem attemptDecode_corrects {encoded : NcCode} (h : FiveBit encoded) {i : Nat} {msg : Message}
    (hd : symbolDist (alignedWord encoded i) (ncrsEncode rs32 msg) ≤ 5) :
    attemptDecode rs32 (paddedMessage encoded) i
      = some (symbolDist (alignedWord encoded i) (ncrsEncode rs32 msg), packBits (bytes msg)) := by
  obtain ⟨hfive, hcode, hdata⟩ := ncrsEncode_codeword msg
  have hcard := card_diffSet_wordOf (h.alignedWord i) hfive
  rw [attemptDecode_eq h, decodeRs8_corrects hcode (by rw [hcard]; exact hd), hcard, hdata]

end Ncrs
end CpeClock
