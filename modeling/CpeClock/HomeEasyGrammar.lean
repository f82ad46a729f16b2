import CpeClock.HomeEasyLink
import Mathlib.Data.Nat.Digits.Lemmas

/-!
# Which edges are a Home Easy code

The decoder as a recogniser. Its input is the intervals between edges (`pulses`), and what it should
accept is a `frame`: a start and a pair of pulses for each bit. After any input the decoder is in
`HE_RESET`, or what it has heard last is the beginning of a frame, and its variables are the bits of
that frame (`Tracks`). A start makes everything before it irrelevant, so that a frame is accepted
after any input.
-/

namespace CpeClock
namespace Rx433

open Lib Mealy

/-! ## The grammar -/

/-- The intervals of a list of edges, the first counted from `oldTime`. -/
def pulses : UInt32 → List UInt32 → List HePulse
  | _, [] => []
  | oldTime, t :: ts => hePulse (t - oldTime) :: pulses t ts

def firstPulse (bit : Bool) : HePulse := if bit then .long else .short

def secondPulse (bit : Bool) : HePulse := if bit then .short else .long

/-- A start, and long then short for a bit 1, short then long for a bit 0. -/
def frame (bits : List Bool) : List HePulse :=
  .start :: bits.flatMap fun bit => [firstPulse bit, secondPulse bit]

/-- The bits of a number, the most significant first. -/
def readBits (bits : List Bool) : Nat := Nat.ofDigits 2 (bits.map Bool.toNat).reverse

theorem frame_concat (bits : List Bool) (bit : Bool) :
    frame (bits ++ [bit]) = frame bits ++ [firstPulse bit] ++ [secondPulse bit] := by
  simp [frame, List.flatMap_append]

theorem readBits_concat (bits : List Bool) (bit : Bool) :
    readBits (bits ++ [bit]) = bit.toNat + 2 * readBits bits := by
  rw [readBits, List.map_append, List.map_cons, List.map_nil, List.reverse_append,
    List.reverse_singleton, List.singleton_append, Nat.ofDigits_cons]
  rfl

theorem readBits_lt (bits : List Bool) : readBits bits < 2 ^ bits.length := by
  have hdigits : ∀ x ∈ (bits.map Bool.toNat).reverse, x < 2 := by
    intro x hx
    obtain ⟨bit, -, rfl⟩ := List.mem_map.mp (List.mem_reverse.mp hx)
    exact bit.toNat_lt
  have h := Nat.ofDigits_lt_base_pow_length (by decide) hdigits
  rwa [List.length_reverse, List.length_map] at h

/-! ## One pulse -/

/-- The decoder's variables when these bits of a code have been heard. -/
def heard (bits : List Bool) (state : HeState) : HeDecoder where
  state := state
  bitCount := UInt8.ofNat bits.length
  bitData := UInt32.ofNat (readBits bits * 2 ^ (32 - bits.length))

/-- The state after the first half of a bit. -/
def halfState (bit : Bool) : HeState := if bit then .receivedLong else .receivedShort

theorem heard_bitData_toNat {bits : List Bool} (h : bits.length ≤ 32) (state : HeState) :
    (heard bits state).bitData.toNat = readBits bits * 2 ^ (32 - bits.length) := by
  have hlt : readBits bits * 2 ^ (32 - bits.length) < 2 ^ 32 := by
    calc readBits bits * 2 ^ (32 - bits.length)
        < 2 ^ bits.length * 2 ^ (32 - bits.length) :=
          Nat.mul_lt_mul_of_pos_right (readBits_lt bits) (Nat.two_pow_pos _)
      _ = 2 ^ 32 := by rw [← Nat.pow_add, Nat.add_sub_cancel' h]
  exact UInt32.toNat_ofNat_of_lt' hlt

/-- A bit 0 leaves `he_bit_data` as it is. -/
theorem heard_bitData_zero {bits : List Bool} (h : bits.length < 32) (state state' : HeState) :
    (heard bits state).bitData = (heard (bits ++ [false]) state').bitData := by
  have hlength : (bits ++ [false]).length = bits.length + 1 := List.length_append
  have hpow : 32 - bits.length = 32 - (bits.length + 1) + 1 := by omega
  rw [← UInt32.toNat_inj, heard_bitData_toNat (Nat.le_of_lt h), heard_bitData_toNat (by omega),
    readBits_concat, hlength, hpow, Nat.pow_succ, Bool.toNat_false]
  ring

/-- A bit 1 is written below the bits before it. -/
theorem heard_bitData_one {bits : List Bool} (h : bits.length < 32) (state state' : HeState) :
    (heard bits state).bitData ||| ((1 : UInt32) <<< 31) >>> (heard bits state).bitCount.toUInt32
      = (heard (bits ++ [true]) state').bitData := by
  have hlength : (bits ++ [true]).length = bits.length + 1 := List.length_append
  have hpow : 32 - bits.length = 31 - bits.length + 1 := by omega
  have hpow' : 32 - (bits.length + 1) = 31 - bits.length := by omega
  have hcount : (heard bits state).bitCount.toUInt32 = UInt32.ofNat bits.length := by
    have hall : ∀ i < 32, (UInt8.ofNat i).toUInt32 = UInt32.ofNat i := by decide
    exact hall _ h
  have hbelow : 2 ^ (31 - bits.length) < 2 ^ (32 - bits.length) :=
    Nat.pow_lt_pow_right (by decide) (by omega)
  rw [← UInt32.toNat_inj, UInt32.toNat_or, hcount, highBit_toNat h,
    heard_bitData_toNat (Nat.le_of_lt h), heard_bitData_toNat (by omega), readBits_concat, hlength,
    ← Nat.shiftLeft_eq, ← Nat.shiftLeft_add_eq_or_of_lt hbelow, Nat.shiftLeft_eq, hpow,
    hpow', Nat.pow_succ, Bool.toNat_true]
  ring

theorem homeEasy_start (d : HeDecoder) : homeEasy .start d = (heard [] .readyForBit, none) := by
  obtain ⟨state, bitCount, bitData⟩ := d
  cases state <;> rfl

theorem homeEasy_first (bits : List Bool) (bit : Bool) :
    homeEasy (firstPulse bit) (heard bits .readyForBit) = (heard bits (halfState bit), none) := by
  cases bit <;> rfl

theorem homeEasy_second {bits : List Bool} (h : bits.length < 32) (bit : Bool) :
    homeEasy (secondPulse bit) (heard bits (halfState bit))
      = if bits.length = 31 then
          (heard (bits ++ [bit]) .reset, some (heard (bits ++ [bit]) .reset).bitData)
        else (heard (bits ++ [bit]) .readyForBit, none) := by
  have hlength : (bits ++ [bit]).length = bits.length + 1 := List.length_append
  have hcount (state : HeState) : (heard (bits ++ [bit]) state).bitCount
      = UInt8.ofNat (bits.length + 1) := congrArg UInt8.ofNat hlength
  have hnext : homeEasy (secondPulse bit) (heard bits (halfState bit))
      = (⟨.readyForBit, UInt8.ofNat bits.length, (heard bits .reset).bitData⟩ : HeDecoder).nextBit
          (heard (bits ++ [bit]) .reset).bitData := by
    cases bit with
    | true =>
      rw [← heard_bitData_one h .reset]
      rfl
    | false =>
      rw [← heard_bitData_zero h .reset]
      rfl
  rw [hnext, nextBit_eq _ h, ← hcount .reset]
  rfl

/-- Everything else is an error. -/
theorem homeEasy_cases (pulse : HePulse) (d : HeDecoder) :
    pulse = .start ∨ (∃ bit, pulse = firstPulse bit ∧ d.state = .readyForBit) ∨
      (∃ bit, pulse = secondPulse bit ∧ d.state = halfState bit) ∨
      (homeEasy pulse d).1.state = .reset ∧ (homeEasy pulse d).2 = none := by
  obtain ⟨state, bitCount, bitData⟩ := d
  cases pulse with
  | start => exact .inl rfl
  | other => exact .inr (.inr (.inr ⟨rfl, rfl⟩))
  | short =>
    cases state with
    | readyForBit => exact .inr (.inl ⟨false, rfl, rfl⟩)
    | receivedLong => exact .inr (.inr (.inl ⟨true, rfl, rfl⟩))
    | receivedShort => exact .inr (.inr (.inr ⟨rfl, rfl⟩))
    | reset => exact .inr (.inr (.inr ⟨rfl, rfl⟩))
  | long =>
    cases state with
    | readyForBit => exact .inr (.inl ⟨true, rfl, rfl⟩)
    | receivedShort => exact .inr (.inr (.inl ⟨false, rfl, rfl⟩))
    | receivedLong => exact .inr (.inr (.inr ⟨rfl, rfl⟩))
    | reset => exact .inr (.inr (.inr ⟨rfl, rfl⟩))

/-! ## What the decoder has heard -/

/-- After these pulses the decoder waits for a start, or what it heard last is a start and the bits
    it has counted, and perhaps the first half of another. -/
def Tracks (ps : List HePulse) (d : HeDecoder) : Prop :=
  d.state = .reset ∨ ∃ bits, bits.length < 32 ∧
    (d = heard bits .readyForBit ∧ frame bits <:+ ps ∨
      ∃ bit, d = heard bits (halfState bit) ∧ frame bits ++ [firstPulse bit] <:+ ps)

theorem halfState_ne_reset (bit : Bool) : halfState bit ≠ .reset := by cases bit <;> decide

theorem halfState_ne_ready (bit : Bool) : halfState bit ≠ .readyForBit := by cases bit <;> decide

theorem halfState_inj {bit bit' : Bool} (h : halfState bit = halfState bit') : bit = bit' := by
  revert h
  cases bit <;> cases bit' <;> decide

theorem Tracks.ready {ps : List HePulse} {d : HeDecoder} (h : Tracks ps d)
    (hstate : d.state = .readyForBit) :
    ∃ bits, bits.length < 32 ∧ d = heard bits .readyForBit ∧ frame bits <:+ ps := by
  obtain hreset | ⟨bits, hlt, ⟨hd, hps⟩ | ⟨bit, rfl, -⟩⟩ := h
  · rw [hreset] at hstate
    cases hstate
  · exact ⟨bits, hlt, hd, hps⟩
  · exact absurd hstate (halfState_ne_ready bit)

theorem Tracks.half {ps : List HePulse} {d : HeDecoder} (h : Tracks ps d) {bit : Bool}
    (hstate : d.state = halfState bit) :
    ∃ bits, bits.length < 32 ∧ d = heard bits (halfState bit) ∧
      frame bits ++ [firstPulse bit] <:+ ps := by
  obtain hreset | ⟨bits, hlt, ⟨rfl, -⟩ | ⟨bit', rfl, hps⟩⟩ := h
  · exact absurd (hstate.symm.trans hreset) (halfState_ne_reset bit)
  · exact absurd hstate.symm (halfState_ne_ready bit)
  · obtain rfl := halfState_inj hstate
    exact ⟨bits, hlt, rfl, hps⟩

theorem tracks_step {ps : List HePulse} {d : HeDecoder} (h : Tracks ps d) (pulse : HePulse) :
    Tracks (ps ++ [pulse]) (homeEasy pulse d).1 := by
  obtain rfl | ⟨bit, rfl, hstate⟩ | ⟨bit, rfl, hstate⟩ | ⟨hreset, -⟩ := homeEasy_cases pulse d
  · rw [homeEasy_start]
    exact .inr ⟨[], by decide, .inl ⟨rfl, List.suffix_append ps [.start]⟩⟩
  · obtain ⟨bits, hlt, rfl, hps⟩ := h.ready hstate
    rw [homeEasy_first]
    exact .inr ⟨bits, hlt, .inr ⟨bit, rfl, List.suffix_append_self_iff.mpr hps⟩⟩
  · obtain ⟨bits, hlt, rfl, hps⟩ := h.half hstate
    rw [homeEasy_second hlt]
    split
    · exact .inl rfl
    · next hmore =>
      refine .inr ⟨bits ++ [bit], ?_, .inl ⟨rfl, ?_⟩⟩
      · rw [List.length_append, List.length_singleton]
        omega
      · rw [frame_concat]
        exact List.suffix_append_self_iff.mpr hps
  · exact .inl hreset

theorem tracks_run (ps : List HePulse) {d : HeDecoder} (hd : d.state = .reset) :
    Tracks ps (run homeEasy ps d).1 := by
  induction ps using List.reverseRecOn with
  | nil => exact .inl hd
  | append_singleton ps pulse ih =>
    rw [run_append]
    exact tracks_step ih pulse

/-- From any state, the beginning of a frame is heard. -/
theorem run_frame (bits : List Bool) (h : bits.length < 32) (d : HeDecoder) :
    (run homeEasy (frame bits) d).1 = heard bits .readyForBit := by
  induction bits using List.reverseRecOn with
  | nil => rw [frame, List.flatMap_nil, run_cons, run_nil, homeEasy_start]
  | append_singleton bits bit ih =>
    rw [List.length_append, List.length_singleton] at h
    rw [frame_concat, run_append, run_append, ih (by omega)]
    simp only [run_cons, run_nil, homeEasy_first]
    rw [homeEasy_second (by omega), if_neg (by omega)]

/-- A code is published at a pulse if and only if a whole frame ends there. -/
theorem homeEasy_publishes_iff (ps : List HePulse) {d : HeDecoder} (hd : d.state = .reset)
    (pulse : HePulse) (code : UInt32) :
    (homeEasy pulse (run homeEasy ps d).1).2 = some code
      ↔ ∃ bits, bits.length = 32 ∧ frame bits <:+ ps ++ [pulse] ∧ code.toNat = readBits bits := by
  constructor
  · intro hcode
    have htracks := tracks_run ps hd
    obtain rfl | ⟨bit, rfl, hstate⟩ | ⟨bit, rfl, hstate⟩ | ⟨-, hnone⟩ :=
      homeEasy_cases pulse (run homeEasy ps d).1
    · rw [homeEasy_start] at hcode
      cases hcode
    · obtain ⟨bits, -, hready, -⟩ := htracks.ready hstate
      rw [hready, homeEasy_first] at hcode
      cases hcode
    · obtain ⟨bits, hlt, hhalf, hps⟩ := htracks.half hstate
      rw [hhalf, homeEasy_second hlt] at hcode
      split at hcode
      · next hlast =>
        have hlength : (bits ++ [bit]).length = 32 := by
          rw [List.length_append, List.length_singleton, hlast]
        refine ⟨bits ++ [bit], hlength, ?_, ?_⟩
        · rw [frame_concat]
          exact List.suffix_append_self_iff.mpr hps
        · rw [← Option.some.inj hcode, heard_bitData_toNat (Nat.le_of_eq hlength), hlength,
            Nat.sub_self, Nat.pow_zero, Nat.mul_one]
      · cases hcode
    · rw [hnone] at hcode
      cases hcode
  · rintro ⟨bits, hlength, hsuffix, hcode⟩
    -- The last pulse is the second half of the last bit, and the frame before it has just been
    -- heard.
    obtain ⟨bits, bit, rfl⟩ : ∃ bits' bit, bits = bits' ++ [bit] := by
      rcases List.eq_nil_or_concat' bits with rfl | h
      · cases hlength
      · exact h
    have hlast : bits.length = 31 := by
      rw [List.length_append, List.length_singleton] at hlength
      omega
    rw [frame_concat] at hsuffix
    obtain ⟨before, hps⟩ := hsuffix
    rw [← List.append_assoc] at hps
    obtain ⟨rfl, hpulse⟩ := List.append_inj' hps rfl
    obtain rfl := List.singleton_inj.mp hpulse
    have hdata := heard_bitData_toNat (Nat.le_of_eq hlength) .reset
    rw [hlength, Nat.sub_self, Nat.pow_zero, Nat.mul_one, ← hcode] at hdata
    rw [run_append, run_append, run_frame bits (by omega), run_cons, run_nil, homeEasy_first,
      homeEasy_second (by omega), if_pos hlast, UInt32.toNat_inj.mp hdata]

/-! ## The handler -/

theorem hear_he (times : List UInt32) (s : Rx433) :
    (hear times s).1.he = (run homeEasy (pulses s.oldTime times) s.he).1 := by
  induction times generalizing s with
  | nil => rfl
  | cons t ts ih => exact ih (rx433Interrupt t s).1

theorem pulses_concat (times : List UInt32) (t : UInt32) (s : Rx433) :
    pulses s.oldTime (times ++ [t])
      = pulses s.oldTime times ++ [hePulse (t - (hear times s).1.oldTime)] := by
  induction times generalizing s with
  | nil => rfl
  | cons t' ts ih => exact congrArg _ (ih (rx433Interrupt t' s).1)

theorem mem_publications_homeEasy {newTime : UInt32} {s : Rx433} {code : UInt32} :
    .homeEasy code ∈ (rx433Interrupt newTime s).2
      ↔ (homeEasy (hePulse (newTime - s.oldTime)) s.he).2 = some code := by
  simp [rx433Interrupt]

/-- **The Home Easy decoder accepts exactly its grammar.** A code is published at an edge if and
    only if the last 65 intervals are a start and the 32 bits of that code, whatever came before. -/
theorem homeEasy_published_iff (times : List UInt32) (t code : UInt32) :
    .homeEasy code ∈ (rx433Interrupt t (hear times initial).1).2
      ↔ ∃ bits : List Bool, bits.length = 32 ∧ frame bits <:+ pulses 0 (times ++ [t]) ∧
          code.toNat = readBits bits := by
  have hpulses : pulses 0 (times ++ [t])
      = pulses 0 times ++ [hePulse (t - (hear times initial).1.oldTime)] :=
    pulses_concat times t initial
  rw [mem_publications_homeEasy, hear_he, hpulses]
  exact homeEasy_publishes_iff (pulses 0 times) rfl _ code

end Rx433
end CpeClock
