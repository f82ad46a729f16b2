import CpeClock.HomeEasyLink
import CpeClock.Server433

/-!
# `device_send` — what is put on the air

A command of the queue becomes one of three waveforms. An Energenie code has its bits in the widths
of the pulses, which a receiver that looks at rising edges cannot tell apart
(`risingEdges_writeEnergenie`), and a new code's symbols are sent without their upper three bits
(`risingEdges_writeNc_fiveBits`).
-/

namespace CpeClock
namespace Tx433

/-! ## Energenie codes -/

def energeniePeriod : Nat := 850

def energenieHigh (txCode j : Nat) : Nat := if (txCode <<< j) &&& (1 <<< 23) ≠ 0 then 620 else 205

/-- One attempt of `write_energenie`. -/
def sendEnergenie (txCode : Nat) : List Pulse :=
  ((List.range 25).flatMap fun j =>
    sendHighVar (energenieHigh txCode j) (energeniePeriod - energenieHigh txCode j))
    ++ await (energeniePeriod * 7)

def writeEnergenie (txCode attempts : Nat) : List Pulse :=
  (List.range attempts).flatMap fun _ => sendEnergenie txCode

theorem energenieHigh_le (txCode j : Nat) : energenieHigh txCode j ≤ energeniePeriod := by
  unfold energenieHigh
  split <;> decide

theorem risingEdges_energenieBits (txCode n count : Nat) (pulses : List Pulse) :
    risingEdges n false (((List.range count).flatMap fun j =>
        sendHighVar (energenieHigh txCode j) (energeniePeriod - energenieHigh txCode j)) ++ pulses)
      = (List.range count).map (fun j => n + 850 * j)
        ++ risingEdges (n + 850 * count) false pulses := by
  induction count generalizing pulses with
  | zero => rfl
  | succ count ih =>
    have hperiod := Nat.add_sub_of_le (energenieHigh_le txCode count)
    rw [List.range_succ, List.flatMap_append, List.flatMap_singleton, List.map_append,
      List.append_assoc, ih, risingEdges_sendHighVar, hperiod, List.append_assoc, Nat.mul_succ,
      Nat.add_assoc]
    rfl

/-- The edges of an attempt: 25, one period apart. -/
def energenieEdges (n : Nat) : List Nat := (List.range 25).map fun j => n + 850 * j

theorem risingEdges_sendEnergenie (txCode n : Nat) (pulses : List Pulse) :
    risingEdges n false (sendEnergenie txCode ++ pulses)
      = energenieEdges n ++ risingEdges (n + 27200) false pulses := by
  rw [sendEnergenie, List.append_assoc, risingEdges_energenieBits, risingEdges_await, Nat.add_assoc]
  rfl

/-- **The edges of an Energenie code** do not depend on the code. -/
theorem risingEdges_writeEnergenie (txCode attempts : Nat) :
    risingEdges 0 false (writeEnergenie txCode attempts)
      = (List.range attempts).flatMap fun a => energenieEdges (27200 * a) := by
  have hgeneral : ∀ pulses, risingEdges 0 false (writeEnergenie txCode attempts ++ pulses)
      = ((List.range attempts).flatMap fun a => energenieEdges (27200 * a))
        ++ risingEdges (27200 * attempts) false pulses := by
    induction attempts with
    | zero => exact fun _ => rfl
    | succ attempts ih =>
      intro pulses
      unfold writeEnergenie at ih ⊢
      rw [List.range_succ, List.flatMap_append, List.flatMap_append, List.flatMap_singleton,
        List.flatMap_singleton, List.append_assoc, ih, risingEdges_sendEnergenie,
        List.append_assoc, Nat.mul_succ]
  have h := hgeneral []
  rw [List.append_nil] at h
  rw [h]
  exact List.append_nil _

/-! ## Symbols -/

/-- What is left of a symbol on the air. -/
def fiveBits (symbol : UInt8) : UInt8 := symbol &&& 31

theorem bitSet_fiveBits (symbol : UInt8) {b : Nat} (hb : 1 ≤ b) (hb' : b ≤ 5) :
    bitSet (fiveBits symbol).toNat b = bitSet symbol.toNat b := by
  have hall : ∀ n < 256, ∀ b ∈ [1, 2, 3, 4, 5], bitSet (n &&& 31) b = bitSet n b := by
    decide +kernel
  have hmem : b ∈ [1, 2, 3, 4, 5] := by
    simp only [List.mem_cons, List.not_mem_nil, or_false]
    omega
  have hmask : (fiveBits symbol).toNat = symbol.toNat &&& 31 := UInt8.toNat_and symbol 31
  rw [hmask]
  exact hall symbol.toNat symbol.toNat_lt b hmem

theorem symbolEdges_fiveBits (n : Nat) (symbol : UInt8) :
    symbolEdges n (fiveBits symbol).toNat = symbolEdges n symbol.toNat := by
  have hfilter : (List.range' 1 5).filter (bitSet (fiveBits symbol).toNat)
      = (List.range' 1 5).filter (bitSet symbol.toNat) := by
    apply List.filter_congr
    intro b hb
    have hrange := List.mem_range'_1.mp hb
    exact bitSet_fiveBits symbol hrange.1 (by omega)
  rw [symbolEdges, symbolRest, hfilter]
  rfl

/-- **The upper bits of a symbol are not sent.** -/
theorem risingEdges_writeNc_fiveBits (n : Nat) (message : NcCode) :
    risingEdges n false (writeNc (message.map fiveBits))
      = risingEdges n false (writeNc message) := by
  rw [risingEdges_writeNc, risingEdges_writeNc]
  congr 2
  funext i
  have hsymbol : (message.map fiveBits).toList.getD i 0 = fiveBits (message.toList.getD i 0) := by
    rw [Vector.toList_map, List.getD_eq_getElem?_getD, List.getD_eq_getElem?_getD,
      List.getElem?_map]
    cases message.toList[i]? <;> rfl
  rw [hsymbol, symbolEdges_fiveBits]

theorem fiveBit_map (message : NcCode) : Ncrs.FiveBit (message.map fiveBits) := by
  intro i
  have hsymbol : (message.map fiveBits)[i] = fiveBits message[i] := Vector.getElem_map ..
  have hlt : (fiveBits message[i]).toNat < 32 := by
    have hmask : (fiveBits message[i]).toNat = message[i].toNat &&& 31 :=
      UInt8.toNat_and message[i] 31
    have hle := Nat.and_le_right (n := message[i].toNat) (m := 31)
    omega
  rw [hsymbol]
  exact UInt8.lt_iff_toNat_lt.mpr hlt

theorem map_fiveBits_of_fiveBit {message : NcCode} (h : Ncrs.FiveBit message) :
    message.map fiveBits = message := by
  apply Vector.ext
  intro i hi
  have hlt : message[i].toNat < 32 := UInt8.lt_iff_toNat_lt.mp (h ⟨i, hi⟩)
  rw [Vector.getElem_map, fiveBits, ← UInt8.toNat_inj, UInt8.toNat_and]
  exact Nat.and_two_pow_sub_one_of_lt_two_pow (n := 5) hlt

end Tx433

/-! ## Commands -/

open Tx433

def energenieMask : Nat := 0xf000000f

/-- Whether a number is sent as an Energenie code. -/
def IsEnergenie (number : Nat) : Prop := number &&& energenieMask = energenieMask

instance (number : Nat) : Decidable (IsEnergenie number) := Nat.decEq _ _

namespace AbstractData

/-- The symbols of a message after its header. `datagramReceived` lets no message through that is
    shorter than this. -/
def symbols (msg : List UInt8) : NcCode :=
  Vector.ofFn fun i => (msg.drop Server433.ncHeaderSize).getD i 0

/-- `device_send`. The driver makes ten attempts if it is not told otherwise, and `write_he` looks
    at 32 bits of the number. -/
def deviceSend : AbstractData → List Pulse
  | ncData msg => writeNc (symbols msg)
  | heData number =>
    if IsEnergenie number then writeEnergenie (Nat.ldiff number energenieMask >>> 4) 10
    else writeHe (UInt32.ofNat number) 10

end AbstractData
end CpeClock
