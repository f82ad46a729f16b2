import CpeClock.Ncrs

/-!
# `tx433_driver.py` — the waveforms

The driver builds a list of pulses: a mask of the pins to set, a mask of those to clear, and a
delay. There is one pin, so a mask is a Boolean. A receiver is interrupted at the rising edges
(`risingEdges`), and what later modules use of a waveform is the list of their times
(`risingEdges_writeNc`, `risingEdges_writeHe`).
-/

namespace CpeClock

/-- `pigpio.pulse`. -/
structure Pulse where
  on : Bool
  off : Bool
  delay : Nat
  deriving DecidableEq

namespace Tx433

/-! ## The source -/

def ncPulse : Nat := 0x100

def symbolSize : Nat := 5

def sendHighVar (highUs lowUs : Nat) : List Pulse := [⟨true, false, highUs⟩, ⟨false, true, lowUs⟩]

def await (lowUs : Nat) : List Pulse := [⟨false, false, lowUs⟩]

def sendHigh (lowUs : Nat) : List Pulse := sendHighVar 220 lowUs

def sendZero : List Pulse := sendHigh 1330

def sendOne : List Pulse := sendHigh 320

/-- The loop of `write_he` over the bits: `j` of them are left. -/
def sendHeBits (txCode : UInt32) : Nat → List Pulse
  | 0 => []
  | j + 1 =>
    (if (txCode.toNat >>> j) &&& 1 ≠ 0 then sendZero ++ sendOne else sendOne ++ sendZero)
      ++ sendHeBits txCode j

/-- One attempt of `write_he`: start code, bits, "end code and gap". -/
def sendHe (txCode : UInt32) : List Pulse :=
  sendHigh 2700 ++ sendHeBits txCode 32 ++ sendHigh 10270

def writeHe (txCode : UInt32) (attempts : Nat) : List Pulse :=
  (List.range attempts).flatMap fun _ => sendHe txCode

/-- The loop of `write_nc` over the bits of a symbol, which is shifted left each time. -/
def sendBits : Nat → Nat → List Pulse
  | 0, _ => []
  | j + 1, symbol =>
    (if symbol &&& (1 <<< (symbolSize - 1)) ≠ 0 then
      sendHighVar ncPulse ncPulse -- 10
    else
      await (ncPulse * 2)) -- 00
      ++ sendBits j (symbol <<< 1)

/-- One symbol of `write_nc`: the start symbol 11010, and the bits. -/
def sendSymbol (symbol : Nat) : List Pulse :=
  sendHighVar (ncPulse * 2) ncPulse ++ sendHighVar ncPulse ncPulse ++ sendBits symbolSize symbol

def writeNc (message : NcCode) : List Pulse :=
  ((List.range 31).flatMap fun i => sendSymbol (message.toList.getD i 0).toNat)
    ++ sendHighVar ncPulse ncPulse -- end of final symbol: 10

/-! ## Rising edges -/

/-- The times at which the pin goes from low to high, from a time and a level on. -/
def risingEdges (time : Nat) (level : Bool) : List Pulse → List Nat
  | [] => []
  | pulse :: pulses =>
    let level' := if pulse.on then true else if pulse.off then false else level
    let rest := risingEdges (time + pulse.delay) level' pulses
    if level = false ∧ level' = true then time :: rest else rest

theorem risingEdges_sendHighVar (time highUs lowUs : Nat) (pulses : List Pulse) :
    risingEdges time false (sendHighVar highUs lowUs ++ pulses)
      = time :: risingEdges (time + (highUs + lowUs)) false pulses := by
  rw [← Nat.add_assoc]
  rfl

theorem risingEdges_await (time lowUs : Nat) (pulses : List Pulse) :
    risingEdges time false (await lowUs ++ pulses) = risingEdges (time + lowUs) false pulses := rfl

/-! ## New codes -/

/-- Bit `b` of a symbol, the first of the five being bit 1. -/
def bitSet (symbol b : Nat) : Bool := (symbol <<< (b - 1)) &&& 16 ≠ 0

/-- The edges of a symbol after its first, where that is at time `n`: its second edge, and one for
    each bit that is set. -/
def symbolRest (n symbol : Nat) : List Nat :=
  (n + 768) :: ((List.range' 1 5).filter (bitSet symbol)).map fun b => n + 768 + 512 * b

def symbolEdges (n symbol : Nat) : List Nat := n :: symbolRest n symbol

theorem risingEdges_sendBits (n symbol : Nat) (pulses : List Pulse) (j c : Nat) :
    risingEdges (n + 512 * (c + 1)) false (sendBits j (symbol <<< c) ++ pulses)
      = ((List.range' (c + 1) j).filter (bitSet symbol)).map (fun b => n + 512 * b)
        ++ risingEdges (n + 512 * (c + 1 + j)) false pulses := by
  induction j generalizing c with
  | zero => rfl
  | succ j ih =>
    have hshift : symbol <<< c <<< 1 = symbol <<< (c + 1) := (Nat.shiftLeft_add symbol c 1).symm
    have htime : n + 512 * (c + 1) + 512 = n + 512 * (c + 1 + 1) := by omega
    have hend : c + 1 + 1 + j = c + 1 + (j + 1) := by omega
    rw [sendBits, List.append_assoc, hshift, List.range'_succ]
    by_cases hbit : (symbol <<< c) &&& (1 <<< (symbolSize - 1)) ≠ 0
    · have hset : bitSet symbol (c + 1) = true := decide_eq_true hbit
      rw [if_pos hbit, risingEdges_sendHighVar, List.filter_cons_of_pos hset, List.map_cons]
      show _ :: risingEdges (n + 512 * (c + 1) + 512) false _ = _
      rw [htime, ih, hend, List.cons_append]
    · have hset : ¬ bitSet symbol (c + 1) = true := by
        rw [bitSet, decide_eq_true_eq]
        exact hbit
      rw [if_neg hbit, risingEdges_await, List.filter_cons_of_neg hset]
      show risingEdges (n + 512 * (c + 1) + 512) false _ = _
      rw [htime, ih, hend]

theorem risingEdges_sendSymbol (n symbol : Nat) (pulses : List Pulse) :
    risingEdges n false (sendSymbol symbol ++ pulses)
      = symbolEdges n symbol ++ risingEdges (n + 3840) false pulses := by
  have hbits := risingEdges_sendBits (n + 768) symbol pulses 5 0
  rw [sendSymbol, List.append_assoc, List.append_assoc, risingEdges_sendHighVar,
    risingEdges_sendHighVar]
  exact congrArg (fun edges => n :: (n + 768) :: edges) hbits

theorem risingEdges_symbols (n : Nat) (symbols : Nat → Nat) (pulses : List Pulse) (count : Nat) :
    risingEdges n false ((List.range count).flatMap (fun i => sendSymbol (symbols i)) ++ pulses)
      = (List.range count).flatMap (fun i => symbolEdges (n + 3840 * i) (symbols i))
        ++ risingEdges (n + 3840 * count) false pulses := by
  induction count generalizing pulses with
  | zero => rfl
  | succ count ih =>
    rw [List.range_succ, List.flatMap_append, List.flatMap_append, List.flatMap_singleton,
      List.flatMap_singleton, List.append_assoc, ih, risingEdges_sendSymbol, List.append_assoc,
      Nat.mul_succ, Nat.add_assoc]

/-- **The edges of a new code**: those of its symbols, and one to end the last. -/
theorem risingEdges_writeNc (n : Nat) (message : NcCode) :
    risingEdges n false (writeNc message)
      = (List.range 31).flatMap
          (fun i => symbolEdges (n + 3840 * i) (message.toList.getD i 0).toNat)
        ++ [n + 3840 * 31] := by
  rw [writeNc, risingEdges_symbols n fun i => (message.toList.getD i 0).toNat]
  exact congrArg (_ ++ ·) (risingEdges_sendHighVar (n + 3840 * 31) ncPulse ncPulse [])

/-- A series of groups and a last element: each element that begins a group may be counted to the
    group before it. -/
theorem flatMap_regroup {α : Type*} (first : Nat → α) (rest : Nat → List α) (count : Nat) :
    (List.range count).flatMap (fun i => first i :: rest i) ++ [first count]
      = first 0 :: (List.range count).flatMap fun i => rest i ++ [first (i + 1)] := by
  induction count with
  | zero => rfl
  | succ count ih =>
    rw [List.range_succ, List.flatMap_append, List.flatMap_append, List.flatMap_singleton,
      List.flatMap_singleton, List.append_assoc, List.cons_append, ← List.singleton_append,
      ← List.append_assoc, ih, List.cons_append]

/-! ## Home Easy codes -/

/-- How long the first half of a bit takes: long then short is a 1. -/
def firstHalf (txCode : UInt32) (j : Nat) : Nat :=
  if (txCode.toNat >>> j) &&& 1 ≠ 0 then 1550 else 540

/-- The edges of an attempt that starts at time `n`: the start code, two for each bit, and the end
    code. -/
def heEdges (n : Nat) (txCode : UInt32) : List Nat :=
  n :: ((List.range 32).flatMap fun i =>
    [n + 2920 + 2090 * i, n + 2920 + 2090 * i + firstHalf txCode (31 - i)])
    ++ [n + 2920 + 2090 * 32]

theorem risingEdges_sendHeBits (txCode : UInt32) (pulses : List Pulse) (n j : Nat) :
    risingEdges n false (sendHeBits txCode j ++ pulses)
      = ((List.range j).flatMap fun i =>
          [n + 2090 * i, n + 2090 * i + firstHalf txCode (j - 1 - i)])
        ++ risingEdges (n + 2090 * j) false pulses := by
  induction j generalizing n with
  | zero => rfl
  | succ j ih =>
    have hrest : ((List.range j).flatMap fun i =>
          [n + 2090 + 2090 * i, n + 2090 + 2090 * i + firstHalf txCode (j - 1 - i)])
        = (List.range j).flatMap fun i =>
          [n + 2090 * (i + 1), n + 2090 * (i + 1) + firstHalf txCode (j - (i + 1))] := by
      congr 1
      funext i
      have htime : n + 2090 + 2090 * i = n + 2090 * (i + 1) := by omega
      have hbit : j - 1 - i = j - (i + 1) := by omega
      rw [htime, hbit]
    have hend : n + 2090 + 2090 * j = n + 2090 * (j + 1) := by omega
    have hhalves : risingEdges n false
        ((if (txCode.toNat >>> j) &&& 1 ≠ 0 then sendZero ++ sendOne else sendOne ++ sendZero)
          ++ (sendHeBits txCode j ++ pulses))
        = n :: (n + firstHalf txCode j)
          :: risingEdges (n + 2090) false (sendHeBits txCode j ++ pulses) := by
      unfold firstHalf
      split <;> rw [List.append_assoc] <;> rfl
    rw [sendHeBits, List.append_assoc, hhalves, ih, hrest, hend, List.range_succ_eq_map,
      List.flatMap_cons, List.flatMap_map, Nat.add_sub_cancel, Nat.mul_zero, Nat.add_zero,
      Nat.sub_zero]
    rfl

theorem risingEdges_sendHe (txCode : UInt32) (pulses : List Pulse) (n : Nat) :
    risingEdges n false (sendHe txCode ++ pulses)
      = heEdges n txCode ++ risingEdges (n + 80290) false pulses := by
  have hbits := risingEdges_sendHeBits txCode (sendHigh 10270 ++ pulses) (n + 2920) 32
  have hstart : n + (220 + 2700) = n + 2920 := by omega
  have hnext : n + 2920 + 2090 * 32 + (220 + 10270) = n + 80290 := by omega
  rw [sendHigh, risingEdges_sendHighVar, hnext] at hbits
  rw [sendHe, List.append_assoc, List.append_assoc, sendHigh, sendHigh, risingEdges_sendHighVar,
    hstart, hbits, heEdges, List.append_assoc, List.cons_append]
  rfl

/-- **The edges of a Home Easy code**, attempt by attempt. -/
theorem risingEdges_writeHe (txCode : UInt32) (attempts : Nat) :
    risingEdges 0 false (writeHe txCode attempts)
      = (List.range attempts).flatMap fun a => heEdges (80290 * a) txCode := by
  have hgeneral : ∀ pulses, risingEdges 0 false (writeHe txCode attempts ++ pulses)
      = ((List.range attempts).flatMap fun a => heEdges (80290 * a) txCode)
        ++ risingEdges (80290 * attempts) false pulses := by
    induction attempts with
    | zero => exact fun _ => rfl
    | succ attempts ih =>
      intro pulses
      unfold writeHe at ih ⊢
      rw [List.range_succ, List.flatMap_append, List.flatMap_append, List.flatMap_singleton,
        List.flatMap_singleton, List.append_assoc, ih, risingEdges_sendHe, List.append_assoc,
        Nat.mul_succ]
  have h := hgeneral []
  rw [List.append_nil] at h
  rw [h]
  exact List.append_nil _

end Tx433
end CpeClock
