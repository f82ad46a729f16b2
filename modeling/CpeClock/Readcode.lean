import CpeClock.HomeEasyGrammar
import Mathlib.Data.List.DropRight
import Mathlib.Data.Rat.Cast.Order

/-!
# `readcode.py` — the decoder that was tried out first

`alt_decode_edges` reads Home Easy codes from a recording, with the handler's own bins and states.
The two differ in one thing: an interval in none of the bins sends the handler back to `HE_RESET`
and is passed over here. So `alt_decode_edges` is the handler's Home Easy half on the intervals that
are in a bin (`Alike`), and the grammar that holds of the one gives that of the other.

The times of a recording are floating-point numbers of seconds, and what comes of subtracting and
scaling them is a parameter (`Recorder`). The decoders are compared on recordings whose intervals
are in the same bins as those between the calls of `micros()`; they are if no interval is at the
limit of a bin (`codeLength_eq_of_close`).
-/

namespace CpeClock
namespace Readcode

open Lib Mealy Rx433 Tx433
open scoped List

inductive CodeLength where
  | short
  | long
  | start
  | unknown
  deriving DecidableEq

inductive State where
  | reset
  | receivedLong
  | receivedShort
  | readyForBit
  deriving DecidableEq

/-- What Python makes of the times of a recording, and what the handler's clock does. -/
structure Recorder (T : Type*) where
  /-- `0.0`. -/
  zero : T
  /-- `(time - old_time) * 1e6`, as it is computed. -/
  units : T → T → ℚ
  /-- Whole microseconds, as `micros()` would count them without wrapping. -/
  micros : T → Nat
  micros_zero : micros zero = 0

/-- The local variables of `alt_decode_edges`. -/
structure AltDecoder (T : Type*) where
  state : State
  bitCount : Nat
  bitData : Nat
  codes : List Nat
  oldTime : T
  deriving DecidableEq

def codeLength (units : ℚ) : CodeLength :=
  if 384 ≤ units ∧ units < 768 then .short
  else if 1408 ≤ units ∧ units < 1664 then .long
  else if 2816 ≤ units ∧ units < 3072 then .start
  else .unknown

section

variable {T : Type*}

def AltDecoder.nextBit (d : AltDecoder T) (bit : Nat) : AltDecoder T :=
  let bitData := d.bitData <<< 1 ||| bit
  let bitCount := d.bitCount + 1
  if bitCount ≥ 32 then
    { d with
      state := .reset, bitCount := bitCount, bitData := bitData, codes := d.codes ++ [bitData] }
  else
    { d with state := .readyForBit, bitCount := bitCount, bitData := bitData }

def AltDecoder.interval (d : AltDecoder T) (length : CodeLength) : AltDecoder T :=
  match length, d.state with
  | .start, _ => { d with state := .readyForBit, bitCount := 0, bitData := 0 }
  | .short, .readyForBit => { d with state := .receivedShort }
  | .short, .receivedLong => d.nextBit 1 -- long then short -> bit 1
  | .short, _ => { d with state := .reset }
  | .long, .readyForBit => { d with state := .receivedLong }
  | .long, .receivedShort => d.nextBit 0 -- short then long -> bit 0
  | .long, _ => { d with state := .reset }
  | .unknown, _ => d

variable (r : Recorder T)

/-- The body of the loop, for an edge with its time and whether it is a rising one. -/
def AltDecoder.edge (d : AltDecoder T) : T × Bool → AltDecoder T
  | (_, false) => d
  | (time, true) =>
    AltDecoder.interval { d with oldTime := time } (codeLength (r.units time d.oldTime))

def AltDecoder.initial : AltDecoder T where
  state := .reset
  bitCount := 0
  bitData := 0
  codes := []
  oldTime := r.zero

def altDecodeEdges (edges : List (T × Bool)) : List Nat :=
  (edges.foldl (AltDecoder.edge r) (.initial r)).codes

/-! ## The handler at the same edges -/

/-- The times at which the handler is called. -/
def rising (edges : List (T × Bool)) : List T := (edges.filter (·.2)).map (·.1)

/-- What `micros()` returns. -/
def Recorder.clock (time : T) : UInt32 := UInt32.ofNat (r.micros time)

/-- The interval is in the bin that it is in by the clock. -/
def Recorder.SameBin (oldTime time : T) : Prop :=
  codeLength (r.units time oldTime) = codeLength ((r.micros time - r.micros oldTime : Nat) : ℚ)

instance (oldTime time : T) : Decidable (r.SameBin oldTime time) :=
  inferInstanceAs (Decidable (_ = _))

/-- Time does not run backwards, the handler is not left alone for longer than `micros()` can tell,
    and what is computed of an interval does not put it into another bin. -/
def Timed (edges : List (T × Bool)) : Prop :=
  List.IsChain (fun time time' => r.micros time ≤ r.micros time' ∧
    r.micros time' < r.micros time + 2 ^ 32 ∧ r.SameBin time time') (r.zero :: rising edges)

instance : DecidablePred (Timed r) := fun edges =>
  inferInstanceAs (Decidable (List.IsChain _ (r.zero :: rising edges)))

/-- What the times between the rising edges are taken for, the first counted from `oldTime`. -/
def lengths : T → List T → List CodeLength
  | _, [] => []
  | oldTime, time :: times => codeLength (r.units time oldTime) :: lengths time times

end

def CodeLength.pulse : CodeLength → HePulse
  | short => .short
  | long => .long
  | start => .start
  | unknown => .other

/-- The limits of the bins. -/
def binLimits : List Nat := [384, 768, 1408, 1664, 2816, 3072]

/-- A number less than one away from a whole one that is not the limit of a bin is in its bin. -/
theorem codeLength_eq_of_close {units : ℚ} {n : Nat} (hclose : |units - n| < 1)
    (hlimit : n ∉ binLimits) : codeLength units = codeLength n := by
  obtain ⟨hbelow, habove⟩ := abs_lt.mp hclose
  have hside {limit : Nat} (hne : n ≠ limit) : (limit : ℚ) ≤ units ↔ (limit : ℚ) ≤ n := by
    rcases Nat.lt_or_gt_of_ne hne with hlt | hgt
    · have hcast : (n : ℚ) + 1 ≤ limit := by exact_mod_cast hlt
      exact iff_of_false (by linarith) (by linarith)
    · have hcast : (limit : ℚ) + 1 ≤ n := by exact_mod_cast hgt
      exact iff_of_true (by linarith) (by linarith)
  have hsides : ∀ limit ∈ binLimits, (limit : ℚ) ≤ units ↔ (limit : ℚ) ≤ n :=
    fun limit hmem => hside fun heq => hlimit (heq ▸ hmem)
  simp only [binLimits, List.forall_mem_cons, List.not_mem_nil, Nat.cast_ofNat] at hsides
  obtain ⟨h384, h768, h1408, h1664, h2816, h3072, -⟩ := hsides
  unfold codeLength
  simp only [← not_le, h384, h768, h1408, h1664, h2816, h3072]

theorem ofBin_units (units : Nat) : HePulse.ofBin (units / 128) = (codeLength units).pulse := by
  unfold codeLength
  simp only [Nat.ofNat_le_cast, Nat.cast_lt_ofNat]
  split_ifs with hshort hlong hstart
  · obtain h | h | h : units / 128 = 3 ∨ units / 128 = 4 ∨ units / 128 = 5 := by omega
    all_goals rw [h]; rfl
  · obtain h | h : units / 128 = 11 ∨ units / 128 = 12 := by omega
    all_goals rw [h]; rfl
  · obtain h | h : units / 128 = 22 ∨ units / 128 = 23 := by omega
    all_goals rw [h]; rfl
  · unfold HePulse.ofBin
    split <;> first | omega | rfl

section

variable {T : Type*} {r : Recorder T}

theorem hePulse_clock {time time' : T} (hle : r.micros time ≤ r.micros time')
    (hlt : r.micros time' < r.micros time + 2 ^ 32) (hbin : r.SameBin time time') :
    hePulse (r.clock time' - r.clock time) = (codeLength (r.units time' time)).pulse := by
  have hdelta : r.clock time' - r.clock time = UInt32.ofNat (r.micros time' - r.micros time) :=
    (UInt32.ofNat_sub hle).symm
  have hsmall : r.micros time' - r.micros time < 2 ^ 32 := by omega
  rw [hbin, hePulse, hdelta, UInt32.toNat_div, UInt32.toNat_ofNat_of_lt' hsmall, ← ofBin_units]
  rfl

theorem pulses_clock {oldTime : T} {times : List T}
    (h : List.IsChain (fun time time' => r.micros time ≤ r.micros time' ∧
      r.micros time' < r.micros time + 2 ^ 32 ∧ r.SameBin time time') (oldTime :: times)) :
    pulses (r.clock oldTime) (times.map r.clock)
      = (lengths r oldTime times).map CodeLength.pulse := by
  induction times generalizing oldTime with
  | nil => rfl
  | cons time times ih =>
    rw [List.isChain_cons_cons] at h
    obtain ⟨⟨hle, hlt, hbin⟩, hrest⟩ := h
    rw [List.map_cons, pulses, lengths, List.map_cons, hePulse_clock hle hlt hbin, ih hrest]

theorem clock_zero : r.clock r.zero = 0 := by
  rw [Recorder.clock, r.micros_zero]
  rfl

theorem lengths_concat (oldTime : T) (times : List T) (time : T) :
    lengths r oldTime (times ++ [time])
      = lengths r oldTime times
        ++ [codeLength (r.units time ((oldTime :: times).getLast (by simp)))] := by
  induction times generalizing oldTime with
  | nil => rfl
  | cons time' times ih =>
    rw [List.cons_append, lengths, ih, lengths, List.cons_append,
      List.getLast_cons (List.cons_ne_nil _ _)]

end

/-! ## One interval -/

def State.he : State → HeState
  | reset => .reset
  | receivedLong => .receivedLong
  | receivedShort => .receivedShort
  | readyForBit => .readyForBit

/-- The decoders are in the same state, and unless they wait for a start they have the same bits,
    which the handler keeps at the top of its word. -/
def Alike {T : Type*} (he : HeDecoder) (d : AltDecoder T) : Prop :=
  he.state = d.state.he ∧ (he.state ≠ .reset → ∃ bits, bits.length < 32 ∧
    he = heard bits he.state ∧ d.bitCount = bits.length ∧ d.bitData = readBits bits)

theorem nextBit_readBits {T : Type*} {d : AltDecoder T} {bits : List Bool}
    (hcount : d.bitCount = bits.length) (hdata : d.bitData = readBits bits) (bit : Bool) :
    d.nextBit bit.toNat =
      if bits.length + 1 ≥ 32 then
        { d with
          state := .reset, bitCount := bits.length + 1, bitData := readBits (bits ++ [bit]),
          codes := d.codes ++ [readBits (bits ++ [bit])] }
      else
        { d with
          state := .readyForBit, bitCount := bits.length + 1,
          bitData := readBits (bits ++ [bit]) } := by
  have hnext : readBits bits <<< 1 ||| bit.toNat = readBits (bits ++ [bit]) := by
    rw [← Nat.shiftLeft_add_eq_or_of_lt (by cases bit <;> decide), Nat.shiftLeft_eq,
      readBits_concat]
    ring
  rw [AltDecoder.nextBit, hcount, hdata, hnext]

/-- What the handler publishes, as the numbers that `codes` is a list of. -/
def published (code : Option UInt32) : List Nat := (code.map UInt32.toNat).toList

/-- From `he` and `d`, `d'` is what the handler does at the pulse. -/
def Agrees {T : Type*} (he : HeDecoder) (d : AltDecoder T) (pulse : HePulse) (d' : AltDecoder T) :
    Prop :=
  Alike (homeEasy pulse he).1 d' ∧ d'.codes = d.codes ++ published (homeEasy pulse he).2

variable {T : Type*} {he : HeDecoder} {d : AltDecoder T}

theorem agrees_start :
    Agrees he d .start { d with state := .readyForBit, bitCount := 0, bitData := 0 } := by
  rw [Agrees, homeEasy_start]
  exact ⟨⟨rfl, fun _ => ⟨[], by decide, rfl, rfl, rfl⟩⟩, (List.append_nil _).symm⟩

theorem agrees_error {pulse : HePulse}
    (h : homeEasy pulse he = ({ he with state := .reset }, none)) :
    Agrees he d pulse { d with state := .reset } := by
  rw [Agrees, h]
  exact ⟨⟨rfl, fun hreset => absurd rfl hreset⟩, (List.append_nil _).symm⟩

theorem agrees_first (h : Alike he d) (bit : Bool) (hstate : he.state = .readyForBit)
    {state : State} (hhalf : state.he = halfState bit) :
    Agrees he d (firstPulse bit) { d with state := state } := by
  obtain ⟨bits, hlt, hhe, hcount, hdata⟩ := h.2 (by rw [hstate]; decide)
  rw [hstate] at hhe
  rw [Agrees, hhe, homeEasy_first]
  exact ⟨⟨hhalf.symm, fun _ => ⟨bits, hlt, rfl, hcount, hdata⟩⟩, (List.append_nil _).symm⟩

theorem agrees_second (h : Alike he d) (bit : Bool) (hstate : he.state = halfState bit) :
    Agrees he d (secondPulse bit) (d.nextBit bit.toNat) := by
  obtain ⟨bits, hlt, hhe, hcount, hdata⟩ := h.2 (by rw [hstate]; exact halfState_ne_reset bit)
  rw [hstate] at hhe
  have hlength : (bits ++ [bit]).length = bits.length + 1 := List.length_append
  rw [Agrees, hhe, homeEasy_second hlt, nextBit_readBits hcount hdata]
  by_cases hlast : bits.length = 31
  · rw [if_pos hlast, if_pos (by omega)]
    refine ⟨⟨rfl, fun hreset => absurd rfl hreset⟩, ?_⟩
    rw [published, Option.map_some, heard_bitData_toNat (by omega), hlength, hlast, Nat.sub_self,
      Nat.pow_zero, Nat.mul_one]
    rfl
  · rw [if_neg hlast, if_neg (by omega)]
    exact ⟨⟨rfl, fun _ => ⟨bits ++ [bit], by omega, rfl, hlength.symm, rfl⟩⟩,
      (List.append_nil _).symm⟩

/-- On an interval in one of the bins the two decoders do the same. -/
theorem agrees_interval (h : Alike he d) {length : CodeLength} (hknown : length ≠ .unknown) :
    Agrees he d length.pulse (d.interval length) := by
  obtain ⟨state, bitCount, bitData⟩ := he
  obtain ⟨state', bitCount', bitData', codes, oldTime⟩ := d
  have hstate : state = state'.he := h.1
  subst hstate
  cases length with
  | unknown => exact absurd rfl hknown
  | start => exact agrees_start
  | short =>
    cases state' with
    | readyForBit => exact agrees_first h false rfl rfl
    | receivedLong => exact agrees_second h true rfl
    | receivedShort => exact agrees_error rfl
    | reset => exact agrees_error rfl
  | long =>
    cases state' with
    | readyForBit => exact agrees_first h true rfl rfl
    | receivedShort => exact agrees_second h false rfl
    | receivedLong => exact agrees_error rfl
    | reset => exact agrees_error rfl

/-! ## A recording -/

/-- The intervals that are in one of the bins. -/
def known (lengths : List CodeLength) : List HePulse :=
  (lengths.filter (· ≠ .unknown)).map CodeLength.pulse

theorem known_cons {length : CodeLength} (h : length ≠ .unknown) (ls : List CodeLength) :
    known (length :: ls) = length.pulse :: known ls := by
  rw [known, List.filter_cons_of_pos (by simpa using h)]
  rfl

theorem known_cons_unknown (ls : List CodeLength) : known (.unknown :: ls) = known ls := rfl

theorem known_append (ls ls' : List CodeLength) : known (ls ++ ls') = known ls ++ known ls' := by
  rw [known, List.filter_append, List.map_append]
  rfl

theorem oldTime_interval (d : AltDecoder T) (length : CodeLength) :
    (d.interval length).oldTime = d.oldTime := by
  unfold AltDecoder.interval AltDecoder.nextBit
  split <;> first | rfl | (dsimp only; split <;> rfl)

theorem rising_concat (edges : List (T × Bool)) (time : T) :
    rising (edges ++ [(time, true)]) = rising edges ++ [time] := by
  rw [rising, List.filter_append, List.map_append]
  rfl

variable {r : Recorder T}

/-- Only rising edges count. -/
theorem foldl_rising (edges : List (T × Bool)) (d : AltDecoder T) :
    edges.foldl (AltDecoder.edge r) d
      = (rising edges).foldl (fun d time => d.edge r (time, true)) d := by
  induction edges generalizing d with
  | nil => rfl
  | cons edge edges ih =>
    obtain ⟨time, high⟩ := edge
    cases high with
    | false => exact ih d
    | true => exact ih (d.edge r (time, true))

theorem alike_run (times : List T) (h : Alike he d) :
    Alike (run homeEasy (known (lengths r d.oldTime times)) he).1
        (times.foldl (fun d time => d.edge r (time, true)) d) ∧
      (times.foldl (fun d time => d.edge r (time, true)) d).codes
        = d.codes
          ++ (run homeEasy (known (lengths r d.oldTime times)) he).2.flatMap published := by
  induction times generalizing he d with
  | nil => exact ⟨h, (List.append_nil _).symm⟩
  | cons time times ih =>
    have holdTime : (d.edge r (time, true)).oldTime = time := oldTime_interval _ _
    rw [lengths, List.foldl_cons]
    by_cases hknown : codeLength (r.units time d.oldTime) = .unknown
    · -- The handler's half does not hear of this interval.
      have hedge : d.edge r (time, true) = { d with oldTime := time } := by
        rw [AltDecoder.edge, hknown]
        rfl
      rw [hknown, known_cons_unknown, hedge]
      exact ih (d := { d with oldTime := time }) h
    · obtain ⟨halike, hcodes⟩ : Agrees he d (codeLength (r.units time d.oldTime)).pulse
          (d.edge r (time, true)) :=
        agrees_interval (d := { d with oldTime := time }) h hknown
      have hrest := ih halike
      rw [holdTime] at hrest
      rw [known_cons hknown, run_cons, List.flatMap_cons, ← List.append_assoc, ← hcodes]
      exact hrest

/-- `alt_decode_edges` is the handler's Home Easy half on the intervals that are in a bin. -/
theorem altDecodeEdges_eq (edges : List (T × Bool)) :
    altDecodeEdges r edges
      = (run homeEasy (known (lengths r r.zero (rising edges))) initial.he).2.flatMap
          published := by
  have halike : Alike initial.he (AltDecoder.initial r) :=
    ⟨rfl, fun hreset => absurd rfl hreset⟩
  rw [altDecodeEdges, foldl_rising]
  exact (alike_run (rising edges) halike).2

theorem published_eq_singleton {said : Option UInt32} {code : UInt32} :
    published said = [code.toNat] ↔ said = some code := by
  cases said with
  | none => simp [published]
  | some code' => simp [published, UInt32.toNat_inj]

/-- A code is found at a rising edge if and only if the interval that ends there is in a bin and the
    last 65 of those that are in one are the frame of that code. -/
theorem found_iff {edges : List (T × Bool)} {time : T} {ls : List CodeLength}
    {length : CodeLength}
    (hls : lengths r r.zero (rising (edges ++ [(time, true)])) = ls ++ [length])
    (code : UInt32) :
    altDecodeEdges r (edges ++ [(time, true)]) = altDecodeEdges r edges ++ [code.toNat]
      ↔ length ≠ .unknown ∧
        ∃ bits : List Bool, bits.length = 32 ∧ frame bits <:+ known (ls ++ [length]) ∧
          code.toNat = readBits bits := by
  have hbefore : lengths r r.zero (rising edges) = ls := by
    rw [rising_concat, lengths_concat] at hls
    exact (List.append_inj' hls rfl).1
  rw [altDecodeEdges_eq, altDecodeEdges_eq, hls, hbefore, known_append]
  by_cases hknown : length = .unknown
  · subst hknown
    simp [known]
  · have hlast : known [length] = [length.pulse] := known_cons hknown []
    rw [hlast, run_append, run_cons, run_nil, List.flatMap_append, List.append_cancel_left_eq,
      List.flatMap_singleton, published_eq_singleton,
      homeEasy_publishes_iff (known ls) rfl length.pulse code]
    exact (and_iff_right hknown).symm

/-! ## What the handler misses -/

theorem length_frame (bits : List Bool) : (frame bits).length = 2 * bits.length + 1 := by
  rw [frame, List.length_cons, List.length_flatMap]
  simp [Nat.mul_comm]

/-- A frame has no interval that is in no bin. -/
theorem other_not_mem_frame (bits : List Bool) : .other ∉ frame bits := by
  have hbit (bit : Bool) : .other ≠ firstPulse bit ∧ .other ≠ secondPulse bit := by
    cases bit <;> decide
  intro hmem
  rw [frame, List.mem_cons, List.mem_flatMap] at hmem
  obtain h | ⟨bit, -, h⟩ := hmem
  · cases h
  · rw [List.mem_pair] at h
    exact h.elim (hbit bit).1 (hbit bit).2

theorem known_eq_map {ls : List CodeLength} (h : .unknown ∉ ls) :
    known ls = ls.map CodeLength.pulse := by
  rw [known, List.filter_eq_self.mpr]
  intro length hlength
  simpa using fun heq : length = .unknown => h (heq ▸ hlength)

theorem length_known_le (ls : List CodeLength) : (known ls).length ≤ ls.length := by
  rw [known, List.length_map]
  exact List.length_filter_le _ _

/-- A frame ends here if and only if one ends here when the intervals in no bin are passed over, and
    of the last 65 none has to be. -/
theorem frame_suffix_iff {ls : List CodeLength} {bits : List Bool} (hbits : bits.length = 32) :
    frame bits <:+ ls.map CodeLength.pulse
      ↔ frame bits <:+ known ls ∧ .unknown ∉ ls.rtake 65 := by
  have hlength : (frame bits).length = 65 := by rw [length_frame, hbits]
  have hlast : (ls.rtake 65).length = ls.length - (ls.length - 65) := List.length_drop
  have hsuffix : (ls.rtake 65).map CodeLength.pulse <:+ ls.map CodeLength.pulse :=
    List.IsSuffix.map _ (List.drop_suffix _ _)
  have hknown : known (ls.rtake 65) <:+ known ls :=
    List.IsSuffix.map _ ((List.drop_suffix _ _).filter _)
  constructor
  · intro h
    have hle := h.length_le
    rw [List.length_map, hlength] at hle
    have hframe : (ls.rtake 65).map CodeLength.pulse <:+ frame bits :=
      List.suffix_of_suffix_length_le hsuffix h (by rw [List.length_map]; omega)
    have hmem : .unknown ∉ ls.rtake 65 := fun hmem =>
      other_not_mem_frame bits (hframe.subset (List.mem_map_of_mem hmem))
    have h' : frame bits <:+ (ls.rtake 65).map CodeLength.pulse :=
      List.suffix_of_suffix_length_le h hsuffix (by rw [List.length_map]; omega)
    exact ⟨h'.trans (known_eq_map hmem ▸ hknown), hmem⟩
  · rintro ⟨h, hmem⟩
    have hle := h.length_le.trans (length_known_le ls)
    have h' : frame bits <:+ known (ls.rtake 65) :=
      List.suffix_of_suffix_length_le h hknown
        (by rw [known_eq_map hmem, List.length_map]; omega)
    exact h'.trans (known_eq_map hmem ▸ hsuffix)

/-- **What the handler misses of what its prototype finds.** At a rising edge the handler publishes
    a code if and only if `alt_decode_edges` appends that code there and each of the last 65
    intervals was in a bin. -/
theorem published_iff_found {edges : List (T × Bool)} {time : T}
    (h : Timed r (edges ++ [(time, true)])) (code : UInt32) :
    .homeEasy code ∈
        (rx433Interrupt (r.clock time) (hear ((rising edges).map r.clock) Rx433.initial).1).2
      ↔ altDecodeEdges r (edges ++ [(time, true)]) = altDecodeEdges r edges ++ [code.toNat] ∧
        .unknown ∉ (lengths r r.zero (rising (edges ++ [(time, true)]))).rtake 65 := by
  have hls := @lengths_concat _ r r.zero (rising edges) time
  rw [← rising_concat] at hls
  have hpulses := pulses_clock h
  have hclock : pulses 0 ((rising edges).map r.clock ++ [r.clock time])
      = (lengths r r.zero (rising (edges ++ [(time, true)]))).map CodeLength.pulse := by
    rw [← hpulses, rising_concat, List.map_append, clock_zero]
    rfl
  have hlast (hmem : .unknown ∉
      (lengths r r.zero (rising (edges ++ [(time, true)]))).rtake 65) :
      codeLength (r.units time ((r.zero :: rising edges).getLast (by simp))) ≠ .unknown := by
    intro hunknown
    rw [hls, hunknown, List.rtake_concat_succ] at hmem
    exact hmem (List.mem_append_right _ (List.mem_singleton_self _))
  rw [mem_publications_homeEasy, hear_he, homeEasy_publishes_iff _ rfl, ← pulses_concat]
  rw [show Rx433.initial.oldTime = 0 from rfl, hclock, found_iff hls, ← hls]
  constructor
  · rintro ⟨bits, hbits, hframe, hcode⟩
    obtain ⟨hfound, hmem⟩ := (frame_suffix_iff hbits).mp hframe
    exact ⟨⟨hlast hmem, bits, hbits, hfound, hcode⟩, hmem⟩
  · rintro ⟨⟨-, bits, hbits, hfound, hcode⟩, hmem⟩
    exact ⟨bits, hbits, (frame_suffix_iff hbits).mpr ⟨hfound, hmem⟩, hcode⟩

/-- Times in 2⁻²⁰ s, on which floating-point arithmetic is exact for two hours. -/
def exactTimes : Recorder Nat where
  zero := 0
  units time oldTime := ((time - oldTime : Int) : ℚ) * 1000000 / 1048576
  micros time := time * 1000000 / 1048576
  micros_zero := rfl

/-- A time in microseconds, rounded. -/
def inTicks (micros : Nat) : Nat := micros * 1048576 / 1000000

/-- One attempt as a recording, with the falling edges. -/
def sampleRecording : List (Nat × Bool) :=
  (heEdges 5000 0x04022b83).dropLast.flatMap fun time =>
    [(inTicks time, true), (inTicks (time + 220), false)]

theorem published_iff_found_sample :
    .homeEasy 0x04022b83 ∈ (rx433Interrupt (exactTimes.clock (inTicks 74800))
      (hear ((rising sampleRecording).map exactTimes.clock) Rx433.initial).1).2 :=
  (published_iff_found (by decide +kernel) _).mpr ⟨by decide +kernel, by decide +kernel⟩

/-! ## A whole recording -/

/-- The Home Easy codes among what was published. -/
def homeEasyCodes (publications : List Publication) : List Nat :=
  publications.filterMap fun
    | .homeEasy code => some code.toNat
    | .newCode _ => none

theorem homeEasyCodes_interrupt (newTime : UInt32) (s : Rx433) :
    homeEasyCodes (rx433Interrupt newTime s).2
      = published (homeEasy (hePulse (newTime - s.oldTime)) s.he).2 := by
  have hsaid : (rx433Interrupt newTime s).2
      = ((homeEasy (hePulse (newTime - s.oldTime)) s.he).2.map Publication.homeEasy).toList
        ++ ((newCode newTime (newTime - s.oldTime) s.nc).2.map Publication.newCode).toList := rfl
  rw [hsaid]
  cases (homeEasy (hePulse (newTime - s.oldTime)) s.he).2 <;>
    cases (newCode newTime (newTime - s.oldTime) s.nc).2 <;> rfl

theorem homeEasyCodes_hear (times : List UInt32) (s : Rx433) :
    homeEasyCodes (hear times s).2.flatten
      = (run homeEasy (pulses s.oldTime times) s.he).2.flatMap published := by
  induction times generalizing s with
  | nil => rfl
  | cons t ts ih =>
    have hrest := ih (rx433Interrupt t s).1
    rw [hear, run_cons, List.flatten_cons, homeEasyCodes, List.filterMap_append]
    rw [pulses, run_cons, List.flatMap_cons]
    exact congrArg₂ (· ++ ·) (homeEasyCodes_interrupt t s) hrest

/-- Where the handler's half and the prototype part, the handler waits for a start. -/
theorem run_known_sublist (ls : List CodeLength) {he he' : HeDecoder}
    (h : he = he' ∨ he.state = .reset) :
    (run homeEasy (ls.map CodeLength.pulse) he).2.flatMap published
      <+ (run homeEasy (known ls) he').2.flatMap published := by
  induction ls generalizing he he' with
  | nil => exact List.Sublist.refl _
  | cons length ls ih =>
    have hreset (hlength : length ≠ .start) (hstate : he.state = .reset) :
        (homeEasy length.pulse he).1.state = .reset ∧ (homeEasy length.pulse he).2 = none := by
      obtain ⟨state, bitCount, bitData⟩ := he
      cases hstate
      cases length with
      | start => exact absurd rfl hlength
      | short => exact ⟨rfl, rfl⟩
      | long => exact ⟨rfl, rfl⟩
      | unknown => exact ⟨rfl, rfl⟩
    rw [List.map_cons, run_cons, List.flatMap_cons]
    by_cases hunknown : length = .unknown
    · subst hunknown
      have hother : homeEasy .other he = ({ he with state := .reset }, none) := rfl
      rw [known_cons_unknown]
      exact ih (.inr rfl)
    rw [known_cons hunknown, run_cons, List.flatMap_cons]
    by_cases hstart : length = .start
    · subst hstart
      have hready (he : HeDecoder) :
          homeEasy CodeLength.start.pulse he = (heard [] .readyForBit, none) := homeEasy_start he
      rw [hready, hready]
      exact ih (.inl rfl)
    · obtain rfl | hstate := h
      · exact (List.Sublist.refl _).append (ih (.inl rfl))
      · obtain ⟨hstate, hnone⟩ := hreset hstart hstate
        rw [hnone]
        exact (List.nil_sublist _).append (ih (.inr hstate))

/-- Another attempt, with an interval of 1 ms after its start that only the handler minds. -/
def noisyRecording : List (Nat × Bool) :=
  [(inTicks 100000, true), (inTicks 102920, true), (inTicks 103920, true)] ++
    (heEdges 101000 0x04022b83).tail.tail.map fun time => (inTicks time, true)

/-- **Whatever the handler publishes its prototype finds.** -/
theorem published_sublist_found {edges : List (T × Bool)} (h : Timed r edges) :
    homeEasyCodes (hear ((rising edges).map r.clock) Rx433.initial).2.flatten
      <+ altDecodeEdges r edges := by
  rw [homeEasyCodes_hear, altDecodeEdges_eq]
  rw [show Rx433.initial.oldTime = 0 from rfl, ← clock_zero, pulses_clock h]
  exact run_known_sublist _ (.inl rfl)

theorem published_sublist_found_sample :
    homeEasyCodes (hear ((rising (sampleRecording ++ (inTicks 74800, true) ::
      noisyRecording)).map exactTimes.clock) Rx433.initial).2.flatten
        <+ [0x04022b83, 0x04022b83] := by
  have hfound : altDecodeEdges exactTimes (sampleRecording ++ (inTicks 74800, true) ::
      noisyRecording) = [0x04022b83, 0x04022b83] := by
    decide +kernel
  rw [← hfound]
  exact published_sublist_found (by decide +kernel)

/-- Where every interval is in a bin, they do the same. -/
theorem published_eq_found {edges : List (T × Bool)} (h : Timed r edges)
    (hknown : .unknown ∉ lengths r r.zero (rising edges)) :
    homeEasyCodes (hear ((rising edges).map r.clock) Rx433.initial).2.flatten
      = altDecodeEdges r edges := by
  rw [homeEasyCodes_hear, altDecodeEdges_eq, known_eq_map hknown]
  rw [show Rx433.initial.oldTime = 0 from rfl, ← clock_zero, pulses_clock h]

end Readcode
end CpeClock
