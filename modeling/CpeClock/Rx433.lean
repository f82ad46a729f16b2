import CpeClock.Mail
import CpeClock.Lib.Mealy

/-!
# `rx433.c` — the interrupt handler

The handler is called at each 0 to 1 transition with the time from `micros()`. Two decoders share
it, and neither looks at the other's variables: what they have in common is the time since the last
edge (`delta`). Each is a function of its own here, and `rx433Interrupt` calls one after the other,
as the source does.

What the handler writes to the variables that the rest of the program reads is its answer, a list of
`Publication`s; `Mailbox.publish` is the writing.
-/

namespace CpeClock

open Lib

namespace Rx433

def symbolSize : UInt32 := 5

def ncDataSize : UInt32 := 31

def ncPulse : UInt32 := 0x100

def epsilon : UInt32 := ncPulse * 3 / 8

def ncSymbolTime : UInt32 := ncPulse * 5 + ncPulse * 2 * symbolSize

def maxIncompleteSkip : UInt32 := 5

def isClose (delta centre epsilon : UInt32) : Bool := delta + epsilon - centre < epsilon * 2

/-! ## Home Easy -/

/-- `t_he_state`. -/
inductive HeState where
  | reset
  | receivedLong
  | receivedShort
  | readyForBit
  deriving DecidableEq

/-- `he_state`, `he_bit_count` and `he_bit_data`. -/
structure HeDecoder where
  state : HeState
  bitCount : UInt8
  bitData : UInt32
  deriving DecidableEq

/-- What `switch (delta / 128)` tells apart. -/
inductive HePulse where
  | short
  | long
  | start
  | other
  deriving DecidableEq

def HePulse.ofBin : Nat → HePulse
  | 3 | 4 | 5 => short
  | 11 | 12 => long
  | 22 | 23 => start
  | _ => other

def hePulse (delta : UInt32) : HePulse := .ofBin (delta / 128).toNat

/-- `he_bit_count ++`, and the code is published if this was its last bit. -/
def HeDecoder.nextBit (d : HeDecoder) (bitData : UInt32) : HeDecoder × Option UInt32 :=
  let bitCount := d.bitCount + 1
  if bitCount ≥ 32 then
    ({ state := .reset, bitCount := bitCount, bitData := bitData }, some bitData)
  else
    ({ state := .readyForBit, bitCount := bitCount, bitData := bitData }, none)

/-- The Home Easy half of `rx433_interrupt`. -/
def homeEasy (pulse : HePulse) (d : HeDecoder) : HeDecoder × Option UInt32 :=
  match pulse, d.state with
  | .short, .readyForBit => ({ d with state := .receivedShort }, none)
  | .short, .receivedLong =>
    -- Home Easy: long then short -> bit 1
    d.nextBit (d.bitData ||| ((1 : UInt32) <<< 31) >>> d.bitCount.toUInt32)
  | .long, .readyForBit => ({ d with state := .receivedLong }, none)
  | .long, .receivedShort =>
    -- Home Easy: short then long -> bit 0
    d.nextBit d.bitData
  | .start, _ => ({ state := .readyForBit, bitCount := 0, bitData := 0 }, none)
  | _, _ => ({ d with state := .reset }, none)

/-! ## New codes -/

/-- `nc_buffer`, `nc_timebase` and `nc_count`. -/
structure NcDecoder where
  buffer : NcCode
  timebase : UInt32
  count : UInt32
  deriving DecidableEq

def emptyCode : NcCode := Vector.replicate 31 0

/-- The value `~0` of `nc_count`, between messages. -/
def noMessage : UInt32 := 0xffffffff

/-- The loop "Skipped any symbols?": `nc_count`, `nc_timebase` and `skip` afterwards. Each turn
    increments `nc_count` and the loop stops at `NC_DATA_SIZE`, so 31 turns are enough. -/
def skipSymbols (newTime : UInt32) : Nat → UInt32 → UInt32 → UInt32 → UInt32 × UInt32 × UInt32
  | 0, count, timebase, skip => (count, timebase, skip)
  | turns + 1, count, timebase, skip =>
    if count < ncDataSize ∧ newTime - timebase > ncSymbolTime * 3 / 2 then
      skipSymbols newTime turns (count + 1) (timebase + ncSymbolTime) (skip + 1)
    else
      (count, timebase, skip)

/-- The branch that 'indicates a "11010" start code'. -/
def startCode (newTime : UInt32) (d : NcDecoder) : NcDecoder × Option NcCode :=
  let (count, timebase, skip) := skipSymbols newTime 31 d.count d.timebase 0
  let delta2 := newTime - timebase
  if count ≥ ncDataSize then
    -- New message, which may force the end of the previous incomplete message
    ({ buffer := emptyCode, timebase := newTime, count := 0 },
      if count = ncDataSize ∧ skip ≤ maxIncompleteSkip then some d.buffer else none)
  else if isClose delta2 ncSymbolTime epsilon then
    -- Message continues
    ({ d with count := count, timebase := newTime }, none)
  else
    -- This signal did not arrive at the right time.
    ({ d with count := count, timebase := timebase }, none)

/-- The branch for "a bit within a symbol". -/
def symbolBit (delta2 : UInt32) (d : NcDecoder) : NcDecoder × Option NcCode :=
  let bit := (delta2 + ncPulse) / (ncPulse * 2)
  let expect := ncPulse * 2 * bit
  if bit = 0 then
    (d, none) -- Ignore noise in start bit
  else if isClose expect delta2 epsilon then
    if bit < symbolSize + 1 then
      -- data bit
      let symbol := d.buffer[d.count.toNat]! ||| ((1 <<< symbolSize) >>> bit).toUInt8
      ({ d with buffer := d.buffer.set! d.count.toNat symbol }, none)
    else if d.count + 1 = ncDataSize then
      -- stop bit - end of symbol. Also, end of message
      ({ d with count := noMessage }, some d.buffer)
    else
      ({ d with count := d.count + 1 }, none)
  else
    (d, none)

/-- The New Code half of `rx433_interrupt`. -/
def newCode (newTime delta : UInt32) (d : NcDecoder) : NcDecoder × Option NcCode :=
  let delta2 := newTime - d.timebase
  if isClose delta (ncPulse * 3) epsilon then
    startCode newTime d
  else if d.count < ncDataSize then
    if delta2 < ncSymbolTime + epsilon then
      symbolBit delta2 d
    else
      -- Force end of incomplete message, or give it up
      ({ d with count := noMessage },
        if d.count + maxIncompleteSkip ≥ ncDataSize then some d.buffer else none)
  else
    (d, none)

/-! ## The handler -/

/-- What is written for the rest of the program. -/
inductive Publication where
  | homeEasy (code : UInt32)
  | newCode (code : NcCode)
  deriving DecidableEq

end Rx433

open Rx433

/-- The static variables of `rx433.c`. -/
structure Rx433 where
  oldTime : UInt32
  he : HeDecoder
  nc : NcDecoder
  deriving DecidableEq

namespace Rx433

def initial : Rx433 where
  oldTime := 0
  he := { state := .reset, bitCount := 0, bitData := 0 }
  nc := { buffer := emptyCode, timebase := 0, count := noMessage }

/-- `rx433_interrupt`, called when `micros()` is `newTime`. -/
def rx433Interrupt (newTime : UInt32) (s : Rx433) : Rx433 × List Publication :=
  let delta := newTime - s.oldTime
  let (he, heCode) := homeEasy (hePulse delta) s.he
  let (nc, ncCode) := newCode newTime delta s.nc
  ({ oldTime := newTime, he := he, nc := nc },
    (heCode.map Publication.homeEasy).toList ++ (ncCode.map Publication.newCode).toList)

abbrev hear : List UInt32 → Rx433 → Rx433 × List (List Publication) := Mealy.run rx433Interrupt

def Reachable (s : Rx433) : Prop := ∃ times, s = (hear times initial).1

end Rx433

def Mailbox.publish (mailbox : Mailbox) : Publication → Mailbox
  | .homeEasy code => { mailbox with homeEasy := code }
  | .newCode code => { mailbox with newCode := code, newCodeReady := true }

end CpeClock
