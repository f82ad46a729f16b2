import CpeClock.Rs.Codec

/-!
# `ncrs.c` — the message codec

A message is 14 bytes, of which 105 bits are sent; a code is 31 symbols of five bits: 21 data
symbols with 10 parity symbols interleaved two to one. The bit loops run over a pair `(i, j)`
and a running `k`; here they run over `k`, with `i = k / 5` and `j = 5 - k % 5`, which is the
same order.

The sizes are those of the headers: `SYMBOL_SIZE` 5, `MSG_SYMBOLS` 21, `NROOTS` 10,
`NC_DATA_SIZE` 31, `DECODED_DATA_BYTES` 14.
-/

namespace CpeClock

open Rs

/-- 31 symbols, as `rx433.c` publishes and `ncrs.c` reads them. -/
abbrev NcCode := Vector UInt8 31

/-- A decoded message, `DECODED_DATA_BYTES` long. -/
abbrev Message := Vector UInt8 14

namespace Ncrs

def maxShiftDistance : Nat := 3

/-- `ncrs_init`: `none` stands for "RS INIT ERROR" and a return value of zero. -/
def ncrsInit : Option RsControl := initRs 5 0x25 1 1 10

/-! ## Bits and symbols -/

/-- "Pack bits into symbols", one bit. -/
def packStep (original : List Nat) (data : List Nat) (k : Nat) : List Nat :=
  data.modify (k / 5)
    (· ||| (((original.getD (k / 8) 0 <<< (k % 8)) % 256) >>> 7) <<< (4 - k % 5))

/-- "Pack bits into symbols". -/
def packBits (original : List Nat) : List Nat :=
  (List.range 105).foldl (packStep original) (List.replicate 21 0)

/-- "unpack bits from symbols", one bit. -/
def unpackStep (data : List Nat) (original : List Nat) (k : Nat) : List Nat :=
  original.modify (k / 8) (· ||| ((data.getD (k / 5) 0 >>> (4 - k % 5)) &&& 1) <<< (7 - k % 8))

/-- "unpack bits from symbols". -/
def unpackBits (data : List Nat) : List Nat :=
  (List.range 105).foldl (unpackStep data) (List.replicate 14 0)

def bytes {n : Nat} (v : Vector UInt8 n) : List Nat := v.toList.map UInt8.toNat

def ofBytes (n : Nat) (l : List Nat) : Vector UInt8 n :=
  Vector.ofFn fun i => UInt8.ofNat (l.getD i 0)

/-! ## Encoding -/

/-- "Copy interleaved data and parity": symbol `n` of the code. -/
def interleave (data parity : List Nat) (n : Nat) : Nat :=
  if n % 3 = 2 then parity.getD (n / 3) 0 else data.getD (2 * (n / 3) + n % 3) 0

def ncrsEncode (rs : RsControl) (original : Message) : NcCode :=
  let data := packBits (bytes original)
  let parity := encodeRs8 rs data (List.replicate 10 0)
  ofBytes 31 ((List.range 31).map (interleave data parity))

/-! ## Decoding -/

/-- "pad message with zeroes (for shift attempts)". -/
def paddedMessage (encoded : NcCode) : List Nat :=
  List.replicate maxShiftDistance 0 ++ bytes encoded ++ List.replicate maxShiftDistance 0

/-- "Determine how far to shift": where attempt `shift_attempt` starts reading. -/
def shiftOffset (shiftAttempt : Nat) : Nat :=
  if shiftAttempt % 2 ≠ 0 then
    maxShiftDistance + shiftAttempt / 2 -- Shifting left (losing symbols from beginning)
  else
    maxShiftDistance - shiftAttempt / 2 -- Shifting right (losing symbols from end)

/-- "Copy interleaved data and parity, applying shift", and decode. -/
def attemptDecode (rs : RsControl) (padded : List Nat) (i : Nat) : Option (Nat × List Nat) :=
  let data := (List.range 21).map fun k => padded.getD (i + 3 * (k / 2) + k % 2) 0
  let parity := (List.range 10).map fun k => padded.getD (i + 3 * k + 2) 0
  decodeRs8 rs data parity

/-- The attempts still to make, until one succeeds: the attempt, the corrections, the data. -/
def shiftAttempts (rs : RsControl) (padded : List Nat) : List Nat → Option (Nat × Nat × List Nat)
  | [] => none
  | shiftAttempt :: rest =>
    match attemptDecode rs padded (shiftOffset shiftAttempt) with
    | some (corrections, data) => some (shiftAttempt, corrections, data)
    | none => shiftAttempts rs padded rest

/-- `ncrs_decode`: the return code, and what `original_message` holds afterwards. On failure
    the return code is zero and the caller's buffer is untouched. -/
def ncrsDecode (rs : RsControl) (original : Message) (encoded : NcCode) : Nat × Message :=
  match shiftAttempts rs (paddedMessage encoded) (List.range (maxShiftDistance * 2 + 1)) with
  | none => (0, original)
  | some (shiftAttempt, corrections, data) =>
    (1 + shiftAttempt + corrections * 10, ofBytes 14 (unpackBits data))

end Ncrs
end CpeClock
