import Mathlib.Algebra.Order.Field.Rat
import Mathlib.Data.Int.Bitwise
import Mathlib.Data.List.Infix

/-!
# `home_easy.py` — the server that owns the transmitter

`Server433` takes datagrams and sends the commands in them one at a time. Its two handlers are
functions here, from the attributes of the server to the attributes and the calls it made; the
readings of the clock and whether `device_send` raises are inputs. Times are exact, where the
source has floating point.
-/

namespace CpeClock

/-- A Python `str`. -/
abbrev Text := List Char

/-! ## Numbers in text -/

namespace Text

/-- `Py_ISSPACE`. -/
def isSpace (c : Char) : Bool := c ∈ [' ', '\t', '\n', '\x0b', '\x0c', '\r']

/-- The characters `str.split` splits at, as far as ASCII goes. -/
def isSeparator (c : Char) : Bool := isSpace c || ('\x1c' ≤ c && c ≤ '\x1f')

/-- `str.split()`. -/
def split (text : Text) : List Text := (text.splitOnP isSeparator).filter (· ≠ [])

/-- The value of a hexadecimal digit. -/
def hexDigit (c : Char) : Option Nat :=
  if '0' ≤ c ∧ c ≤ '9' then some (c.toNat - '0'.toNat)
  else if 'a' ≤ c ∧ c ≤ 'f' then some (c.toNat - 'a'.toNat + 10)
  else if 'A' ≤ c ∧ c ≤ 'F' then some (c.toNat - 'A'.toNat + 10)
  else none

/-- Digits with single underscores between them. -/
def hexDigits (text : Text) : Option Nat :=
  if text = [] ∨ text.head? = some '_' ∨ text.getLast? = some '_' ∨ ['_', '_'] <:+: text then none
  else some ((text.filterMap hexDigit).foldl (fun n d => n * 16 + d) 0)

/-- `int(text, 16)`, or `none` where it raises `ValueError`. -/
def int16 (text : Text) : Option Int :=
  let text := text.dropWhile isSpace
  let negative := text.head? = some '-'
  let text := if text.head? = some '-' ∨ text.head? = some '+' then text.tail else text
  let isPrefixed := ['0', 'x'] <+: text ∨ ['0', 'X'] <+: text
  let text := if isPrefixed then text.drop 2 else text
  -- one underscore is allowed here
  let text := if isPrefixed ∧ text.head? = some '_' then text.tail else text
  let isDigit (c : Char) : Bool := (hexDigit c).isSome || c = '_'
  if (text.dropWhile isDigit).all isSpace then
    (hexDigits (text.takeWhile isDigit)).map fun (n : Nat) => if negative then -(n : Int) else n
  else none

example : int16 "0x_f1\n".toList = some 0xf1 := by decide +kernel

/-- `bytes.decode("ascii")`, or `none` where it raises. -/
def decodeAscii (bytes : List UInt8) : Option Text :=
  if bytes.all (· < 128) then some (bytes.map fun b => Char.ofNat b.toNat) else none

end Text

/-! ## Commands -/

/-- `NCData` and `HEData`. -/
inductive AbstractData where
  | ncData (msg : List UInt8)
  | heData (number : Nat)
  deriving DecidableEq

/-- The settings of `main`, at module level. -/
structure Settings where
  repeaterAddress : Text
  repeaterPort : Nat
  hueAddress : Text
  huePort : Nat
  timerAddress : Text
  timerPort : Nat

/-- A call the server makes. -/
inductive Call433 where
  /-- `data.device_send(self.driver)`, at the reading of the clock that allowed it. -/
  | deviceSend (t : ℚ) (data : AbstractData)
  /-- `reactor.callLater(delay, self.send_next)`. -/
  | sendNextLater (delay : ℚ)
  /-- `reactor.callLater(REPEATER_DELAY, data.network_send, ...)`. -/
  | networkSendLater (delay : ℚ) (data : AbstractData) (address : Text) (port : Nat)
  | sendto (text : Text) (address : Text) (port : Nat)
  deriving DecidableEq

/-- What a handler meets: the two readings of the clock, and whether `device_send` raises. -/
structure Moment where
  time : ℚ
  raises : Bool
  timeAfter : ℚ

/-- The attributes of the server. The light data are names with the texts of their codes. -/
structure Server433 where
  allowSendAt : ℚ
  sendQueue : List AbstractData
  nameToLightDataMap : List (Text × Text)

namespace Server433

def sendInterval : ℚ := 5 / 2

def repeaterDelay : ℚ := 0

def ncDataSize : Nat := 31

def ncHeaderSize : Nat := 2

def noTimer : Text := "notimer ".toList

def init (lights : List (Text × Text)) : Server433 where
  allowSendAt := 0
  sendQueue := []
  nameToLightDataMap := lights

/-- `get_name`. The dictionary it looks in was filled in the order of the light data. -/
def getName (s : Server433) (code : Nat) : Text × Bool :=
  let onFlag := code &&& 0x10 ≠ 0
  let code := if onFlag then code ^^^ 0x10 else code
  let light := s.nameToLightDataMap.reverse.find? fun light =>
    Text.int16 light.2 = some (code : Int)
  ((light.map Prod.fst).getD [], onFlag)

/-- `get_code`, or `none` where it raises. -/
def getCode (s : Server433) (name : Text) (onFlag : Bool) : Option Int :=
  match s.nameToLightDataMap.lookup name with
  | none => some (-1) -- No light with this name
  | some code => (Text.int16 code).map fun code => if onFlag then Int.lor code 0x10 else code

def decodeNamedAction (s : Server433) (text : Text) : Option AbstractData :=
  match text.split with
  | [name, action] =>
    let on := action = "on".toList
    let off := action = "off".toList
    if ¬ (on ∨ off) then none
    else
      let c1 := (s.getCode name on).getD (-1)
      if c1 < 0 then none else some (.heData c1.toNat)
  | _ => none

def encodeNamedAction (s : Server433) : AbstractData → Text
  | .heData number =>
    let (name, onFlag) := s.getName number
    if name = [] then [] else name ++ (if onFlag then " on" else " off").toList
  | .ncData _ => []

/-- The first part of `datagramReceived`: the command, if there is one, and
    `send_to_timer_service`. -/
def decodeDatagram (s : Server433) (dataBytes : List UInt8) : Option AbstractData × Bool :=
  if dataBytes.length = ncDataSize + ncHeaderSize ∧ ['N'.toUInt8, 'C'.toUInt8] <+: dataBytes then
    (some (.ncData dataBytes), false)
  else
    let dataText := (Text.decodeAscii (dataBytes.take 32)).getD []
    let isNoTimer := noTimer <+: dataText
    let dataText := if isNoTimer then dataText.drop noTimer.length else dataText
    let number := (Text.int16 dataText).getD 0
    if 0 < number ∧ number < 2 ^ 32 then (some (.heData number.toNat), !isNoTimer)
    else (s.decodeNamedAction dataText, !isNoTimer)

section

variable (settings : Settings)

/-- The part of `send_next` that sends to the repeater, if any. -/
def repeats (data : AbstractData) : List Call433 :=
  if settings.repeaterAddress ≠ [] ∧ settings.repeaterPort ≠ 0 then
    [.networkSendLater repeaterDelay data settings.repeaterAddress settings.repeaterPort]
  else []

/-- `send_next`: the attributes afterwards, the calls made, and whether it raised. -/
def sendNext (m : Moment) (s : Server433) : Server433 × List Call433 × Bool :=
  match s.sendQueue with
  | [] => (s, [], false) -- nothing to send
  | data :: rest =>
    if m.time ≥ s.allowSendAt then
      -- can send one item
      let s := { s with sendQueue := rest, allowSendAt := m.time + sendInterval }
      if m.raises then (s, [.deviceSend m.time data], true)
      else
        let calls := .deviceSend m.time data :: repeats settings data
        if rest = [] then (s, calls, false) -- done sending now
        else
          (s, calls ++ [.sendNextLater (1 / 20 + max 0 (s.allowSendAt - m.timeAfter))], false)
    else
      -- reschedule: not ready to send yet
      (s, [.sendNextLater (1 / 20 + max 0 (s.allowSendAt - m.time))], false)

/-- The last part of `datagramReceived`: the command in text form goes to the other services. A
    name that is not ASCII raises instead. -/
def copies (s : Server433) (data : AbstractData) (sendToTimerService : Bool) : List Call433 :=
  let text := s.encodeNamedAction data
  if text ≠ [] ∧ text.all (fun c => c.toNat < 128) then
    (if settings.hueAddress ≠ [] ∧ settings.huePort ≠ 0 then
      [.sendto text settings.hueAddress settings.huePort] else [])
    ++ (if sendToTimerService ∧ settings.timerAddress ≠ [] ∧ settings.timerPort ≠ 0 then
      [.sendto text settings.timerAddress settings.timerPort] else [])
  else []

def datagramReceived (dataBytes : List UInt8) (m : Moment) (s : Server433) :
    Server433 × List Call433 :=
  match s.decodeDatagram dataBytes with
  | (none, _) => (s, [])
  | (some data, sendToTimerService) =>
    -- Enqueue for device
    let s := { s with sendQueue := s.sendQueue ++ [data] }
    if s.sendQueue.length = 1 then
      let (s, calls, raised) := s.sendNext settings m
      (s, if raised then calls else calls ++ s.copies settings data sendToTimerService)
    else (s, s.copies settings data sendToTimerService)

end

end Server433
end CpeClock
