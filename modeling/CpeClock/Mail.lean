import CpeClock.Ncrs
import CpeClock.NightDayTime

/-!
# `mail.c` — receiving messages

The static variables of `mail.c`, `alarm.c` and `night_day_time.c` are a `Clock`; the variables the
interrupt handler publishes are a `Mailbox`. The secret of `secret.h`, the hash and the codec's
control structure are parameters.
-/

namespace CpeClock

open Lib Hmac433

/-! ## Packets as bytes -/

/-- A packet read from the 14 bytes of `hmac433_packet_t`, which has no padding. -/
def Packet.ofBytes (msg : Message) : Packet where
  payload := Vector.ofFn fun i => msg.toList.getD i 0
  counterLow := msg.toList.getD 6 0
  hmac := Vector.ofFn fun i => msg.toList.getD (7 + i) 0
  counterResyncFlag := msg.toList.getD 13 0

def Packet.toBytes (p : Packet) : Message where
  toArray :=
    (p.payload.toList ++ p.counterLow :: (p.hmac.toList ++ [p.counterResyncFlag])).toArray
  size_toArray := by simp

/-- A static `hmac433_packet_t` before anything is stored in it. -/
def Packet.zero : Packet where
  payload := Vector.replicate 6 0
  counterLow := 0
  hmac := Vector.replicate 6 0
  counterResyncFlag := 0

@[simp]
theorem Packet.ofBytes_toBytes (p : Packet) : Packet.ofBytes p.toBytes = p := by
  have hpayload : (Packet.ofBytes p.toBytes).payload = p.payload := by
    apply Vector.ext
    intro i hi
    simp [Packet.ofBytes, Packet.toBytes, List.getElem?_append]
  have hhmac : (Packet.ofBytes p.toBytes).hmac = p.hmac := by
    apply Vector.ext
    intro i hi
    have hge : ¬ 7 + i < 6 := by omega
    have hidx : 7 + i - 6 = i + 1 := by omega
    simp [Packet.ofBytes, Packet.toBytes, List.getElem?_append, hge, hidx, hi]
  have hlow : (Packet.ofBytes p.toBytes).counterLow = p.counterLow := by
    simp [Packet.ofBytes, Packet.toBytes]
  have hflag : (Packet.ofBytes p.toBytes).counterResyncFlag = p.counterResyncFlag := by
    simp [Packet.ofBytes, Packet.toBytes]
  exact Packet.ext hpayload hlow hhmac hflag

/-! ## State -/

/-- The static variables of the clock's modules. -/
structure Clock where
  hmacMessageCounter : UInt64
  previousPacket : Packet
  alarm : Alarm
  nightDayTime : NightDayTime
  deriving DecidableEq

/-- `rx433_home_easy`, `rx433_new_code` and `rx433_new_code_ready`. -/
structure Mailbox where
  homeEasy : UInt32
  newCode : NcCode
  newCodeReady : Bool
  deriving DecidableEq

def Mailbox.emptied (mailbox : Mailbox) : Mailbox :=
  { mailbox with homeEasy := 0, newCodeReady := false }

namespace Mail

/-! ## The counter in NVRAM -/

/-- Eight bytes of memory as a `uint64_t`, least significant first. -/
def counterOfData (bytes : List UInt8) : UInt64 :=
  UInt64.ofNat (bytes.foldr (fun b n => b.toNat + 256 * n) 0)

def counterAddr (state : UInt8) : UInt8 :=
  if state &&& 1 ≠ 0 then Nvram.counter1Addr else Nvram.counter0Addr

def saveCounter (hmacMessageCounter : UInt64) : Sketch Unit := do
  -- Which counter is currently valid? Save in the other one
  let state ← nvramRead Nvram.stateAddr
  let newState := state ^^^ 1
  Traced.emitAll ((List.range 8).map fun i =>
    .nvramWrite (i.toUInt8 + counterAddr newState) ((counterData hmacMessageCounter).getD i 0))
  -- The newly-written counter is now the valid one
  nvramWrite Nvram.stateAddr newState

def slotData (addr : UInt8) (nv : Nvram) : List UInt8 :=
  (List.range 8).map fun i => nv (i.toUInt8 + addr)

/-- The branch of `mail_init` taken when "nvram is garbage - reformat". -/
def reformat : Sketch (Option UInt64) := do
  nvramWrite Nvram.checkByte1Addr Nvram.checkByte1Value
  nvramWrite Nvram.checkByte2Addr Nvram.checkByte2Value
  nvramWrite Nvram.stateAddr 0
  -- check this worked
  let check1 ← nvramRead Nvram.checkByte1Addr
  let check2 ← nvramRead Nvram.checkByte2Addr
  if check1 = Nvram.checkByte1Value ∧ check2 = Nvram.checkByte2Value then do
    saveCounter 1
    displayMessage "NVRAM INIT"
    return some 1
  else do
    displayMessage "NVRAM FAIL"
    return none

/-- The other branch of `mail_init`: "load counter". -/
def loadCounter (state : UInt8) : Sketch (Option UInt64) := do
  let data ← Traced.read (slotData (counterAddr state))
  return some (counterOfData data)

/-- `mail_init`: the counter it leaves in `hmac_message_counter`, or `none` where it returns zero.
    The test of `DECODED_DATA_BYTES` against the packet's size is settled by the types. -/
def mailInit : Sketch (Option UInt64) := do
  let state ← nvramRead Nvram.stateAddr
  let check1 ← nvramRead Nvram.checkByte1Addr
  let check2 ← nvramRead Nvram.checkByte2Addr
  if check1 ≠ Nvram.checkByte1Value ∨ check2 ≠ Nvram.checkByte2Value ∨ state > 1 then
    reformat
  else
    loadCounter state

/-! ## Acting on a message -/

/-- The text of a buffer of `char`, up to the first NUL. -/
def cString (bytes : List UInt8) : String :=
  String.ofList ((bytes.takeWhile (· ≠ 0)).map fun b => Char.ofNat b.toNat)

def newHomeEasyMessage (msg : UInt32) : Sketch Unit :=
  displayMessageLp (snprintf 16 s!"HE {padDigits 16 8 msg.toNat}")

def showMessage (payload : Payload) : Sketch Unit :=
  displayMessage (cString (payload.toList.drop 1))

def showCounter (counterCopy : UInt64) (rsRc : Nat) : Sketch Unit :=
  let word (shift : Nat) := padDigits 16 4 (counterCopy.toNat / 2 ^ shift % 65536)
  displayMessage (snprintf 64 s!"{word 48}-{word 32}-{word 16}-{word 0} RS {rsRc}")

/-- The `switch` of `new_packet`. -/
def performCommand (clock : Clock) (payload : Payload) (rsRc : Nat) : Sketch Clock :=
  if payload.get 0 = 'M'.toUInt8 then do
    -- message for the screen
    showMessage payload
    return clock
  else if payload.get 0 = 'C'.toUInt8 then do
    -- show counter
    showCounter clock.hmacMessageCounter rsRc
    return clock
  else if payload.get 0 = 'T'.toUInt8 then do
    -- set time
    clockSet (payload.get 1) (payload.get 2) (payload.get 3)
    return clock
  else if payload.get 0 = 'A'.toUInt8 then do
    -- set alarm
    let (_, alarm) ← Alarm.alarmSet clock.alarm (payload.get 1) (payload.get 2)
    return { clock with alarm := alarm }
  else if payload.get 0 = 'N'.toUInt8 then do
    -- set night and day time
    let nightDayTime ←
      NightDayTime.nightDayTimeSet (payload.get 1) (payload.get 2) (payload.get 3) (payload.get 4)
    return { clock with nightDayTime := nightDayTime }
  else if payload.get 0 = 'a'.toUInt8 then do
    -- unset alarm, and cancel if it's active
    let (_, alarm) ← Alarm.alarmUnset clock.alarm
    return { clock with alarm := alarm }
  else do
    displayMessage "ACTION ERROR"
    return clock

/-- `new_packet`, with the static variables afterwards. -/
def newPacket (clock : Clock) (payload : Payload) (rsRc : Nat) : Sketch Clock := do
  Traced.emit (.newPacket clock.hmacMessageCounter payload rsRc)
  performCommand clock payload rsRc

/-! ## Receiving -/

/-- "Process Home Easy message", if one was copied. -/
def receiveHomeEasy (mailbox : Mailbox) : Sketch Unit :=
  if mailbox.homeEasy ≠ 0 then newHomeEasyMessage mailbox.homeEasy else return ()

section

variable (hash : Hash) (secretData : List UInt8) (rs : Rs.RsControl)

/-- What becomes of a packet that was authenticated: its new counter is saved, and only then is it
    acted on. -/
def acceptPacket (clock : Clock) (packet : Packet) (counter : UInt64) (rsRc : Nat) :
    Sketch Clock := do
  let clock := { clock with hmacMessageCounter := counter }
  -- update HMAC counter in NVRAM
  saveCounter counter
  if packet.counterResyncFlag ≠ 0 then do
    -- There is no payload - we just update the counter
    displayMessageLp "COUNTER\nRESYNCHED"
    return clock
  else
    newPacket clock packet.payload rsRc

/-- `mail_receive_messages` once a packet has been decoded. -/
def receivePacket (clock : Clock) (packet : Packet) (rsRc : Nat) : Sketch Clock :=
  -- Same as last code? Quickly reject a rebroadcast
  if clock.previousPacket = packet then
    return clock
  else
    let clock := { clock with previousPacket := packet }
    match hmac433Authenticate hash secretData packet clock.hmacMessageCounter with
    | none => do
      displayMessageLp "HMAC ERROR"
      return clock
    | some counter => acceptPacket clock packet counter rsRc

/-- The packet a code holds, with `ncrs_decode`'s return code, if it can be decoded. On failure
    the buffer is not looked at. -/
def decodePacket (code : NcCode) : Option (Packet × Nat) :=
  let (rsRc, msg) := Ncrs.ncrsDecode rs (Vector.replicate 14 0) code
  if rsRc = 0 then none else some (Packet.ofBytes msg, rsRc)

/-- `mail_receive_messages` once a new code has been copied. -/
def receiveCode (clock : Clock) (code : NcCode) : Sketch Clock :=
  match decodePacket rs code with
  | none => return clock
  | some (packet, rsRc) => receivePacket hash secretData clock packet rsRc

/-- "Process new code", if one was copied. -/
def receiveNewCode (clock : Clock) (mailbox : Mailbox) : Sketch Clock :=
  if mailbox.newCodeReady then receiveCode hash secretData rs clock mailbox.newCode
  else return clock

/-- `mail_receive_messages`: the static variables afterwards, and the mailbox emptied. -/
def mailReceiveMessages (clock : Clock) (mailbox : Mailbox) : Sketch (Clock × Mailbox) := do
  receiveHomeEasy mailbox
  let clock ← receiveNewCode hash secretData rs clock mailbox
  return (clock, mailbox.emptied)

end

/-- `alarm_init` and `night_day_time_init`, once `mail_init` has left a counter. -/
def startModules (counter : UInt64) : Sketch (Option Clock) := do
  let alarm ← Alarm.alarmInit
  let nightDayTime ← NightDayTime.nightDayTimeInit
  return some {
    hmacMessageCounter := counter
    previousPacket := Packet.zero
    alarm := alarm
    nightDayTime := nightDayTime }

/-- The part of the sketch's `setup` that brings the static variables up, after power came back. -/
def setup : Sketch (Option Clock) := do
  match ← mailInit with
  | none => return none
  | some counter => startModules counter

end Mail
end CpeClock
