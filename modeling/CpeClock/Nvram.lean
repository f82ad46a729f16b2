import CpeClock.Hmac433
import CpeClock.Lib.Traced

/-!
# The clock's NVRAM and the world outside the sketch

`hal.h` is the boundary of the clock's own code: reading and writing a byte of NVRAM, the
display, the real-time clock. The clock's functions are programs on the NVRAM whose events are
the calls made across that boundary, in the order in which they are made.
-/

namespace CpeClock

open Lib

/-- The battery-backed bytes, addressed by `uint8_t`. -/
abbrev Nvram := UInt8 → UInt8

/-! ## `nvram.h` -/

namespace Nvram

def checkByte1Value : UInt8 := 0xae
def checkByte2Value : UInt8 := 0xc2

def counter0Addr : UInt8 := 0x00
def counter1Addr : UInt8 := 0x08
def checkByte1Addr : UInt8 := 0x10
def stateAddr : UInt8 := 0x11
def checkByte2Addr : UInt8 := 0x12
def alarmHi : UInt8 := 0x13
def alarmLo : UInt8 := 0x14
def alarmState : UInt8 := 0x15
def nightTimeHi : UInt8 := 0x16
def nightTimeLo : UInt8 := 0x17
def dayTimeHi : UInt8 := 0x18
def dayTimeLo : UInt8 := 0x19

end Nvram

/-! ## Events -/

/-- What the clock does to the world. The call of `new_packet` is recorded as well, with the
    counter that `hmac_message_counter` holds then: it is where a received command is acted on. -/
inductive Event where
  | nvramWrite (addr data : UInt8)
  | displayMessage (msg : String)
  | displayMessageLp (msg : String)
  | clockSet (hour minute second : UInt8)
  | newPacket (hmacMessageCounter : UInt64) (payload : Payload) (rsRc : Nat)
  deriving DecidableEq

/-- Only writes change the NVRAM. -/
instance : Acts Event Nvram where
  act
    | .nvramWrite addr data, nv => Function.update nv addr data
    | _, nv => nv

/-- A function of the sketch, with its static variables passed in and out. -/
abbrev Sketch := Traced Event Nvram

def nvramRead (addr : UInt8) : Sketch UInt8 := Traced.read fun nv => nv addr

def nvramWrite (addr data : UInt8) : Sketch Unit := Traced.emit (.nvramWrite addr data)

def displayMessage (msg : String) : Sketch Unit := Traced.emit (.displayMessage msg)

def displayMessageLp (msg : String) : Sketch Unit := Traced.emit (.displayMessageLp msg)

def clockSet (hour minute second : UInt8) : Sketch Unit :=
  Traced.emit (.clockSet hour minute second)

@[simp]
theorem act_nvramWrite (addr data : UInt8) (nv : Nvram) :
    Acts.act (Event.nvramWrite addr data) nv = Function.update nv addr data := rfl

@[simp]
theorem act_displayMessage (msg : String) (nv : Nvram) :
    Acts.act (Event.displayMessage msg) nv = nv := rfl

@[simp]
theorem act_displayMessageLp (msg : String) (nv : Nvram) :
    Acts.act (Event.displayMessageLp msg) nv = nv := rfl

@[simp]
theorem act_clockSet (hour minute second : UInt8) (nv : Nvram) :
    Acts.act (Event.clockSet hour minute second) nv = nv := rfl

@[simp]
theorem act_newPacket (counter : UInt64) (payload : Payload) (rsRc : Nat) (nv : Nvram) :
    Acts.act (Event.newPacket counter payload rsRc) nv = nv := rfl

/-- An event that writes, if anything, an address of `A`, and is no call of `new_packet`. -/
def Event.WritesIn (A : UInt8 → Prop) : Event → Prop
  | .nvramWrite addr _ => A addr
  | .newPacket .. => False
  | _ => True

theorem Event.WritesIn.act_eq {A : UInt8 → Prop} {e : Event} (h : e.WritesIn A) (nv : Nvram)
    {addr : UInt8} (haddr : ¬ A addr) : Acts.act e nv addr = nv addr := by
  cases e with
  | nvramWrite a d =>
    have hne : addr ≠ a := fun heq => haddr (heq ▸ h)
    rw [act_nvramWrite, Function.update_of_ne hne]
  | displayMessage | displayMessageLp | clockSet | newPacket => rfl

/-- A program that writes only addresses of `A`, and does not call `new_packet`. -/
abbrev WritesIn (A : UInt8 → Prop) (p : Sketch α) : Prop := Traced.Emits (Event.WritesIn A) p

theorem writesIn_displayMessageLp (A : UInt8 → Prop) (msg : String) :
    WritesIn A (displayMessageLp msg) :=
  Traced.emits_emit trivial

theorem writesIn_displayMessage (A : UInt8 → Prop) (msg : String) :
    WritesIn A (displayMessage msg) :=
  Traced.emits_emit trivial

/-- A call of `new_packet`: `hmac_message_counter` at that time, the payload and `rs_rc`. -/
structure Command where
  hmacMessageCounter : UInt64
  payload : Payload
  rsRc : Nat
  deriving DecidableEq

/-- The sender's counter of the packet a command came in: the clock has moved one past it. -/
def Command.senderCounter (c : Command) : UInt64 := c.hmacMessageCounter - 1

def Event.command : Event → Option Command
  | .newPacket counter payload rsRc => some ⟨counter, payload, rsRc⟩
  | _ => none

def commands (es : List Event) : List Command := es.filterMap Event.command

@[simp]
theorem commands_nil : commands [] = [] := rfl

@[simp]
theorem commands_append (es fs : List Event) : commands (es ++ fs) = commands es ++ commands fs :=
  List.filterMap_append

theorem Event.WritesIn.command_eq {A : UInt8 → Prop} {e : Event} (h : e.WritesIn A) :
    e.command = none := by
  cases e with
  | newPacket => exact absurd h id
  | nvramWrite | displayMessage | displayMessageLp | clockSet => rfl

theorem commands_of_writesIn {A : UInt8 → Prop} {es : List Event} (h : ∀ e ∈ es, e.WritesIn A) :
    commands es = [] :=
  List.filterMap_eq_nil_iff.mpr fun e he => (h e he).command_eq

/-! ## `snprintf` -/

/-- What `snprintf` puts in a buffer of `size` bytes. -/
def snprintf (size : Nat) (text : String) : String := String.ofList (text.toList.take (size - 1))

/-- `%0<width>x` or `%0<width>d`: the digits of `n` in a base, padded with zeros. -/
def padDigits (base width n : Nat) : String :=
  let digits := Nat.toDigits base n
  String.ofList (List.replicate (width - digits.length) '0' ++ digits)

end CpeClock
