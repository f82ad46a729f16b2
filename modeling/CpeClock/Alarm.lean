import CpeClock.Nvram

/-!
# `alarm.c`

The module's two static variables are an `Alarm`, passed in and out. Each function saves to NVRAM
at the places the source does, so what a reboot finds is what these programs wrote.
-/

namespace CpeClock

open Lib

/-- `alarm_state_t`. Its values are what is kept in NVRAM; a byte from `ALARM_INVALID_STATE` on is
    none of them. -/
inductive AlarmState where
  | disabled
  | enabled
  | active
  | reset
  deriving DecidableEq

namespace AlarmState

def toByte : AlarmState → UInt8
  | disabled => 0
  | enabled => 1
  | active => 2
  | reset => 3

/-- `ALARM_INVALID_STATE`. -/
def invalidState : UInt8 := 4

/-- The state `alarm_init` makes of a byte. -/
def ofByte (b : UInt8) : AlarmState :=
  if b ≥ invalidState then disabled
  else if b = 3 then reset
  else if b = 2 then active
  else if b = 1 then enabled
  else disabled

@[simp]
theorem ofByte_toByte (s : AlarmState) : ofByte s.toByte = s := by cases s <;> rfl

end AlarmState

/-- The static variables of `alarm.c`. -/
structure Alarm where
  /-- In minutes. Midnight = 0, midday = 720, 11pm = 1380. -/
  alarmTime : UInt16
  alarmState : AlarmState
  deriving DecidableEq

namespace Alarm

def wholeDay : UInt16 := 24 * 60

/-- `ALARM_SOUNDS_FOR`, in minutes. -/
def alarmSoundsFor : Nat := 10

/-- `(hour * 60) + minute`, as stored in a `uint16_t`. -/
def minuteOfDay (hour minute : UInt8) : UInt16 := hour.toUInt16 * 60 + minute.toUInt16

def saveToNvram (a : Alarm) : Sketch Unit :=
  Traced.emitAll [
    .nvramWrite Nvram.alarmHi (a.alarmTime >>> 8).toUInt8,
    .nvramWrite Nvram.alarmLo a.alarmTime.toUInt8,
    .nvramWrite Nvram.alarmState a.alarmState.toByte]

/-- `alarm_set`, with the static variables afterwards. -/
def alarmSet (a : Alarm) (hour minute : UInt8) : Sketch (Bool × Alarm) := do
  let a' : Alarm := { alarmTime := minuteOfDay hour minute, alarmState := .reset }
  displayMessage (snprintf 16 s!"ALARM {padDigits 10 2 hour.toNat}:{padDigits 10 2 minute.toNat}")
  saveToNvram a'
  return (a.alarmState != a'.alarmState, a')

def alarmUnset (a : Alarm) : Sketch (Bool × Alarm) := do
  displayMessage "ALARM OFF"
  let a' := { a with alarmState := .disabled }
  saveToNvram a'
  return (a.alarmState != a'.alarmState, a')

def alarmGet (a : Alarm) : UInt8 × UInt8 := ((a.alarmTime / 60).toUInt8, (a.alarmTime % 60).toUInt8)

def alarmReset (a : Alarm) : Sketch (Bool × Alarm) :=
  alarmSet a a.alarmGet.1 a.alarmGet.2

/-- The loop of `alarm_update`, with so many rounds left: `i` when `test_time` meets the time. -/
def activeRegion (nowTime : UInt16) (i : Nat) (testTime : UInt16) : Nat → Nat
  | 0 => 0
  | rounds + 1 =>
    let testTime := if testTime ≥ wholeDay then 0 else testTime
    if testTime = nowTime then i else activeRegion nowTime (i + 1) (testTime + 1) rounds

def alarmUpdate (a : Alarm) (nowHour nowMinute : UInt8) : Sketch (Nat × Alarm) :=
  let inActiveRegion := activeRegion (minuteOfDay nowHour nowMinute) 1 a.alarmTime alarmSoundsFor
  match a.alarmState with
  | .active =>
    -- alarm already sounding
    if inActiveRegion = 0 then do
      -- stop - timeout
      let a' := { a with alarmState := .disabled }
      saveToNvram a'
      return (0, a')
    else
      return (inActiveRegion, a)
  | .enabled =>
    if inActiveRegion ≠ 0 then do
      -- alarm begins to sound
      let a' := { a with alarmState := .active }
      saveToNvram a'
      return (inActiveRegion, a')
    else
      return (0, a)
  | .reset =>
    -- not enabled until after it has left the active region
    if inActiveRegion = 0 then do
      let a' := { a with alarmState := .enabled }
      saveToNvram a'
      return (0, a')
    else
      return (0, a)
  | .disabled => return (0, a)

/-- The time `alarm_init` makes of the two bytes. -/
def loadTime (hi lo : UInt8) : UInt16 := (hi.toUInt16 <<< 8) ||| lo.toUInt16

def alarmInit : Sketch Alarm := do
  let hi ← nvramRead Nvram.alarmHi
  let lo ← nvramRead Nvram.alarmLo
  let state ← nvramRead Nvram.alarmState
  let time := loadTime hi lo
  let a : Alarm := {
    alarmTime := if time ≥ wholeDay then 0 else time
    alarmState := AlarmState.ofByte state }
  saveToNvram a
  return a

/-! ## What the functions write -/

def Owns (addr : UInt8) : Prop :=
  addr = Nvram.alarmHi ∨ addr = Nvram.alarmLo ∨ addr = Nvram.alarmState

instance (addr : UInt8) : Decidable (Owns addr) := by unfold Owns; infer_instance

theorem writesIn_saveToNvram (a : Alarm) : WritesIn Owns (saveToNvram a) := by
  refine Traced.emits_emitAll fun e he => ?_
  simp only [List.mem_cons, List.not_mem_nil, or_false] at he
  rcases he with rfl | rfl | rfl
  · exact .inl rfl
  · exact .inr (.inl rfl)
  · exact .inr (.inr rfl)

theorem writesIn_alarmSet (a : Alarm) (hour minute : UInt8) :
    WritesIn Owns (alarmSet a hour minute) :=
  Traced.emits_bind (writesIn_displayMessage _ _) fun _ =>
    Traced.emits_bind (writesIn_saveToNvram _) fun _ => Traced.emits_pure _

theorem writesIn_alarmUnset (a : Alarm) : WritesIn Owns (alarmUnset a) :=
  Traced.emits_bind (writesIn_displayMessage _ _) fun _ =>
    Traced.emits_bind (writesIn_saveToNvram _) fun _ => Traced.emits_pure _

theorem writesIn_alarmUpdate (a : Alarm) (hour minute : UInt8) :
    WritesIn Owns (alarmUpdate a hour minute) := by
  have hsave : ∀ (a' : Alarm) (r : Nat × Alarm),
      WritesIn Owns (saveToNvram a' >>= fun _ => (pure r : Sketch (Nat × Alarm))) :=
    fun a' r => Traced.emits_bind (writesIn_saveToNvram a') fun _ => Traced.emits_pure r
  unfold alarmUpdate
  cases a.alarmState with
  | active => exact Traced.emits_ite (hsave _ _) (Traced.emits_pure _)
  | enabled => exact Traced.emits_ite (hsave _ _) (Traced.emits_pure _)
  | reset => exact Traced.emits_ite (hsave _ _) (Traced.emits_pure _)
  | disabled => exact Traced.emits_pure _

theorem writesIn_alarmInit : WritesIn Owns alarmInit :=
  Traced.emits_read_bind fun _ => Traced.emits_read_bind fun _ => Traced.emits_read_bind fun _ =>
    Traced.emits_bind (writesIn_saveToNvram _) fun _ => Traced.emits_pure _

end Alarm
end CpeClock
