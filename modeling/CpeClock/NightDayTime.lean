import CpeClock.Alarm

/-!
# `night_day_time.c`
-/

namespace CpeClock

open Lib

/-- The static variables of `night_day_time.c`, in minutes of the day. -/
structure NightDayTime where
  startNightTime : UInt16
  startDayTime : UInt16
  deriving DecidableEq

namespace NightDayTime

open Alarm (minuteOfDay wholeDay loadTime)

def saveToNvram (t : NightDayTime) : Sketch Unit :=
  Traced.emitAll [
    .nvramWrite Nvram.nightTimeHi (t.startNightTime >>> 8).toUInt8,
    .nvramWrite Nvram.nightTimeLo t.startNightTime.toUInt8,
    .nvramWrite Nvram.dayTimeHi (t.startDayTime >>> 8).toUInt8,
    .nvramWrite Nvram.dayTimeLo t.startDayTime.toUInt8]

def nightDayTimeSet (startNightHour startNightMinute startDayHour startDayMinute : UInt8) :
    Sketch NightDayTime := do
  let t : NightDayTime := {
    startNightTime := minuteOfDay startNightHour startNightMinute
    startDayTime := minuteOfDay startDayHour startDayMinute }
  let two (b : UInt8) := padDigits 10 2 b.toNat
  displayMessage (snprintf 16
    s!"{two startNightHour}:{two startNightMinute}..{two startDayHour}:{two startDayMinute}")
  saveToNvram t
  return t

def nightDayTimeTest (t : NightDayTime) (nowHour nowMinute : UInt8) : Bool :=
  let nowTime := minuteOfDay nowHour nowMinute
  if t.startDayTime = t.startNightTime then
    true -- permanent night time
  else if t.startDayTime < t.startNightTime then
    nowTime < t.startDayTime || nowTime ≥ t.startNightTime -- e.g. day at 7am night at 11pm
  else
    nowTime ≥ t.startNightTime && nowTime < t.startDayTime -- e.g. day at 9am night at 1am

def nightDayTimeInit : Sketch NightDayTime := do
  let nightHi ← nvramRead Nvram.nightTimeHi
  let nightLo ← nvramRead Nvram.nightTimeLo
  let dayHi ← nvramRead Nvram.dayTimeHi
  let dayLo ← nvramRead Nvram.dayTimeLo
  let night := loadTime nightHi nightLo
  let day := loadTime dayHi dayLo
  let t : NightDayTime := {
    startNightTime := if night ≥ wholeDay then 0 else night
    startDayTime := if day ≥ wholeDay then 0 else day }
  saveToNvram t
  return t

def Owns (addr : UInt8) : Prop :=
  addr = Nvram.nightTimeHi ∨ addr = Nvram.nightTimeLo ∨ addr = Nvram.dayTimeHi
    ∨ addr = Nvram.dayTimeLo

instance (addr : UInt8) : Decidable (Owns addr) := by unfold Owns; infer_instance

theorem writesIn_saveToNvram (t : NightDayTime) : WritesIn Owns (saveToNvram t) := by
  refine Traced.emits_emitAll fun e he => ?_
  simp only [List.mem_cons, List.not_mem_nil, or_false] at he
  rcases he with rfl | rfl | rfl | rfl
  · exact .inl rfl
  · exact .inr (.inl rfl)
  · exact .inr (.inr (.inl rfl))
  · exact .inr (.inr (.inr rfl))

theorem writesIn_nightDayTimeSet (nh nm dh dm : UInt8) :
    WritesIn Owns (nightDayTimeSet nh nm dh dm) :=
  Traced.emits_bind (writesIn_displayMessage _ _) fun _ =>
    Traced.emits_bind (writesIn_saveToNvram _) fun _ => Traced.emits_pure _

theorem writesIn_nightDayTimeInit : WritesIn Owns nightDayTimeInit :=
  Traced.emits_read_bind fun _ => Traced.emits_read_bind fun _ => Traced.emits_read_bind fun _ =>
    Traced.emits_read_bind fun _ => Traced.emits_bind (writesIn_saveToNvram _) fun _ =>
      Traced.emits_pure _

end NightDayTime
end CpeClock
