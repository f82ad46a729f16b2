import CpeClock.Lib.Simulation
import CpeClock.SettingsCut
import CpeClock.WindowReceiver

/-!
# The settings over whole histories

What the clock is set to is a timetable: when the alarm rings and in which state it is, and when it
is night. A timetable has no store, no bytes and no restarts; commands and buttons change it, and
each update asks it whether the alarm rings.

The clock is that timetable (`turns_timetable`): it executes commands that it hears among anything
else, saves what it is set to byte by byte, and loads it again when it is restarted, which cannot be
noticed. `Shows` is what each turn keeps, and says of the RAM and of the NVRAM that they stand for
the same timetable.

That is for times of day; what becomes of other bytes is the subject of `UncheckedTimes`. Of the
alarm alone it holds whatever the rest is set to (`Sounds`). So an alarm that was set by a message
rings once, the next time its ten minutes come round (`alarm_rings_once`).
-/

namespace CpeClock

open Lib Alarm Mail Hmac433

/-! ## Timetables -/

/-- A payload has bytes. -/
theorem Payload.neZero_size : NeZero 6 := ⟨by decide⟩

attribute [local instance] Payload.neZero_size

/-- What a clock is set to, in minutes of the day. -/
structure Timetable where
  alarm : Nat
  state : AlarmState
  night : Nat
  day : Nat
  deriving DecidableEq

namespace Timetable

/-- What a timetable is told. -/
inductive Input where
  | command (payload : Payload)
  | update (hour minute : UInt8)
  | reset
  | unset
  deriving DecidableEq

def minuteOf (hour minute : UInt8) : Nat := 60 * hour.toNat + minute.toNat

/-- What a command sets. -/
def command (t : Timetable) (payload : Payload) : Timetable :=
  if payload.get 0 = 'A'.toUInt8 then
    { t with alarm := minuteOf (payload.get 1) (payload.get 2), state := .reset }
  else if payload.get 0 = 'N'.toUInt8 then
    { t with
      night := minuteOf (payload.get 1) (payload.get 2)
      day := minuteOf (payload.get 3) (payload.get 4) }
  else if payload.get 0 = 'a'.toUInt8 then
    { t with state := .disabled }
  else t

/-- One input, and whether the alarm rings where it is asked. -/
def step : Input → Timetable → Timetable × List Nat
  | .command payload, t => (t.command payload, [])
  | .update hour minute, t =>
    let (result, state) := ring t.state (windowMinute t.alarm (minuteOf hour minute))
    ({ t with state := state }, [result])
  | .reset, t => ({ t with state := .reset }, [])
  | .unset, t => ({ t with state := .disabled }, [])

/-- The minutes from one time of day to the next time that it is another. -/
def minutesUntil (start now : Nat) : Nat := (now + 1440 - start) % 1440

/-- It is night from the one time until the other; from one time until the same it is night all
    day. -/
def IsNight (t : Timetable) (now : Nat) : Prop :=
  t.day = t.night ∨ minutesUntil t.night now < minutesUntil t.night t.day

instance (t : Timetable) (now : Nat) : Decidable (t.IsNight now) :=
  inferInstanceAs (Decidable (_ ∨ _))

end Timetable

/-- A command sets nothing but times of day. -/
def Timetable.Input.InRange : Timetable.Input → Prop
  | .command payload =>
    (payload.get 0 = 'A'.toUInt8 → payload.get 1 < 24 ∧ payload.get 2 < 60) ∧
      (payload.get 0 = 'N'.toUInt8 → (payload.get 1 < 24 ∧ payload.get 2 < 60) ∧
        payload.get 3 < 24 ∧ payload.get 4 < 60)
  | _ => True

instance : ∀ input : Timetable.Input, Decidable input.InRange
  | .command _ => inferInstanceAs (Decidable (_ ∧ _))
  | .update .. | .reset | .unset => .isTrue trivial

/-- Neither the time nor the state of the alarm is set. -/
def Timetable.Input.KeepsAlarm : Timetable.Input → Prop
  | .command payload => payload.get 0 ≠ 'A'.toUInt8 ∧ payload.get 0 ≠ 'a'.toUInt8
  | .update .. => True
  | .reset | .unset => False

instance : ∀ input : Timetable.Input, Decidable input.KeepsAlarm
  | .command _ => inferInstanceAs (Decidable (_ ∧ _))
  | .update .. => .isTrue trivial
  | .reset | .unset => .isFalse id

def Timetable.Input.updateTime? : Timetable.Input → Option Nat
  | .update hour minute => some (Timetable.minuteOf hour minute)
  | _ => none

/-- A timetable whose alarm is kept is the machine of its alarm. -/
theorem Timetable.run_keepsAlarm {told : List Timetable.Input}
    (hkeeps : ∀ input ∈ told, input.KeepsAlarm) (t : Timetable) :
    (Mealy.run Timetable.step told t).2.flatten
      = runRing t.state ((told.filterMap Input.updateTime?).map (windowMinute t.alarm)) := by
  induction told generalizing t with
  | nil => rfl
  | cons input told ih =>
    have hlater := ih fun input hinput => hkeeps input (List.mem_cons_of_mem _ hinput)
    have hfirst := hkeeps input List.mem_cons_self
    rw [Mealy.run_cons, List.flatten_cons]
    cases input with
    | command payload =>
      obtain ⟨hA, ha⟩ := hfirst
      have hsame : (t.command payload).state = t.state ∧
          (t.command payload).alarm = t.alarm := by
        unfold Timetable.command
        rw [if_neg hA, if_neg ha]
        split <;> exact ⟨rfl, rfl⟩
      show [] ++ (Mealy.run Timetable.step told (t.command payload)).2.flatten = _
      rw [hlater, hsame.1, hsame.2]
      rfl
    | update hour minute =>
      show [_] ++ (Mealy.run Timetable.step told _).2.flatten = _
      rw [hlater]
      rfl
    | reset => exact absurd hfirst id
    | unset => exact absurd hfirst id

/-! ## The settings of a clock -/

namespace SavedSettings

def timetable (s : SavedSettings) : Timetable where
  alarm := s.alarm.alarmTime.toNat
  state := s.alarm.alarmState
  night := s.nightDayTime.startNightTime.toNat
  day := s.nightDayTime.startDayTime.toNat

theorem timeInForce_eq {s : SavedSettings} (hs : InRange s) :
    s.alarm.timeInForce = s.timetable.alarm := by
  have hbelow := hs.alarm
  unfold timeInForce
  rw [if_neg (by rw [wholeDay_le_iff]; omega)]
  rfl

/-- `night_day_time_test` is the timetable's night. -/
theorem isNight_iff {s : SavedSettings} (hs : InRange s) {hour minute : UInt8}
    (hnow : hour < 24 ∧ minute < 60) :
    s.nightDayTime.nightDayTimeTest hour minute = true
      ↔ s.timetable.IsNight (Timetable.minuteOf hour minute) := by
  have hminute := minuteOfDay_lt hnow
  have hnight := hs.night
  have hday := hs.day
  unfold NightDayTime.nightDayTimeTest Timetable.IsNight Timetable.minutesUntil
  dsimp only [timetable, Timetable.minuteOf]
  rw [← minuteOfDay_toNat]
  generalize minuteOfDay hour minute = now at hminute ⊢
  simp only [← UInt16.toNat_inj, UInt16.lt_iff_toNat_lt, ge_iff_le, UInt16.le_iff_toNat_le]
  split
  · simp [*]
  · split
    · simp only [Bool.or_eq_true, decide_eq_true_eq]
      omega
    · simp only [Bool.and_eq_true, decide_eq_true_eq]
      omega

end SavedSettings

/-! ## What a clock shows of its settings -/

/-- The clock's functions answer as the timetable says. -/
structure Clock.Follows (clock : Clock) (t : Timetable) : Prop where
  alarmGet : clock.alarm.alarmGet = ((t.alarm / 60).toUInt8, (t.alarm % 60).toUInt8)
  alarmState : clock.alarm.alarmState = t.state
  nightDayTimeTest : ∀ hour minute : UInt8, hour < 24 ∧ minute < 60 →
    (clock.nightDayTime.nightDayTimeTest hour minute = true
      ↔ t.IsNight (Timetable.minuteOf hour minute))

def Clock.settings (clock : Clock) : SavedSettings := ⟨clock.alarm, clock.nightDayTime⟩

theorem Clock.follows_settings {clock : Clock} (hs : clock.settings.InRange) :
    clock.Follows clock.settings.timetable where
  alarmGet := by
    have htime := clock.alarm.alarmTime.toNat_lt
    unfold alarmGet
    refine Prod.ext ?_ ?_
    · rw [← UInt8.toNat_inj]
      show (clock.alarm.alarmTime / 60).toUInt8.toNat
        = (clock.alarm.alarmTime.toNat / 60).toUInt8.toNat
      rw [UInt16.toNat_toUInt8, UInt16.toNat_div, Nat.toUInt8, UInt8.toNat_ofNat']
      rfl
    · rw [← UInt8.toNat_inj]
      show (clock.alarm.alarmTime % 60).toUInt8.toNat
        = (clock.alarm.alarmTime.toNat % 60).toUInt8.toNat
      rw [UInt16.toNat_toUInt8, UInt16.toNat_mod, Nat.toUInt8, UInt8.toNat_ofNat']
      rfl
  alarmState := rfl
  nightDayTimeTest _ _ hnow := SavedSettings.isNight_iff hs hnow

/-! ## What keeps the settings, and what sets them -/

namespace SavedSettings

/-- The settings are stored in the bytes that commands may write. -/
theorem Holds.congr {nv nv' : Nvram} {s : SavedSettings} (h : Holds nv s)
    (hsame : ∀ addr, CommandArea addr → nv' addr = nv addr) : Holds nv' s where
  alarmHi := (hsame _ (.inl (.inl rfl))).trans h.alarmHi
  alarmLo := (hsame _ (.inl (.inr (.inl rfl)))).trans h.alarmLo
  alarmState := (hsame _ (.inl (.inr (.inr rfl)))).trans h.alarmState
  nightTimeHi := (hsame _ (.inr (.inl rfl))).trans h.nightTimeHi
  nightTimeLo := (hsame _ (.inr (.inr (.inl rfl)))).trans h.nightTimeLo
  dayTimeHi := (hsame _ (.inr (.inr (.inr (.inl rfl))))).trans h.dayTimeHi
  dayTimeLo := (hsame _ (.inr (.inr (.inr (.inr rfl))))).trans h.dayTimeLo

end SavedSettings

/-- A program that writes elsewhere. -/
theorem final_of_writesIn {A : UInt8 → Prop} {α : Type} {p : Sketch α} (hp : WritesIn A p)
    {addr : UInt8} (haddr : ¬ A addr) (nv : Nvram) : p.final nv addr = nv addr := by
  have hkeeps : Traced.Along (fun _ nv' => nv' addr = nv addr) p nv :=
    hp.along (fun e he _ nv' hnv' => (he.act_eq nv' haddr).trans hnv') rfl
  exact hkeeps.last

namespace Mail

theorem writesIn_saveCounter (counter : UInt64) : WritesIn counterArea (saveCounter counter) := by
  intro nv e he
  rw [saveCounter_events] at he
  rcases List.mem_append.mp he with he | he
  · obtain ⟨i, hi, rfl⟩ := List.mem_map.mp he
    have hi : i < 8 := List.mem_range.mp hi
    show counterArea (i.toUInt8 + freeSlot nv)
    rcases freeSlot_eq nv with hs | hs <;> rw [hs] <;> interval_cases i <;> decide
  · rw [List.mem_singleton.mp he]
    show counterArea Nvram.stateAddr
    decide

/-- The RAM and the NVRAM both stand for a timetable. -/
structure Stands (t : Timetable) (clock : Clock) (nv : Nvram) : Prop where
  holds : SavedSettings.Holds nv clock.settings
  inRange : clock.settings.InRange
  timetable : clock.settings.timetable = t

section

variable {t : Timetable} {clock : Clock} {nv : Nvram}

theorem Stands.alarm (h : Stands t clock nv) (alarm : Alarm)
    (htime : alarm.alarmTime.toNat < 1440) :
    Stands { t with alarm := alarm.alarmTime.toNat, state := alarm.alarmState }
      { clock with alarm := alarm } ((saveToNvram alarm).final nv) := by
  obtain ⟨hholds, hs, rfl⟩ := h
  exact ⟨hholds.alarm alarm, ⟨htime, hs.night, hs.day⟩, rfl⟩

theorem Stands.nightDayTime (h : Stands t clock nv) {n : NightDayTime}
    (hnight : n.startNightTime.toNat < 1440) (hday : n.startDayTime.toNat < 1440) :
    Stands { t with night := n.startNightTime.toNat, day := n.startDayTime.toNat }
      { clock with nightDayTime := n } ((NightDayTime.saveToNvram n).final nv) := by
  obtain ⟨hholds, hs, rfl⟩ := h
  exact ⟨hholds.nightDayTime n, ⟨hs.alarm, hnight, hday⟩, rfl⟩

theorem Stands.alarmSet (h : Stands t clock nv) {hour minute : UInt8}
    (htime : hour < 24 ∧ minute < 60) :
    Stands { t with alarm := Timetable.minuteOf hour minute, state := .reset }
      { clock with alarm := ((Alarm.alarmSet clock.alarm hour minute).value nv).2 }
      ((Alarm.alarmSet clock.alarm hour minute).final nv) := by
  have hset := h.alarm ⟨minuteOfDay hour minute, .reset⟩ (minuteOfDay_lt htime)
  dsimp only at hset
  rwa [minuteOfDay_toNat] at hset

theorem Stands.alarmUnset (h : Stands t clock nv) :
    Stands { t with state := .disabled }
      { clock with alarm := ((Alarm.alarmUnset clock.alarm).value nv).2 }
      ((Alarm.alarmUnset clock.alarm).final nv) := by
  have hunset := h.alarm { clock.alarm with alarmState := .disabled } h.inRange.alarm
  obtain ⟨-, -, rfl⟩ := h
  exact hunset

/-- A reset is a set to the time that is set. -/
theorem Stands.alarmReset (h : Stands t clock nv) :
    Stands { t with state := .reset }
      { clock with alarm := ((Alarm.alarmReset clock.alarm).value nv).2 }
      ((Alarm.alarmReset clock.alarm).final nv) := by
  have hreset := h.alarm { clock.alarm with alarmState := .reset } h.inRange.alarm
  obtain ⟨-, hs, rfl⟩ := h
  have htime := SavedSettings.alarmReset_time hs
  unfold Alarm.alarmReset Alarm.alarmSet
  dsimp only [Clock.settings] at htime
  rw [htime]
  exact hreset

/-- An update is one of the timetable. -/
theorem Stands.alarmUpdate (h : Stands t clock nv) (hour minute : UInt8) :
    let p := Alarm.alarmUpdate clock.alarm hour minute
    Stands (Timetable.step (.update hour minute) t).1 { clock with alarm := (p.value nv).2 }
        (p.final nv) ∧
      [(p.value nv).1] = (Timetable.step (.update hour minute) t).2 := by
  dsimp only
  have hs := h.inRange
  have hsaved : alarmInit.value nv = clock.alarm := SavedSettings.boot_alarm h.holds hs
  have hagrees : Agrees clock.alarm.timeInForce clock.alarm.alarmState clock.alarm nv :=
    ⟨rfl, rfl, by rw [hsaved], by rw [hsaved]⟩
  obtain ⟨hresult, hafter⟩ := update_agrees hagrees hour minute
  have hstate := hafter.state
  have hring : ring clock.alarm.alarmState
      (windowMinute clock.alarm.timeInForce (minuteOfDay hour minute).toNat)
        = ring t.state (windowMinute t.alarm (Timetable.minuteOf hour minute)) := by
    have htime : clock.alarm.timeInForce = _ := SavedSettings.timeInForce_eq hs
    rw [htime, minuteOfDay_toNat, h.timetable, ← h.timetable]
    rfl
  rw [hring] at hresult hstate
  refine ⟨?_, congrArg (fun result => [result]) hresult⟩
  show Stands { t with state := (ring t.state _).2 } _ _
  rw [← hstate]
  obtain ⟨result, state, heq | heq⟩ := clock.alarm.alarmUpdate_cases hour minute
  · rw [heq]
    obtain ⟨hholds, hs, rfl⟩ := h
    exact ⟨hholds, hs, rfl⟩
  · rw [heq]
    have hsave := h.alarm { clock.alarm with alarmState := state } hs.alarm
    obtain ⟨-, -, rfl⟩ := h
    exact hsave

theorem command_other {payload : Payload} (hA : payload.get 0 ≠ 'A'.toUInt8)
    (hN : payload.get 0 ≠ 'N'.toUInt8) (ha : payload.get 0 ≠ 'a'.toUInt8) :
    t.command payload = t := by
  unfold Timetable.command
  rw [if_neg hA, if_neg hN, if_neg ha]

/-- **A command sets what the timetable says.** -/
theorem Stands.performCommand (h : Stands t clock nv) {payload : Payload}
    (hrange : (Timetable.Input.command payload).InRange) (rsRc : Nat) :
    let p := Mail.performCommand clock payload rsRc
    Stands (t.command payload) (p.value nv) (p.final nv) := by
  obtain ⟨halarm, hnight⟩ := hrange
  have hshown {byte : UInt8} (hbyte : payload.get 0 = byte)
      (hother : byte ≠ 'A'.toUInt8 ∧ byte ≠ 'N'.toUInt8 ∧ byte ≠ 'a'.toUInt8) :
      t.command payload = t := by
    subst hbyte
    exact command_other hother.1 hother.2.1 hother.2.2
  unfold Mail.performCommand
  dsimp only
  by_cases hM : payload.get 0 = 'M'.toUInt8
  · rw [if_pos hM, hshown hM (by decide)]
    exact h
  rw [if_neg hM]
  by_cases hC : payload.get 0 = 'C'.toUInt8
  · rw [if_pos hC, hshown hC (by decide)]
    exact h
  rw [if_neg hC]
  by_cases hT : payload.get 0 = 'T'.toUInt8
  · rw [if_pos hT, hshown hT (by decide)]
    exact h
  rw [if_neg hT]
  by_cases hA : payload.get 0 = 'A'.toUInt8
  · rw [if_pos hA, Timetable.command, if_pos hA]
    exact h.alarmSet (halarm hA)
  rw [if_neg hA]
  by_cases hN : payload.get 0 = 'N'.toUInt8
  · rw [if_pos hN, Timetable.command, if_neg hA, if_pos hN]
    obtain ⟨hstart, hend⟩ := hnight hN
    have hset := h.nightDayTime (n := ⟨minuteOfDay (payload.get 1) (payload.get 2),
      minuteOfDay (payload.get 3) (payload.get 4)⟩) (minuteOfDay_lt hstart) (minuteOfDay_lt hend)
    dsimp only at hset
    rwa [minuteOfDay_toNat, minuteOfDay_toNat] at hset
  rw [if_neg hN]
  by_cases ha : payload.get 0 = 'a'.toUInt8
  · rw [if_pos ha, Timetable.command, if_neg hA, if_neg hN, if_pos ha]
    exact h.alarmUnset
  · rw [if_neg ha, command_other hA hN ha]
    exact h

/-! ## Receiving -/

variable {hash : Hash} {secretData : List UInt8} {rs : Rs.RsControl}

/-- A call that accepts nothing leaves the settings as they are. -/
theorem receive_rejected_settings {mailbox : Mailbox}
    (h : accepted hash secretData rs clock mailbox = none) (nv : Nvram) :
    ((mailReceiveMessages hash secretData rs clock mailbox).value nv).1.settings
      = clock.settings := by
  rw [mailReceiveMessages, Traced.value_bind, Traced.value_bind]
  generalize (receiveHomeEasy mailbox).final nv = nv
  show ((receiveNewCode hash secretData rs clock mailbox).value nv).settings = _
  unfold receiveNewCode
  by_cases hready : mailbox.newCodeReady = true
  · rw [accepted, if_pos hready] at h
    rw [if_pos hready, receiveCode]
    cases hdecode : decodePacket rs mailbox.newCode with
    | none => rfl
    | some decoded =>
      rw [hdecode] at h
      dsimp only at h ⊢
      unfold receivePacket
      by_cases hsame : clock.previousPacket = decoded.1
      · rw [if_pos hsame]
        rfl
      · rw [if_neg hsame] at h
        rw [if_neg hsame]
        dsimp only
        rw [Option.map_eq_none_iff.mp h]
        rfl
  · rw [if_neg hready]
    rfl

variable (hash secretData rs) in
/-- **What a call does to the settings**: it comes to performing its command, if there is one, on
    the same settings. -/
theorem receive_performs (clock : Clock) (mailbox : Mailbox) (nv : Nvram) :
    let p := mailReceiveMessages hash secretData rs clock mailbox
    ∃ clock' nv', clock'.settings = clock.settings ∧
      (∀ addr, CommandArea addr → nv' addr = nv addr) ∧
      ((commands (p.events nv) = [] ∧ (p.value nv).1 = clock' ∧ p.final nv = nv') ∨
        ∃ command, commands (p.events nv) = [command] ∧
          (p.value nv).1 = (performCommand clock' command.payload command.rsRc).value nv' ∧
          p.final nv = (performCommand clock' command.payload command.rsRc).final nv') := by
  dsimp only
  cases haccepted : accepted hash secretData rs clock mailbox with
  | none =>
    obtain ⟨-, hfinal, hquiet⟩ := receive_rejected hash secretData rs haccepted nv
    exact ⟨_, nv, receive_rejected_settings haccepted nv, fun _ _ => rfl,
      .inl ⟨commands_of_quiet hquiet, rfl, hfinal⟩⟩
  | some a =>
    obtain ⟨packet, counter, rsRc⟩ := a
    obtain ⟨-, -, -, hcommands⟩ := receive_accepted hash secretData rs haccepted nv
    have hnv : (receiveHomeEasy mailbox).final nv = nv :=
      replay_of_quiet (emits_receiveHomeEasy mailbox nv) nv
    have hsame (addr : UInt8) (haddr : CommandArea addr) :
        (saveCounter counter).final nv addr = nv addr :=
      final_of_writesIn (writesIn_saveCounter counter)
        (fun hcounter => commandArea_outside addr hcounter haddr) nv
    refine ⟨{ clock with previousPacket := packet, hmacMessageCounter := counter }, _, rfl, hsame,
      ?_⟩
    rw [hcommands]
    simp only [mailReceiveMessages, Traced.value_bind, Traced.final_bind, Traced.value_pure,
      Traced.final_pure, hnv, receiveNewCode_accepted hash secretData rs haccepted,
      acceptPacket_eq]
    unfold commandsOf afterSave
    by_cases hflag : packet.counterResyncFlag ≠ 0
    · rw [if_pos hflag, if_pos hflag]
      exact .inl ⟨rfl, rfl, rfl⟩
    · rw [if_neg hflag, if_neg hflag]
      exact .inr ⟨_, rfl, rfl, rfl⟩

theorem Stands.congr (h : Stands t clock nv) {clock' : Clock} {nv' : Nvram}
    (hsettings : clock'.settings = clock.settings)
    (hsame : ∀ addr, CommandArea addr → nv' addr = nv addr) : Stands t clock' nv' where
  holds := hsettings ▸ h.holds.congr hsame
  inRange := hsettings ▸ h.inRange
  timetable := hsettings ▸ h.timetable

variable (hash secretData rs) in
/-- A call sets what its commands say. -/
theorem Stands.receive (h : Stands t clock nv) (mailbox : Mailbox)
    (hrange : ∀ command ∈ commands ((mailReceiveMessages hash secretData rs clock mailbox).events
      nv), (Timetable.Input.command command.payload).InRange) :
    let p := mailReceiveMessages hash secretData rs clock mailbox
    Stands ((commands (p.events nv)).foldl (fun t command => t.command command.payload) t)
      (p.value nv).1 (p.final nv) := by
  dsimp only
  obtain ⟨clock', nv', hsettings, hsame, ⟨hnone, hvalue, hfinal⟩ | ⟨command, hone, hvalue, hfinal⟩⟩
    := receive_performs hash secretData rs clock mailbox nv
  · rw [hnone, hvalue, hfinal]
    exact h.congr hsettings hsame
  · rw [hone] at hrange ⊢
    rw [hvalue, hfinal]
    exact (h.congr hsettings hsame).performCommand (hrange _ List.mem_cons_self) _

/-! ## Restarting -/

theorem startModules_value (counter : UInt64) (nv : Nvram) :
    (startModules counter).value nv = some {
      hmacMessageCounter := counter
      previousPacket := Packet.zero
      alarm := (SavedSettings.boot.value nv).alarm
      nightDayTime := (SavedSettings.boot.value nv).nightDayTime } := rfl

theorem startModules_final (counter : UInt64) (nv : Nvram) :
    (startModules counter).final nv = SavedSettings.boot.final nv := by
  unfold startModules SavedSettings.boot
  simp only [Traced.final_bind, Traced.final_pure]

theorem setup_eq (hf : Formatted nv) :
    Mail.setup.value nv = (startModules (storedCounter nv)).value nv ∧
      Mail.setup.final nv = (startModules (storedCounter nv)).final nv := by
  have hsetup : Mail.setup nv = startModules (storedCounter nv) nv := by
    unfold Mail.setup
    change Traced.bind mailInit _ nv = _
    unfold Traced.bind Traced.final Traced.value Traced.events
    rw [mailInit_loads hf]
    rfl
  refine ⟨congrArg Prod.fst hsetup, ?_⟩
  unfold Traced.final Traced.events
  rw [hsetup]

/-- After a start the settings are those that are stored, folded to times of day. -/
theorem stands_setup (hf : Formatted nv) :
    ∃ clock', Mail.setup.value nv = some clock' ∧
      Stands (SavedSettings.boot.value nv).timetable clock' (Mail.setup.final nv) := by
  obtain ⟨hvalue, hfinal⟩ := setup_eq hf
  have hholds := SavedSettings.holds_boot nv
  have hrange : SavedSettings.InRange (SavedSettings.boot.value nv) :=
    ⟨SavedSettings.loadedTime_lt _ _, SavedSettings.loadedTime_lt _ _,
      SavedSettings.loadedTime_lt _ _⟩
  rw [hvalue, hfinal, startModules_value, startModules_final]
  generalize storedCounter nv = counter
  generalize SavedSettings.boot.value nv = s at hholds hrange ⊢
  exact ⟨_, rfl, hholds, hrange, rfl⟩

/-- A restart changes nothing. -/
theorem Stands.setup (h : Stands t clock nv) (hf : Formatted nv) :
    ∃ clock', Mail.setup.value nv = some clock' ∧ Stands t clock' (Mail.setup.final nv) := by
  have hbooted : SavedSettings.boot.value nv = clock.settings := by
    have halarm := SavedSettings.boot_alarm h.holds h.inRange
    have hnight := SavedSettings.boot_nightDayTime h.holds h.inRange
    generalize SavedSettings.boot.value nv = s at halarm hnight ⊢
    obtain ⟨alarm, nightDayTime⟩ := s
    exact congrArg₂ SavedSettings.mk halarm hnight
  have hstarted := stands_setup hf
  rwa [hbooted, h.timetable] at hstarted

/-! ## The alarm alone -/

/-- The bytes of the alarm are all that `alarm_init` reads. -/
theorem agrees_congr {alarm : Nat} {state : AlarmState} {a : Alarm} {nv nv' : Nvram}
    (h : Agrees alarm state a nv) (hsame : ∀ addr, Alarm.Owns addr → nv' addr = nv addr) :
    Agrees alarm state a nv' := by
  have hvalue (nv : Nvram) : alarmInit.value nv = {
      alarmTime :=
        if loadTime (nv Nvram.alarmHi) (nv Nvram.alarmLo) ≥ wholeDay then 0
        else loadTime (nv Nvram.alarmHi) (nv Nvram.alarmLo)
      alarmState := AlarmState.ofByte (nv Nvram.alarmState) } := rfl
  have hloaded : alarmInit.value nv' = alarmInit.value nv := by
    rewrite [hvalue, hvalue, hsame _ (.inl rfl), hsame _ (.inr (.inl rfl)),
      hsame _ (.inr (.inr rfl))]
    rfl
  exact ⟨h.time, h.state, hloaded ▸ h.savedTime, hloaded ▸ h.savedState⟩

/-- The RAM and the NVRAM both stand for the timetable's alarm, whatever the rest is. -/
def Sounds (t : Timetable) (clock : Clock) (nv : Nvram) : Prop :=
  Agrees t.alarm t.state clock.alarm nv

/-- A program that leaves the alarm alone. -/
theorem Sounds.of_writesIn {A : UInt8 → Prop} {α : Type} {p : Sketch α} {clock' : Clock}
    (h : Sounds t clock nv) (hp : WritesIn A p) (hA : ∀ addr, Alarm.Owns addr → ¬ A addr)
    (halarm : clock'.alarm = clock.alarm) : Sounds t clock' (p.final nv) := by
  rw [Sounds, halarm]
  exact agrees_congr h fun addr haddr => final_of_writesIn hp (hA addr haddr) nv

theorem alarm_outside_nightDayTime : ∀ addr, Alarm.Owns addr → ¬ NightDayTime.Owns addr := by
  rintro addr (rfl | rfl | rfl) <;> decide

theorem command_keepsAlarm {payload : Payload}
    (hkeeps : (Timetable.Input.command payload).KeepsAlarm) :
    (t.command payload).alarm = t.alarm ∧ (t.command payload).state = t.state := by
  unfold Timetable.command
  rw [if_neg hkeeps.1, if_neg hkeeps.2]
  split <;> exact ⟨rfl, rfl⟩

/-- A command that does not set the alarm. -/
theorem Sounds.performCommand (h : Sounds t clock nv) {payload : Payload}
    (hkeeps : (Timetable.Input.command payload).KeepsAlarm) (rsRc : Nat) :
    let p := Mail.performCommand clock payload rsRc
    Sounds (t.command payload) (p.value nv) (p.final nv) := by
  obtain ⟨halarm, hstate⟩ := command_keepsAlarm (t := t) hkeeps
  unfold Mail.performCommand Sounds
  rw [halarm, hstate, if_neg hkeeps.1, if_neg hkeeps.2]
  dsimp only
  split
  · exact h
  split
  · exact h
  split
  · exact h
  split
  · exact h.of_writesIn (NightDayTime.writesIn_nightDayTimeSet _ _ _ _)
      alarm_outside_nightDayTime rfl
  · exact h

/-- A command that sets it. -/
theorem sounds_alarmSet {payload : Payload} (hA : payload.get 0 = 'A'.toUInt8)
    (htime : payload.get 1 < 24 ∧ payload.get 2 < 60) (t : Timetable) (clock : Clock) (nv : Nvram)
    (rsRc : Nat) :
    let p := Mail.performCommand clock payload rsRc
    Sounds (t.command payload) (p.value nv) (p.final nv) := by
  have hset := agrees_arming clock.alarm nv (.set (payload.get 1) (payload.get 2))
  dsimp only at hset
  have hbelow := minuteOfDay_lt htime
  rw [timeInForce_set, if_pos (minuteOfDay_toNat _ _ ▸ hbelow)] at hset
  unfold Mail.performCommand Timetable.command
  rw [if_pos hA, if_neg (hA ▸ by decide), if_neg (hA ▸ by decide), if_neg (hA ▸ by decide),
    if_pos hA]
  exact hset

theorem Sounds.congr (h : Sounds t clock nv) {clock' : Clock} {nv' : Nvram}
    (hsettings : clock'.settings = clock.settings)
    (hsame : ∀ addr, CommandArea addr → nv' addr = nv addr) : Sounds t clock' nv' := by
  have halarm : clock'.alarm = clock.alarm := congrArg SavedSettings.alarm hsettings
  rw [Sounds, halarm]
  exact agrees_congr h fun addr haddr => hsame addr (.inl haddr)

variable (hash secretData rs) in
/-- A call whose commands do not set the alarm. -/
theorem Sounds.receive (h : Sounds t clock nv) (mailbox : Mailbox)
    (hkeeps : ∀ command ∈ commands ((mailReceiveMessages hash secretData rs clock mailbox).events
      nv), (Timetable.Input.command command.payload).KeepsAlarm) :
    let p := mailReceiveMessages hash secretData rs clock mailbox
    Sounds ((commands (p.events nv)).foldl (fun t command => t.command command.payload) t)
      (p.value nv).1 (p.final nv) := by
  dsimp only
  obtain ⟨clock', nv', hsettings, hsame, ⟨hnone, hvalue, hfinal⟩ | ⟨command, hone, hvalue, hfinal⟩⟩
    := receive_performs hash secretData rs clock mailbox nv
  · rw [hnone, hvalue, hfinal]
    exact h.congr hsettings hsame
  · rw [hone] at hkeeps ⊢
    rw [hvalue, hfinal]
    exact (h.congr hsettings hsame).performCommand (hkeeps _ List.mem_cons_self) _

/-- A call whose command sets it. -/
theorem sounds_receive {mailbox : Mailbox} {payload : Payload} (hA : payload.get 0 = 'A'.toUInt8)
    (htime : payload.get 1 < 24 ∧ payload.get 2 < 60) (t : Timetable)
    (hset : (commands ((mailReceiveMessages hash secretData rs clock mailbox).events nv)).map
      Command.payload = [payload]) :
    let p := mailReceiveMessages hash secretData rs clock mailbox
    Sounds (t.command payload) (p.value nv).1 (p.final nv) := by
  dsimp only
  obtain ⟨clock', nv', -, -, ⟨hnone, -⟩ | ⟨command, hone, hvalue, hfinal⟩⟩ :=
    receive_performs hash secretData rs clock mailbox nv
  · rw [hnone] at hset
    exact absurd hset (by simp)
  · rw [hone] at hset
    obtain rfl : command.payload = payload := List.head_eq_of_cons_eq hset
    rw [hvalue, hfinal]
    exact sounds_alarmSet hA htime t clock' nv' _

/-- A restart leaves the alarm as it is. -/
theorem Sounds.setup (h : Sounds t clock nv) (hf : Formatted nv) :
    ∃ clock', Mail.setup.value nv = some clock' ∧ Sounds t clock' (Mail.setup.final nv) := by
  obtain ⟨hvalue, hfinal⟩ := setup_eq hf
  rw [hvalue, hfinal, startModules_value, startModules_final]
  refine ⟨_, rfl, ?_⟩
  have hbooted : Sounds t { clock with alarm := alarmInit.value nv } (alarmInit.final nv) :=
    reboot_agrees h
  unfold SavedSettings.boot
  rw [Traced.final_bind, Traced.final_bind, Traced.final_pure]
  exact hbooted.of_writesIn NightDayTime.writesIn_nightDayTimeInit alarm_outside_nightDayTime rfl

theorem Sounds.alarmUpdate (h : Sounds t clock nv) (hour minute : UInt8) :
    let p := Alarm.alarmUpdate clock.alarm hour minute
    Sounds (Timetable.step (.update hour minute) t).1 { clock with alarm := (p.value nv).2 }
        (p.final nv) ∧
      [(p.value nv).1] = (Timetable.step (.update hour minute) t).2 := by
  obtain ⟨hresult, hafter⟩ := update_agrees h hour minute
  rw [minuteOfDay_toNat] at hresult hafter
  exact ⟨hafter, congrArg (fun result => [result]) hresult⟩

/-! ## What the clock's functions keep -/

/-- The functions keep a relation of a timetable to the RAM and the NVRAM, where the inputs are
    allowed. -/
structure Kept (hash : Hash) (secretData : List UInt8) (rs : Rs.RsControl)
    (allowed : Timetable.Input → Prop) (P : Timetable → Clock → Nvram → Prop) : Prop where
  receive {t : Timetable} {clock : Clock} {nv : Nvram} (h : P t clock nv) (mailbox : Mailbox)
    (hallowed : ∀ command ∈ commands ((mailReceiveMessages hash secretData rs clock mailbox).events
      nv), allowed (.command command.payload)) :
    let p := mailReceiveMessages hash secretData rs clock mailbox
    P ((commands (p.events nv)).foldl (fun t command => t.command command.payload) t)
      (p.value nv).1 (p.final nv)
  update {t : Timetable} {clock : Clock} {nv : Nvram} (h : P t clock nv) (hour minute : UInt8) :
    let p := Alarm.alarmUpdate clock.alarm hour minute
    P (Timetable.step (.update hour minute) t).1 { clock with alarm := (p.value nv).2 }
        (p.final nv) ∧
      [(p.value nv).1] = (Timetable.step (.update hour minute) t).2
  reset {t : Timetable} {clock : Clock} {nv : Nvram} (h : P t clock nv)
      (hallowed : allowed .reset) :
    P { t with state := .reset }
      { clock with alarm := ((Alarm.alarmReset clock.alarm).value nv).2 }
      ((Alarm.alarmReset clock.alarm).final nv)
  unset {t : Timetable} {clock : Clock} {nv : Nvram} (h : P t clock nv)
      (hallowed : allowed .unset) :
    P { t with state := .disabled }
      { clock with alarm := ((Alarm.alarmUnset clock.alarm).value nv).2 }
      ((Alarm.alarmUnset clock.alarm).final nv)
  setup {t : Timetable} {clock : Clock} {nv : Nvram} (h : P t clock nv) (hf : Formatted nv) :
    ∃ clock', Mail.setup.value nv = some clock' ∧ P t clock' (Mail.setup.final nv)

theorem kept_stands (hash : Hash) (secretData : List UInt8) (rs : Rs.RsControl) :
    Kept hash secretData rs Timetable.Input.InRange Stands where
  receive h mailbox hrange := h.receive hash secretData rs mailbox hrange
  update h hour minute := h.alarmUpdate hour minute
  reset h _ := h.alarmReset
  unset h _ := h.alarmUnset
  setup h hf := h.setup hf

theorem kept_sounds (hash : Hash) (secretData : List UInt8) (rs : Rs.RsControl) :
    Kept hash secretData rs Timetable.Input.KeepsAlarm Sounds where
  receive h mailbox hkeeps := h.receive hash secretData rs mailbox hkeeps
  update h hour minute := h.alarmUpdate hour minute
  reset _ hkeeps := absurd hkeeps id
  unset _ hkeeps := absurd hkeeps id
  setup h hf := h.setup hf

end

end Mail

/-! ## Turns of the clock -/

namespace Receiver

open Timetable (Input)

section

variable (hash : Hash) (secretData : List UInt8) (rs : Rs.RsControl)

/-- What `alarm_update` returns, if it is called. -/
def Turn.answers : Turn → Receiver → List Nat
  | .call (.alarmUpdate hour minute), r =>
    (r.clock.map fun clock => ((clock.alarm.alarmUpdate hour minute).value r.nvram).1).toList
  | _, _ => []

def turnStep (turn : Turn) (r : Receiver) : Receiver × List Nat :=
  (runTurn hash secretData rs r turn, turn.answers r)

/-- The commands that are executed in a turn. -/
def executed (turn : Turn) (r : Receiver) : List Command :=
  (runTurn hash secretData rs r turn).commands.drop r.commands.length

/-- What a turn comes to for the timetable. -/
def Turn.inputs (turn : Turn) (r : Receiver) : List Input :=
  match turn with
  | .call (.mailReceiveMessages _) =>
    (executed hash secretData rs turn r).map fun command => .command command.payload
  | .call (.alarmUpdate hour minute) => [.update hour minute]
  | .call .alarmReset => [.reset]
  | .call .alarmUnset => [.unset]
  | .restart => []

/-- What some turns come to. -/
def inputs (turns : List Turn) (r : Receiver) : List Input :=
  Mealy.seen (turnStep hash secretData rs) (Turn.inputs hash secretData rs) turns r

/-- What `alarm_update` returns in some turns. -/
def answers (turns : List Turn) (r : Receiver) : List Nat :=
  (Mealy.run (turnStep hash secretData rs) turns r).2.flatten

end

/-- There is power, and the timetable is related to the RAM and the NVRAM. -/
structure Shows (P : Timetable → Clock → Nvram → Prop) (r : Receiver) (t : Timetable) : Prop where
  inv : r.Inv
  stands : ∃ clock, r.clock = some clock ∧ P t clock r.nvram

section

variable {hash : Hash} {secretData : List UInt8} {rs : Rs.RsControl} {r : Receiver}
  {t : Timetable}

variable (hash secretData rs) in
theorem inv_runTurn (hinv : r.Inv) (turn : Turn) : (runTurn hash secretData rs r turn).Inv := by
  cases turn with
  | call call => exact inv_runCall hash secretData rs hinv call
  | restart =>
    have hstep : Step hash secretData rs (fun _ _ => True) r (r.complete setup) := .boot r
    exact (hstep.cause hinv).1

variable (hash secretData rs) in
theorem inv_runTurns (hinv : r.Inv) (turns : List Turn) :
    (runTurns hash secretData rs turns r).Inv := by
  induction turns generalizing r with
  | nil => exact hinv
  | cons turn turns ih => exact ih (inv_runTurn hash secretData rs hinv turn)

variable (hash secretData rs) in
theorem runCall_receive {clock : Clock} (hclock : r.clock = some clock) (mailbox : Mailbox) :
    let p := mailReceiveMessages hash secretData rs clock mailbox
    runCall hash secretData rs r (.mailReceiveMessages mailbox)
      = ⟨p.final r.nvram, some (p.value r.nvram).1,
          r.commands ++ CpeClock.commands (p.events r.nvram)⟩ := by
  rw [runCall, hclock]
  exact complete_receive hash secretData rs r clock mailbox

variable (hash secretData rs) in
theorem executed_receive {clock : Clock} (hclock : r.clock = some clock) (mailbox : Mailbox) :
    executed hash secretData rs (.call (.mailReceiveMessages mailbox)) r
      = CpeClock.commands
          ((mailReceiveMessages hash secretData rs clock mailbox).events r.nvram) := by
  unfold executed
  rw [runTurn, runCall_receive hash secretData rs hclock]
  exact List.drop_left

variable (hash secretData rs) in
theorem inputs_receive {clock : Clock} (hclock : r.clock = some clock) (mailbox : Mailbox) :
    (Turn.call (.mailReceiveMessages mailbox)).inputs hash secretData rs r
      = ((CpeClock.commands ((mailReceiveMessages hash secretData rs clock mailbox).events
          r.nvram)).map Command.payload).map .command := by
  show (executed hash secretData rs _ r).map _ = _
  rw [executed_receive hash secretData rs hclock, List.map_map]
  rfl

theorem run_commands (payloads : List Payload) (t : Timetable) :
    Mealy.run Timetable.step (payloads.map .command) t
      = (payloads.foldl Timetable.command t, payloads.map fun _ => []) := by
  induction payloads generalizing t with
  | nil => rfl
  | cons payload payloads ih =>
    rw [List.map_cons, Mealy.run_cons]
    show ((Mealy.run Timetable.step _ (t.command payload)).1,
      [] :: (Mealy.run Timetable.step _ (t.command payload)).2) = _
    rw [ih]
    rfl

/-- A call of the alarm's functions. -/
theorem complete_alarm {α : Type} (r : Receiver) (clock : Clock) (p : Sketch (α × Alarm)) :
    r.complete (p >>= fun out => return some { clock with alarm := out.2 })
      = ⟨p.final r.nvram, some { clock with alarm := (p.value r.nvram).2 },
          r.commands ++ CpeClock.commands (p.events r.nvram)⟩ := by
  unfold complete
  rw [Traced.final_bind, Traced.value_bind, Traced.events_bind]
  simp only [Traced.final_pure, Traced.value_pure, Traced.events_pure, List.append_nil]

/-- **Each turn is matched by the timetable**, if the clock's functions keep the relation. -/
theorem simulates_timetable {allowed : Input → Prop} {P : Timetable → Clock → Nvram → Prop}
    (hkept : Kept hash secretData rs allowed P) :
    Mealy.Simulates (turnStep hash secretData rs) Timetable.step (Turn.inputs hash secretData rs)
      allowed (Shows P) := by
  intro turn r t hshows hallowed
  obtain ⟨hinv, clock, hclock, hstands⟩ := hshows
  cases turn with
  | restart =>
    obtain ⟨clock', hvalue, hstands'⟩ := hkept.setup hstands hinv.formatted
    exact ⟨⟨inv_runTurn hash secretData rs hinv .restart, clock', hvalue, hstands'⟩, rfl⟩
  | call call =>
    have hinv' := inv_runCall hash secretData rs hinv call
    have hrun : runCall hash secretData rs r call
        = r.complete (call.program hash secretData rs clock) := by
      rw [runCall, hclock]
    have hshown {clock' : Clock} {t' : Timetable}
        (hclock' : (runCall hash secretData rs r call).clock = some clock')
        (hstands' : P t' clock' (runCall hash secretData rs r call).nvram) :
        Shows P (runCall hash secretData rs r call) t' := ⟨hinv', clock', hclock', hstands'⟩
    cases call with
    | mailReceiveMessages mailbox =>
      have hreceived := runCall_receive hash secretData rs hclock mailbox
      rw [inputs_receive hash secretData rs hclock] at hallowed ⊢
      rw [run_commands, List.foldl_map]
      have hreceive := hkept.receive hstands mailbox
        fun command hmem => hallowed _ (List.mem_map_of_mem (List.mem_map_of_mem hmem))
      refine ⟨hshown (congrArg Receiver.clock hreceived) ?_, ?_⟩
      · rw [hreceived]
        exact hreceive
      · simp [turnStep, Turn.answers]
    | alarmUpdate hour minute =>
      obtain ⟨hstands', hresult⟩ := hkept.update hstands hour minute
      have hupdate := hrun.trans (complete_alarm r clock (clock.alarm.alarmUpdate hour minute))
      refine ⟨hshown (congrArg Receiver.clock hupdate) ?_, ?_⟩
      · rw [hupdate]
        exact hstands'
      · show (r.clock.map _).toList = _
        rw [hclock]
        exact hresult
    | alarmReset =>
      have hreset := hrun.trans (complete_alarm r clock clock.alarm.alarmReset)
      refine ⟨hshown (congrArg Receiver.clock hreset) ?_, rfl⟩
      rw [hreset]
      exact hkept.reset hstands (hallowed _ List.mem_cons_self)
    | alarmUnset =>
      have hunset := hrun.trans (complete_alarm r clock clock.alarm.alarmUnset)
      refine ⟨hshown (congrArg Receiver.clock hunset) ?_, rfl⟩
      rw [hunset]
      exact hkept.unset hstands (hallowed _ List.mem_cons_self)

/-! ## Whole histories -/

theorem run_turnStep (turns : List Turn) (r : Receiver) :
    (Mealy.run (turnStep hash secretData rs) turns r).1
      = runTurns hash secretData rs turns r := by
  induction turns generalizing r with
  | nil => rfl
  | cons turn turns ih =>
    rw [Mealy.run_cons]
    exact ih _

theorem has_setup (hf : Formatted r.nvram) :
    (r.complete setup).Has (storedCounter r.nvram) Packet.zero := by
  obtain ⟨⟨clock, hclock, hcounter, hprevious⟩, -⟩ := setup_formatted hf
  exact ⟨clock, hclock, hcounter, hprevious⟩

theorem inputs_accepted {counter : UInt64} {previous : Packet} (hr : r.Has counter previous)
    {packet : Packet} {n : UInt64} {rsRc : Nat} (hrebuilt : rebuildCounter packet counter = some n)
    (htag : packet.hmac = packetHmac hash secretData n packet.payload)
    (hdiffers : previous ≠ packet) {mailbox : Mailbox} {code : NcCode}
    (hcall : (Call.mailReceiveMessages mailbox).code? = some code)
    (hdecode : decodePacket rs code = some (packet, rsRc)) :
    (Turn.call (.mailReceiveMessages mailbox)).inputs hash secretData rs r
      = (commandsOf packet (n + 1) rsRc).map fun command => .command command.payload := by
  obtain ⟨-, hcommands⟩ := runCall_accepts hr hrebuilt htag hdiffers hcall hdecode
  show ((runCall hash secretData rs r _).commands.drop _).map _ = _
  rw [hcommands, List.drop_left]

theorem shows_setup (hf : Formatted r.nvram) :
    Shows Stands (r.complete setup) (SavedSettings.boot.value r.nvram).timetable := by
  obtain ⟨⟨clock, hvalue, hcounter, -⟩, halong⟩ := setup_formatted hf
  obtain ⟨⟨hformatted, hstored⟩, -⟩ := halong.last
  refine ⟨⟨hformatted, fun clock' hclock' => ?_⟩, stands_setup hf⟩
  obtain rfl : clock = clock' := Option.some.inj (hvalue.symm.trans hclock')
  exact hcounter.trans hstored.symm

theorem Shows.run {allowed : Input → Prop} {P : Timetable → Clock → Nvram → Prop}
    (h : Shows P r t) (hkept : Kept hash secretData rs allowed P) {turns : List Turn}
    (hallowed : ∀ input ∈ inputs hash secretData rs turns r, allowed input) :
    let told := Mealy.run Timetable.step (inputs hash secretData rs turns r) t
    Shows P (runTurns hash secretData rs turns r) told.1 ∧
      answers hash secretData rs turns r = told.2.flatten := by
  have hrun := (simulates_timetable hkept).run turns h hallowed
  rwa [run_turnStep] at hrun

/-- **The clock is its timetable.** Once it has been started, whatever it is handed, whichever
    buttons are pressed and however often it is started again: it rings as the timetable says that
    is told the commands it executes, the buttons and the updates, and then shows what the
    timetable says. -/
theorem turns_timetable (hash : Hash) (secretData : List UInt8) (rs : Rs.RsControl)
    (hf : Formatted r.nvram) {turns : List Turn}
    (hrange : ∀ input ∈ inputs hash secretData rs turns (r.complete setup), input.InRange) :
    let start := r.complete setup
    let told := Mealy.run Timetable.step (inputs hash secretData rs turns start)
      (SavedSettings.boot.value r.nvram).timetable
    answers hash secretData rs turns start = told.2.flatten ∧
      ∃ clock, (runTurns hash secretData rs turns start).clock = some clock ∧
        clock.Follows told.1 := by
  obtain ⟨⟨-, clock, hclock, hstands⟩, hanswers⟩ :=
    (shows_setup hf).run (kept_stands hash secretData rs) hrange
  exact ⟨hanswers, clock, hclock, hstands.timetable ▸ Clock.follows_settings hstands.inRange⟩

/-! ## An alarm that was set -/

/-- The time at which a turn calls `alarm_update`. -/
def Turn.updateTime? : Turn → Option Nat
  | .call (.alarmUpdate hour minute) => some (Timetable.minuteOf hour minute)
  | _ => none

theorem updateTimes_inputs (turns : List Turn) (r : Receiver) :
    (inputs hash secretData rs turns r).filterMap Input.updateTime?
      = turns.filterMap Turn.updateTime? := by
  unfold inputs
  induction turns generalizing r with
  | nil => rfl
  | cons turn turns ih =>
    rw [Mealy.seen, List.filterMap_append, ih]
    cases turn with
    | restart => rfl
    | call call =>
      cases call with
      | mailReceiveMessages mailbox =>
        have hnone : ((executed hash secretData rs (.call (.mailReceiveMessages mailbox)) r).map
            fun command => Input.command command.payload).filterMap Input.updateTime? = [] := by
          rw [List.filterMap_map]
          exact List.filterMap_eq_nil_iff.mpr fun _ _ => rfl
        show List.filterMap Input.updateTime? (List.map _ _) ++ _ = _
        rw [hnone]
        rfl
      | alarmUpdate hour minute => rfl
      | alarmReset => rfl
      | alarmUnset => rfl

/-- A turn that executes the command of an alarm. -/
theorem shows_sounds (hinv : r.Inv) {setting : Turn} {payload : Payload}
    (hset : setting.inputs hash secretData rs r = [.command payload])
    (hA : payload.get 0 = 'A'.toUInt8) (htime : payload.get 1 < 24 ∧ payload.get 2 < 60)
    (t : Timetable) :
    Shows Sounds (runTurn hash secretData rs r setting) (t.command payload) := by
  have hinv' := inv_runTurn hash secretData rs hinv setting
  cases setting with
  | restart => exact absurd hset (by simp [Turn.inputs])
  | call call =>
    cases call with
    | mailReceiveMessages mailbox =>
      change (executed hash secretData rs _ r).map _ = _ at hset
      cases hclock : r.clock with
      | none =>
        have hsame : runTurn hash secretData rs r (.call (.mailReceiveMessages mailbox)) = r := by
          rw [runTurn, runCall, hclock]
        rw [executed, hsame, List.drop_length] at hset
        exact absurd hset (by simp)
      | some clock =>
        rw [executed_receive hash secretData rs hclock] at hset
        have hpayloads : (CpeClock.commands ((mailReceiveMessages hash secretData rs clock
            mailbox).events r.nvram)).map Command.payload = [payload] := by
          obtain ⟨command, hone, hpayload⟩ := List.map_eq_singleton_iff.mp hset
          rw [hone, List.map_singleton, Input.command.inj hpayload]
        have hsounds := sounds_receive hA htime t hpayloads
        rw [runTurn, runCall_receive hash secretData rs hclock] at hinv' ⊢
        exact ⟨hinv', _, rfl, hsounds⟩
    | alarmUpdate hour minute => exact absurd hset (by simp [Turn.inputs])
    | alarmReset => exact absurd hset (by simp [Turn.inputs])
    | alarmUnset => exact absurd hset (by simp [Turn.inputs])

/-- **An alarm that was set rings once**, the next time that its ten minutes come round, whatever is
    received in the meantime and however often the clock is restarted. -/
theorem alarm_rings_once (hash : Hash) (secretData : List UInt8) (rs : Rs.RsControl)
    (hf : Formatted r.nvram) {before after : List Turn} {setting : Turn} {payload : Payload}
    (hset : setting.inputs hash secretData rs
      (runTurns hash secretData rs before (r.complete setup)) = [.command payload])
    (hA : payload.get 0 = 'A'.toUInt8) (htime : payload.get 1 < 24 ∧ payload.get 2 < 60)
    (hkeeps : ∀ input ∈ inputs hash secretData rs after
      (runTurns hash secretData rs (before ++ [setting]) (r.complete setup)), input.KeepsAlarm) :
    answers hash secretData rs after
        (runTurns hash secretData rs (before ++ [setting]) (r.complete setup))
      = ringOnce ((after.filterMap Turn.updateTime?).map
          (windowMinute (Timetable.minuteOf (payload.get 1) (payload.get 2)))) := by
  have hstart := (shows_setup hf).inv
  have hbefore := inv_runTurns hash secretData rs hstart before
  have hsplit : runTurns hash secretData rs (before ++ [setting]) (r.complete setup)
      = runTurn hash secretData rs (runTurns hash secretData rs before (r.complete setup))
          setting := List.foldl_append
  rw [hsplit] at hkeeps ⊢
  generalize runTurns hash secretData rs before (r.complete setup) = r₁ at hset hkeeps hbefore ⊢
  have hshows := shows_sounds hbefore hset hA htime
    (SavedSettings.boot.value r.nvram).timetable
  obtain ⟨-, hanswers⟩ := hshows.run (kept_sounds hash secretData rs) hkeeps
  rw [hanswers, Timetable.run_keepsAlarm hkeeps, updateTimes_inputs, ← runRing_reset,
    Timetable.command, if_pos hA]

end

/-! ## A morning -/

/-- A clock without power, and its NVRAM. -/
def sampleUnpowered : Receiver where
  nvram := formattedNvram 8
  clock := none
  commands := []

def alarmRequest : Packet :=
  { Packet.zero with payload := #v['A'.toUInt8, 6, 30, 0, 0, 0] }

/-- An alarm for 6:30, with a counter of 8. -/
def alarmPacket : Packet := (hmac433Encode sha256 [] alarmRequest 7).1

theorem alarmPacket_payload : alarmPacket.payload = alarmRequest.payload :=
  (encode_ordinary sha256 [] alarmRequest 7 rfl).1

theorem inputs_alarmPacket {rs : Rs.RsControl} (hrs : Ncrs.ncrsInit = some rs) :
    (Turn.call (.mailReceiveMessages (mailboxOf rs 0 alarmPacket))).inputs sha256 [] rs
        (sampleUnpowered.complete setup)
      = [.command alarmRequest.payload] := by
  obtain ⟨hformatted, hstored⟩ := formattedNvram_formatted 8
  have hhas : (sampleUnpowered.complete setup).Has 8 Packet.zero :=
    hstored ▸ has_setup (r := sampleUnpowered) hformatted
  have hflag : alarmPacket.counterResyncFlag = 0 := encode_flag ..
  have hsent : SentWith sha256 [] 8 alarmPacket := sentWith_encode sha256 [] alarmRequest 7
  have hrebuilt : rebuildCounter alarmPacket 8 = some 8 := by
    rw [hsent.rebuilt, if_pos hflag]
    decide
  have hdiffers : Packet.zero ≠ alarmPacket := fun hsame =>
    absurd ((congrArg Packet.payload hsame).trans alarmPacket_payload) (by decide)
  have hcode : (Call.mailReceiveMessages (mailboxOf rs 0 alarmPacket)).code?
      = some (Ncrs.ncrsEncode rs alarmPacket.toBytes) := rfl
  have hone : commandsOf alarmPacket (8 + 1) 1 = [⟨9, alarmRequest.payload, 1⟩] := by
    unfold commandsOf
    rw [if_neg (not_not_intro hflag), alarmPacket_payload]
    rfl
  have hdecode := decodePacket_encoded hrs (p := alarmPacket) (by rw [hflag]; rfl)
  rw [inputs_accepted hhas hrebuilt hsent.tag hdiffers hcode hdecode, hone]
  rfl

/-- The alarm is set by a message, and unset by a button while it rings. The clock is restarted in
    between. -/
def alarmTurns (rs : Rs.RsControl) : List Turn :=
  [.call (.mailReceiveMessages (mailboxOf rs 0 alarmPacket)), .call (.alarmUpdate 6 29),
    .call (.alarmUpdate 6 30), .restart, .call (.alarmUpdate 6 31), .call .alarmUnset,
    .call (.alarmUpdate 6 32)]

theorem inputs_alarmTurns {rs : Rs.RsControl} (hrs : Ncrs.ncrsInit = some rs) :
    inputs sha256 [] rs (alarmTurns rs) (sampleUnpowered.complete setup)
      = [.command alarmRequest.payload, .update 6 29, .update 6 30, .update 6 31, .unset,
          .update 6 32] := by
  rw [inputs, alarmTurns, Mealy.seen, inputs_alarmPacket hrs]
  rfl

theorem turns_timetable_sample :
    answers sha256 [] Rs.rs32 (alarmTurns Rs.rs32) (sampleUnpowered.complete setup) = [0, 1, 2, 0] ∧
      ∃ clock, (runTurns sha256 [] Rs.rs32 (alarmTurns Rs.rs32)
          (sampleUnpowered.complete setup)).clock = some clock ∧
        clock.alarm.alarmGet = (6, 30) ∧ clock.alarm.alarmState = .disabled := by
  have hinputs := inputs_alarmTurns Ncrs.ncrsInit_eq
  have hrange : ∀ input ∈ inputs sha256 [] Rs.rs32 (alarmTurns Rs.rs32)
      (sampleUnpowered.complete setup), input.InRange := by
    rw [hinputs]
    decide
  obtain ⟨hanswers, clock, hclock, hfollows⟩ :=
    turns_timetable sha256 [] Rs.rs32 (formattedNvram_formatted 8).1 hrange
  rw [hinputs] at hanswers hfollows
  exact ⟨hanswers.trans (by decide), clock, hclock, hfollows.alarmGet.trans (by decide),
    hfollows.alarmState.trans (by decide)⟩

/-- The next morning, with a restart while the alarm rings. -/
def morningTurns : List Turn :=
  [.call (.alarmUpdate 6 29), .call (.alarmUpdate 6 30), .restart, .call (.alarmUpdate 6 31),
    .call (.alarmUpdate 6 45)]

theorem alarm_rings_once_sample :
    answers sha256 [] Rs.rs32 morningTurns (runTurns sha256 [] Rs.rs32
        [.call (.mailReceiveMessages (mailboxOf Rs.rs32 0 alarmPacket))]
        (sampleUnpowered.complete setup))
      = [0, 1, 2, 0] := by
  have hset := inputs_alarmPacket Ncrs.ncrsInit_eq
  have hlater (r : Receiver) : inputs sha256 [] Rs.rs32 morningTurns r
      = [.update 6 29, .update 6 30, .update 6 31, .update 6 45] := rfl
  have hrings := @alarm_rings_once sampleUnpowered sha256 [] Rs.rs32
    (formattedNvram_formatted 8).1 [] morningTurns _ _ hset rfl (by decide) fun input hinput => by
      rw [hlater] at hinput
      revert input
      decide
  exact hrings.trans (by decide)

end Receiver
end CpeClock
