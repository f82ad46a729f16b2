import CpeClock.Lib.Mealy
import CpeClock.Mail
import CpeClock.Rs.Gf32
import CpeClock.UpdateAlarm

/-!
# `cpeclock.ino` — the loop

One iteration reads the clock, looks at the alarm, takes the mail and looks at the buttons, and
calls `update_alarm` up to three times. `last_running_time` is the one variable of `update_alarm`
that is never reset: the first call of a second alarm takes the time since the end of the first
one, which may be any number modulo 2^32 (`second_alarm_ahead`). Between the calls nothing moves
the timers (`moved_run`); so where every call keeps up, no effect gets ahead of its alarm
(`effects_in_time`).

What `RTClib` makes of the time of a "set clock" message is a parameter; the display is left out,
as nothing reads it back.
-/

namespace CpeClock

open Lib Hmac433

/-- The fields of `now_time` that the loop reads. -/
structure TimeOfDay where
  hour : UInt8
  minute : UInt8
  second : UInt8
  deriving DecidableEq

/-- The static variables of the sketch and of its modules, and the NVRAM. -/
structure SketchState where
  nvram : Nvram
  clock : Clock
  nowTime : TimeOfDay
  effects : AlarmEffects
  extensionButtonPressed : UInt16

/-- What one iteration of the loop reads, in the order of the source. -/
structure LoopInput where
  now : TimeOfDay
  /-- `millis()` at the start of a minute. -/
  minuteMillis : UInt32
  millis : UInt32
  mailbox : Mailbox
  rightButton : Bool
  leftButton : Bool
  extButton : Bool
  /-- `millis()` once the alarm is reset. -/
  resetMillis : UInt32
  /-- `millis()` once the alarm is unset. -/
  unsetMillis : UInt32
  slideSwitch : Bool
  slideSwitchAgain : Bool

/-- A call of `update_alarm`: the variables before it, and the reading of `millis()`. -/
structure UpdateCall where
  before : AlarmEffects
  millis : UInt32

def UpdateCall.after (call : UpdateCall) : AlarmEffects :=
  (call.before.updateAlarm call.millis).1

namespace SketchState

/-- At the end of `setup`. -/
def booted (nvram : Nvram) (clock : Clock) (nowTime : TimeOfDay) (millis : UInt32)
    (slideSwitch : Bool) : SketchState where
  nvram := nvram
  clock := clock
  nowTime := nowTime
  effects := {
    allowSound := slideSwitch
    alarmActive := 0
    millisecondOffset := millis
    lastRunningTime := 0
    soundTrigger := 0
    strobeTrigger := 0
    brightness := 0 }
  extensionButtonPressed := 0

def callUpdateAlarm (millis : UInt32) (s : SketchState) : SketchState × List UpdateCall :=
  ({ s with effects := (s.effects.updateAlarm millis).1 }, [⟨s.effects, millis⟩])

/-- A program of `alarm.c`, and what it returns. -/
def runAlarm {α : Type} (p : Alarm → Sketch (α × Alarm)) (s : SketchState) : α × SketchState :=
  let out := (p s.clock.alarm).value s.nvram
  (out.1, { s with
    nvram := (p s.clock.alarm).final s.nvram
    clock := { s.clock with alarm := out.2 } })

/-- `alarm_active = alarm_update(...)`. -/
def checkAlarm (s : SketchState) : SketchState :=
  let (active, s) := s.runAlarm fun alarm =>
    Alarm.alarmUpdate alarm s.nowTime.hour s.nowTime.minute
  { s with effects := { s.effects with alarmActive := active.toUInt32 } }

/-- The first part of `loop`: the time and the alarm. -/
def tick (input : LoopInput) (s : SketchState) : SketchState × List UpdateCall :=
  let previousSecond := s.nowTime.second
  let s := { s with nowTime := input.now }
  if s.nowTime.second ≠ previousSecond then
    -- at the start of the minute, update the millisecond offset
    let s := if s.nowTime.second = 0 then
      { s with effects := { s.effects with millisecondOffset := input.minuteMillis } } else s
    -- Check for the alarm
    s.checkAlarm.callUpdateAlarm input.millis
  else
    -- Update the alarm frequently when active
    s.callUpdateAlarm input.millis

/-- The extension button: whether it acts as the left and as the right button. -/
def extensionButton (input : LoopInput) (s : SketchState) : Bool × Bool × SketchState :=
  if input.extButton then
    let pressed := s.extensionButtonPressed + 1
    if pressed = 100 then (true, false, { s with extensionButtonPressed := pressed })
    else if pressed = 300 then (false, true, { s with extensionButtonPressed := 0 })
    else (false, false, { s with extensionButtonPressed := pressed })
  else (false, false, { s with extensionButtonPressed := 0 })

/-- A button that runs a program of `alarm.c`: if the alarm's state changed, it is looked at
    again. -/
def alarmButton (p : Alarm → Sketch (Bool × Alarm)) (millis : UInt32) (s : SketchState) :
    SketchState × List UpdateCall :=
  let (changed, s) := s.runAlarm p
  if changed then s.checkAlarm.callUpdateAlarm millis else (s, [])

/-- The last part of `loop`: the switch. -/
def moveSwitch (input : LoopInput) (s : SketchState) : SketchState :=
  if s.effects.allowSound ≠ input.slideSwitch then
    { s with effects := { s.effects with allowSound := input.slideSwitchAgain } }
  else s

section

variable (hash : Hash) (secretData : List UInt8) (rs : Rs.RsControl)
  (newTime : TimeOfDay → UInt8 → UInt8 → UInt8 → TimeOfDay)

/-- `mail_receive_messages`, with what `clock_set` does to `now_time`. -/
def receiveMail (mailbox : Mailbox) (s : SketchState) : SketchState :=
  let p := Mail.mailReceiveMessages hash secretData rs s.clock mailbox
  { s with
    nvram := p.final s.nvram
    clock := (p.value s.nvram).1
    nowTime := (p.events s.nvram).foldl (fun t e =>
      match e with
      | .clockSet hour minute second => newTime t hour minute second
      | _ => t) s.nowTime }

/-- `loop`, with the calls of `update_alarm` that it makes. -/
def loop (input : LoopInput) (s : SketchState) : SketchState × List UpdateCall :=
  let (s, calls) := s.tick input
  let s := s.receiveMail hash secretData rs newTime input.mailbox
  let (left, right, s) := s.extensionButton input
  let (s, calls') := if input.rightButton || right then
    s.alarmButton Alarm.alarmReset input.resetMillis else (s, [])
  let (s, calls'') := if input.leftButton || left then
    s.alarmButton Alarm.alarmUnset input.unsetMillis else (s, [])
  (s.moveSwitch input, calls ++ (calls' ++ calls''))

end

/-! ## The calls of an iteration -/

/-- Nothing but `update_alarm` writes these. -/
structure SameTimers (e e' : AlarmEffects) : Prop where
  lastRunningTime : e'.lastRunningTime = e.lastRunningTime
  soundTrigger : e'.soundTrigger = e.soundTrigger
  strobeTrigger : e'.strobeTrigger = e.strobeTrigger

theorem SameTimers.refl (e : AlarmEffects) : SameTimers e e := ⟨rfl, rfl, rfl⟩

theorem SameTimers.trans {e e' e'' : AlarmEffects} (h : SameTimers e e')
    (h' : SameTimers e' e'') : SameTimers e e'' where
  lastRunningTime := h'.lastRunningTime.trans h.lastRunningTime
  soundTrigger := h'.soundTrigger.trans h.soundTrigger
  strobeTrigger := h'.strobeTrigger.trans h.strobeTrigger

/-- From one state of the variables to another, the timers are moved by these calls alone. -/
inductive Moved : AlarmEffects → List UpdateCall → AlarmEffects → Prop
  | none {e e' : AlarmEffects} (h : SameTimers e e') : Moved e [] e'
  | call {e e' : AlarmEffects} {call : UpdateCall} {calls : List UpdateCall}
      (h : SameTimers e call.before) (hrest : Moved call.after calls e') :
      Moved e (call :: calls) e'

theorem Moved.of_same {e e' e'' : AlarmEffects} {calls : List UpdateCall} (hsame : SameTimers e e')
    (h : Moved e' calls e'') : Moved e calls e'' := by
  cases h with
  | none h => exact .none (hsame.trans h)
  | call h hrest => exact .call (hsame.trans h) hrest

theorem Moved.append {e e' e'' : AlarmEffects} {calls calls' : List UpdateCall}
    (h : Moved e calls e') (h' : Moved e' calls' e'') : Moved e (calls ++ calls') e'' := by
  induction h with
  | none hsame => exact h'.of_same hsame
  | call hsame _ ih => exact .call hsame (ih h')

theorem moved_callUpdateAlarm (millis : UInt32) (s : SketchState) :
    Moved s.effects (s.callUpdateAlarm millis).2 (s.callUpdateAlarm millis).1.effects :=
  .call (.refl s.effects) (.none (.refl _))

theorem moved_tick (input : LoopInput) (s : SketchState) :
    Moved s.effects (s.tick input).2 (s.tick input).1.effects := by
  unfold tick
  dsimp only
  split
  · refine (moved_callUpdateAlarm input.millis _).of_same ?_
    split
    · exact ⟨rfl, rfl, rfl⟩
    · exact ⟨rfl, rfl, rfl⟩
  · exact moved_callUpdateAlarm input.millis _

theorem moved_alarmButton (pressed : Bool) (p : Alarm → Sketch (Bool × Alarm)) (millis : UInt32)
    (s : SketchState) :
    let r := if pressed then s.alarmButton p millis else (s, [])
    Moved s.effects r.2 r.1.effects := by
  dsimp only
  split
  · unfold alarmButton
    dsimp only
    split
    · have hsame : SameTimers s.effects (s.runAlarm p).2.checkAlarm.effects := ⟨rfl, rfl, rfl⟩
      exact (moved_callUpdateAlarm millis _).of_same hsame
    · exact .none ⟨rfl, rfl, rfl⟩
  · exact .none (.refl _)

theorem extensionButton_effects (input : LoopInput) (s : SketchState) :
    (s.extensionButton input).2.2.effects = s.effects := by
  unfold extensionButton
  dsimp only
  split_ifs <;> rfl

theorem moveSwitch_timers (input : LoopInput) (s : SketchState) :
    SameTimers s.effects (s.moveSwitch input).effects := by
  unfold moveSwitch
  split
  · exact ⟨rfl, rfl, rfl⟩
  · exact .refl _

section

variable (hash : Hash) (secretData : List UInt8) (rs : Rs.RsControl)
  (newTime : TimeOfDay → UInt8 → UInt8 → UInt8 → TimeOfDay)

/-- **One iteration moves the timers by its calls alone.** -/
theorem moved_loop (input : LoopInput) (s : SketchState) :
    Moved s.effects (s.loop hash secretData rs newTime input).2
      (s.loop hash secretData rs newTime input).1.effects := by
  have hmail : ∀ s : SketchState, SameTimers s.effects ((s.receiveMail hash secretData rs newTime
      input.mailbox).extensionButton input).2.2.effects := fun s => by
    rw [extensionButton_effects]
    exact ⟨rfl, rfl, rfl⟩
  have hunset : ∀ (pressed : Bool) (s : SketchState),
      let r := if pressed then s.alarmButton Alarm.alarmUnset input.unsetMillis else (s, [])
      Moved s.effects r.2 (r.1.moveSwitch input).effects := by
    intro pressed s r
    have hbutton := (moved_alarmButton pressed Alarm.alarmUnset input.unsetMillis s).append
      (.none (moveSwitch_timers input _))
    rwa [List.append_nil] at hbutton
  unfold loop
  exact (moved_tick input s).append
    (((moved_alarmButton _ Alarm.alarmReset input.resetMillis _).append (hunset _ _)).of_same
      (hmail _))

def updateCalls (inputs : List LoopInput) (s : SketchState) : List UpdateCall :=
  (Mealy.run (loop hash secretData rs newTime) inputs s).2.flatten

/-- **So does a run.** -/
theorem moved_run (inputs : List LoopInput) (s : SketchState) :
    Moved s.effects (updateCalls hash secretData rs newTime inputs s)
      (Mealy.run (loop hash secretData rs newTime) inputs s).1.effects := by
  induction inputs generalizing s with
  | nil => exact .none (.refl _)
  | cons input inputs ih => exact (moved_loop hash secretData rs newTime input s).append (ih _)

end

/-! ## What the calls keep -/

theorem SameTimers.inv {e e' : AlarmEffects} (h : SameTimers e e') (hinv : e.Inv) : e'.Inv where
  strobe := by
    rw [h.strobeTrigger, h.lastRunningTime]
    exact hinv.strobe
  sound := by
    rw [h.soundTrigger, h.lastRunningTime]
    exact hinv.sound

/-- **The calls keep the effects in time**, if they keep up. -/
theorem Moved.inTime {e e' : AlarmEffects} {calls : List UpdateCall} (h : Moved e calls e')
    (hinv : e.Inv) (hkeeps : ∀ call ∈ calls, call.before.KeepsUp call.millis) :
    ∀ call ∈ calls, call.after.InTime call.millis := by
  induction h with
  | none => exact fun _ hcall => absurd hcall List.not_mem_nil
  | @call _ _ call calls hsame _ ih =>
    obtain ⟨hinv', htime⟩ :=
      AlarmEffects.updateAlarm_inv (hsame.inv hinv) (hkeeps call List.mem_cons_self)
    intro call' hcall'
    rcases List.mem_cons.mp hcall' with rfl | hcall'
    · exact htime
    · exact ih hinv' (fun c hc => hkeeps c (List.mem_cons_of_mem _ hc)) call' hcall'

/-- How long the alarm had been running at each call for an active one. -/
def runningTimes (calls : List UpdateCall) : List UInt32 :=
  (calls.filter fun call => call.before.alarmActive ≠ 0).map fun call =>
    call.before.runningTime call.millis

/-- Calls whose running times never step back keep up. -/
theorem Moved.keepsUp {e e' : AlarmEffects} {calls : List UpdateCall} (h : Moved e calls e')
    (hrising : (e.lastRunningTime :: runningTimes calls).Pairwise (· ≤ ·)) :
    ∀ call ∈ calls, call.before.KeepsUp call.millis := by
  induction h with
  | none => exact fun _ hcall => absurd hcall List.not_mem_nil
  | @call _ _ call calls hsame _ ih =>
    by_cases hactive : call.before.alarmActive = 0
    · have hlast : call.after.lastRunningTime = call.before.lastRunningTime := by
        rw [UpdateCall.after, AlarmEffects.updateAlarm, if_pos hactive]
      have hskip : runningTimes (call :: calls) = runningTimes calls := by
        rw [runningTimes, List.filter_cons_of_neg (by simpa using hactive), runningTimes]
      rw [hskip, ← hsame.lastRunningTime, ← hlast] at hrising
      intro call' hcall'
      rcases List.mem_cons.mp hcall' with rfl | hcall'
      · exact fun hne => absurd hactive hne
      · exact ih hrising call' hcall'
    · have hlast : call.after.lastRunningTime = call.before.runningTime call.millis :=
        (AlarmEffects.updateAlarm_active hactive call.millis).1
      have hfirst : runningTimes (call :: calls)
          = call.before.runningTime call.millis :: runningTimes calls := by
        rw [runningTimes, List.filter_cons_of_pos (by simpa using hactive), List.map_cons,
          runningTimes]
      rw [hfirst, List.pairwise_cons] at hrising
      obtain ⟨hbelow, hrising⟩ := hrising
      have hle : call.before.lastRunningTime.toNat
          ≤ (call.before.runningTime call.millis).toNat := by
        rw [hsame.lastRunningTime]
        exact UInt32.le_iff_toNat_le.mp (hbelow _ List.mem_cons_self)
      intro call' hcall'
      rcases List.mem_cons.mp hcall' with rfl | hcall'
      · exact fun _ => ⟨Nat.le_add_right_of_le hle, fun _ => Nat.le_add_right_of_le hle⟩
      · exact ih (hlast ▸ hrising) call' hcall'

section

variable (hash : Hash) (secretData : List UInt8) (rs : Rs.RsControl)
  (newTime : TimeOfDay → UInt8 → UInt8 → UInt8 → TimeOfDay)

/-- **No effect gets ahead of its alarm**, in every run from boot whose calls of `update_alarm` keep
    up. -/
theorem effects_in_time (nvram : Nvram) (clock : Clock) (nowTime : TimeOfDay) (millis : UInt32)
    (slideSwitch : Bool) (inputs : List LoopInput)
    (hkeeps : ∀ call ∈ updateCalls hash secretData rs newTime inputs
        (booted nvram clock nowTime millis slideSwitch), call.before.KeepsUp call.millis) :
    ∀ call ∈ updateCalls hash secretData rs newTime inputs
        (booted nvram clock nowTime millis slideSwitch), call.after.InTime call.millis := by
  have hstart : (booted nvram clock nowTime millis slideSwitch).effects.Inv :=
    ⟨UInt32.le_refl 0, UInt32.le_refl 0⟩
  exact (moved_run hash secretData rs newTime inputs _).inTime hstart hkeeps

/-- In particular where the running time steps back neither at the start of a minute nor from one
    alarm to the next. That depends on the readings of `millis()`, on the time and on the alarm, and
    not on the timers. -/
theorem effects_in_time_of_rising (nvram : Nvram) (clock : Clock) (nowTime : TimeOfDay)
    (millis : UInt32) (slideSwitch : Bool) (inputs : List LoopInput)
    (hrising : (runningTimes (updateCalls hash secretData rs newTime inputs
        (booted nvram clock nowTime millis slideSwitch))).Pairwise (· ≤ ·)) :
    ∀ call ∈ updateCalls hash secretData rs newTime inputs
        (booted nvram clock nowTime millis slideSwitch), call.after.InTime call.millis := by
  have hmoved := moved_run hash secretData rs newTime inputs
    (booted nvram clock nowTime millis slideSwitch)
  have hstart : (booted nvram clock nowTime millis slideSwitch).effects.Inv :=
    ⟨UInt32.le_refl 0, UInt32.le_refl 0⟩
  refine hmoved.inTime hstart (hmoved.keepsUp (List.pairwise_cons.mpr ⟨?_, hrising⟩))
  exact fun _ _ => UInt32.zero_le

end

/-! ## Two alarms -/

def sampleInput (now : TimeOfDay) (millis : UInt32) : LoopInput where
  now := now
  minuteMillis := millis
  millis := millis
  mailbox := ⟨0, Vector.replicate 31 0, false⟩
  rightButton := false
  leftButton := false
  extButton := false
  resetMillis := millis
  unsetMillis := millis
  slideSwitch := true
  slideSwitchAgain := true

/-- An alarm for 7:00, at 6:59:59. -/
def sampleStart : SketchState :=
  booted (fun _ => 0) ⟨1, Packet.zero, ⟨420, .enabled⟩, ⟨0, 0⟩⟩ ⟨6, 59, 59⟩ 0 true

/-- The alarm begins, is cancelled after ten seconds, is armed again, and begins the next day. -/
def sampleInputs : List LoopInput :=
  [sampleInput ⟨7, 0, 0⟩ 1000,
    { sampleInput ⟨7, 0, 10⟩ 11000 with leftButton := true },
    { sampleInput ⟨7, 15, 20⟩ 921000 with rightButton := true },
    sampleInput ⟨7, 0, 0⟩ 86401000]

/-- The first alarm alone keeps up. -/
theorem effects_in_time_sample :
    let calls := updateCalls sha256 [] Rs.rs32 (fun t _ _ _ => t) (sampleInputs.take 3) sampleStart
    calls.length = 5 ∧ ∀ call ∈ calls, call.after.InTime call.millis :=
  ⟨by decide +kernel,
    effects_in_time sha256 [] Rs.rs32 (fun t _ _ _ => t) _ _ _ _ _ _ (by decide +kernel)⟩

/-- The second alarm has just begun, and its lights are ahead by more than 49 days. -/
theorem second_alarm_ahead :
    let calls := updateCalls sha256 [] Rs.rs32 (fun t _ _ _ => t) sampleInputs sampleStart
    (calls.getLast?.map fun call => (call.after.runningTime call.millis, call.after.strobeTrigger))
        = some (0, 4294957046) ∧
      ¬ ∀ call ∈ calls, call.after.InTime call.millis := by
  decide +kernel

end SketchState
end CpeClock
