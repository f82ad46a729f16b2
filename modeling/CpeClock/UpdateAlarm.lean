import Mathlib.Tactic.SplitIfs

/-!
# `cpeclock.ino` — the lights and the sound of the alarm

`update_alarm` runs every few milliseconds. Two accumulators say how long ago the last flash and
the last beep were: the time since the last call is added to each, and each effect takes its period
off. All of it is unsigned 32-bit arithmetic, so an accumulator that would go below zero becomes
very large instead.

As long as the running time has not fallen behind the last one by more than an accumulator holds
(`KeepsUp`), neither accumulator gets ahead of it (`updateAlarm_inv`).
-/

namespace CpeClock

/-- The static variables that `update_alarm` uses, and the brightness of the strip. -/
structure AlarmEffects where
  allowSound : Bool
  alarmActive : UInt32
  millisecondOffset : UInt32
  lastRunningTime : UInt32
  soundTrigger : UInt32
  strobeTrigger : UInt32
  brightness : UInt8
  deriving DecidableEq

/-- The calls that `update_alarm` makes. -/
inductive EffectCall where
  | setBrightness (brightness : UInt8)
  | setPixelColor (i : Nat) (red green blue : UInt8)
  | show
  | writeIntPin (high : Bool)
  | enableSpeaker (on : Bool)
  | playTone (frequency duration : Nat)
  deriving DecidableEq

namespace AlarmEffects

def numLeds : Nat := 10

def totalPhaseTime : UInt32 := 30000

def totalPulseTime : UInt32 := 2000

/-- `try_subtract_strobe_trigger`, with `strobe_trigger` afterwards. -/
def trySubtractStrobeTrigger (strobeTrigger howOften : UInt32) : Bool × UInt32 :=
  if strobeTrigger ≥ howOften then (true, strobeTrigger - howOften) else (false, strobeTrigger)

/-- "How many milliseconds has the alarm been running for?" -/
def runningTime (s : AlarmEffects) (millis : UInt32) : UInt32 :=
  (s.alarmActive - 1) * 60000 + millis - s.millisecondOffset

/-- How often the light flashes or fades in a phase. -/
def lightPeriod (phase : UInt32) : UInt32 :=
  if phase = 2 then 2000 else if phase = 3 then 500 else 250

/-- The brightness in the phases that fade: "gradual fade in" and "pulsing". -/
def fade (phase phaseTime pulseTime : UInt32) : UInt32 :=
  if phase = 0 then phaseTime * 255 / totalPhaseTime
  else if pulseTime < totalPulseTime / 2 then 255 - pulseTime * 255 / (totalPulseTime / 2)
  else (pulseTime - totalPulseTime / 2) * 255 / (totalPulseTime / 2)

/-- The `switch` of the "brightness effects": the brightness and `strobe_trigger` afterwards. -/
def brightnessEffects (phase phaseTime pulseTime : UInt32) (brightness strobeTrigger : UInt32) :
    UInt32 × UInt32 :=
  let phase := if phase ≤ 4 then phase else (phase - 1) % 4 + 1
  let (flash, strobeTrigger) := trySubtractStrobeTrigger strobeTrigger (lightPeriod phase)
  if phase = 0 ∨ phase = 1 then
    (if flash then fade phase phaseTime pulseTime else brightness, strobeTrigger)
  else (if flash then 255 else 0, strobeTrigger) -- strobing

/-- The colour in a phase: yellow, white, or white and red in turn. -/
def pixelColor (phase pulseTime : UInt32) : UInt8 × UInt8 × UInt8 :=
  if phase ≤ 4 then (255, 255, 0)
  else if phase ≤ 8 then (255, 255, 255)
  else if pulseTime < totalPulseTime / 2 then (255, 255, 255)
  else (255, 0, 0)

/-- The `switch` of the "sound effects": `how_often`, where zero is "no sound". -/
def howOften (phase : UInt32) : UInt32 :=
  if phase ≤ 2 then 0
  else if phase = 3 then 10000
  else if phase = 4 then 5000
  else if phase = 5 then 3000
  else if phase = 6 then 2000
  else if phase = 7 then 1000
  else if phase = 8 then 500
  else if phase = 9 then 200
  else 100

/-- Showing the strip, which disturbs the receiver: `INT_PIN` says so. -/
def showStrip : List EffectCall := [.writeIntPin true, .show, .writeIntPin false]

/-- `update_alarm`, with the reading of `millis()`. -/
def updateAlarm (millis : UInt32) (s : AlarmEffects) : AlarmEffects × List EffectCall :=
  if s.alarmActive = 0 then
    -- No action if the alarm is disabled, except for switching off NeoPixels and the speaker
    let off := if s.brightness ≠ 0 then .setBrightness 0 :: showStrip else []
    ({ s with brightness := 0, strobeTrigger := 0, soundTrigger := 0 },
      off ++ [.enableSpeaker false])
  else
    let runningTime := s.runningTime millis
    -- How many milliseconds since the last time update_alarm ran?
    let millisecondDelta := runningTime - s.lastRunningTime
    let phase := runningTime / totalPhaseTime
    let phaseTime := runningTime % totalPhaseTime
    let pulseTime := phaseTime % totalPulseTime
    let soundTrigger := s.soundTrigger + millisecondDelta
    -- Brightness effects
    let light := brightnessEffects phase phaseTime pulseTime s.brightness.toUInt32
      (s.strobeTrigger + millisecondDelta)
    -- Lighting colour effects
    let color := pixelColor phase pulseTime
    let lights := if light.1 ≠ s.brightness.toUInt32 then
      .setBrightness light.1.toUInt8
        :: (List.range numLeds).map (fun i => .setPixelColor i color.1 color.2.1 color.2.2)
        ++ showStrip
      else []
    -- Sound effects
    let howOften := howOften phase
    let soundTrigger := if phase ≤ 2 then 0 else soundTrigger
    let speaker := if phase ≥ 3 then [.enableSpeaker s.allowSound] else []
    let beeps := soundTrigger ≥ howOften ∧ howOften > 0
    ({ s with
        lastRunningTime := runningTime
        strobeTrigger := light.2
        soundTrigger := if beeps then soundTrigger - howOften else soundTrigger
        brightness := if light.1 ≠ s.brightness.toUInt32 then light.1.toUInt8 else s.brightness },
      lights ++ speaker ++ if beeps then [.playTone 440 20] else [])

/-! ## The accumulators -/

/-- Neither accumulator is ahead of the last running time. -/
structure Inv (s : AlarmEffects) : Prop where
  strobe : s.strobeTrigger ≤ s.lastRunningTime
  sound : s.soundTrigger ≤ s.lastRunningTime

/-- The running time has not fallen behind the last one by more than the accumulators hold. -/
def KeepsUp (s : AlarmEffects) (millis : UInt32) : Prop :=
  s.alarmActive ≠ 0 →
    s.lastRunningTime.toNat ≤ (s.runningTime millis).toNat + s.strobeTrigger.toNat ∧
    (s.runningTime millis / totalPhaseTime ≥ 3 →
      s.lastRunningTime.toNat ≤ (s.runningTime millis).toNat + s.soundTrigger.toNat)

instance (s : AlarmEffects) (millis : UInt32) : Decidable (s.KeepsUp millis) := by
  unfold KeepsUp
  infer_instance

/-- Neither accumulator is ahead of the alarm, if there is one. -/
def InTime (s : AlarmEffects) (millis : UInt32) : Prop :=
  s.alarmActive ≠ 0 →
    s.strobeTrigger ≤ s.runningTime millis ∧ s.soundTrigger ≤ s.runningTime millis

instance (s : AlarmEffects) (millis : UInt32) : Decidable (s.InTime millis) := by
  unfold InTime
  infer_instance

/-- **Adding the time since the last call** to what was not ahead of it. -/
theorem add_delta_le {trigger last running : UInt32} (htrigger : trigger ≤ last)
    (hkeeps : last.toNat ≤ running.toNat + trigger.toNat) :
    trigger + (running - last) ≤ running := by
  rw [UInt32.le_iff_toNat_le] at htrigger ⊢
  rw [UInt32.toNat_add, UInt32.toNat_sub]
  have hlast := last.toNat_lt
  have hrunning := running.toNat_lt
  omega

theorem sub_le_of_le {trigger howOften running : UInt32} (hle : howOften ≤ trigger)
    (htrigger : trigger ≤ running) : trigger - howOften ≤ running := by
  rw [UInt32.le_iff_toNat_le] at htrigger ⊢
  rw [UInt32.toNat_sub_of_le _ _ hle]
  exact Nat.le_trans (Nat.sub_le _ _) htrigger

theorem trySubtractStrobeTrigger_le {trigger running : UInt32} (h : trigger ≤ running)
    (howOften : UInt32) : (trySubtractStrobeTrigger trigger howOften).2 ≤ running := by
  unfold trySubtractStrobeTrigger
  split
  · next hle => exact sub_le_of_le hle h
  · exact h

theorem brightnessEffects_strobe (phase phaseTime pulseTime brightness strobeTrigger : UInt32) :
    ∃ howOften, (brightnessEffects phase phaseTime pulseTime brightness strobeTrigger).2
      = (trySubtractStrobeTrigger strobeTrigger howOften).2 := by
  refine ⟨lightPeriod (if phase ≤ 4 then phase else (phase - 1) % 4 + 1), ?_⟩
  unfold brightnessEffects
  generalize (if phase ≤ 4 then phase else (phase - 1) % 4 + 1) = phase'
  dsimp only
  split <;> rfl

theorem updateAlarm_alarmActive (s : AlarmEffects) (millis : UInt32) :
    (s.updateAlarm millis).1.alarmActive = s.alarmActive := by
  rw [updateAlarm, apply_ite Prod.fst, apply_ite alarmActive]
  exact ite_self _

theorem updateAlarm_millisecondOffset (s : AlarmEffects) (millis : UInt32) :
    (s.updateAlarm millis).1.millisecondOffset = s.millisecondOffset := by
  rw [updateAlarm, apply_ite Prod.fst, apply_ite millisecondOffset]
  exact ite_self _

/-- A call does not move the alarm itself. -/
theorem updateAlarm_runningTime (s : AlarmEffects) (millis : UInt32) :
    (s.updateAlarm millis).1.runningTime millis = s.runningTime millis := by
  unfold runningTime
  rw [updateAlarm_alarmActive, updateAlarm_millisecondOffset]

/-- An active alarm: the accumulators after a call. -/
theorem updateAlarm_active {s : AlarmEffects} (hactive : s.alarmActive ≠ 0) (millis : UInt32) :
    let running := s.runningTime millis
    let delta := running - s.lastRunningTime
    let sound := if running / totalPhaseTime ≤ 2 then 0 else s.soundTrigger + delta
    let s' := (s.updateAlarm millis).1
    s'.lastRunningTime = running ∧
      (∃ howOften, s'.strobeTrigger
        = (trySubtractStrobeTrigger (s.strobeTrigger + delta) howOften).2) ∧
      (s'.soundTrigger = sound ∨ ∃ howOften ≤ sound, s'.soundTrigger = sound - howOften) := by
  intro running delta sound s'
  have hs' : s' = (s.updateAlarm millis).1 := rfl
  rw [updateAlarm, if_neg hactive] at hs'
  refine ⟨by rw [hs'], ?_, ?_⟩
  · rw [hs']
    exact brightnessEffects_strobe ..
  · rw [hs']
    by_cases hbeep : sound ≥ howOften (running / totalPhaseTime) ∧
        howOften (running / totalPhaseTime) > 0
    · exact .inr ⟨_, hbeep.1, if_pos hbeep⟩
    · exact .inl (if_neg hbeep)

theorem updateAlarm_inactive {s : AlarmEffects} (hinactive : s.alarmActive = 0)
    (millis : UInt32) :
    (s.updateAlarm millis).1.strobeTrigger = 0 ∧ (s.updateAlarm millis).1.soundTrigger = 0 := by
  rw [updateAlarm, if_pos hinactive]
  exact ⟨rfl, rfl⟩

/-- **What a call keeps**: neither accumulator gets ahead of the alarm, as long as it keeps up. -/
theorem updateAlarm_inv {s : AlarmEffects} (h : s.Inv) {millis : UInt32}
    (hkeeps : s.KeepsUp millis) :
    (s.updateAlarm millis).1.Inv ∧ (s.updateAlarm millis).1.InTime millis := by
  by_cases hactive : s.alarmActive = 0
  · obtain ⟨hstrobe, hsound⟩ := updateAlarm_inactive hactive millis
    refine ⟨⟨by rw [hstrobe]; exact UInt32.zero_le, by rw [hsound]; exact UInt32.zero_le⟩,
      fun hne => ?_⟩
    exact absurd ((updateAlarm_alarmActive s millis).trans hactive) hne
  · obtain ⟨hlast, ⟨howOften, hstrobe⟩, hsound⟩ := updateAlarm_active hactive millis
    obtain ⟨hkeepsStrobe, hkeepsSound⟩ := hkeeps hactive
    have hstrobe' : (s.updateAlarm millis).1.strobeTrigger ≤ s.runningTime millis := by
      rw [hstrobe]
      exact trySubtractStrobeTrigger_le (add_delta_le h.strobe hkeepsStrobe) howOften
    have hsum : (if s.runningTime millis / totalPhaseTime ≤ 2 then 0
        else s.soundTrigger + (s.runningTime millis - s.lastRunningTime))
        ≤ s.runningTime millis := by
      split
      · exact UInt32.zero_le
      · next hphase =>
        refine add_delta_le h.sound (hkeepsSound ?_)
        rw [ge_iff_le, UInt32.le_iff_toNat_le]
        rw [UInt32.le_iff_toNat_le] at hphase
        exact Nat.lt_of_not_le hphase
    have hsound' : (s.updateAlarm millis).1.soundTrigger ≤ s.runningTime millis := by
      rcases hsound with hsame | ⟨period, hle, hless⟩
      · rw [hsame]
        exact hsum
      · rw [hless]
        exact sub_le_of_le hle hsum
    refine ⟨⟨?_, ?_⟩, fun _ => ?_⟩
    · rw [hlast]
      exact hstrobe'
    · rw [hlast]
      exact hsound'
    · rw [updateAlarm_runningTime]
      exact ⟨hstrobe', hsound'⟩

end AlarmEffects
end CpeClock
