import CpeClock.AlarmHistory
import CpeClock.NightDayTime
import Mathlib.Dynamics.FixedPoints.Basic

/-!
# Times that are no times of day

`mail.c` passes hours and minutes on as they come, so a time may be up to 255 * 60 + 255. The
modules read such a time as midnight, but in three places, and not all of them do: `alarm_update`
as it compares, the boot code as it loads, `night_day_time_test` not at all. `alarm_get` cuts the
hour to a byte. What follows from the difference is a bound for the alarm (`reset_activeTimes_iff`)
and an order for the night (`night_reboot_iff`).
-/

namespace CpeClock

open Lib

/-! ## The alarm -/

namespace Alarm

/-- An operation on the alarm. -/
inductive Op where
  | set (hour minute : UInt8)
  | unset
  | reset
  | update (nowHour nowMinute : UInt8)
  | init

/-- The static variables and the NVRAM afterwards. -/
def Op.run (op : Op) (s : Alarm × Nvram) : Alarm × Nvram :=
  match op with
  | set hour minute =>
    (((alarmSet s.1 hour minute).value s.2).2, (alarmSet s.1 hour minute).final s.2)
  | unset => (((alarmUnset s.1).value s.2).2, (alarmUnset s.1).final s.2)
  | reset => (((alarmReset s.1).value s.2).2, (alarmReset s.1).final s.2)
  | update nowHour nowMinute =>
    (((alarmUpdate s.1 nowHour nowMinute).value s.2).2,
      (alarmUpdate s.1 nowHour nowMinute).final s.2)
  | init => (alarmInit.value s.2, alarmInit.final s.2)

/-- What can be reached from the static variables' initial values, with anything in the NVRAM. -/
inductive Reachable : Alarm × Nvram → Prop
  | start (nv : Nvram) : Reachable ({ alarmTime := 0, alarmState := .disabled }, nv)
  | op {s : Alarm × Nvram} (h : Reachable s) (op : Op) : Reachable (op.run s)

/-- The times of day at which `alarm_update` finds the alarm in its active region. -/
def activeTimes (a : Alarm) : Set (UInt8 × UInt8) :=
  { now | (now.1 < 24 ∧ now.2 < 60) ∧
    activeRegion (minuteOfDay now.1 now.2) 1 a.alarmTime alarmSoundsFor ≠ 0 }

theorem mem_activeTimes {a : Alarm} {hour minute : UInt8} :
    (hour, minute) ∈ activeTimes a ↔ (hour < 24 ∧ minute < 60) ∧
      ∃ k < 10, (a.timeInForce + k) % 1440 = 60 * hour.toNat + minute.toNat := by
  refine and_congr_right fun _ => ?_
  dsimp only
  rw [activeRegion_eq_window, minuteOfDay_toNat]
  constructor
  · intro h
    cases hw : windowMinute a.timeInForce (60 * hour.toNat + minute.toNat) with
    | none =>
      rw [hw] at h
      exact absurd rfl h
    | some k => exact ⟨k, windowMinute_eq_some_iff.mp hw⟩
  · rintro ⟨k, hk⟩
    rw [windowMinute_eq_some_iff.mpr hk]
    exact Nat.succ_ne_zero k

theorem activeTimes_congr {a a' : Alarm} (h : a.timeInForce = a'.timeInForce) :
    activeTimes a = activeTimes a' := by
  ext ⟨hour, minute⟩
  rw [mem_activeTimes, mem_activeTimes, h]

theorem timeInForce_eq (a : Alarm) :
    a.timeInForce = if 1440 ≤ a.alarmTime.toNat then 0 else a.alarmTime.toNat := by
  unfold timeInForce
  simp only [wholeDay_le_iff]

theorem reset_alarmTime (s : Alarm × Nvram) :
    (Op.reset.run s).1.alarmTime.toNat
      = 60 * (s.1.alarmTime.toNat / 60 % 256) + s.1.alarmTime.toNat % 60 := by
  have hminute : s.1.alarmTime.toNat % 60 % 256 = s.1.alarmTime.toNat % 60 := by omega
  refine (minuteOfDay_toNat s.1.alarmGet.1 s.1.alarmGet.2).trans ?_
  rw [alarmGet, UInt16.toNat_toUInt8, UInt16.toNat_toUInt8, UInt16.toNat_div, UInt16.toNat_mod,
    show (60 : UInt16).toNat = 60 from rfl, hminute]

/-- No operation makes more of a time than two bytes can. -/
theorem Reachable.alarmTime_le {s : Alarm × Nvram} (h : Reachable s) :
    s.1.alarmTime.toNat ≤ 255 * 60 + 255 := by
  induction h with
  | start nv => exact Nat.zero_le _
  | @op s _ op ih =>
    cases op with
    | set hour minute =>
      have hhour := hour.toNat_lt
      have hminute := minute.toNat_lt
      refine (minuteOfDay_toNat hour minute).trans_le ?_
      omega
    | unset => exact ih
    | reset =>
      rw [reset_alarmTime]
      omega
    | update nowHour nowMinute =>
      obtain ⟨r, state, heq | heq⟩ := s.1.alarmUpdate_cases nowHour nowMinute
      · rw [Op.run, heq]
        exact ih
      · rw [Op.run, heq]
        exact ih
    | init =>
      show (if _ then _ else _ : UInt16).toNat ≤ _
      split
      · decide
      · exact Nat.le_of_lt (Nat.lt_trans (toNat_lt_wholeDay ‹_›) (by decide))

/-- A second reset does what the first did. -/
theorem reset_timeInForce {s : Alarm × Nvram} (h : s.1.alarmTime.toNat ≤ 256 * 60) (k : Nat) :
    (Op.reset.run^[k] s).1.alarmTime.toNat ≤ 256 * 60 ∧
      (Op.reset.run^[k] s).1.timeInForce = s.1.timeInForce := by
  induction k with
  | zero => exact ⟨h, rfl⟩
  | succ k ih =>
    obtain ⟨hle, htime⟩ := ih
    have hreset := reset_alarmTime (Op.reset.run^[k] s)
    rw [Function.iterate_succ_apply', ← htime, timeInForce_eq, timeInForce_eq]
    refine ⟨by omega, ?_⟩
    split <;> split <;> omega

/-- **What a reset keeps.** In every state that can be reached, resets leave the active times as
    they are if and only if the alarm's time is at most 256:00. -/
theorem reset_activeTimes_iff {s : Alarm × Nvram} (h : Reachable s) :
    (∀ k, activeTimes (Op.reset.run^[k] s).1 = activeTimes s.1)
      ↔ s.1.alarmTime.toNat ≤ 256 * 60 := by
  constructor
  · intro hall
    by_contra hlarge
    have hbound := h.alarmTime_le
    have hreset := reset_alarmTime s
    -- It was midnight, and is a few minutes later.
    have hbefore : (0, 0) ∈ activeTimes s.1 := by
      refine mem_activeTimes.mpr ⟨by decide, 0, by decide, ?_⟩
      rw [timeInForce_eq, if_pos (by omega)]
      rfl
    rw [← hall 1] at hbefore
    obtain ⟨-, k, hk, hnow⟩ := mem_activeTimes.mp hbefore
    rw [Function.iterate_one, timeInForce_eq, if_neg (by omega), hreset] at hnow
    have hzero : 60 * (0 : UInt8).toNat + (0 : UInt8).toNat = 0 := rfl
    omega
  · intro hle k
    exact activeTimes_congr (reset_timeInForce hle k).2

/-- 7:00 stays 7:00. -/
theorem reset_activeTimes_sample :
    let s := (Op.set 7 0).run ({ alarmTime := 0, alarmState := .disabled }, fun _ => 0)
    s.1.alarmTime = 420 ∧ ∀ k, activeTimes (Op.reset.run^[k] s).1 = activeTimes s.1 :=
  ⟨by decide, (reset_activeTimes_iff ((Reachable.start fun _ => 0).op (.set 7 0))).mpr (by decide)⟩

/-- An alarm set to hour 255 and minute 61 sounds from midnight on, and after a reset from 0:01. -/
theorem reset_activeTimes_moved :
    ¬ ∀ s : Alarm × Nvram, Reachable s →
      ∀ k, activeTimes (Op.reset.run^[k] s).1 = activeTimes s.1 := by
  intro h
  have hset := (Reachable.start fun _ => 0).op (.set 255 61)
  have hmidnight : ((0 : UInt8), (0 : UInt8)) ∈ activeTimes (Op.run (.set 255 61)
      ({ alarmTime := 0, alarmState := .disabled }, fun _ => 0)).1 := ⟨by decide, by decide⟩
  rw [← h _ hset 1] at hmidnight
  exact hmidnight.2 (by decide)

end Alarm

/-! ## The night -/

namespace NightDayTime

open Alarm (minuteOfDay wholeDay loadTime loadTime_saved minuteOfDay_toNat minuteOfDay_lt
  wholeDay_le_iff)

/-- The static variables and the NVRAM after a reboot. -/
def reboot (s : NightDayTime × Nvram) : NightDayTime × Nvram :=
  (nightDayTimeInit.value s.2, nightDayTimeInit.final s.2)

/-- A boundary as the boot code has it. -/
def normalTime (t : UInt16) : UInt16 := if t ≥ wholeDay then 0 else t

theorem normalTime_toNat (t : UInt16) :
    (normalTime t).toNat = if 1440 ≤ t.toNat then 0 else t.toNat := by
  unfold normalTime
  simp only [wholeDay_le_iff]
  split <;> rfl

theorem normalTime_idem (t : UInt16) : normalTime (normalTime t) = normalTime t := by
  rw [← UInt16.toNat_inj, normalTime_toNat, normalTime_toNat]
  by_cases h : 1440 ≤ t.toNat
  · rw [if_pos h]
    rfl
  · rw [if_neg h, if_neg h]

def normal (t : NightDayTime) : NightDayTime where
  startNightTime := normalTime t.startNightTime
  startDayTime := normalTime t.startDayTime

/-- The NVRAM after the boundaries were saved. -/
def saved (t : NightDayTime) (nv : Nvram) : NightDayTime × Nvram := (t, (saveToNvram t).final nv)

theorem reboot_saved (t : NightDayTime) (nv : Nvram) :
    reboot (saved t nv) = saved t.normal ((saveToNvram t).final nv) := by
  have hvalue : nightDayTimeInit.value ((saveToNvram t).final nv) = t.normal := by
    show (⟨normalTime (loadTime (t.startNightTime >>> 8).toUInt8 t.startNightTime.toUInt8),
      normalTime (loadTime (t.startDayTime >>> 8).toUInt8 t.startDayTime.toUInt8)⟩ : NightDayTime)
        = t.normal
    rw [loadTime_saved, loadTime_saved]
    rfl
  have hfinal (nv' : Nvram) : nightDayTimeInit.final nv'
      = (saveToNvram (nightDayTimeInit.value nv')).final nv' := rfl
  rw [reboot, saved, hfinal, hvalue]
  rfl

/-- The boundaries are the same after each reboot. -/
theorem reboots_saved (t : NightDayTime) (nv : Nvram) (k : Nat) :
    ∃ nv', reboot^[k + 1] (saved t nv) = saved t.normal nv' := by
  induction k with
  | zero => exact ⟨_, reboot_saved t nv⟩
  | succ k ih =>
    obtain ⟨nv', hk⟩ := ih
    have hidem : t.normal.normal = t.normal :=
      congrArg₂ NightDayTime.mk (normalTime_idem _) (normalTime_idem _)
    rw [Function.iterate_succ_apply', hk, reboot_saved, hidem]
    exact ⟨_, rfl⟩

/-- Which times are night. -/
theorem nightDayTimeTest_iff (t : NightDayTime) (hour minute : UInt8) :
    nightDayTimeTest t hour minute = true ↔
      let now := 60 * hour.toNat + minute.toNat
      t.startDayTime.toNat = t.startNightTime.toNat ∨
        (t.startDayTime.toNat < t.startNightTime.toNat ∧
          (now < t.startDayTime.toNat ∨ t.startNightTime.toNat ≤ now)) ∨
        (t.startNightTime.toNat < t.startDayTime.toNat ∧
          t.startNightTime.toNat ≤ now ∧ now < t.startDayTime.toNat) := by
  unfold nightDayTimeTest
  dsimp only
  simp only [← UInt16.toNat_inj, UInt16.lt_iff_toNat_lt, ge_iff_le, UInt16.le_iff_toNat_le]
  rw [minuteOfDay_toNat]
  split
  · next heq => simp [heq]
  · split
    · simp; omega
    · simp; omega

/-- Whether the boundaries mean the same in their normal form. -/
theorem normal_test_iff (t : NightDayTime) :
    (∀ hour minute : UInt8, hour < 24 → minute < 60 →
        nightDayTimeTest t.normal hour minute = nightDayTimeTest t hour minute)
      ↔ ¬ (1440 ≤ t.startNightTime.toNat ∧
          (t.startDayTime.toNat = 0 ∨ t.startNightTime.toNat < t.startDayTime.toNat)) := by
  have hnormal (hour minute : UInt8) : nightDayTimeTest t.normal hour minute = true ↔ _ :=
    nightDayTimeTest_iff t.normal hour minute
  simp only [normal, normalTime_toNat] at hnormal ⊢
  constructor
  · rintro hall ⟨hnight, hday⟩
    -- Midnight is night after the reboot, and was not before.
    have hafter := hnormal 0 0
    have hzero : 60 * (0 : UInt8).toNat + (0 : UInt8).toNat = 0 := rfl
    rw [hall 0 0 (by decide) (by decide), nightDayTimeTest_iff, if_pos hnight, hzero] at hafter
    dsimp only at hafter
    split at hafter <;> omega
  · intro hnot hour minute hhour hminute
    have hnow := minuteOfDay_lt ⟨hhour, hminute⟩
    rw [minuteOfDay_toNat] at hnow
    rw [Bool.eq_iff_iff, hnormal, nightDayTimeTest_iff]
    dsimp only
    split <;> split <;> omega

/-- **Whether a reboot changes the night.** For all four bytes: any number of reboots leave
    `night_day_time_test` as it was after the set if and only if the night does not start at 24:00
    or later with the day at midnight or later still. -/
theorem night_reboot_iff (startNightHour startNightMinute startDayHour startDayMinute : UInt8)
    (nv : Nvram) :
    let p := nightDayTimeSet startNightHour startNightMinute startDayHour startDayMinute
    let night := 60 * startNightHour.toNat + startNightMinute.toNat
    let day := 60 * startDayHour.toNat + startDayMinute.toNat
    (∀ (k : Nat) (hour minute : UInt8), hour < 24 → minute < 60 →
        nightDayTimeTest (reboot^[k] (p.value nv, p.final nv)).1 hour minute
          = nightDayTimeTest (p.value nv) hour minute)
      ↔ ¬ (1440 ≤ night ∧ (day = 0 ∨ night < day)) := by
  intro p night day
  have hnight : (p.value nv).startNightTime.toNat = night := minuteOfDay_toNat _ _
  have hday : (p.value nv).startDayTime.toNat = day := minuteOfDay_toNat _ _
  have hsaved : (p.value nv, p.final nv) = saved (p.value nv) nv := rfl
  rw [← hnight, ← hday, ← normal_test_iff, hsaved]
  constructor
  · intro hall hour minute hhour hminute
    have hone := hall 1 hour minute hhour hminute
    rwa [Function.iterate_one, reboot_saved] at hone
  · intro hnormal k hour minute hhour hminute
    cases k with
    | zero => rfl
    | succ k =>
      obtain ⟨nv', hk⟩ := reboots_saved (p.value nv) nv k
      rw [hk]
      exact hnormal hour minute hhour hminute

/-- A night that starts at 24:00, with the day at 0:00, is no night at all before a reboot and the
    whole day after it. -/
theorem night_reboot_changes :
    ¬ ∀ (nh nm dh dm : UInt8) (nv : Nvram) (k : Nat) (hour minute : UInt8), hour < 24 →
      minute < 60 →
      nightDayTimeTest (reboot^[k] ((nightDayTimeSet nh nm dh dm).value nv,
          (nightDayTimeSet nh nm dh dm).final nv)).1 hour minute
        = nightDayTimeTest ((nightDayTimeSet nh nm dh dm).value nv) hour minute := by
  intro h
  have hnoon := h 24 0 0 0 (fun _ => 0) 1 12 0 (by decide) (by decide)
  revert hnoon
  decide

end NightDayTime
end CpeClock
