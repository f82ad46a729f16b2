import CpeClock.AlarmHistory
import CpeClock.NightDayTime

/-!
# Power cuts while settings are saved

The alarm and the night are saved in place, one byte after another over the bytes that are in force.
A cut leaves some of the new bytes and the rest of the old (`alarm_cut`, `night_cut`), and a time
whose two bytes come from two different times is a third one (`hybrid`). It is an old or a new time
only where one of the bytes stays the same, so a save is all or nothing when it changes one byte at
most. `save_counter` in `mail.c` writes to the slot that is not in use and switches over last.
-/

namespace CpeClock

open Lib

/-- The static variables of `alarm.c` and `night_day_time.c`. -/
structure SavedSettings where
  alarm : Alarm
  nightDayTime : NightDayTime
  deriving DecidableEq

namespace SavedSettings

open Alarm (minuteOfDay wholeDay loadTime wholeDay_le_iff minuteOfDay_lt)

/-! ## Operations that save -/

inductive Op where
  | alarmSet (hour minute : UInt8)
  | alarmUnset
  | alarmReset
  | alarmUpdate (nowHour nowMinute : UInt8)
  | nightDayTimeSet (startNightHour startNightMinute startDayHour startDayMinute : UInt8)

/-- A time of day is set. -/
def Op.InRange : Op → Prop
  | .alarmSet hour minute => hour < 24 ∧ minute < 60
  | .nightDayTimeSet startNightHour startNightMinute startDayHour startDayMinute =>
    (startNightHour < 24 ∧ startNightMinute < 60) ∧ startDayHour < 24 ∧ startDayMinute < 60
  | _ => True

instance : ∀ op : Op, Decidable op.InRange
  | .alarmSet hour minute => inferInstanceAs (Decidable (hour < 24 ∧ minute < 60))
  | .nightDayTimeSet nh nm dh dm =>
    inferInstanceAs (Decidable ((nh < 24 ∧ nm < 60) ∧ dh < 24 ∧ dm < 60))
  | .alarmUnset | .alarmReset | .alarmUpdate .. => .isTrue trivial

def Op.program (s : SavedSettings) : Op → Sketch SavedSettings
  | alarmSet hour minute => do
    let (_, alarm) ← s.alarm.alarmSet hour minute
    return { s with alarm := alarm }
  | alarmUnset => do
    let (_, alarm) ← s.alarm.alarmUnset
    return { s with alarm := alarm }
  | alarmReset => do
    let (_, alarm) ← s.alarm.alarmReset
    return { s with alarm := alarm }
  | alarmUpdate nowHour nowMinute => do
    let (_, alarm) ← s.alarm.alarmUpdate nowHour nowMinute
    return { s with alarm := alarm }
  | nightDayTimeSet startNightHour startNightMinute startDayHour startDayMinute => do
    let nightDayTime ← NightDayTime.nightDayTimeSet startNightHour startNightMinute startDayHour
      startDayMinute
    return { s with nightDayTime := nightDayTime }

/-- `alarm_init` and `night_day_time_init`. -/
def boot : Sketch SavedSettings := do
  let alarm ← Alarm.alarmInit
  let nightDayTime ← NightDayTime.nightDayTimeInit
  return { alarm := alarm, nightDayTime := nightDayTime }

/-- The settings and the NVRAM after power came up, with anything in the NVRAM, and some
    operations. -/
inductive Reachable : SavedSettings → Nvram → Prop
  | boot (nv : Nvram) : Reachable (boot.value nv) (boot.final nv)
  | op {s : SavedSettings} {nv : Nvram} (h : Reachable s nv) {op : Op} (hop : op.InRange) :
      Reachable ((op.program s).value nv) ((op.program s).final nv)

/-! ## Times put together from two -/

/-- The time that comes of two stored bytes. -/
def loadedTime (hi lo : UInt8) : UInt16 :=
  if loadTime hi lo ≥ wholeDay then 0 else loadTime hi lo

/-- What is loaded where the high byte of one time and the low byte of another are stored. -/
def hybrid (high low : UInt16) : UInt16 := loadedTime (high >>> 8).toUInt8 low.toUInt8

theorem hybrid_toNat (high low : UInt16) :
    (hybrid high low).toNat
      = if 1440 ≤ 256 * (high.toNat / 256) + low.toNat % 256 then 0
        else 256 * (high.toNat / 256) + low.toNat % 256 := by
  have htime := Alarm.loadTime_toNat (high >>> 8).toUInt8 low.toUInt8
  rw [Alarm.highByte_toNat, UInt16.toNat_toUInt8] at htime
  have hge : loadTime (high >>> 8).toUInt8 low.toUInt8 ≥ wholeDay
      ↔ 1440 ≤ 256 * (high.toNat / 256) + low.toNat % 256 := by
    rw [wholeDay_le_iff, htime]
  unfold hybrid loadedTime
  by_cases h : 1440 ≤ 256 * (high.toNat / 256) + low.toNat % 256
  · rw [if_pos (hge.mpr h), if_pos h]
    rfl
  · rw [if_neg (mt hge.mp h), if_neg h, htime]

def SameHigh (t t' : UInt16) : Prop := t.toNat / 256 = t'.toNat / 256

def SameLow (t t' : UInt16) : Prop := t.toNat % 256 = t'.toNat % 256

instance (t t' : UInt16) : Decidable (SameHigh t t') := by unfold SameHigh; infer_instance

instance (t t' : UInt16) : Decidable (SameLow t t') := by unfold SameLow; infer_instance

/-- Times of which one byte at most is different. -/
def OneByte (t t' : UInt16) : Prop := SameHigh t t' ∨ SameLow t t'

instance (t t' : UInt16) : Decidable (OneByte t t') := by unfold OneByte; infer_instance

theorem hybrid_self {t : UInt16} (ht : t.toNat < 1440) : hybrid t t = t := by
  rw [← UInt16.toNat_inj, hybrid_toNat]
  split <;> omega

/-- A time made of two is the old one only if the high bytes agree: a time that is folded to
    midnight has a high byte that midnight has not. -/
theorem hybrid_eq_old_iff {t t' : UInt16} (ht : t.toNat < 1440) (ht' : t'.toNat < 1440) :
    hybrid t' t = t ↔ SameHigh t t' := by
  rw [← UInt16.toNat_inj, hybrid_toNat, SameHigh]
  split <;> omega

theorem hybrid_eq_new_iff {t t' : UInt16} (ht' : t'.toNat < 1440) :
    hybrid t' t = t' ↔ SameLow t t' := by
  rw [← UInt16.toNat_inj, hybrid_toNat, SameLow]
  split <;> omega

/-! ## What is stored -/

/-- The NVRAM holds the settings as they are saved. -/
structure Holds (nv : Nvram) (s : SavedSettings) : Prop where
  alarmHi : nv Nvram.alarmHi = (s.alarm.alarmTime >>> 8).toUInt8
  alarmLo : nv Nvram.alarmLo = s.alarm.alarmTime.toUInt8
  alarmState : nv Nvram.alarmState = s.alarm.alarmState.toByte
  nightTimeHi : nv Nvram.nightTimeHi = (s.nightDayTime.startNightTime >>> 8).toUInt8
  nightTimeLo : nv Nvram.nightTimeLo = s.nightDayTime.startNightTime.toUInt8
  dayTimeHi : nv Nvram.dayTimeHi = (s.nightDayTime.startDayTime >>> 8).toUInt8
  dayTimeLo : nv Nvram.dayTimeLo = s.nightDayTime.startDayTime.toUInt8

/-- Times of day, all of them. -/
structure InRange (s : SavedSettings) : Prop where
  alarm : s.alarm.alarmTime.toNat < 1440
  night : s.nightDayTime.startNightTime.toNat < 1440
  day : s.nightDayTime.startDayTime.toNat < 1440

theorem boot_value (nv : Nvram) :
    boot.value nv = {
      alarm := {
        alarmTime := loadedTime (nv Nvram.alarmHi) (nv Nvram.alarmLo)
        alarmState := AlarmState.ofByte (nv Nvram.alarmState) }
      nightDayTime := {
        startNightTime := loadedTime (nv Nvram.nightTimeHi) (nv Nvram.nightTimeLo)
        startDayTime := loadedTime (nv Nvram.dayTimeHi) (nv Nvram.dayTimeLo) } } := rfl

theorem boot_alarm {nv : Nvram} {s : SavedSettings} (h : Holds nv s) (hs : InRange s) :
    (boot.value nv).alarm = s.alarm := by
  rw [boot_value, h.alarmHi, h.alarmLo, h.alarmState, AlarmState.ofByte_toByte]
  exact congrArg (Alarm.mk · s.alarm.alarmState) (hybrid_self hs.alarm)

theorem boot_nightDayTime {nv : Nvram} {s : SavedSettings} (h : Holds nv s) (hs : InRange s) :
    (boot.value nv).nightDayTime = s.nightDayTime := by
  rw [boot_value, h.nightTimeHi, h.nightTimeLo, h.dayTimeHi, h.dayTimeLo]
  exact congrArg₂ NightDayTime.mk (hybrid_self hs.night) (hybrid_self hs.day)

/-- **Saving an alarm, cut anywhere.** -/
theorem boot_alarm_cut {nv : Nvram} {s : SavedSettings} (h : Holds nv s) (hs : InRange s)
    (alarm : Alarm) (n : Nat) :
    boot.value ((Alarm.saveToNvram alarm).cut nv n) = {
      alarm := {
        alarmTime := hybrid (if 1 ≤ n then alarm.alarmTime else s.alarm.alarmTime)
          (if 2 ≤ n then alarm.alarmTime else s.alarm.alarmTime)
        alarmState := if 3 ≤ n then alarm.alarmState else s.alarm.alarmState }
      nightDayTime := s.nightDayTime } := by
  have hnight := boot_nightDayTime h hs
  have hstate := AlarmState.ofByte_toByte
  rw [boot_value] at hnight
  unfold hybrid
  match n with
  | 0 => rw [if_neg (by omega), if_neg (by omega), if_neg (by omega), ← h.alarmHi, ← h.alarmLo,
      ← hstate s.alarm.alarmState, ← h.alarmState, ← hnight]; rfl
  | 1 => rw [if_pos (by omega), if_neg (by omega), if_neg (by omega), ← h.alarmLo,
      ← hstate s.alarm.alarmState, ← h.alarmState, ← hnight]; rfl
  | 2 => rw [if_pos (by omega), if_pos (by omega), if_neg (by omega),
      ← hstate s.alarm.alarmState, ← h.alarmState, ← hnight]; rfl
  | n + 3 => rw [if_pos (by omega), if_pos (by omega), if_pos (by omega),
      ← hstate alarm.alarmState, ← hnight, Traced.cut_of_length_le (Nat.le_add_left 3 n)]; rfl

/-- **Saving a night, cut anywhere.** -/
theorem boot_night_cut {nv : Nvram} {s : SavedSettings} (h : Holds nv s) (hs : InRange s)
    (t : NightDayTime) (n : Nat) :
    boot.value ((NightDayTime.saveToNvram t).cut nv n) = {
      alarm := s.alarm
      nightDayTime := {
        startNightTime :=
          hybrid (if 1 ≤ n then t.startNightTime else s.nightDayTime.startNightTime)
            (if 2 ≤ n then t.startNightTime else s.nightDayTime.startNightTime)
        startDayTime :=
          hybrid (if 3 ≤ n then t.startDayTime else s.nightDayTime.startDayTime)
            (if 4 ≤ n then t.startDayTime else s.nightDayTime.startDayTime) } } := by
  have halarm := boot_alarm h hs
  rw [boot_value] at halarm
  unfold hybrid
  match n with
  | 0 => rw [if_neg (by omega), if_neg (by omega), if_neg (by omega), if_neg (by omega),
      ← h.nightTimeHi, ← h.nightTimeLo, ← h.dayTimeHi, ← h.dayTimeLo, ← halarm]; rfl
  | 1 => rw [if_pos (by omega), if_neg (by omega), if_neg (by omega), if_neg (by omega),
      ← h.nightTimeLo, ← h.dayTimeHi, ← h.dayTimeLo, ← halarm]; rfl
  | 2 => rw [if_pos (by omega), if_pos (by omega), if_neg (by omega), if_neg (by omega),
      ← h.dayTimeHi, ← h.dayTimeLo, ← halarm]; rfl
  | 3 => rw [if_pos (by omega), if_pos (by omega), if_pos (by omega), if_neg (by omega),
      ← h.dayTimeLo, ← halarm]; rfl
  | n + 4 => rw [if_pos (by omega), if_pos (by omega), if_pos (by omega), if_pos (by omega),
      ← halarm, Traced.cut_of_length_le (Nat.le_add_left 4 n)]; rfl

/-! ## Which saves are all or nothing -/

theorem alarmSave_atomic_iff {nv : Nvram} {s : SavedSettings} (h : Holds nv s) (hs : InRange s)
    {alarm : Alarm} (halarm : alarm.alarmTime.toNat < 1440) :
    (∀ n, boot.value ((Alarm.saveToNvram alarm).cut nv n) = s ∨
        boot.value ((Alarm.saveToNvram alarm).cut nv n) = { s with alarm := alarm })
      ↔ s.alarm.alarmTime = alarm.alarmTime ∨ s.alarm.alarmState = alarm.alarmState ∧
          OneByte s.alarm.alarmTime alarm.alarmTime := by
  have hcut := boot_alarm_cut h hs alarm
  have hold := hybrid_eq_old_iff hs.alarm halarm
  have hnew := hybrid_eq_new_iff (t := s.alarm.alarmTime) halarm
  have hself := hybrid_self hs.alarm
  have hself' := hybrid_self halarm
  obtain ⟨⟨time, state⟩, nightDayTime⟩ := s
  obtain ⟨time', state'⟩ := alarm
  simp only [hcut, mk.injEq, Alarm.mk.injEq, and_true] at hold hnew hself hself' ⊢
  constructor
  · intro hall
    have hone := hall 1
    have htwo := hall 2
    simp only [Nat.le_refl, Nat.reduceLeDiff, if_true, if_false, hself', and_true, hold, hnew]
      at hone htwo
    rcases htwo with heq | ⟨-, hstate⟩
    · exact .inl heq.symm
    · refine .inr ⟨hstate, ?_⟩
      rcases hone with hhigh | ⟨hlow, -⟩
      · exact .inl hhigh
      · exact .inr hlow
  · rintro (rfl | ⟨rfl, hsame⟩) n
    · -- Only the state changes, and it is written last.
      simp only [ite_self, hself, true_and]
      by_cases hn : 3 ≤ n
      · exact .inr (if_pos hn)
      · exact .inl (if_neg hn)
    · simp only [ite_self, and_true]
      match n with
      | 0 => exact .inl hself
      | 1 => exact hsame.imp hold.mpr hnew.mpr
      | n + 2 =>
        rw [if_pos (by omega), if_pos (by omega)]
        exact .inr hself'

theorem nightSave_atomic_iff {nv : Nvram} {s : SavedSettings} (h : Holds nv s) (hs : InRange s)
    {t : NightDayTime} (hnight : t.startNightTime.toNat < 1440)
    (hday : t.startDayTime.toNat < 1440) :
    (∀ n, boot.value ((NightDayTime.saveToNvram t).cut nv n) = s ∨
        boot.value ((NightDayTime.saveToNvram t).cut nv n) = { s with nightDayTime := t })
      ↔ s.nightDayTime.startNightTime = t.startNightTime ∧
          OneByte s.nightDayTime.startDayTime t.startDayTime ∨
        s.nightDayTime.startDayTime = t.startDayTime ∧
          OneByte s.nightDayTime.startNightTime t.startNightTime := by
  have hcut := boot_night_cut h hs t
  have hnightOld := hybrid_eq_old_iff hs.night hnight
  have hnightNew := hybrid_eq_new_iff (t := s.nightDayTime.startNightTime) hnight
  have hdayOld := hybrid_eq_old_iff hs.day hday
  have hdayNew := hybrid_eq_new_iff (t := s.nightDayTime.startDayTime) hday
  have hnightSelf := hybrid_self hs.night
  have hdaySelf := hybrid_self hs.day
  have hnightSelf' := hybrid_self hnight
  have hdaySelf' := hybrid_self hday
  obtain ⟨alarm, night, day⟩ := s
  obtain ⟨night', day'⟩ := t
  simp only [hcut, mk.injEq, NightDayTime.mk.injEq, true_and]
    at hnightOld hnightNew hdayOld hdayNew hnightSelf hdaySelf hnightSelf' hdaySelf' ⊢
  constructor
  · intro hall
    have hone := hall 1
    have htwo := hall 2
    have hthree := hall 3
    simp only [Nat.le_refl, Nat.reduceLeDiff, if_true, if_false, hdaySelf, hnightSelf', and_true,
      true_and, hnightOld, hnightNew, hdayOld, hdayNew] at hone htwo hthree
    rcases htwo with rfl | rfl
    · -- The night stays the same.
      refine .inl ⟨rfl, ?_⟩
      rcases hthree with ⟨-, hhigh⟩ | hlow
      · exact .inl hhigh
      · exact .inr hlow
    · refine .inr ⟨rfl, ?_⟩
      rcases hone with hhigh | ⟨hlow, -⟩
      · exact .inl hhigh
      · exact .inr hlow
  · rintro (⟨rfl, hsame⟩ | ⟨rfl, hsame⟩) n
    · simp only [ite_self, hnightSelf, true_and]
      match n with
      | 0 | 1 | 2 => exact .inl hdaySelf
      | 3 => exact hsame.imp hdayOld.mpr hdayNew.mpr
      | n + 4 =>
        rw [if_pos (by omega), if_pos (by omega)]
        exact .inr hdaySelf'
    · simp only [ite_self, hdaySelf, and_true]
      match n with
      | 0 => exact .inl hnightSelf
      | 1 => exact hsame.imp hnightOld.mpr hnightNew.mpr
      | n + 2 =>
        rw [if_pos (by omega), if_pos (by omega)]
        exact .inr hnightSelf'

/-! ## The settings that can be reached -/

theorem holds_boot (nv : Nvram) : Holds (boot.final nv) (boot.value nv) where
  alarmHi := rfl
  alarmLo := rfl
  alarmState := rfl
  nightTimeHi := rfl
  nightTimeLo := rfl
  dayTimeHi := rfl
  dayTimeLo := rfl

theorem Holds.alarm {nv : Nvram} {s : SavedSettings} (h : Holds nv s) (alarm : Alarm) :
    Holds ((Alarm.saveToNvram alarm).final nv) { s with alarm := alarm } where
  alarmHi := rfl
  alarmLo := rfl
  alarmState := rfl
  nightTimeHi := h.nightTimeHi
  nightTimeLo := h.nightTimeLo
  dayTimeHi := h.dayTimeHi
  dayTimeLo := h.dayTimeLo

theorem Holds.nightDayTime {nv : Nvram} {s : SavedSettings} (h : Holds nv s) (t : NightDayTime) :
    Holds ((NightDayTime.saveToNvram t).final nv) { s with nightDayTime := t } where
  alarmHi := h.alarmHi
  alarmLo := h.alarmLo
  alarmState := h.alarmState
  nightTimeHi := rfl
  nightTimeLo := rfl
  dayTimeHi := rfl
  dayTimeLo := rfl

theorem loadedTime_lt (hi lo : UInt8) : (loadedTime hi lo).toNat < 1440 := by
  unfold loadedTime
  split
  · decide
  · exact Alarm.toNat_lt_wholeDay ‹_›

theorem alarmReset_time {s : SavedSettings} (hs : InRange s) :
    minuteOfDay s.alarm.alarmGet.1 s.alarm.alarmGet.2 = s.alarm.alarmTime :=
  Alarm.minuteOfDay_alarmGet (Nat.lt_trans hs.alarm (by decide))

theorem Reachable.inv {s : SavedSettings} {nv : Nvram} (h : Reachable s nv) :
    Holds nv s ∧ InRange s := by
  induction h with
  | boot nv => exact ⟨holds_boot nv, loadedTime_lt _ _, loadedTime_lt _ _, loadedTime_lt _ _⟩
  | @op s nv _ op hop ih =>
    obtain ⟨hholds, hs⟩ := ih
    cases op with
    | alarmSet hour minute => exact ⟨hholds.alarm _, minuteOfDay_lt hop, hs.night, hs.day⟩
    | alarmUnset => exact ⟨hholds.alarm _, hs.alarm, hs.night, hs.day⟩
    | alarmReset =>
      refine ⟨hholds.alarm _, ?_, hs.night, hs.day⟩
      exact (congrArg UInt16.toNat (alarmReset_time hs)).trans_lt hs.alarm
    | alarmUpdate nowHour nowMinute =>
      obtain ⟨r, state, heq | heq⟩ := s.alarm.alarmUpdate_cases nowHour nowMinute
      · rw [Op.program, heq]
        exact ⟨hholds, hs⟩
      · rw [Op.program, heq]
        exact ⟨hholds.alarm _, hs.alarm, hs.night, hs.day⟩
    | nightDayTimeSet startNightHour startNightMinute startDayHour startDayMinute =>
      exact ⟨hholds.nightDayTime _, hs.alarm, minuteOfDay_lt hop.1, minuteOfDay_lt hop.2⟩

/-! ## Operations that are cut -/

/-- One byte at most changes of those that an operation saves. -/
def Op.ChangesOneByte (s : SavedSettings) : Op → Prop
  | .alarmSet hour minute =>
    s.alarm.alarmTime = minuteOfDay hour minute ∨
      s.alarm.alarmState = .reset ∧ OneByte s.alarm.alarmTime (minuteOfDay hour minute)
  | .nightDayTimeSet startNightHour startNightMinute startDayHour startDayMinute =>
    s.nightDayTime.startNightTime = minuteOfDay startNightHour startNightMinute ∧
        OneByte s.nightDayTime.startDayTime (minuteOfDay startDayHour startDayMinute) ∨
      s.nightDayTime.startDayTime = minuteOfDay startDayHour startDayMinute ∧
        OneByte s.nightDayTime.startNightTime (minuteOfDay startNightHour startNightMinute)
  | _ => True

/-- A message is displayed before anything is written. -/
theorem cut_display (msg : String) {α : Type} (p : Sketch α) (nv : Nvram) (n : Nat) :
    (displayMessage msg >>= fun _ => p).cut nv n = p.cut nv (n - 1) := by
  match n with
  | 0 => rfl
  | 1 => rfl
  | n + 2 =>
    rw [Traced.cut_bind]
    exact if_neg (by simp [displayMessage])

/-- Wherever the program is cut, the settings after the reboot are those from before it, or those
    it leaves. -/
def AllOrNothing (s : SavedSettings) (nv : Nvram) (p : Sketch SavedSettings) : Prop :=
  ∀ n, boot.value (p.cut nv n) = s ∨ boot.value (p.cut nv n) = p.value nv

/-- An operation that displays a message, saves and returns: it is the save that is cut. -/
theorem allOrNothing_iff {s : SavedSettings} {nv : Nvram} {msg : String} {save : Sketch Unit}
    {α : Type} {r : α} {f : α → SavedSettings} :
    AllOrNothing s nv
        ((displayMessage msg >>= fun _ => save >>= fun _ => pure r) >>= fun x => pure (f x))
      ↔ ∀ n, boot.value (save.cut nv n) = s ∨ boot.value (save.cut nv n) = f r := by
  have hcut (n : Nat) : ((displayMessage msg >>= fun _ => save >>= fun _ => pure r)
      >>= fun x => (pure (f x) : Sketch SavedSettings)).cut nv n = save.cut nv (n - 1) := by
    rw [Traced.cut_bind_pure, cut_display, Traced.cut_bind_pure]
  unfold AllOrNothing
  simp only [hcut]
  exact ⟨fun h n => h (n + 1), fun h n => h (n - 1)⟩

/-- A save that changes only the state of the alarm. -/
theorem alarmState_atomic {nv : Nvram} {s : SavedSettings} (h : Holds nv s) (hs : InRange s)
    (state : AlarmState) (n : Nat) :
    let alarm := { s.alarm with alarmState := state }
    boot.value ((Alarm.saveToNvram alarm).cut nv n) = s ∨
      boot.value ((Alarm.saveToNvram alarm).cut nv n) = { s with alarm := alarm } := by
  intro alarm
  have htime : alarm.alarmTime.toNat < 1440 := hs.alarm
  exact (alarmSave_atomic_iff h hs htime).mpr (.inl rfl) n

/-- **When a save is all or nothing.** In every state that can be reached, if and only if the
    operation changes one byte at most. -/
theorem settings_atomic_iff {s : SavedSettings} {nv : Nvram} (h : Reachable s nv) {op : Op}
    (hop : op.InRange) : AllOrNothing s nv (op.program s) ↔ op.ChangesOneByte s := by
  obtain ⟨hholds, hs⟩ := h.inv
  cases op with
  | alarmSet hour minute =>
    exact allOrNothing_iff.trans (alarmSave_atomic_iff hholds hs (minuteOfDay_lt hop))
  | alarmUnset =>
    exact allOrNothing_iff.trans (iff_true_intro (alarmState_atomic hholds hs .disabled))
  | alarmReset =>
    have htime := alarmReset_time hs
    refine allOrNothing_iff.trans (iff_true_intro ?_)
    exact (alarmSave_atomic_iff hholds hs ((congrArg UInt16.toNat htime).trans_lt hs.alarm)).mpr
      (.inl htime.symm)
  | alarmUpdate nowHour nowMinute =>
    refine iff_true_intro fun n => ?_
    have hcut : ((Op.alarmUpdate nowHour nowMinute).program s).cut nv n
        = (s.alarm.alarmUpdate nowHour nowMinute).cut nv n := Traced.cut_bind_pure _ n
    obtain ⟨r, state, heq | heq⟩ := s.alarm.alarmUpdate_cases nowHour nowMinute
    · left
      rw [hcut, heq, Traced.cut_pure]
      exact congrArg₂ SavedSettings.mk (boot_alarm hholds hs) (boot_nightDayTime hholds hs)
    · rw [hcut, Op.program, heq, Traced.cut_bind_pure]
      exact alarmState_atomic hholds hs state n
  | nightDayTimeSet startNightHour startNightMinute startDayHour startDayMinute =>
    exact allOrNothing_iff.trans
      (nightSave_atomic_iff hholds hs (minuteOfDay_lt hop.1) (minuteOfDay_lt hop.2))

/-- The alarm moves from 4:16 to 4:17, and only the low byte changes. -/
theorem settings_atomic_sample :
    let s := (boot.value fun _ => 0)
    let nv := (boot.final fun _ => 0)
    let set := Op.alarmSet 4 16
    AllOrNothing ((set.program s).value nv) ((set.program s).final nv)
      ((Op.alarmSet 4 17).program ((set.program s).value nv)) := by
  have hset : Reachable _ _ := (Reachable.boot fun _ => 0).op
    (show (Op.alarmSet 4 16).InRange by decide)
  have hmove : (Op.alarmSet 4 17).InRange := by decide
  exact (settings_atomic_iff hset hmove).mpr (.inr (by decide))

/-- The alarm moves from 4:15 to 4:16. After a cut between the two bytes it is set for 8:31. -/
theorem settings_mixed :
    ¬ ∀ (s : SavedSettings) (nv : Nvram) (op : Op), Reachable s nv → op.InRange →
      AllOrNothing s nv (op.program s) := by
  intro h
  have hset : Reachable _ _ := (Reachable.boot fun _ => 0).op
    (show (Op.alarmSet 4 15).InRange by decide)
  have hall := h _ _ (.alarmSet 4 16) hset (by decide) 2
  revert hall
  decide

end SavedSettings
end CpeClock
