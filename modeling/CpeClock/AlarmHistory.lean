import CpeClock.Alarm

/-!
# The alarm over whole histories

What the alarm is for: once set, it rings for the ten minutes from its time on, the next time
these come round, and once. `ring` is that machine, on the minutes of the window alone; it has no
memory to lose and no arithmetic on times.

`alarm.c` keeps the same machine in RAM, saves it after each transition and reads it back at
boot. `Agrees` says that the RAM and the NVRAM both stand for one state of the machine; every
call keeps it (`update_agrees`, `reboot_agrees`), so reboots cannot be noticed (`results_eq`),
and the histories are those of the machine (`runRing_reset`).
-/

namespace CpeClock
namespace Alarm

open Lib

/-! ## The window -/

/-- The alarm time in force: a time of 24:00 or later counts as midnight. -/
def timeInForce (a : Alarm) : Nat := if a.alarmTime ≥ wholeDay then 0 else a.alarmTime.toNat

/-- Which minute of the alarm's ten a time of day is, if any. -/
def windowMinute (alarm now : Nat) : Option Nat :=
  (List.range alarmSoundsFor).find? fun k => (alarm + k) % 1440 = now

theorem windowMinute_eq_some_iff {alarm now k : Nat} :
    windowMinute alarm now = some k ↔ k < 10 ∧ (alarm + k) % 1440 = now := by
  unfold windowMinute alarmSoundsFor
  rw [List.find?_range_eq_some]
  constructor
  · rintro ⟨hk, hmem, -⟩
    exact ⟨List.mem_range.mp hmem, of_decide_eq_true hk⟩
  · rintro ⟨hk, hnow⟩
    refine ⟨decide_eq_true hnow, List.mem_range.mpr hk, fun j hj => ?_⟩
    have hne : (alarm + j) % 1440 ≠ now := by omega
    simpa using hne

theorem wholeDay_le_iff {t : UInt16} : t ≥ wholeDay ↔ 1440 ≤ t.toNat := UInt16.le_iff_toNat_le

theorem toNat_lt_wholeDay {t : UInt16} (h : ¬ t ≥ wholeDay) : t.toNat < 1440 :=
  Nat.lt_of_not_le (mt wholeDay_le_iff.mpr h)

/-- The loop finds the minute of the window. -/
theorem activeRegion_eq (now : UInt16) (rounds : Nat) :
    ∀ (i : Nat) (t : UInt16), activeRegion now i t rounds
      = match (List.range rounds).find? fun k =>
          ((if t ≥ wholeDay then 0 else t.toNat) + k) % 1440 = now.toNat with
        | some k => i + k
        | none => 0 := by
  induction rounds with
  | zero => intro i t; rfl
  | succ rounds ih =>
    intro i t
    have hmid : ∃ t' : UInt16, (if t ≥ wholeDay then 0 else t) = t' ∧
        (if t ≥ wholeDay then 0 else t.toNat) = t'.toNat ∧ t'.toNat < 1440 := by
      split
      · exact ⟨0, rfl, rfl, by decide⟩
      · exact ⟨t, rfl, rfl, toNat_lt_wholeDay ‹_›⟩
    obtain ⟨t', ht, htn, hlt⟩ := hmid
    rw [activeRegion, ht, htn, List.range_succ_eq_map, List.find?_cons]
    simp only [Nat.add_zero, Nat.mod_eq_of_lt hlt]
    by_cases heq : t' = now
    · subst heq
      simp
    · have hne : t'.toNat ≠ now.toNat := fun h => heq (UInt16.toNat_inj.mp h)
      have hsucc : (t' + 1).toNat = t'.toNat + 1 := by
        rw [UInt16.toNat_add]
        exact Nat.mod_eq_of_lt (by change t'.toNat + 1 < 65536; omega)
      have hnext : (if t' + 1 ≥ wholeDay then 0 else (t' + 1).toNat) = (t'.toNat + 1) % 1440 := by
        have hge : t' + 1 ≥ wholeDay ↔ 1440 ≤ t'.toNat + 1 := by
          rw [wholeDay_le_iff, hsucc]
        split
        · have := hge.mp ‹_›
          omega
        · have := mt hge.mpr ‹_›
          rw [hsucc]
          omega
      rw [if_neg heq, ih, hnext, decide_eq_false hne, List.find?_map]
      have hcomp : ((fun k => decide ((t'.toNat + k) % 1440 = now.toNat)) ∘ Nat.succ)
          = fun k => decide (((t'.toNat + 1) % 1440 + k) % 1440 = now.toNat) := by
        funext k
        have : (t'.toNat + k.succ) % 1440 = ((t'.toNat + 1) % 1440 + k) % 1440 := by omega
        simp only [Function.comp_apply, this]
      rw [hcomp]
      cases (List.range rounds).find? _ with
      | none => rfl
      | some k => exact Nat.succ_add_eq_add_succ i k

/-- What `alarm_update` computes of the time, in terms of the window. -/
theorem activeRegion_eq_window (a : Alarm) (hour minute : UInt8) :
    activeRegion (minuteOfDay hour minute) 1 a.alarmTime alarmSoundsFor
      = match windowMinute a.timeInForce (minuteOfDay hour minute).toNat with
        | some k => k + 1
        | none => 0 := by
  rw [activeRegion_eq]
  show (match windowMinute a.timeInForce _ with | some k => 1 + k | none => 0) = _
  cases windowMinute a.timeInForce (minuteOfDay hour minute).toNat with
  | none => rfl
  | some k => exact Nat.add_comm 1 k

/-! ## The machine -/

/-- One update of the alarm, told which minute of the window it is: what it returns, and the state
    afterwards. -/
def ring : AlarmState → Option Nat → Nat × AlarmState
  | .reset, some _ => (0, .reset)
  | .reset, none => (0, .enabled)
  | .enabled, some k => (k + 1, .active)
  | .enabled, none => (0, .enabled)
  | .active, some k => (k + 1, .active)
  | .active, none => (0, .disabled)
  | .disabled, _ => (0, .disabled)

def runRing : AlarmState → List (Option Nat) → List Nat
  | _, [] => []
  | s, w :: ws => (ring s w).1 :: runRing (ring s w).2 ws

theorem runRing_disabled (ws : List (Option Nat)) : runRing .disabled ws = ws.map fun _ => 0 := by
  induction ws with
  | nil => rfl
  | cons w ws ih => rw [runRing, List.map_cons, ring, ih]

/-- The value of an update in the window. -/
def windowValue (w : Option Nat) : Nat := w.elim 0 (· + 1)

theorem runRing_active (ws : List (Option Nat)) :
    runRing .active ws
      = (ws.takeWhile Option.isSome).map windowValue
        ++ (ws.dropWhile Option.isSome).map fun _ => 0 := by
  induction ws with
  | nil => rfl
  | cons w ws ih =>
    cases w with
    | none => rw [runRing, ring, runRing_disabled]; rfl
    | some k => rw [runRing, ring, ih]; rfl

theorem runRing_enabled (ws : List (Option Nat)) :
    runRing .enabled ws
      = ((ws.takeWhile Option.isNone).map fun _ => 0)
        ++ runRing .active (ws.dropWhile Option.isNone) := by
  induction ws with
  | nil => rfl
  | cons w ws ih =>
    cases w with
    | none => rw [runRing, ring, ih]; rfl
    | some k => rfl

theorem runRing_waiting (ws : List (Option Nat)) :
    runRing .reset ws
      = ((ws.takeWhile Option.isSome).map fun _ => 0)
        ++ runRing .enabled (ws.dropWhile Option.isSome) := by
  induction ws with
  | nil => rfl
  | cons w ws ih =>
    cases w with
    | none => rfl
    | some k => rw [runRing, ring, ih]; rfl

/-- The updates of a history in four parts: in the window from the start, then out of it, then in
    it, and the rest. The alarm rings in the third part only, with the minute it is in. -/
def ringOnce (ws : List (Option Nat)) : List Nat :=
  let outside := ws.dropWhile Option.isSome
  let inside := outside.dropWhile Option.isNone
  ((ws.takeWhile Option.isSome).map fun _ => 0)
    ++ ((outside.takeWhile Option.isNone).map fun _ => 0)
    ++ (inside.takeWhile Option.isSome).map windowValue
    ++ (inside.dropWhile Option.isSome).map fun _ => 0

theorem runRing_reset (ws : List (Option Nat)) : runRing .reset ws = ringOnce ws := by
  rw [runRing_waiting, runRing_enabled, runRing_active, ringOnce]
  simp only [List.append_assoc]

/-! ## Saving and loading -/

theorem loadTime_toNat (hi lo : UInt8) : (loadTime hi lo).toNat = 256 * hi.toNat + lo.toNat := by
  have hhi := hi.toNat_lt
  simp only [loadTime, UInt16.toNat_or, UInt16.toNat_shiftLeft, UInt8.toNat_toUInt16]
  rw [show (8 : UInt16).toNat % 16 = 8 from rfl, Nat.shiftLeft_eq,
    Hmac433.or_byte lo (by omega)]
  omega

theorem highByte_toNat (t : UInt16) : (t >>> 8).toUInt8.toNat = t.toNat / 256 := by
  have ht := t.toNat_lt
  rw [UInt16.toNat_toUInt8, UInt16.toNat_shiftRight, show (8 : UInt16).toNat % 16 = 8 from rfl,
    Nat.shiftRight_eq_div_pow]
  omega

theorem loadTime_saved (t : UInt16) : loadTime (t >>> 8).toUInt8 t.toUInt8 = t := by
  rw [← UInt16.toNat_inj, loadTime_toNat, highByte_toNat, UInt16.toNat_toUInt8]
  omega

theorem minuteOfDay_toNat (hour minute : UInt8) :
    (minuteOfDay hour minute).toNat = 60 * hour.toNat + minute.toNat := by
  have hhour := hour.toNat_lt
  have hminute := minute.toNat_lt
  have hsixty : (60 : UInt16).toNat = 60 := rfl
  rw [minuteOfDay, UInt16.toNat_add, UInt16.toNat_mul, UInt8.toNat_toUInt16, UInt8.toNat_toUInt16,
    hsixty]
  omega

theorem minuteOfDay_lt {hour minute : UInt8} (h : hour < 24 ∧ minute < 60) :
    (minuteOfDay hour minute).toNat < 1440 := by
  have hhour : hour.toNat < 24 := UInt8.lt_iff_toNat_lt.mp h.1
  have hminute : minute.toNat < 60 := UInt8.lt_iff_toNat_lt.mp h.2
  rw [minuteOfDay_toNat]
  omega

/-- What `alarm_init` makes of an alarm that was saved. -/
def normal (a : Alarm) : Alarm :=
  { a with alarmTime := if a.alarmTime ≥ wholeDay then 0 else a.alarmTime }

theorem normal_timeInForce (a : Alarm) : a.normal.timeInForce = a.timeInForce := by
  unfold normal timeInForce
  dsimp only
  by_cases h : a.alarmTime ≥ wholeDay
  · rw [if_pos h, if_pos h]
    rfl
  · rw [if_neg h, if_neg h]

/-- **What was saved is what is loaded**, up to the time's normal form. -/
theorem alarmInit_saved (a : Alarm) (nv : Nvram) :
    alarmInit.value ((saveToNvram a).final nv) = a.normal := by
  have hhi : (saveToNvram a).final nv Nvram.alarmHi = (a.alarmTime >>> 8).toUInt8 := rfl
  have hlo : (saveToNvram a).final nv Nvram.alarmLo = a.alarmTime.toUInt8 := rfl
  have hstate : (saveToNvram a).final nv Nvram.alarmState = a.alarmState.toByte := rfl
  simp only [alarmInit, nvramRead, Traced.value_bind, Traced.value_read, Traced.final_read,
    Traced.value_pure, hhi, hlo, hstate, loadTime_saved, AlarmState.ofByte_toByte]
  rfl

theorem alarmInit_final (nv : Nvram) :
    alarmInit.final nv = (saveToNvram (alarmInit.value nv)).final nv := by
  simp only [alarmInit, nvramRead, Traced.value_bind, Traced.value_read, Traced.final_read,
    Traced.value_pure, Traced.final_bind, Traced.final_pure]

/-- An update does nothing, or it changes the state and saves. -/
theorem alarmUpdate_cases (a : Alarm) (nowHour nowMinute : UInt8) :
    ∃ (r : Nat) (state : AlarmState),
      alarmUpdate a nowHour nowMinute = pure (r, a) ∨
        alarmUpdate a nowHour nowMinute
          = saveToNvram { a with alarmState := state } >>= fun _ =>
              pure (r, { a with alarmState := state }) := by
  unfold alarmUpdate
  dsimp only
  generalize activeRegion _ _ _ _ = inActiveRegion
  cases a.alarmState with
  | active =>
    by_cases hregion : inActiveRegion = 0
    · exact ⟨0, .disabled, .inr (if_pos hregion)⟩
    · exact ⟨inActiveRegion, .active, .inl (if_neg hregion)⟩
  | enabled =>
    by_cases hregion : inActiveRegion = 0
    · exact ⟨0, .active, .inl (if_neg (not_not.mpr hregion))⟩
    · exact ⟨inActiveRegion, .active, .inr (if_pos hregion)⟩
  | reset =>
    by_cases hregion : inActiveRegion = 0
    · exact ⟨0, .enabled, .inr (if_pos hregion)⟩
    · exact ⟨0, .enabled, .inl (if_neg hregion)⟩
  | disabled => exact ⟨0, .disabled, .inl rfl⟩

/-- The hour and the minute of a time, as long as the hour fits in a byte. -/
theorem minuteOfDay_alarmGet {a : Alarm} (h : a.alarmTime.toNat < 256 * 60) :
    minuteOfDay a.alarmGet.1 a.alarmGet.2 = a.alarmTime := by
  have hsixty : (60 : UInt16).toNat = 60 := rfl
  rw [← UInt16.toNat_inj, minuteOfDay_toNat, alarmGet, UInt16.toNat_toUInt8, UInt16.toNat_toUInt8,
    UInt16.toNat_div, UInt16.toNat_mod, hsixty]
  omega

/-! ## The module keeps the machine -/

/-- The static variables and the NVRAM both stand for the machine's state `s`, with the alarm
    time in force `alarm`. -/
structure Agrees (alarm : Nat) (s : AlarmState) (a : Alarm) (nv : Nvram) : Prop where
  time : a.timeInForce = alarm
  state : a.alarmState = s
  savedTime : (alarmInit.value nv).timeInForce = alarm
  savedState : (alarmInit.value nv).alarmState = s

theorem agrees_saved (a : Alarm) (nv : Nvram) :
    Agrees a.timeInForce a.alarmState a ((saveToNvram a).final nv) where
  time := rfl
  state := rfl
  savedTime := by rw [alarmInit_saved, normal_timeInForce]
  savedState := by rw [alarmInit_saved]; rfl

theorem reboot_agrees {alarm : Nat} {s : AlarmState} {a : Alarm} {nv : Nvram}
    (h : Agrees alarm s a nv) : Agrees alarm s (alarmInit.value nv) (alarmInit.final nv) := by
  rw [alarmInit_final]
  have hsaved := agrees_saved (alarmInit.value nv) nv
  rwa [h.savedTime, h.savedState] at hsaved

theorem update_agrees {alarm : Nat} {s : AlarmState} {a : Alarm} {nv : Nvram}
    (h : Agrees alarm s a nv) (hour minute : UInt8) :
    let w := windowMinute alarm (minuteOfDay hour minute).toNat
    let p := alarmUpdate a hour minute
    (p.value nv).1 = (ring s w).1 ∧ Agrees alarm (ring s w).2 (p.value nv).2 (p.final nv) := by
  dsimp only
  have hregion := activeRegion_eq_window a hour minute
  rw [h.time] at hregion
  have hstate := h.state
  have htime := h.time
  -- A transition is saved at once; where nothing changes, what was saved before still stands.
  have hsave : ∀ s', Agrees alarm s' { a with alarmState := s' }
      ((saveToNvram { a with alarmState := s' }).final nv) := by
    intro s'
    have hsaved := agrees_saved { a with alarmState := s' } nv
    rwa [show ({ a with alarmState := s' } : Alarm).timeInForce = alarm from htime] at hsaved
  obtain ⟨time, state⟩ := a
  subst hstate
  unfold alarmUpdate
  cases hw : windowMinute alarm (minuteOfDay hour minute).toNat with
  | none =>
    rw [hw] at hregion
    rw [hregion]
    cases state with
    | disabled => exact ⟨rfl, h⟩
    | enabled => exact ⟨rfl, h⟩
    | active => exact ⟨rfl, hsave .disabled⟩
    | reset => exact ⟨rfl, hsave .enabled⟩
  | some k =>
    rw [hw] at hregion
    rw [hregion]
    cases state with
    | disabled => exact ⟨rfl, h⟩
    | enabled => exact ⟨rfl, hsave .active⟩
    | active => exact ⟨rfl, h⟩
    | reset => exact ⟨rfl, h⟩

/-! ## Histories -/

/-- What may happen between one setting of the alarm and the next. -/
inductive HistoryOp where
  | update (hour minute : UInt8)
  | reboot

/-- One operation: what an update returns, and the module's state afterwards. -/
def runOp (a : Alarm) (nv : Nvram) : HistoryOp → List Nat × Alarm × Nvram
  | .update hour minute =>
    let p := alarmUpdate a hour minute
    ([(p.value nv).1], (p.value nv).2, p.final nv)
  | .reboot => ([], alarmInit.value nv, alarmInit.final nv)

/-- What the updates of a history return. -/
def results : Alarm → Nvram → List HistoryOp → List Nat
  | _, _, [] => []
  | a, nv, op :: ops =>
    let (out, a', nv') := runOp a nv op
    out ++ results a' nv' ops

/-- The times at which a history calls `alarm_update`. -/
def updateTimes : List HistoryOp → List Nat
  | [] => []
  | .update hour minute :: ops => (minuteOfDay hour minute).toNat :: updateTimes ops
  | .reboot :: ops => updateTimes ops

/-- **A history is a run of the machine on its updates**: reboots leave no trace. -/
theorem results_eq {alarm : Nat} {s : AlarmState} {a : Alarm} {nv : Nvram}
    (h : Agrees alarm s a nv) (ops : List HistoryOp) :
    results a nv ops = runRing s ((updateTimes ops).map (windowMinute alarm)) := by
  induction ops generalizing s a nv with
  | nil => rfl
  | cons op ops ih =>
    cases op with
    | update hour minute =>
      obtain ⟨hvalue, hagrees⟩ := update_agrees h hour minute
      rw [results, runOp, updateTimes, List.map_cons, runRing, ← ih hagrees, ← hvalue]
      rfl
    | reboot => exact ih (reboot_agrees h)

/-- How the alarm is armed: by `alarm_set` with any two bytes, or by `alarm_reset`. -/
inductive Arming where
  | set (hour minute : UInt8)
  | reset

def Arming.run (a : Alarm) : Arming → Sketch (Bool × Alarm)
  | .set hour minute => alarmSet a hour minute
  | .reset => alarmReset a

/-- What `alarm_set` puts in force: the time of the two bytes, or midnight if there is no such time
    of day. -/
theorem timeInForce_set (a : Alarm) (nv : Nvram) (hour minute : UInt8) :
    (((Arming.set hour minute).run a).value nv).2.timeInForce
      = if 60 * hour.toNat + minute.toNat < 1440 then 60 * hour.toNat + minute.toNat else 0 := by
  have htime : (((Arming.set hour minute).run a).value nv).2
      = { alarmTime := minuteOfDay hour minute, alarmState := .reset } := rfl
  rw [htime, timeInForce, ← minuteOfDay_toNat]
  dsimp only
  by_cases h : minuteOfDay hour minute ≥ wholeDay
  · rw [if_pos h, if_neg (Nat.not_lt.mpr (wholeDay_le_iff.mp h))]
  · rw [if_neg h, if_pos (toNat_lt_wholeDay h)]

/-- What `alarm_reset` puts in force: what was in force before, as long as its hour fits in a
    byte. -/
theorem timeInForce_reset {a : Alarm} (h : a.alarmTime.toNat < 256 * 60) (nv : Nvram) :
    ((Arming.reset.run a).value nv).2.timeInForce = a.timeInForce := by
  have htime : ((Arming.reset.run a).value nv).2
      = { alarmTime := minuteOfDay a.alarmGet.1 a.alarmGet.2, alarmState := .reset } := rfl
  rw [htime, timeInForce, minuteOfDay_alarmGet h, timeInForce]

/-- Arming leaves the alarm waiting to be out of its window, in RAM and in NVRAM. -/
theorem agrees_arming (a : Alarm) (nv : Nvram) (arming : Arming) :
    let p := arming.run a
    Agrees (p.value nv).2.timeInForce .reset (p.value nv).2 (p.final nv) := by
  have hset : ∀ hour minute, Agrees ((alarmSet a hour minute).value nv).2.timeInForce .reset
      ((alarmSet a hour minute).value nv).2 ((alarmSet a hour minute).final nv) :=
    fun hour minute =>
      agrees_saved { alarmTime := minuteOfDay hour minute, alarmState := .reset } nv
  cases arming with
  | set hour minute => exact hset hour minute
  | reset => exact hset a.alarmGet.1 a.alarmGet.2

/-- **The alarm over whole histories.** From any state of the module, after `alarm_set` or
    `alarm_reset`: the updates of every later history return what `ringOnce` says, so the alarm
    rings in the first visit to its window that follows an update outside it, with the minute of
    the window, and at no other update; and the reboots of the history, wherever they stand, change
    none of the results. After `alarm_unset` every update returns zero. -/
theorem results_history (a : Alarm) (nv : Nvram) (ops : List HistoryOp) :
    (∀ arming : Arming,
      let p := arming.run a
      let a' := (p.value nv).2
      results a' (p.final nv) ops
          = ringOnce ((updateTimes ops).map (windowMinute a'.timeInForce)) ∧
        ∀ ops', updateTimes ops' = updateTimes ops →
          results a' (p.final nv) ops' = results a' (p.final nv) ops) ∧
      ∀ r ∈ results ((alarmUnset a).value nv).2 ((alarmUnset a).final nv) ops, r = 0 := by
  constructor
  · intro arming
    have hagrees := agrees_arming a nv arming
    refine ⟨?_, fun ops' hops => ?_⟩
    · rw [results_eq hagrees, runRing_reset]
    · rw [results_eq hagrees, results_eq hagrees, hops]
  · have hagrees : Agrees a.timeInForce .disabled ((alarmUnset a).value nv).2
        ((alarmUnset a).final nv) := agrees_saved { a with alarmState := .disabled } nv
    rw [results_eq hagrees, runRing_disabled]
    simp

/-- Set for 7:00 at 7:00, it does not ring until it has been 6:59; a reboot while it sounds does not
    stop it, and the next morning it is silent. -/
theorem results_history_morning :
    let start := (Arming.set 7 0).run { alarmTime := 0, alarmState := .disabled }
    results (start.value fun _ => 0).2 (start.final fun _ => 0)
        [.update 7 0, .update 6 59, .update 7 0, .reboot, .update 7 3, .update 7 10, .update 7 0]
      = [0, 0, 1, 4, 0, 0] :=
  (((results_history { alarmTime := 0, alarmState := .disabled } (fun _ => 0)
    [.update 7 0, .update 6 59, .update 7 0, .reboot, .update 7 3, .update 7 10, .update 7 0]).1
      (.set 7 0)).1).trans (by decide)

end Alarm
end CpeClock
