import CpeClock.Messages
import CpeClock.Session

/-!
# From what is typed to what the clock does

The words and numbers of a command line become six bytes, and the clock takes them apart again.
Nothing in the bytes says what they mean but the first of them, so that both ends agree is a
property of the two programs together: for each `Wish`, the arguments make a request whose payload,
once it is executed, does what was wished for to the settings, to the time and at the display
(`wish_performed`). Numbers are typed as decimals, the time is the one that `set_time` found, and a
text is shown up to its fifth byte.
-/

namespace CpeClock
namespace Txnc433

open Lib Hmac433 Mail Libnc

/-! ## Wishes -/

/-- What can be asked of the clock. -/
inductive Wish where
  | setTime (hour minute second : UInt8)
  | setAlarm (hour minute : UInt8)
  | unsetAlarm
  | message (text : Text)
  | setDayNightTime (nightHour nightMinute dayHour dayMinute : UInt8)
  | counter
  deriving DecidableEq

namespace Wish

def decimal (b : UInt8) : Text := Nat.toDigits 10 b.toNat

/-- What is typed. -/
def args : Wish → List Text
  | setTime .. => ["set_time".toList]
  | setAlarm hour minute => ["set_alarm".toList, decimal hour, decimal minute]
  | unsetAlarm => ["unset_alarm".toList]
  | message text => ["message".toList, text]
  | setDayNightTime nightHour nightMinute dayHour dayMinute =>
    ["set_day_night_time".toList, decimal nightHour, decimal nightMinute, decimal dayHour,
      decimal dayMinute]
  | counter => ["counter".toList]

/-- The latency that `set_time` allows for, in microseconds, if none is typed. -/
def latency : UInt32 := 100000

/-- The time is the one that `set_time` found, and an argument is bytes, none of them NUL. -/
def Possible (around : Surroundings) : Wish → Prop
  | setTime hour minute second =>
    around.setTime (1000000 - latency) = some (hour, minute, second)
  | message text => ∀ c ∈ text, c.toNat < 256 ∧ c ≠ '\x00'
  | _ => True

/-- What the clock is set to afterwards. -/
def sets (t : Timetable) : Wish → Timetable
  | setAlarm hour minute =>
    { t with alarm := Timetable.minuteOf hour minute, state := .reset }
  | unsetAlarm => { t with state := .disabled }
  | setDayNightTime nightHour nightMinute dayHour dayMinute =>
    { t with
      night := Timetable.minuteOf nightHour nightMinute
      day := Timetable.minuteOf dayHour dayMinute }
  | setTime .. | message _ | counter => t

/-- The time on the clock afterwards: the next that is as wished for. -/
def time {T : Type*} [LinearOrder T] (lib : DateTimes T) (nowTime : T) : Wish → T
  | setTime hour minute second =>
    Panel.laterTime lib nowTime 1 (lib.onDayOf nowTime hour minute second)
  | _ => nowTime

/-- Two digits. -/
def two (b : UInt8) : String := padDigits 10 2 b.toNat

/-- What the clock displays. -/
def display (hmacMessageCounter : UInt64) (rsRc : Nat) : Wish → String
  | setTime .. => "SET CLOCK"
  | setAlarm hour minute => snprintf 16 s!"ALARM {two hour}:{two minute}"
  | unsetAlarm => "ALARM OFF"
  | message text => String.ofList (text.take 5)
  | setDayNightTime nightHour nightMinute dayHour dayMinute =>
    snprintf 16 s!"{two nightHour}:{two nightMinute}..{two dayHour}:{two dayMinute}"
  | counter =>
    let word (shift : Nat) := padDigits 16 4 (hmacMessageCounter.toNat / 2 ^ shift % 65536)
    snprintf 64 s!"{word 48}-{word 32}-{word 16}-{word 0} RS {rsRc}"

def byte (c : Char) : UInt8 := c.toNat.toUInt8

/-- The bytes that come to the clock. -/
def bytes : Wish → List UInt8
  | setTime hour minute second => ['T'.toUInt8, hour, minute, second]
  | setAlarm hour minute => ['A'.toUInt8, hour, minute]
  | unsetAlarm => ['a'.toUInt8]
  | message text => 'M'.toUInt8 :: (text.take 5).map byte
  | setDayNightTime nightHour nightMinute dayHour dayMinute =>
    ['N'.toUInt8, nightHour, nightMinute, dayHour, dayMinute]
  | counter => ['C'.toUInt8]

/-! ## What is typed is sent -/

theorem skipObsolete_word {word : Text} (hlocal : sameWord word "local".toList = false)
    (hudp : sameWord word "udp".toList = false) (rest : List Text) :
    skipObsolete (word :: rest) = (word :: rest, none) := by
  cases rest with
  | nil => rfl
  | cons second rest =>
    unfold skipObsolete
    dsimp only
    rw [hlocal, hudp]
    rfl

/-- The letter of a command, and the numbers after its word. -/
theorem take_numbers (letter : UInt8) (word : Text) (texts : List Text) (h : texts.length < 6) :
    ((numbers (word :: texts)).set 0 letter).toList.take (texts.length + 1)
      = letter :: texts.map fun text => UInt8.ofInt (strtol text) := by
  apply List.ext_getElem
  · simp
    omega
  · intro k hk hk'
    cases k with
    | zero => simp
    | succ k =>
      have hlt : k < texts.length := by
        simpa using hk'
      simp [numbers, hlt]

/-- The loop that copies a text leaves its first bytes in the payload. -/
theorem copyMessage_take {text : Text} (htext : ∀ c ∈ text, c.toNat < 256 ∧ c ≠ '\x00')
    (turns : Nat) {i : Nat} (hi : 1 ≤ i) (hsum : i + turns = 6) (payload : Payload) :
    let copied := copyMessage text turns i payload
    copied.1.toList.take copied.2
      = payload.toList.take i ++ ((text.drop (i - 1)).take turns).map byte := by
  induction turns generalizing i payload with
  | zero => simp [copyMessage]
  | succ turns ih =>
    have hset (c : UInt8) : (payload.set! i c).toList = payload.toList.set i c := by
      simp
    unfold copyMessage
    dsimp only
    by_cases hend : i - 1 < text.length
    · have hbyte : byteAt text (i - 1) = byte text[i - 1] := by
        unfold byteAt
        rw [List.getElem?_eq_getElem hend]
        rfl
      obtain ⟨hsmall, hnul⟩ := htext _ (List.getElem_mem hend)
      have hne : byte text[i - 1] ≠ 0 := by
        intro hzero
        have hvalue := congrArg UInt8.toNat hzero
        rw [byte, Nat.toUInt8, UInt8.toNat_ofNat', Nat.mod_eq_of_lt hsmall] at hvalue
        exact hnul (Char.toNat_inj.mp hvalue)
      rw [hbyte, if_neg hne]
      have hnext := ih (Nat.le_add_left 1 i) (by omega) (payload.set! i (byte text[i - 1]))
      dsimp only at hnext
      have hfirst : (payload.toList.set i (byte text[i - 1])).take (i + 1)
          = payload.toList.take i ++ [byte text[i - 1]] := by
        have hlength : i < payload.toList.length := by
          rw [Vector.length_toList]
          omega
        rw [List.take_add_one, List.take_set_of_le (Nat.le_refl i),
          List.getElem?_set_self hlength]
        rfl
      have hdrop : text.drop (i - 1) = text[i - 1] :: text.drop i := by
        rw [List.drop_eq_getElem_cons hend, Nat.sub_add_cancel hi]
      rw [hnext, hset, hfirst, hdrop, Nat.add_sub_cancel, List.take_succ_cons, List.map_cons,
        List.append_assoc]
      rfl
    · have hnone : byteAt text (i - 1) = 0 := by
        unfold byteAt
        rw [List.getElem?_eq_none (Nat.le_of_not_lt hend)]
        rfl
      rw [hnone, if_pos rfl, List.drop_eq_nil_of_le (Nat.le_of_not_lt hend)]
      dsimp only
      rw [hset, List.take_set_of_le (Nat.le_refl i)]
      simp

/-- **A wish is a request** for its bytes. -/
theorem request_args {w : Wish} {around : Surroundings} (hw : w.Possible around) :
    ∃ r, requestOf around w.args = some r ∧ r.advances = false ∧ r.bytes = w.bytes := by
  have hargs : (skipObsolete w.args) = (w.args, none) := by
    cases w with
    | setTime => rfl
    | setAlarm => exact skipObsolete_word (by decide) (by decide) _
    | unsetAlarm => rfl
    | message => exact skipObsolete_word (by decide) (by decide) _
    | setDayNightTime => exact skipObsolete_word (by decide) (by decide) _
    | counter => rfl
  have hmade : requestOf around w.args = request around.setTime w.args none := by
    unfold requestOf
    rw [hargs]
    cases w <;> rfl
  rw [hmade]
  have hdecimals (letter : UInt8) (word : Text) (bytes : List UInt8) (h : bytes.length < 6) :
      ((numbers (word :: bytes.map decimal)).set 0 letter).toList.take (bytes.length + 1)
        = letter :: bytes := by
    have htake := take_numbers letter word (bytes.map decimal) (by rwa [List.length_map])
    rw [List.length_map, List.map_map] at htake
    rw [htake]
    refine congrArg (letter :: ·) ((List.map_congr_left fun b _ => ?_).trans (List.map_id _))
    exact ofInt_strtol_decimal b
  cases w with
  | setTime hour minute second =>
    refine ⟨_, congrArg (Option.map _) hw, rfl, ?_⟩
    rfl
  | setAlarm hour minute =>
    exact ⟨_, rfl, rfl, hdecimals _ "set_alarm".toList [hour, minute] (by simp)⟩
  | unsetAlarm => exact ⟨_, rfl, rfl, rfl⟩
  | message text =>
    exact ⟨_, rfl, rfl, copyMessage_take hw 5 (Nat.le_refl 1) rfl _⟩
  | setDayNightTime nightHour nightMinute dayHour dayMinute =>
    exact ⟨_, rfl, rfl, hdecimals _ "set_day_night_time".toList
      [nightHour, nightMinute, dayHour, dayMinute] (by simp)⟩
  | counter => exact ⟨_, rfl, rfl, rfl⟩

/-! ## What is sent is done -/

theorem cString_bytes {text : Text} (htext : ∀ c ∈ text, c.toNat < 256 ∧ c ≠ '\x00') (zeros : Nat) :
    cString (text.map byte ++ List.replicate zeros 0) = String.ofList text := by
  unfold cString
  refine congrArg String.ofList ?_
  induction text with
  | nil =>
    cases zeros with
    | zero => rfl
    | succ zeros => rfl
  | cons c text ih =>
    obtain ⟨hsmall, hnul⟩ := htext c List.mem_cons_self
    have hbyte : (byte c).toNat = c.toNat := by
      rw [byte, Nat.toUInt8, UInt8.toNat_ofNat', Nat.mod_eq_of_lt hsmall]
    have hne : byte c ≠ 0 := fun hzero =>
      hnul (Char.toNat_inj.mp (hbyte.symm.trans (congrArg UInt8.toNat hzero)))
    rw [List.map_cons, List.cons_append, List.takeWhile_cons, if_pos (decide_eq_true hne),
      List.map_cons, ih fun c hc => htext c (List.mem_cons_of_mem _ hc), hbyte, Char.ofNat_toNat]

section

variable {T : Type*} [LinearOrder T] (lib : DateTimes T) (width : List UInt8 → UInt16)

/-- **Its bytes do what was wished for**, on any clock with any display. -/
theorem bytes_performed {w : Wish} {around : Surroundings} (hw : w.Possible around) (clock : Clock)
    (rsRc : Nat) (nv : Nvram) (later : NightDayTime) (s : Panel T) :
    let p := performCommand clock (padded w.bytes) rsRc
    let atDisplay := s.handleAll lib width later (p.events nv)
    (p.value nv).settings.timetable = w.sets clock.settings.timetable ∧
      atDisplay.1.nowTime = w.time lib s.nowTime ∧
      atDisplay.2.filterMap Note.message? = [w.display clock.hmacMessageCounter rsRc] := by
  have hletter (letter : UInt8) (rest : List UInt8) :
      (padded (letter :: rest)).get 0 = letter := rfl
  have hother {letter byte : UInt8} (h : letter ≠ byte) (rest : List UInt8) :
      (padded (letter :: rest)).get 0 ≠ byte := h
  unfold performCommand bytes
  cases w with
  | setTime hour minute second =>
    dsimp only
    rw [if_neg (hother (by decide) _), if_neg (hother (by decide) _), if_pos (hletter _ _)]
    exact ⟨rfl, rfl, rfl⟩
  | setAlarm hour minute =>
    dsimp only
    rw [if_neg (hother (by decide) _), if_neg (hother (by decide) _),
      if_neg (hother (by decide) _), if_pos (hletter _ _)]
    refine ⟨?_, rfl, rfl⟩
    show Timetable.mk (Alarm.minuteOfDay hour minute).toNat .reset _ _ = _
    rw [Alarm.minuteOfDay_toNat]
    rfl
  | unsetAlarm =>
    dsimp only
    rw [if_neg (hother (by decide) _), if_neg (hother (by decide) _),
      if_neg (hother (by decide) _), if_neg (hother (by decide) _),
      if_neg (hother (by decide) _), if_pos (hletter _ _)]
    exact ⟨rfl, rfl, rfl⟩
  | message text =>
    have hlength : ('M'.toUInt8 :: (text.take 5).map byte).length ≤ 6 := by
      simp
    have htaken : ∀ c ∈ text.take 5, c.toNat < 256 ∧ c ≠ '\x00' :=
      fun c hc => hw c (List.mem_of_mem_take hc)
    have hcopied := cString_bytes htaken (6 - ('M'.toUInt8 :: (text.take 5).map byte).length)
    dsimp only
    rw [if_pos (hletter _ _)]
    refine ⟨rfl, rfl, ?_⟩
    show [cString ((padded _).toList.drop 1)] = [String.ofList (text.take 5)]
    rw [toList_padded hlength, List.cons_append, List.drop_one, List.tail_cons, hcopied]
  | setDayNightTime nightHour nightMinute dayHour dayMinute =>
    dsimp only
    rw [if_neg (hother (by decide) _), if_neg (hother (by decide) _),
      if_neg (hother (by decide) _), if_neg (hother (by decide) _), if_pos (hletter _ _)]
    refine ⟨?_, rfl, rfl⟩
    show Timetable.mk _ _ (Alarm.minuteOfDay nightHour nightMinute).toNat
      (Alarm.minuteOfDay dayHour dayMinute).toNat = _
    rw [Alarm.minuteOfDay_toNat, Alarm.minuteOfDay_toNat]
    rfl
  | counter =>
    dsimp only
    rw [if_neg (hother (by decide) _), if_pos (hletter _ _)]
    exact ⟨rfl, rfl, rfl⟩

/-- **What is typed is done.** The arguments make a request, and its payload does what was wished
    for on any clock that executes it: to its settings, to its time and at its display. -/
theorem wish_performed {w : Wish} {around : Surroundings} (hw : w.Possible around) :
    ∃ r, requestOf around w.args = some r ∧ r.advances = false ∧ r.bytes ≠ [] ∧
      ∀ (clock : Clock) (rsRc : Nat) (nv : Nvram) (later : NightDayTime) (s : Panel T),
        let p := performCommand clock (padded r.bytes) rsRc
        let atDisplay := s.handleAll lib width later (p.events nv)
        (p.value nv).settings.timetable = w.sets clock.settings.timetable ∧
          atDisplay.1.nowTime = w.time lib s.nowTime ∧
          atDisplay.2.filterMap Note.message? = [w.display clock.hmacMessageCounter rsRc] := by
  obtain ⟨r, hr, hadvances, hbytes⟩ := request_args hw
  refine ⟨r, hr, hadvances, ?_, fun clock rsRc nv later s => ?_⟩
  · rw [hbytes]
    cases w <;> exact List.cons_ne_nil _ _
  · rw [hbytes]
    exact bytes_performed lib width hw clock rsRc nv later s

end

/-- A host on which it is 12:34:56. -/
def sampleAround : Surroundings :=
  { sampleSurroundings with setTime := fun _ => some (12, 34, 56) }

/-- A panel at 18:00:00 of the first day. -/
def samplePanel : Panel Nat := Panel.zero Panel.sampleTimes (fun _ => 0) 64800 0 true

/-- A text of six bytes, the last of which is not shown, and the time, which is tomorrow's. -/
theorem wish_performed_sample :
    (∃ r, requestOf sampleAround ["message".toList, "hello!".toList] = some r ∧
      (samplePanel.handleAll Panel.sampleTimes Display.tenPixels ⟨0, 0⟩
        ((performCommand clockEight (padded r.bytes) 1).events fun _ => 0)).2.filterMap
          Note.message? = ["hello"]) ∧
    ∃ r, requestOf sampleAround ["set_time".toList] = some r ∧
      (samplePanel.handleAll Panel.sampleTimes Display.tenPixels ⟨0, 0⟩
        ((performCommand clockEight (padded r.bytes) 1).events fun _ => 0)).1.nowTime
          = 86400 + 45296 := by
  have htypable : (message "hello!".toList).Possible sampleAround :=
    List.all_iff_forall_prop.mp (by decide)
  have hfound : (setTime 12 34 56).Possible sampleAround := rfl
  obtain ⟨text, htext, -, -, htold⟩ :=
    wish_performed Panel.sampleTimes Display.tenPixels htypable
  obtain ⟨time, htime, -, -, hset⟩ := wish_performed Panel.sampleTimes Display.tenPixels hfound
  exact ⟨⟨text, htext, (htold clockEight 1 (fun _ => 0) ⟨0, 0⟩ samplePanel).2.2⟩,
    ⟨time, htime, (hset clockEight 1 (fun _ => 0) ⟨0, 0⟩ samplePanel).2.1⟩⟩

end Wish
end Txnc433
end CpeClock
