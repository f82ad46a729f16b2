import CpeClock.Display
import CpeClock.Lib.Chronicle
import CpeClock.SettingsHistory
import CpeClock.SketchLoop

/-!
# `cpeclock.ino` — what is on the screen, over whole runs

The screen goes off by itself: a message stays for five seconds, and the time for two minutes after
anything happened, or for ten seconds at night. The sketch remembers two times and two buffers for
this. `Remembers` says that they are what the history of the display comes to, and so every picture
is the one that the history calls for (`pictures_accounted`).

The order of times and what `RTClib` does with them are parameters.
-/

namespace CpeClock

open Lib

/-- What `RTClib` makes of times, beside their order. -/
structure DateTimes (T : Type*) where
  /-- `DateTime(2000, 1, 1)`. -/
  invalidTime : T
  timeOfDay : T → TimeOfDay
  /-- A time and a `TimeSpan` of so many seconds. -/
  plus : T → Nat → T
  /-- `DateTime(t.year(), t.month(), t.day(), hour, minute, second)`. -/
  onDayOf : T → UInt8 → UInt8 → UInt8 → T

/-- A line as it is drawn: the font, and the text. -/
inductive Line where
  | blank
  | small (text : List UInt8)
  | large (text : List UInt8)
  deriving DecidableEq

/-- What `update_display` draws. -/
structure Picture where
  dim : Bool
  upper : Line
  lower : Line
  deriving DecidableEq

/-- When something happened at the display. -/
structure Scene (T : Type*) where
  now : T
  night : Bool
  alarmActive : Bool
  deriving DecidableEq

/-- What happens at the display. -/
inductive Note (T : Type*) where
  | shown (scene : Scene T) (msg : String)
  | lit (scene : Scene T)
  | drawn (scene : Scene T) (picture : Picture)
  deriving DecidableEq

/-- The message that is shown. -/
def Note.message? {T : Type*} : Note T → Option String
  | .shown _ msg => some msg
  | _ => none

/-- How far `setup` gets before it reads the NVRAM. -/
inductive Start where
  | noDisplay
  | rtcFailed
  | rtcStopped
  | ncrsFailed
  | ready
  deriving DecidableEq

/-- The static variables of the sketch, those of the display among them. -/
structure Panel (T : Type*) where
  sketch : SketchState
  nowTime : T
  screenOffTime : T
  messageOffTime : T
  buffers : Display.MessageBuffers

/-- An event that does not set the clock. -/
def Event.KeepsTime : Event → Prop
  | .clockSet .. => False
  | _ => True

theorem Alarm.keepsTime_saveToNvram (a : Alarm) : Traced.Emits Event.KeepsTime a.saveToNvram := by
  refine Traced.emits_emitAll fun e he => ?_
  simp only [List.mem_cons, List.not_mem_nil, or_false] at he
  rcases he with rfl | rfl | rfl <;> trivial

theorem Alarm.keepsTime_alarmSet (a : Alarm) (hour minute : UInt8) :
    Traced.Emits Event.KeepsTime (a.alarmSet hour minute) :=
  Traced.emits_bind (Traced.emits_emit trivial) fun _ =>
    Traced.emits_bind (keepsTime_saveToNvram _) fun _ => Traced.emits_pure _

theorem Alarm.keepsTime_alarmUnset (a : Alarm) : Traced.Emits Event.KeepsTime a.alarmUnset :=
  Traced.emits_bind (Traced.emits_emit trivial) fun _ =>
    Traced.emits_bind (keepsTime_saveToNvram _) fun _ => Traced.emits_pure _

namespace SketchState

/-! ## The time in the sketch -/

theorem nowTime_tick (input : LoopInput) (s : SketchState) :
    (s.tick input).1.nowTime = input.now := by
  unfold tick
  dsimp only
  split_ifs <;> rfl

theorem nowTime_extensionButton (input : LoopInput) (s : SketchState) :
    (s.extensionButton input).2.2.nowTime = s.nowTime := by
  unfold extensionButton
  dsimp only
  split_ifs <;> rfl

theorem extensionButton_released {input : LoopInput} (h : input.extButton = false)
    (s : SketchState) :
    s.extensionButton input = (false, false, { s with extensionButtonPressed := 0 }) := by
  unfold extensionButton
  rw [h]
  rfl

theorem nowTime_alarmButton (p : Alarm → Sketch (Bool × Alarm)) (millis : UInt32)
    (s : SketchState) : (s.alarmButton p millis).1.nowTime = s.nowTime := by
  unfold alarmButton
  dsimp only
  split_ifs <;> rfl

theorem nowTime_moveSwitch (input : LoopInput) (s : SketchState) :
    (s.moveSwitch input).nowTime = s.nowTime := by
  unfold moveSwitch
  split_ifs <;> rfl

end SketchState

namespace Panel

variable {T : Type*}

/-! ## The functions of the display -/

def messageOnTime : Nat := 5

def dayScreenOnTime : Nat := 120

def nightScreenOnTime : Nat := 10

def oneDay : Nat := 86400

/-- `get_screen_on_time`. -/
def screenOnTime (night : Bool) : Nat := if night then nightScreenOnTime else dayScreenOnTime

def isNightTime (s : Panel T) : Bool :=
  s.sketch.clock.nightDayTime.nightDayTimeTest s.sketch.nowTime.hour s.sketch.nowTime.minute

def scene (s : Panel T) : Scene T where
  now := s.nowTime
  night := s.isNightTime
  alarmActive := s.sketch.effects.alarmActive ≠ 0

/-- The `alternator` of `update_display`. -/
def alternator (t : TimeOfDay) : Bool := t.second &&& 1 = 0

/-- "show the time". -/
def timeText (t : TimeOfDay) : List UInt8 :=
  let colon := if alternator t then " " else ":"
  Display.messageBytes
    (snprintf 16 s!"{padDigits 10 2 t.hour.toNat}{colon}{padDigits 10 2 t.minute.toNat}")

section

variable [LinearOrder T]

def updateDisplay (s : Panel T) : Panel T × List (Note T) :=
  let alarmActive := s.scene.alarmActive
  -- Update the upper line on the display
  let upper := if s.nowTime ≤ s.messageOffTime then .small (Display.text s.buffers.messageBuffer1)
    else if alarmActive && alternator s.sketch.nowTime then .small (Display.messageBytes "ALARM!")
    else .blank
  -- Update the lower line on the display
  let lower := if s.nowTime ≤ s.messageOffTime ∧
        Display.charAt s.buffers.messageBuffer2.toList 0 ≠ 0 then
      .small (Display.text s.buffers.messageBuffer2) -- second line of message
    else if s.nowTime ≤ s.screenOffTime ∨ alarmActive then .large (timeText s.sketch.nowTime)
    else .blank
  (s, [.drawn s.scene ⟨s.isNightTime && !alarmActive, upper, lower⟩])

variable (lib : DateTimes T) (width : List UInt8 → UInt16)

/-- `screen_off_time = now_time + get_screen_on_time()`. -/
def light (s : Panel T) : Panel T × List (Note T) :=
  ({ s with screenOffTime := lib.plus s.nowTime (screenOnTime s.isNightTime) }, [.lit s.scene])

def displayMessage (msg : String) (s : Panel T) : Panel T × List (Note T) :=
  let scene := s.scene
  let s := { s with buffers := Display.setMessage width (Display.messageBytes msg) s.buffers }
  -- Reset timers
  let s := { s with
    screenOffTime := lib.plus s.nowTime (screenOnTime s.isNightTime)
    messageOffTime := lib.plus s.nowTime messageOnTime }
  -- Draw
  let (s, notes) := s.updateDisplay
  (s, .shown scene msg :: notes)

/-- "Low priority display message - day time only". -/
def displayMessageLp (msg : String) (s : Panel T) : Panel T × List (Note T) :=
  if s.isNightTime then (s, []) else s.displayMessage lib width msg

/-- `while (new_time <= now_time)`, for at most so many turns. -/
def laterTime (nowTime : T) : Nat → T → T
  | 0, newTime => newTime
  | turns + 1, newTime =>
    if newTime ≤ nowTime then laterTime nowTime turns (lib.plus newTime oneDay) else newTime

/-- `clock_set`. With the date of `now_time`, one turn of the loop is enough. -/
def clockSet (hour minute second : UInt8) (s : Panel T) : Panel T × List (Note T) :=
  let newTime := laterTime lib s.nowTime 1 (lib.onDayOf s.nowTime hour minute second)
  let s := { s with
    nowTime := newTime
    sketch := { s.sketch with nowTime := lib.timeOfDay newTime } }
  s.displayMessage lib width "SET CLOCK"

/-! ## What the rest of the sketch calls -/

/-- A call from another module. The night settings that a packet brings are in force before
    anything is displayed. -/
def handle (later : NightDayTime) (e : Event) (s : Panel T) : Panel T × List (Note T) :=
  match e with
  | .displayMessage msg => s.displayMessage lib width msg
  | .displayMessageLp msg => s.displayMessageLp lib width msg
  | .clockSet hour minute second => s.clockSet lib width hour minute second
  | .newPacket .. =>
    ({ s with sketch := { s.sketch with clock := { s.sketch.clock with nightDayTime := later } } },
      [])
  | .nvramWrite .. => (s, [])

def handleAll (later : NightDayTime) (es : List Event) (s : Panel T) : Panel T × List (Note T) :=
  let (s, notes) := Mealy.run (handle lib width later) es s
  (s, notes.flatten)

/-! ## The loop -/

/-- The first part of `loop`, with its call of `update_display`. -/
def tick (time : T) (input : LoopInput) (s : Panel T) : Panel T × List (Note T) :=
  let previousSecond := s.sketch.nowTime.second
  let s := { s with
    nowTime := time
    sketch := (s.sketch.tick { input with now := lib.timeOfDay time }).1 }
  if s.sketch.nowTime.second ≠ previousSecond then s.updateDisplay else (s, [])

/-- The extension button, which lights the screen as well. -/
def extensionButton (input : LoopInput) (s : Panel T) : Panel T × List (Note T) :=
  let (s, notes) := if input.extButton then s.light lib else (s, [])
  ({ s with sketch := (s.sketch.extensionButton input).2.2 }, notes)

/-- A button that runs a program of `alarm.c`. -/
def alarmButton (p : Alarm → Sketch (Bool × Alarm)) (millis : UInt32) (s : Panel T) :
    Panel T × List (Note T) :=
  let (s', notes) := s.handleAll lib width s.sketch.clock.nightDayTime
    ((p s.sketch.clock.alarm).events s.sketch.nvram)
  ({ s' with sketch := (s.sketch.alarmButton p millis).1 }, notes)

def moveSwitch (input : LoopInput) (s : Panel T) : Panel T × List (Note T) :=
  let moved := s.sketch.effects.allowSound ≠ input.slideSwitch
  let s := { s with sketch := s.sketch.moveSwitch input }
  if moved then
    s.displayMessage lib width (if input.slideSwitchAgain then "SOUND ON" else "SOUND OFF")
  else (s, [])

variable (hash : Hash) (secretData : List UInt8) (rs : Rs.RsControl)

/-- `mail_receive_messages`. -/
def receiveMail (mailbox : Mailbox) (s : Panel T) : Panel T × List (Note T) :=
  let p := Mail.mailReceiveMessages hash secretData rs s.sketch.clock mailbox
  let clock := (p.value s.sketch.nvram).1
  let (s', notes) := s.handleAll lib width clock.nightDayTime (p.events s.sketch.nvram)
  ({ s' with sketch := { s.sketch with
      nvram := p.final s.sketch.nvram
      clock := clock
      nowTime := s'.sketch.nowTime } }, notes)

/-- `loop`, with the reading of the clock. -/
def loop (input : T × LoopInput) (s : Panel T) : Panel T × List (Note T) :=
  let (s, ticked) := s.tick lib input.1 input.2
  let (s, received) := s.receiveMail lib width hash secretData rs input.2.mailbox
  let (left, right, _) := s.sketch.extensionButton input.2
  let (s, extended) := s.extensionButton lib input.2
  let (s, reset) := if input.2.rightButton || right then
    s.alarmButton lib width Alarm.alarmReset input.2.resetMillis else (s, [])
  let (s, unset) := if input.2.leftButton || left then
    s.alarmButton lib width Alarm.alarmUnset input.2.unsetMillis else (s, [])
  let (s, switched) := s.moveSwitch lib width input.2
  (s, ticked ++ (received ++ (extended ++ (reset ++ (unset ++ switched)))))

/-- The static variables before anything is stored in them. -/
def zero (nvram : Nvram) (time : T) (millis : UInt32) (slideSwitch : Bool) : Panel T where
  sketch := SketchState.booted nvram ⟨0, Packet.zero, ⟨0, .disabled⟩, ⟨0, 0⟩⟩
    (lib.timeOfDay time) millis slideSwitch
  nowTime := time
  screenOffTime := lib.invalidTime
  messageOffTime := lib.invalidTime
  buffers := ⟨Vector.replicate 32 0, Vector.replicate 32 0⟩

/-- `setup` from `mail_init` on: there is no panel if that fails. -/
def setupMail (nvram : Nvram) (time : T) (millis : UInt32) (slideSwitch : Bool) :
    Option (Panel T) × List (Note T) :=
  let (s, notes) := (zero lib nvram time millis slideSwitch).handleAll lib width ⟨0, 0⟩
    (Mail.setup.events nvram)
  match Mail.setup.value nvram with
  | none =>
    let (_, failed) := s.displayMessage lib width "MAIL ERROR"
    (none, notes ++ failed)
  | some clock =>
    let s := { s with sketch := { s.sketch with
      nvram := Mail.setup.final nvram
      clock := clock } }
    let (s, lit) := s.light lib
    (some s, notes ++ lit)

/-- `setup`. Until the clock is read, `now_time` is `INVALID_TIME`. -/
def setup (start : Start) (nvram : Nvram) (time : T) (millis : UInt32) (slideSwitch : Bool) :
    Option (Panel T) × List (Note T) :=
  let stopped (s : Panel T) (msg : String) := (none, (s.displayMessage lib width msg).2)
  match start with
  | .noDisplay => (none, [])
  | .rtcFailed => stopped (zero lib nvram lib.invalidTime 0 false) "RTC ERROR 1"
  | .rtcStopped => stopped (zero lib nvram lib.invalidTime 0 false) "RTC ERROR 2"
  | .ncrsFailed => stopped (zero lib nvram time millis slideSwitch) "NCRS ERROR"
  | .ready => setupMail lib width nvram time millis slideSwitch

end

/-! ## What the history of the display calls for -/

section

variable (lib : DateTimes T) (width : List UInt8 → UInt16)

/-- Until when the last message is on the screen, and its lines. -/
def lastMessage : List (Note T) → T × List UInt8 × List UInt8 :=
  List.foldl (fun last note =>
    match note with
    | .shown scene msg =>
      (lib.plus scene.now messageOnTime, Display.lines width (Display.messageBytes msg))
    | _ => last) (lib.invalidTime, [], [])

/-- Until when the time is on the screen. -/
def litUntil : List (Note T) → T :=
  List.foldl (fun last note =>
    match note with
    | .shown scene _ | .lit scene => lib.plus scene.now (screenOnTime scene.night)
    | .drawn .. => last) lib.invalidTime

variable (past : List (Note T)) (scene : Scene T) (msg : String) (picture : Picture)

@[simp]
theorem lastMessage_shown : lastMessage lib width (past ++ [.shown scene msg])
    = (lib.plus scene.now messageOnTime, Display.lines width (Display.messageBytes msg)) :=
  List.foldl_append

@[simp]
theorem lastMessage_lit :
    lastMessage lib width (past ++ [.lit scene]) = lastMessage lib width past :=
  List.foldl_append

@[simp]
theorem lastMessage_drawn :
    lastMessage lib width (past ++ [.drawn scene picture]) = lastMessage lib width past :=
  List.foldl_append

@[simp]
theorem litUntil_shown : litUntil lib (past ++ [.shown scene msg])
    = lib.plus scene.now (screenOnTime scene.night) :=
  List.foldl_append

@[simp]
theorem litUntil_lit : litUntil lib (past ++ [.lit scene])
    = lib.plus scene.now (screenOnTime scene.night) :=
  List.foldl_append

@[simp]
theorem litUntil_drawn :
    litUntil lib (past ++ [.drawn scene picture]) = litUntil lib past :=
  List.foldl_append

/-- The static variables of the display are what the history comes to. -/
structure Remembers (past : List (Note T)) (s : Panel T) : Prop where
  time : s.sketch.nowTime = lib.timeOfDay s.nowTime
  message : lastMessage lib width past = (s.messageOffTime, s.buffers.texts)
  lit : litUntil lib past = s.screenOffTime

/-- Where the time and what is kept for the display stay, so does what is remembered. -/
theorem Remembers.of_eq {lib : DateTimes T} {width : List UInt8 → UInt16} {past : List (Note T)}
    {s s' : Panel T} (h : Remembers lib width past s)
    (htime : s'.sketch.nowTime = lib.timeOfDay s'.nowTime)
    (hmessage : s'.messageOffTime = s.messageOffTime) (hbuffers : s'.buffers = s.buffers)
    (hlit : s'.screenOffTime = s.screenOffTime) : Remembers lib width past s' where
  time := htime
  message := by rw [hmessage, hbuffers, h.message]
  lit := by rw [hlit, h.lit]

end

section

variable [LinearOrder T] (lib : DateTimes T) (width : List UInt8 → UInt16)

/-- The picture that a history calls for: the message while it is on, and otherwise the alarm; the
    time where there is no second line, while the screen is lit or the alarm sounds. -/
def calledFor (past : List (Note T)) (scene : Scene T) : Picture :=
  let (messageUntil, line1, line2) := lastMessage lib width past
  { dim := scene.night && !scene.alarmActive
    upper :=
      if scene.now ≤ messageUntil then .small line1
      else if scene.alarmActive && alternator (lib.timeOfDay scene.now) then
        .small (Display.messageBytes "ALARM!")
      else .blank
    lower :=
      if scene.now ≤ messageUntil ∧ line2 ≠ [] then .small line2
      else if scene.now ≤ litUntil lib past ∨ scene.alarmActive then
        .large (timeText (lib.timeOfDay scene.now))
      else .blank }

/-- A picture is the one that is called for. -/
def IsCalledFor (past : List (Note T)) : Note T → Prop
  | .drawn scene picture => picture = calledFor lib width past scene
  | _ => True

end

section

variable [LinearOrder T] {lib : DateTimes T} {width : List UInt8 → UInt16}

abbrev Accountable (lib : DateTimes T) (width : List UInt8 → UInt16) :
    Panel T → Panel T → List (Note T) → Prop :=
  Chronicle.Accountable (Remembers lib width) (IsCalledFor lib width)

theorem text_eq_nil_iff (buffer : Display.Buffer) :
    Display.text buffer = [] ↔ Display.charAt buffer.toList 0 = 0 := by
  unfold Display.text Display.charAt
  cases buffer.toList with
  | nil => exact iff_of_true rfl rfl
  | cons c cs => by_cases hzero : c = 0 <;> simp [hzero]

/-- Another state of the sketch, at the same time. -/
theorem accountable_sketch {s : Panel T} {sketch : SketchState}
    (h : sketch.nowTime = s.sketch.nowTime) :
    Accountable lib width s { s with sketch := sketch } [] :=
  Chronicle.accountable_nil fun _ hs => hs.of_eq (h.trans hs.time) rfl rfl rfl

theorem accountable_withSketch {s s' : Panel T} {notes : List (Note T)} {sketch : SketchState}
    (h : Accountable lib width s s' notes) (htime : sketch.nowTime = s'.sketch.nowTime) :
    Accountable lib width s { s' with sketch := sketch } notes := by
  have hsketch := h.append (accountable_sketch htime)
  rwa [List.append_nil] at hsketch

theorem accountable_updateDisplay (s : Panel T) :
    Accountable lib width s s.updateDisplay.1 s.updateDisplay.2 := by
  refine Chronicle.accountable_single (fun past hs => ?_) fun past hs => ?_
  · exact ⟨hs.time, by rw [lastMessage_drawn, hs.message]; rfl, by rw [litUntil_drawn, hs.lit]; rfl⟩
  · have hline2 : Display.text s.buffers.messageBuffer2 ≠ []
        ↔ Display.charAt s.buffers.messageBuffer2.toList 0 ≠ 0 :=
      not_congr (text_eq_nil_iff _)
    unfold IsCalledFor calledFor
    rw [hs.message, hs.lit]
    dsimp only [Display.MessageBuffers.texts, scene]
    rw [hs.time]
    congr 1
    exact if_congr (and_congr Iff.rfl hline2.symm) rfl rfl

theorem accountable_light (s : Panel T) :
    Accountable lib width s (s.light lib).1 (s.light lib).2 := by
  refine Chronicle.accountable_single (fun past hs => ?_) fun past hs => trivial
  exact ⟨hs.time, by rw [lastMessage_lit, hs.message]; rfl, litUntil_lit lib past s.scene⟩

theorem accountable_displayMessage (msg : String) (s : Panel T) :
    Accountable lib width s (s.displayMessage lib width msg).1
      (s.displayMessage lib width msg).2 := by
  let s' : Panel T := { s with
    buffers := Display.setMessage width (Display.messageBytes msg) s.buffers
    screenOffTime := lib.plus s.nowTime (screenOnTime s.isNightTime)
    messageOffTime := lib.plus s.nowTime messageOnTime }
  have hshown : Accountable lib width s s' [.shown s.scene msg] := by
    refine Chronicle.accountable_single (fun past hs => ⟨hs.time, ?_, ?_⟩) fun past hs => trivial
    · rw [lastMessage_shown]
      show _ = (_, (Display.setMessage width (Display.messageBytes msg) s.buffers).texts)
      rw [Display.text_setMessage width (Display.messageBytes_ne_zero msg)]
      rfl
    · exact litUntil_shown lib past s.scene msg
  exact hshown.append (accountable_updateDisplay s')

theorem accountable_displayMessageLp (msg : String) (s : Panel T) :
    Accountable lib width s (s.displayMessageLp lib width msg).1
      (s.displayMessageLp lib width msg).2 := by
  unfold displayMessageLp
  split
  · exact Chronicle.accountable_nil fun _ hs => hs
  · exact accountable_displayMessage msg s

theorem accountable_clockSet (hour minute second : UInt8) (s : Panel T) :
    Accountable lib width s (s.clockSet lib width hour minute second).1
      (s.clockSet lib width hour minute second).2 := by
  let newTime := laterTime lib s.nowTime 1 (lib.onDayOf s.nowTime hour minute second)
  have hset : Accountable lib width s { s with
      nowTime := newTime
      sketch := { s.sketch with nowTime := lib.timeOfDay newTime } } [] :=
    Chronicle.accountable_nil fun _ hs => hs.of_eq rfl rfl rfl rfl
  exact hset.append (accountable_displayMessage "SET CLOCK" _)

theorem accountable_handle (later : NightDayTime) (e : Event) (s : Panel T) :
    Accountable lib width s (handle lib width later e s).1 (handle lib width later e s).2 := by
  cases e with
  | displayMessage msg => exact accountable_displayMessage msg s
  | displayMessageLp msg => exact accountable_displayMessageLp msg s
  | clockSet hour minute second => exact accountable_clockSet hour minute second s
  | newPacket counter payload rsRc => exact accountable_sketch rfl
  | nvramWrite addr data => exact Chronicle.accountable_nil fun _ hs => hs

theorem accountable_handleAll (later : NightDayTime) (es : List Event) (s : Panel T) :
    Accountable lib width s (s.handleAll lib width later es).1
      (s.handleAll lib width later es).2 :=
  Chronicle.accountable_run (accountable_handle later) es s

/-! ## The loop -/

theorem accountable_tick (time : T) (input : LoopInput) (s : Panel T) :
    Accountable lib width s (s.tick lib time input).1 (s.tick lib time input).2 := by
  let s' : Panel T := { s with
    nowTime := time
    sketch := (s.sketch.tick { input with now := lib.timeOfDay time }).1 }
  have htime : Accountable lib width s s' [] := Chronicle.accountable_nil fun _ hs =>
    hs.of_eq (SketchState.nowTime_tick _ s.sketch) rfl rfl rfl
  unfold tick
  dsimp only
  split
  · exact htime.append (accountable_updateDisplay s')
  · exact htime

theorem accountable_receiveMail (hash : Hash) (secretData : List UInt8) (rs : Rs.RsControl)
    (mailbox : Mailbox) (s : Panel T) :
    Accountable lib width s (s.receiveMail lib width hash secretData rs mailbox).1
      (s.receiveMail lib width hash secretData rs mailbox).2 := by
  unfold receiveMail
  exact accountable_withSketch (accountable_handleAll _ _ s) rfl

theorem accountable_extensionButton (input : LoopInput) (s : Panel T) :
    Accountable lib width s (s.extensionButton lib input).1 (s.extensionButton lib input).2 := by
  have hlit : Accountable lib width s (if input.extButton then s.light lib else (s, [])).1
      (if input.extButton then s.light lib else (s, [])).2 := by
    split
    · exact accountable_light s
    · exact Chronicle.accountable_nil fun _ hs => hs
  exact accountable_withSketch hlit (SketchState.nowTime_extensionButton input _)

theorem accountable_moveSwitch (input : LoopInput) (s : Panel T) :
    Accountable lib width s (s.moveSwitch lib width input).1 (s.moveSwitch lib width input).2 := by
  have hmoved : Accountable lib width s { s with sketch := s.sketch.moveSwitch input } [] :=
    accountable_sketch (SketchState.nowTime_moveSwitch input s.sketch)
  unfold moveSwitch
  dsimp only
  split
  · exact hmoved.append (accountable_displayMessage _ _)
  · exact hmoved

theorem sketchTime_handleAll (later : NightDayTime) {es : List Event}
    (h : ∀ e ∈ es, e.KeepsTime) (s : Panel T) :
    (s.handleAll lib width later es).1.sketch.nowTime = s.sketch.nowTime := by
  induction es generalizing s with
  | nil => rfl
  | cons e es ih =>
    have hfirst : (handle lib width later e s).1.sketch.nowTime = s.sketch.nowTime := by
      cases e with
      | clockSet hour minute second => exact absurd (h _ List.mem_cons_self) id
      | displayMessageLp msg =>
        unfold handle displayMessageLp
        dsimp only
        split_ifs <;> rfl
      | displayMessage msg | newPacket counter payload rsRc | nvramWrite addr data => rfl
    exact (ih (fun e he => h e (List.mem_cons_of_mem _ he)) _).trans hfirst

theorem accountable_alarmButton {p : Alarm → Sketch (Bool × Alarm)}
    (hp : ∀ alarm, Traced.Emits Event.KeepsTime (p alarm)) (pressed : Bool) (millis : UInt32)
    (s : Panel T) :
    let r := if pressed then s.alarmButton lib width p millis else (s, [])
    Accountable lib width s r.1 r.2 := by
  dsimp only
  split
  · exact accountable_withSketch (accountable_handleAll _ _ s)
      ((SketchState.nowTime_alarmButton p millis s.sketch).trans
        (sketchTime_handleAll _ (hp _ _) s).symm)
  · exact Chronicle.accountable_nil fun _ hs => hs

variable (hash : Hash) (secretData : List UInt8) (rs : Rs.RsControl)

/-- **One iteration** draws what is called for. -/
theorem accountable_loop (input : T × LoopInput) (s : Panel T) :
    Accountable lib width s (s.loop lib width hash secretData rs input).1
      (s.loop lib width hash secretData rs input).2 := by
  unfold loop
  exact (accountable_tick _ _ s).append ((accountable_receiveMail hash secretData rs _ _).append
    ((accountable_extensionButton _ _).append
      ((accountable_alarmButton (fun a => Alarm.keepsTime_alarmSet a _ _) _ _ _).append
        ((accountable_alarmButton Alarm.keepsTime_alarmUnset _ _ _).append
          (accountable_moveSwitch _ _)))))

theorem accountable_run (inputs : List (T × LoopInput)) (s : Panel T) :
    Accountable lib width s (Mealy.run (loop lib width hash secretData rs) inputs s).1
      (Mealy.run (loop lib width hash secretData rs) inputs s).2.flatten :=
  Chronicle.accountable_run (accountable_loop hash secretData rs) inputs s

end

/-- Times in seconds. -/
def sampleTimes : DateTimes Nat where
  invalidTime := 0
  timeOfDay t := ⟨(t / 3600 % 24).toUInt8, (t / 60 % 60).toUInt8, (t % 60).toUInt8⟩
  plus := Nat.add
  onDayOf t hour minute second :=
    t / 86400 * 86400 + 3600 * hour.toNat + 60 * minute.toNat + second.toNat

section

variable [LinearOrder T] {lib : DateTimes T} {width : List UInt8 → UInt16}
  {newTime : TimeOfDay → UInt8 → UInt8 → UInt8 → TimeOfDay}

/-- **Setting the clock never puts it back**, where a day later is later. -/
theorem nowTime_lt_clockSet (hday : ∀ t hour minute second,
      t < lib.plus (lib.onDayOf t hour minute second) oneDay)
    (hour minute second : UInt8) (s : Panel T) :
    s.nowTime < (s.clockSet lib width hour minute second).1.nowTime := by
  show s.nowTime < laterTime lib s.nowTime 1 (lib.onDayOf s.nowTime hour minute second)
  unfold laterTime
  split
  · exact hday s.nowTime hour minute second
  · exact not_le.mp ‹_›

theorem nowTime_tick (lib : DateTimes T) (time : T) (input : LoopInput) (s : Panel T) :
    (s.tick lib time input).1.nowTime = time ∧
      (s.tick lib time input).1.sketch.nowTime = lib.timeOfDay time := by
  have hsketch := SketchState.nowTime_tick { input with now := lib.timeOfDay time } s.sketch
  unfold tick
  dsimp only
  split_ifs <;> exact ⟨rfl, hsketch⟩

/-- What `clock_set` makes of the time of day is a function of the time of day. -/
def SetsTimeOfDay (lib : DateTimes T)
    (newTime : TimeOfDay → UInt8 → UInt8 → UInt8 → TimeOfDay) : Prop :=
  ∀ t hour minute second,
    lib.timeOfDay (laterTime lib t 1 (lib.onDayOf t hour minute second))
      = newTime (lib.timeOfDay t) hour minute second

theorem sketchTime_handle (hnew : SetsTimeOfDay lib newTime) (later : NightDayTime) (e : Event)
    {s : Panel T} (hs : s.sketch.nowTime = lib.timeOfDay s.nowTime) :
    let s' := (handle lib width later e s).1
    s'.sketch.nowTime = lib.timeOfDay s'.nowTime ∧
      s'.sketch.nowTime = match e with
        | .clockSet hour minute second => newTime s.sketch.nowTime hour minute second
        | _ => s.sketch.nowTime := by
  cases e with
  | clockSet hour minute second =>
    refine ⟨rfl, ?_⟩
    dsimp only
    rw [hs]
    exact hnew s.nowTime hour minute second
  | displayMessageLp msg =>
    unfold handle displayMessageLp
    dsimp only
    split_ifs
    · exact ⟨hs, rfl⟩
    · exact ⟨hs, rfl⟩
  | displayMessage msg | newPacket counter payload rsRc | nvramWrite addr data => exact ⟨hs, rfl⟩

theorem sketchTime_handleAll_eq (hnew : SetsTimeOfDay lib newTime) (later : NightDayTime)
    (es : List Event) {s : Panel T} (hs : s.sketch.nowTime = lib.timeOfDay s.nowTime) :
    (s.handleAll lib width later es).1.sketch.nowTime = es.foldl (fun t e =>
      match e with
      | .clockSet hour minute second => newTime t hour minute second
      | _ => t) s.sketch.nowTime := by
  induction es generalizing s with
  | nil => rfl
  | cons e es ih =>
    obtain ⟨hsync, htime⟩ := @sketchTime_handle _ _ lib width newTime hnew later e s hs
    rw [List.foldl_cons, ← htime]
    exact ih hsync

/-- **The sketch does not notice its display.** -/
theorem sketch_loop (hash : Hash) (secretData : List UInt8) (rs : Rs.RsControl)
    (hnew : SetsTimeOfDay lib newTime) (input : T × LoopInput) (s : Panel T) :
    (s.loop lib width hash secretData rs input).1.sketch
      = (s.sketch.loop hash secretData rs newTime
          { input.2 with now := lib.timeOfDay input.1 }).1 := by
  have htick : (s.tick lib input.1 input.2).1.sketch
      = (s.sketch.tick { input.2 with now := lib.timeOfDay input.1 }).1 := by
    unfold tick
    dsimp only
    split_ifs <;> rfl
  obtain ⟨hnow, htime⟩ := nowTime_tick lib input.1 input.2 s
  have hmail : ((s.tick lib input.1 input.2).1.receiveMail lib width hash secretData rs
      input.2.mailbox).1.sketch
      = (s.tick lib input.1 input.2).1.sketch.receiveMail hash secretData rs newTime
          input.2.mailbox := by
    unfold receiveMail SketchState.receiveMail
    dsimp only
    rewrite [sketchTime_handleAll_eq hnew _ _ (htime.trans (congrArg lib.timeOfDay hnow.symm))]
    rfl
  rw [htick] at hmail
  have hext (s : Panel T) : (s.extensionButton lib input.2).1.sketch
      = (s.sketch.extensionButton input.2).2.2 := by
    unfold extensionButton
    split_ifs <;> rfl
  have hbutton (pressed : Bool) (p : Alarm → Sketch (Bool × Alarm)) (millis : UInt32)
      (s : Panel T) : (if pressed then s.alarmButton lib width p millis else (s, [])).1.sketch
        = (if pressed then s.sketch.alarmButton p millis else (s.sketch, [])).1 := by
    split_ifs <;> rfl
  have hswitch (s : Panel T) :
      (s.moveSwitch lib width input.2).1.sketch = s.sketch.moveSwitch input.2 := by
    unfold moveSwitch
    dsimp only
    split_ifs <;> rfl
  unfold loop SketchState.loop
  dsimp only
  rw [hswitch, hbutton, hbutton, hext, hmail]
  rfl

end

end Panel
end CpeClock
