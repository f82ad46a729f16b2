import CpeClock.Screen

/-!
# The screen at night

At night the low-priority messages are not displayed, and those are all that the radio can cause
without the secret. So an iteration of the loop in which nobody touches the clock leaves the
screen's two times as they were (`Unchanged`), and once they are over the screen stays dark,
whatever is received (`night_stays_dark`).
-/

namespace CpeClock
namespace Panel

open Lib Hmac433

variable {T : Type*}

/-- No packet in a mailbox authenticates. -/
def Unsigned (hash : Hash) (secretData : List UInt8) (rs : Rs.RsControl) (counter : UInt64)
    (mailbox : Mailbox) : Prop :=
  mailbox.newCodeReady = true → ∀ packet rsRc,
    Mail.decodePacket rs mailbox.newCode = some (packet, rsRc) →
      Hmac433.hmac433Authenticate hash secretData packet counter = none

theorem Unsigned.accepted_eq_none {hash : Hash} {secretData : List UInt8} {rs : Rs.RsControl}
    {clock : Clock} {mailbox : Mailbox}
    (h : Unsigned hash secretData rs clock.hmacMessageCounter mailbox) :
    Mail.accepted hash secretData rs clock mailbox = none := by
  cases haccepted : Mail.accepted hash secretData rs clock mailbox with
  | none => rfl
  | some a =>
    obtain ⟨packet, counter, rsRc⟩ := a
    obtain ⟨hready, hdecode, -, hauthentic⟩ :=
      (Mail.accepted_eq_some hash secretData rs).mp haccepted
    rw [h hready packet rsRc hdecode] at hauthentic
    cases hauthentic

/-- What a quiet night leaves as it was. -/
structure Unchanged (s s' : Panel T) : Prop where
  nightDayTime : s'.sketch.clock.nightDayTime = s.sketch.clock.nightDayTime
  counter : s'.sketch.clock.hmacMessageCounter = s.sketch.clock.hmacMessageCounter
  allowSound : s'.sketch.effects.allowSound = s.sketch.effects.allowSound
  messageOffTime : s'.messageOffTime = s.messageOffTime
  screenOffTime : s'.screenOffTime = s.screenOffTime

theorem Unchanged.trans {s s' s'' : Panel T} (h : Unchanged s s') (h' : Unchanged s' s'') :
    Unchanged s s'' where
  nightDayTime := h'.nightDayTime.trans h.nightDayTime
  counter := h'.counter.trans h.counter
  allowSound := h'.allowSound.trans h.allowSound
  messageOffTime := h'.messageOffTime.trans h.messageOffTime
  screenOffTime := h'.screenOffTime.trans h.screenOffTime

section

variable [LinearOrder T] (lib : DateTimes T) (width : List UInt8 → UInt16) (hash : Hash)
  (secretData : List UInt8) (rs : Rs.RsControl)

/-- An iteration at night, with the screen off: no packet is signed, and nobody touches the
    clock. -/
structure QuietNight (s : Panel T) (input : T × LoopInput) : Prop where
  night : s.sketch.clock.nightDayTime.nightDayTimeTest (lib.timeOfDay input.1).hour
    (lib.timeOfDay input.1).minute = true
  messageOff : s.messageOffTime < input.1
  screenOff : s.screenOffTime < input.1
  unsigned : Unsigned hash secretData rs s.sketch.clock.hmacMessageCounter input.2.mailbox
  rightButton : input.2.rightButton = false
  leftButton : input.2.leftButton = false
  extButton : input.2.extButton = false
  slideSwitch : input.2.slideSwitch = s.sketch.effects.allowSound

/-- What is drawn while the screen is off: nothing, and dimmed, unless the alarm sounds. -/
def darkPicture (scene : Scene T) : Picture where
  dim := !scene.alarmActive
  upper := if scene.alarmActive && alternator (lib.timeOfDay scene.now) then
    .small (Display.messageBytes "ALARM!") else .blank
  lower := if scene.alarmActive then .large (timeText (lib.timeOfDay scene.now)) else .blank

end

section

variable [LinearOrder T] {lib : DateTimes T} {width : List UInt8 → UInt16} {hash : Hash}
  {secretData : List UInt8} {rs : Rs.RsControl} {s s' : Panel T} {input : T × LoopInput}

theorem QuietNight.of_unchanged (h : QuietNight lib hash secretData rs s input)
    (hs : Unchanged s s') : QuietNight lib hash secretData rs s' input where
  night := by rw [hs.nightDayTime, h.night]
  messageOff := by rw [hs.messageOffTime]; exact h.messageOff
  screenOff := by rw [hs.screenOffTime]; exact h.screenOff
  unsigned := by rw [hs.counter]; exact h.unsigned
  rightButton := h.rightButton
  leftButton := h.leftButton
  extButton := h.extButton
  slideSwitch := by rw [hs.allowSound]; exact h.slideSwitch

theorem unchanged_tick (lib : DateTimes T) (time : T) (input : LoopInput) (s : Panel T) :
    Unchanged s (s.tick lib time input).1 := by
  have hsketch (input : LoopInput) (s : SketchState) :
      (s.tick input).1.clock.nightDayTime = s.clock.nightDayTime ∧
        (s.tick input).1.clock.hmacMessageCounter = s.clock.hmacMessageCounter ∧
        (s.tick input).1.effects.allowSound = s.effects.allowSound := by
    have heffects (effects : AlarmEffects) (millis : UInt32) :
        (effects.updateAlarm millis).1.allowSound = effects.allowSound := by
      unfold AlarmEffects.updateAlarm
      split_ifs <;> rfl
    unfold SketchState.tick SketchState.callUpdateAlarm
    dsimp only
    split_ifs
    all_goals exact ⟨rfl, rfl, heffects _ _⟩
  obtain ⟨hnight, hcounter, hsound⟩ := hsketch { input with now := lib.timeOfDay time } s.sketch
  unfold tick
  dsimp only
  split_ifs <;> exact ⟨hnight, hcounter, hsound, rfl, rfl⟩

theorem QuietNight.isNightTime_tick (h : QuietNight lib hash secretData rs s input) :
    (s.tick lib input.1 input.2).1.isNightTime = true := by
  unfold isNightTime
  rw [(nowTime_tick lib input.1 input.2 s).2, (unchanged_tick lib input.1 input.2 s).nightDayTime,
    h.night]

/-- At night, with the screen off, nothing is drawn but the alarm. -/
theorem updateDisplay_dark (htime : s.sketch.nowTime = lib.timeOfDay s.nowTime)
    (hnight : s.isNightTime = true) (hmessage : s.messageOffTime < s.nowTime)
    (hscreen : s.screenOffTime < s.nowTime) :
    s.updateDisplay.2 = [.drawn s.scene (darkPicture lib s.scene)] := by
  have hmessage : ¬ s.nowTime ≤ s.messageOffTime := not_le.mpr hmessage
  have hscreen : ¬ s.nowTime ≤ s.screenOffTime := not_le.mpr hscreen
  unfold updateDisplay darkPicture
  simp only [hmessage, hscreen, hnight, htime, if_false, false_and, false_or, Bool.true_and]
  rfl

theorem notes_tick (time : T) (input : LoopInput) (s : Panel T) :
    (s.tick lib time input).2 = [] ∨
      (s.tick lib time input).2 = (s.tick lib time input).1.updateDisplay.2 := by
  unfold tick
  dsimp only
  split_ifs
  · exact .inr rfl
  · exact .inl rfl

theorem QuietNight.notes_tick (h : QuietNight lib hash secretData rs s input) :
    ∀ note ∈ (s.tick lib input.1 input.2).2,
      ∃ scene, note = .drawn scene (darkPicture lib scene) := by
  intro note hnote
  have hsame := unchanged_tick lib input.1 input.2 s
  obtain ⟨hnow, htime⟩ := nowTime_tick lib input.1 input.2 s
  rcases Panel.notes_tick input.1 input.2 s with hnone | hone
  · rw [hnone] at hnote
    exact absurd hnote List.not_mem_nil
  · rw [hone, updateDisplay_dark (htime.trans (congrArg lib.timeOfDay hnow.symm))
      h.isNightTime_tick (by rw [hsame.messageOffTime, hnow]; exact h.messageOff)
      (by rw [hsame.screenOffTime, hnow]; exact h.screenOff)] at hnote
    exact ⟨_, List.mem_singleton.mp hnote⟩

/-- At night the low-priority display does nothing. -/
theorem handleAll_quiet (hnight : s.isNightTime = true) (later : NightDayTime) {es : List Event}
    (hquiet : ∀ e ∈ es, Mail.Event.Quiet e) : s.handleAll lib width later es = (s, []) := by
  induction es with
  | nil => rfl
  | cons e es ih =>
    have hfirst : handle lib width later e s = (s, []) := by
      cases e with
      | displayMessageLp msg => exact if_pos hnight
      | displayMessage | clockSet | newPacket | nvramWrite =>
        exact absurd (hquiet _ List.mem_cons_self) id
    have hrest := ih fun e he => hquiet e (List.mem_cons_of_mem _ he)
    unfold handleAll at hrest ⊢
    rw [Mealy.run_cons, hfirst]
    exact hrest

/-- What is received at night, without a signature, is not displayed. -/
theorem receiveMail_unsigned {mailbox : Mailbox} (hnight : s.isNightTime = true)
    (hunsigned : Unsigned hash secretData rs s.sketch.clock.hmacMessageCounter mailbox) :
    Unchanged s (s.receiveMail lib width hash secretData rs mailbox).1 ∧
      (s.receiveMail lib width hash secretData rs mailbox).2 = [] := by
  have haccepted := hunsigned.accepted_eq_none
  obtain ⟨hcounter, -, hquiet⟩ :=
    Mail.receive_rejected hash secretData rs haccepted s.sketch.nvram
  have hsettings := Mail.receive_rejected_settings haccepted s.sketch.nvram
  unfold receiveMail
  dsimp only
  rw [handleAll_quiet hnight _ hquiet]
  exact ⟨⟨congrArg SavedSettings.nightDayTime hsettings, hcounter, rfl, rfl, rfl⟩, rfl⟩

/-- An iteration in which nobody touches the clock. -/
theorem loop_untouched (hright : input.2.rightButton = false) (hleft : input.2.leftButton = false)
    (hext : input.2.extButton = false) {ticked received : List (Note T)} {s₁ s₂ : Panel T}
    (htick : s.tick lib input.1 input.2 = (s₁, ticked))
    (hmail : s₁.receiveMail lib width hash secretData rs input.2.mailbox = (s₂, received))
    (hswitch : s₂.sketch.effects.allowSound = input.2.slideSwitch) :
    s.loop lib width hash secretData rs input
      = ({ s₂ with sketch := { s₂.sketch with extensionButtonPressed := 0 } },
          ticked ++ received) := by
  unfold Panel.loop
  rw [htick]
  dsimp only
  rw [hmail]
  unfold extensionButton moveSwitch SketchState.moveSwitch
  simp [SketchState.extensionButton_released hext, hright, hleft, hext, hswitch]

/-- **One quiet iteration.** -/
theorem QuietNight.loop (h : QuietNight lib hash secretData rs s input)
    (width : List UInt8 → UInt16) :
    Unchanged s (s.loop lib width hash secretData rs input).1 ∧
      ∀ note ∈ (s.loop lib width hash secretData rs input).2,
        ∃ scene, note = .drawn scene (darkPicture lib scene) := by
  have hnotes := h.notes_tick
  have hnight := h.isNightTime_tick
  have hticked := unchanged_tick lib input.1 input.2 s
  cases htick : s.tick lib input.1 input.2 with
  | mk s₁ ticked =>
    rw [htick] at hnotes hnight hticked
    have hreceived := @receiveMail_unsigned _ _ lib width _ _ _ s₁ _ hnight
      (h.of_unchanged hticked).unsigned
    cases hmail : s₁.receiveMail lib width hash secretData rs input.2.mailbox with
    | mk s₂ received =>
      rw [hmail] at hreceived
      obtain ⟨hsame, rfl⟩ := hreceived
      have hsame := hticked.trans hsame
      rw [loop_untouched h.rightButton h.leftButton h.extButton htick hmail
        (hsame.allowSound.trans h.slideSwitch.symm), List.append_nil]
      exact ⟨⟨hsame.nightDayTime, hsame.counter, hsame.allowSound, hsame.messageOffTime,
        hsame.screenOffTime⟩, hnotes⟩

/-- **The screen stays dark all night**, whatever is received without the secret: nothing is drawn
    but the alarm. -/
theorem night_stays_dark (inputs : List (T × LoopInput)) {s : Panel T}
    (h : ∀ input ∈ inputs, QuietNight lib hash secretData rs s input) :
    ∀ note ∈ (Mealy.run (loop lib width hash secretData rs) inputs s).2.flatten,
      ∃ scene, note = .drawn scene (darkPicture lib scene) := by
  induction inputs generalizing s with
  | nil => exact fun note hnote => absurd hnote List.not_mem_nil
  | cons input inputs ih =>
    obtain ⟨hsame, hdark⟩ := (h input List.mem_cons_self).loop width
    have hrest := ih fun input hinput =>
      (h input (List.mem_cons_of_mem _ hinput)).of_unchanged hsame
    intro note hnote
    rw [Mealy.run_cons, List.flatten_cons] at hnote
    rcases List.mem_append.mp hnote with hnote | hnote
    · exact hdark note hnote
    · exact hrest note hnote

end

/-- Three o'clock, in a night from eleven to seven; the clock has counter 5. -/
def sampleNight : Panel Nat where
  sketch := SketchState.booted (fun _ => 0) ⟨5, Packet.zero, ⟨420, .disabled⟩, ⟨1380, 420⟩⟩
    ⟨3, 0, 0⟩ 0 true
  nowTime := 86400 + 10800
  screenOffTime := 86400
  messageOffTime := 86400
  buffers := ⟨Vector.replicate 32 0, Vector.replicate 32 0⟩

def replayedRequest : Packet :=
  { Packet.zero with payload := #v['A'.toUInt8, 3, 0, 0, 0, 0] }

/-- An old command, with a counter of 2. -/
def replayedPacket (hash : Hash) : Packet :=
  (hmac433Encode hash [] replayedRequest 1).1

/-- What is replayed has a counter behind the clock's, and is tagged for another one than the clock
    rebuilds. -/
theorem unsigned_replayed {hash : Hash} {rs : Rs.RsControl}
    (hrs : Ncrs.ncrsInit = some rs)
    (hwrong : packetHmac hash [] 258 replayedRequest.payload
      ≠ packetHmac hash [] 2 replayedRequest.payload) :
    Unsigned hash [] rs 5 (Mail.mailboxOf rs 0 (replayedPacket hash)) := by
  intro _ packet rsRc hdecode
  have hflag : (replayedPacket hash).counterResyncFlag &&& 0x7f = 0 := by
    rw [replayedPacket, encode_flag]
    rfl
  have hdecoded := Mail.decodePacket_encoded hrs hflag
  obtain rfl : replayedPacket hash = packet :=
    congrArg Prod.fst (Option.some.inj (hdecoded.symm.trans hdecode))
  have hbehind : ordinaryCounter 5 2 = 258 := by decide
  have hrebuilt : rebuildCounter (replayedPacket hash) 5 = some (ordinaryCounter 5 2) := rfl
  rw [hbehind] at hrebuilt
  cases hauthentic : hmac433Authenticate hash [] (replayedPacket hash) 5 with
  | none => rfl
  | some counter =>
    obtain ⟨n, hn, htag, -⟩ := authenticate_eq_some hash [] 5 hauthentic
    obtain rfl : n = 258 := Option.some.inj (hn.symm.trans hrebuilt)
    exact absurd htag hwrong

/-- A light is switched over the radio, an old command is replayed, and nothing is heard. -/
def sampleNightInputs : List (Nat × LoopInput) :=
  [(86400 + 10801, { SketchState.sampleInput ⟨3, 0, 1⟩ 1000 with
      mailbox := ⟨0x12345678, Vector.replicate 31 0, false⟩ }),
    (86400 + 10801, { SketchState.sampleInput ⟨3, 0, 1⟩ 1500 with
      mailbox := Mail.mailboxOf Rs.rs32 0 (replayedPacket sha256) }),
    (86400 + 10802, SketchState.sampleInput ⟨3, 0, 2⟩ 2000)]

def sampleNightNotes : List (Note Nat) :=
  (Mealy.run (loop sampleTimes (fun _ => 0) sha256 [] Rs.rs32) sampleNightInputs
    sampleNight).2.flatten

theorem night_stays_dark_sample :
    sampleNightNotes.length = 2 ∧
      ∀ note ∈ sampleNightNotes, ∃ scene, note = .drawn scene (darkPicture sampleTimes scene) := by
  refine ⟨by decide +kernel, night_stays_dark sampleNightInputs fun input hinput => ?_⟩
  have hreplayed := @unsigned_replayed sha256 _ Ncrs.ncrsInit_eq (by decide +kernel)
  simp only [sampleNightInputs, List.mem_cons, List.not_mem_nil, or_false] at hinput
  rcases hinput with rfl | rfl | rfl
  · exact ⟨by decide, by decide, by decide, fun hready => absurd hready (by decide), rfl, rfl, rfl,
      rfl⟩
  · exact ⟨by decide, by decide, by decide, hreplayed, rfl, rfl, rfl, rfl⟩
  · exact ⟨by decide, by decide, by decide, fun hready => absurd hready (by decide), rfl, rfl, rfl,
      rfl⟩

end Panel
end CpeClock
