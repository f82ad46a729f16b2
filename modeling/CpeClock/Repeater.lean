import CpeClock.Datagrams
import CpeClock.TransmitQueue

/-!
# A server and its repeater

A server passes each command that it broadcasts on to another one, over the network, and the other
broadcasts it as well. If nothing is lost between them, and no broadcast raises, the second hands
the same commands to its transmitter in the same order, but for numbers that are no codes, and
leaves the timer service alone (`repeated_in_order`).
-/

namespace CpeClock

open Lib Server433

/-! ## What is passed on -/

/-- The commands that are passed on to a repeater. -/
def repeated (calls : List Call433) : List AbstractData :=
  calls.filterMap fun
    | .networkSendLater _ data _ _ => some data
    | _ => none

theorem repeated_append (calls calls' : List Call433) :
    repeated (calls ++ calls') = repeated calls ++ repeated calls' := List.filterMap_append

/-- There is a repeater. -/
def Settings.HasRepeater (settings : Settings) : Prop :=
  settings.repeaterAddress ≠ [] ∧ settings.repeaterPort ≠ 0

/-- What is passed on is what was handed over. -/
def PassesOn (calls : List Call433) : Prop := repeated calls = (handed calls).map Prod.snd

theorem PassesOn.append {calls calls' : List Call433} (h : PassesOn calls) (h' : PassesOn calls') :
    PassesOn (calls ++ calls') := by
  unfold PassesOn at h h' ⊢
  rw [repeated_append, handed_append, List.map_append, h, h']

namespace Server433

variable {settings : Settings}

theorem passesOn_copies (s : Server433) (data : AbstractData) (sendToTimerService : Bool) :
    PassesOn (s.copies settings data sendToTimerService) := by
  unfold copies
  dsimp only
  split_ifs <;> rfl

theorem repeats_eq (hrepeater : settings.HasRepeater) (data : AbstractData) :
    repeats settings data
      = [.networkSendLater repeaterDelay data settings.repeaterAddress settings.repeaterPort] :=
  if_pos hrepeater

theorem passesOn_sendNext (hrepeater : settings.HasRepeater) {m : Moment}
    (hm : m.raises = false) (s : Server433) :
    PassesOn (s.sendNext settings m).2.1 ∧ (s.sendNext settings m).2.2 = false := by
  unfold sendNext
  split
  · exact ⟨rfl, rfl⟩
  · split
    · dsimp only
      rw [hm, if_neg Bool.false_ne_true, repeats_eq hrepeater]
      split <;> exact ⟨rfl, rfl⟩
    · exact ⟨rfl, rfl⟩

theorem passesOn_datagramReceived (hrepeater : settings.HasRepeater) {m : Moment}
    (hm : m.raises = false) (dataBytes : List UInt8) (s : Server433) :
    PassesOn (s.datagramReceived settings dataBytes m).2 := by
  unfold datagramReceived
  split
  · rfl
  · next data sendToTimerService _ =>
    dsimp only
    split
    · dsimp only
      obtain ⟨hsend, hraised⟩ := passesOn_sendNext hrepeater hm
        { s with sendQueue := s.sendQueue ++ [data] }
      rw [hraised, if_neg Bool.false_ne_true]
      exact hsend.append (passesOn_copies ..)
    · exact passesOn_copies ..

end Server433

namespace Reactor

def Input.moment : Input → Moment
  | .datagramReceived _ m => m
  | .delayedCall _ m => m

variable {settings : Settings}

/-- **What is handed over is passed on**, in the same order, if nothing raises. -/
theorem passesOn_calls (hrepeater : settings.HasRepeater) {es : List Input}
    (hes : ∀ e ∈ es, e.moment.raises = false) (s : Reactor) : PassesOn (calls settings es s) := by
  induction es generalizing s with
  | nil => rfl
  | cons e es ih =>
    have hm := hes e List.mem_cons_self
    rw [calls_cons]
    refine PassesOn.append ?_ (ih (fun e he => hes e (List.mem_cons_of_mem _ he)) _)
    cases e with
    | datagramReceived dataBytes m =>
      rw [step_datagram]
      exact passesOn_datagramReceived hrepeater hm dataBytes s.server
    | delayedCall i m =>
      rw [step]
      split
      · exact (passesOn_sendNext hrepeater hm s.server).1
      · rfl

/-! ## What comes in -/

def Input.datagram? : Input → Option (List UInt8)
  | .datagramReceived dataBytes _ => some dataBytes
  | .delayedCall _ _ => none

theorem commands_eq (lights : List (Text × Text)) (es : List Input) :
    es.filterMap (Input.command lights)
      = commandsOfDatagrams (.init lights) (es.filterMap Input.datagram?) := by
  rw [commandsOfDatagrams, List.filterMap_filterMap]
  refine List.filterMap_congr fun e _ => ?_
  cases e <;> rfl

variable (settings) in
/-- The commands that came in are handed over or still in the queue. -/
theorem handed_queue (lights : List (Text × Text)) (es : List Input) :
    (handed (calls settings es (initial lights))).map Prod.snd
        ++ (after settings es (initial lights)).server.sendQueue
      = commandsOfDatagrams (.init lights) (es.filterMap Input.datagram?) := by
  obtain ⟨hpaced, hhanded⟩ := run_refines settings es (initial lights)
  have hfifo := PacedQueue.run_fifo sendInterval (actionsOf settings es (initial lights))
    (initial lights).server.paced
  rw [← hhanded, ← congrArg PacedQueue.waiting hpaced, actionsOf_items] at hfifo
  exact hfifo.trans (commands_eq lights es)

/-! ## The timer service -/

/-- Nothing but the Hue service is told. -/
def TellsHueOnly (settings : Settings) (calls : List Call433) : Prop :=
  ∀ text address port, .sendto text address port ∈ calls →
    address = settings.hueAddress ∧ port = settings.huePort

theorem TellsHueOnly.append {calls calls' : List Call433} (h : TellsHueOnly settings calls)
    (h' : TellsHueOnly settings calls') : TellsHueOnly settings (calls ++ calls') := by
  intro text address port hmem
  rcases List.mem_append.mp hmem with hmem | hmem
  · exact h text address port hmem
  · exact h' text address port hmem

theorem tellsHueOnly_sendNext (m : Moment) (s : Server433) :
    TellsHueOnly settings (s.sendNext settings m).2.1 := by
  have hrepeats : ∀ data, TellsHueOnly settings (repeats settings data) := by
    intro data text address port hmem
    unfold repeats at hmem
    split at hmem
    · cases List.mem_singleton.mp hmem
    · cases hmem
  have hone : ∀ {c : Call433}, (∀ text address port, Call433.sendto text address port ≠ c) →
      TellsHueOnly settings [c] :=
    fun hc text address port hmem => absurd (List.mem_singleton.mp hmem) (hc text address port)
  have hsend : ∀ data, TellsHueOnly settings (.deviceSend m.time data :: repeats settings data) :=
    fun data => (hone fun _ _ _ => Call433.noConfusion).append (hrepeats data)
  unfold sendNext
  split
  · exact fun _ _ _ hmem => absurd hmem List.not_mem_nil
  · split
    · dsimp only
      split
      · exact hone fun _ _ _ => Call433.noConfusion
      · split
        · exact hsend _
        · exact (hsend _).append (hone fun _ _ _ => Call433.noConfusion)
    · exact hone fun _ _ _ => Call433.noConfusion

theorem tellsHueOnly_copies (s : Server433) (data : AbstractData) :
    TellsHueOnly settings (s.copies settings data false) := by
  intro text address port hmem
  unfold copies at hmem
  dsimp only at hmem
  split at hmem
  · rcases List.mem_append.mp hmem with hmem | hmem
    · split at hmem
      · cases List.mem_singleton.mp hmem
        exact ⟨rfl, rfl⟩
      · cases hmem
    · rw [if_neg fun h => Bool.false_ne_true h.1] at hmem
      cases hmem
  · cases hmem

theorem tellsHueOnly_datagram {dataBytes : List UInt8} {s : Server433}
    (h : (s.decodeDatagram dataBytes).2 = false) (m : Moment) :
    TellsHueOnly settings (s.datagramReceived settings dataBytes m).2 := by
  unfold datagramReceived
  split
  · exact fun _ _ _ hmem => absurd hmem List.not_mem_nil
  · next hdecode =>
    rw [hdecode] at h
    obtain rfl : _ = false := h
    dsimp only
    split
    · dsimp only
      split
      · exact tellsHueOnly_sendNext m _
      · exact (tellsHueOnly_sendNext m _).append (tellsHueOnly_copies _ _)
    · exact tellsHueOnly_copies _ _

/-- Datagrams that are marked leave the timer service alone. -/
theorem tellsHueOnly_calls {es : List Input} (s : Reactor)
    (hes : ∀ datagram ∈ es.filterMap Input.datagram?,
      ((Server433.init s.server.nameToLightDataMap).decodeDatagram datagram).2 = false) :
    TellsHueOnly settings (calls settings es s) := by
  induction es generalizing s with
  | nil => exact fun _ _ _ hmem => absurd hmem List.not_mem_nil
  | cons e es ih =>
    have hlater : ∀ datagram ∈ es.filterMap Input.datagram?,
        ((Server433.init (step settings e s).1.server.nameToLightDataMap).decodeDatagram
          datagram).2 = false := by
      intro datagram hmem
      obtain ⟨e', he', hdatagram⟩ := List.mem_filterMap.mp hmem
      rw [step_lights]
      exact hes datagram (List.mem_filterMap.mpr ⟨e', List.mem_cons_of_mem _ he', hdatagram⟩)
    rw [calls_cons]
    refine TellsHueOnly.append ?_ (ih _ hlater)
    cases e with
    | datagramReceived dataBytes m =>
      have hmarked : (s.server.decodeDatagram dataBytes).2 = false :=
        hes dataBytes (List.mem_filterMap.mpr ⟨_, List.mem_cons_self, rfl⟩)
      exact tellsHueOnly_datagram hmarked m
    | delayedCall i m =>
      rw [step]
      split
      · exact tellsHueOnly_sendNext m s.server
      · exact fun _ _ _ hmem => absurd hmem List.not_mem_nil

/-! ## The two together -/

/-- What a server accepts is a new code that looks like one, or a number. -/
theorem commands_known (server : Server433) (datagrams : List (List UInt8)) :
    ∀ data ∈ commandsOfDatagrams server datagrams,
      (∃ msg, data = .ncData msg ∧ isNewCode msg = true) ∨ ∃ number, data = .heData number := by
  intro data hdata
  obtain ⟨datagram, -, hdecode⟩ := List.mem_filterMap.mp hdata
  by_cases hnew : isNewCode datagram = true
  · rw [decodeDatagram_newCode server hnew] at hdecode
    obtain rfl := Option.some.inj hdecode
    exact .inl ⟨datagram, rfl, hnew⟩
  · exact .inr (decodeDatagram_other server hnew data (Option.mem_def.mpr hdecode))

theorem decodeDatagram_passedOn (server : Server433) {data : AbstractData}
    (hdata : (∃ msg, data = .ncData msg ∧ isNewCode msg = true) ∨ ∃ number, data = .heData number) :
    server.decodeDatagram data.networkSend
      = (if data.Repeatable then some data else none, false) := by
  rcases hdata with ⟨msg, rfl, hnew⟩ | ⟨number, rfl⟩
  · rw [if_pos (show AbstractData.Repeatable (.ncData msg) from hnew)]
    exact decodeDatagram_newCode server hnew
  · exact decodeDatagram_networkSend server number

/-- **A repeater broadcasts what the server does**, in the same order. -/
theorem repeated_in_order {settings settings' : Settings} (hrepeater : settings.HasRepeater)
    (lights lights' : List (Text × Text)) {es : List Input}
    (hes : ∀ e ∈ es, e.moment.raises = false) {fs : List Input}
    (harrive : fs.filterMap Input.datagram?
      = (repeated (calls settings es (initial lights))).map AbstractData.networkSend) :
    (handed (calls settings' fs (initial lights'))).map Prod.snd
        ++ (after settings' fs (initial lights')).server.sendQueue
      = ((handed (calls settings es (initial lights))).map Prod.snd).filter
          AbstractData.Repeatable ∧
    TellsHueOnly settings' (calls settings' fs (initial lights')) := by
  have hpasses : repeated (calls settings es (initial lights)) = _ :=
    passesOn_calls hrepeater hes (initial lights)
  have hknown : ∀ data ∈ (handed (calls settings es (initial lights))).map Prod.snd,
      (∃ msg, data = .ncData msg ∧ isNewCode msg = true) ∨ ∃ number, data = .heData number := by
    intro data hdata
    apply commands_known (.init lights) (es.filterMap Input.datagram?)
    rw [← handed_queue settings]
    exact List.mem_append_left _ hdata
  rw [hpasses] at harrive
  constructor
  · rw [handed_queue, harrive, commandsOfDatagrams, List.filterMap_map, ← List.filterMap_eq_filter]
    refine List.filterMap_congr fun data hdata => ?_
    have hdecode := congrArg Prod.fst
      (decodeDatagram_passedOn (.init lights') (hknown data hdata))
    exact hdecode.trans (by simp [Option.guard])
  · apply tellsHueOnly_calls
    rw [harrive]
    intro datagram hmem
    obtain ⟨data, hdata, rfl⟩ := List.mem_map.mp hmem
    exact congrArg Prod.snd (decodeDatagram_passedOn _ (hknown data hdata))

/-! ## A light is switched on and off -/

def sampleSettings : Settings where
  repeaterAddress := "192.168.0.2".toList
  repeaterPort := 433
  hueAddress := []
  huePort := 0
  timerAddress := "192.168.0.3".toList
  timerPort := 1987

/-- The code of the television has more than 32 bits. -/
def sampleTwoLights : List (Text × Text) :=
  [("lamp".toList, "1234e0".toList), ("tv".toList, "123456789a0".toList)]

/-- What comes to the server: three commands at once, which it sends one after another. -/
def sampleInputs : List Input :=
  [.datagramReceived (Text.encodeAscii "lamp on".toList) ⟨5, false, 5⟩,
    .datagramReceived (Text.encodeAscii "tv on".toList) ⟨6, false, 6⟩,
    .datagramReceived (Text.encodeAscii "lamp off".toList) ⟨6, false, 6⟩,
    .delayedCall 0 ⟨8, false, 8⟩, .delayedCall 0 ⟨17, false, 17⟩]

/-- What comes to the repeater. -/
def samplePassedOn : List Input :=
  [.datagramReceived (AbstractData.heData 0x1234f0).networkSend ⟨5, false, 5⟩,
    .datagramReceived (AbstractData.heData 0x123456789b0).networkSend ⟨9, false, 9⟩,
    .datagramReceived (AbstractData.heData 0x1234e0).networkSend ⟨9, false, 9⟩,
    .delayedCall 0 ⟨10, false, 10⟩]

/-- The first server knows the lights, and the second does not. -/
theorem repeated_in_order_sample :
    (handed (calls sampleSettings sampleInputs (initial sampleTwoLights))).map Prod.snd
        = [.heData 0x1234f0, .heData 0x123456789b0, .heData 0x1234e0] ∧
      (handed (calls sampleSettings samplePassedOn (initial []))).map Prod.snd
          ++ (after sampleSettings samplePassedOn (initial [])).server.sendQueue
        = [.heData 0x1234f0, .heData 0x1234e0] := by
  have hquiet : ∀ e ∈ sampleInputs, e.moment.raises = false :=
    List.forall_iff_forall_mem.mp ⟨rfl, rfl, rfl, rfl, rfl⟩
  have harrive : samplePassedOn.filterMap Input.datagram?
      = (repeated (calls sampleSettings sampleInputs (initial sampleTwoLights))).map
          AbstractData.networkSend := by
    decide +kernel
  have hhanded : (handed (calls sampleSettings sampleInputs (initial sampleTwoLights))).map Prod.snd
      = [.heData 0x1234f0, .heData 0x123456789b0, .heData 0x1234e0] := by
    decide +kernel
  obtain ⟨horder, -⟩ := @repeated_in_order sampleSettings sampleSettings ⟨by decide, by decide⟩
    sampleTwoLights [] _ hquiet _ harrive
  refine ⟨hhanded, ?_⟩
  rw [horder, hhanded]
  decide

end Reactor
end CpeClock
