import CpeClock.Lib.PacedQueue
import CpeClock.Server433
import Mathlib.Tactic.Linarith

/-!
# The transmit queue of the server

The reactor runs one handler at a time: `datagramReceived` when a datagram arrives, `send_next` when
a delayed call is due. Each call of either is a few actions on a queue that lets one item go every
`SEND_INTERVAL` (`step_refines`), whatever the clock says and whether or not `device_send` raises,
and the order and the spacing of the commands follow from the library.

That the queue keeps moving is another matter: it hangs on `send_next` being scheduled again, and an
exception in `device_send` comes before that (`Stalls`).
-/

namespace CpeClock

open Lib

/-- The commands handed to `device_send`, with the readings of the clock. -/
def handed (calls : List Call433) : List (ℚ × AbstractData) :=
  calls.filterMap fun
    | .deviceSend t data => some (t, data)
    | _ => none

/-- The delays with which `send_next` was scheduled. -/
def scheduled (calls : List Call433) : List ℚ :=
  calls.filterMap fun
    | .sendNextLater delay => some delay
    | _ => none

theorem handed_append (calls calls' : List Call433) :
    handed (calls ++ calls') = handed calls ++ handed calls' := List.filterMap_append

theorem scheduled_append (calls calls' : List Call433) :
    scheduled (calls ++ calls') = scheduled calls ++ scheduled calls' := List.filterMap_append

namespace Server433

/-- The queue and its gate. -/
def paced (s : Server433) : PacedQueue AbstractData ℚ := ⟨s.sendQueue, s.allowSendAt⟩

section

variable (settings : Settings)

theorem copies_quiet (s : Server433) (data : AbstractData) (sendToTimerService : Bool) :
    handed (s.copies settings data sendToTimerService) = [] ∧
      scheduled (s.copies settings data sendToTimerService) = [] := by
  unfold copies
  dsimp only
  split_ifs <;> exact ⟨rfl, rfl⟩

theorem repeats_quiet (data : AbstractData) :
    handed (repeats settings data) = [] ∧ scheduled (repeats settings data) = [] := by
  unfold repeats
  split_ifs <;> exact ⟨rfl, rfl⟩

/-- **What `send_next` can do**: nothing, come again later, or send one command. -/
theorem sendNext_cases (m : Moment) (s : Server433) :
    (s.sendQueue = [] ∧ s.sendNext settings m = (s, [], false)) ∨
    (∃ data rest delay, s.sendQueue = data :: rest ∧ m.time < s.allowSendAt ∧
      s.sendNext settings m = (s, [.sendNextLater delay], false)) ∨
    (∃ data rest, s.sendQueue = data :: rest ∧ s.allowSendAt ≤ m.time ∧
      (s.sendNext settings m).1
        = { s with sendQueue := rest, allowSendAt := m.time + sendInterval } ∧
      handed (s.sendNext settings m).2.1 = [(m.time, data)] ∧
      (scheduled (s.sendNext settings m).2.1).length
        = if m.raises = true ∨ rest = [] then 0 else 1) := by
  obtain ⟨allowSendAt, sendQueue, lights⟩ := s
  cases sendQueue with
  | nil => exact .inl ⟨rfl, rfl⟩
  | cons data rest =>
    by_cases htime : allowSendAt ≤ m.time
    · refine .inr (.inr ⟨data, rest, rfl, htime, ?_⟩)
      obtain ⟨hhanded, hscheduled⟩ := repeats_quiet settings data
      rw [sendNext]
      dsimp only
      rw [if_pos htime]
      by_cases hraises : m.raises = true
      · rw [if_pos hraises, if_pos (.inl hraises)]
        exact ⟨rfl, rfl, rfl⟩
      · rw [if_neg hraises]
        have hcalls : handed (.deviceSend m.time data :: repeats settings data)
              = [(m.time, data)] ∧
            scheduled (.deviceSend m.time data :: repeats settings data) = [] :=
          ⟨congrArg ((m.time, data) :: ·) hhanded, hscheduled⟩
        by_cases hrest : rest = []
        · rw [if_pos hrest, if_pos (.inr hrest)]
          exact ⟨rfl, hcalls.1, congrArg List.length hcalls.2⟩
        · rw [if_neg hrest, if_neg (not_or.mpr ⟨hraises, hrest⟩)]
          dsimp only
          rw [handed_append, scheduled_append, hcalls.1, hcalls.2]
          exact ⟨rfl, rfl, rfl⟩
    · refine .inr (.inl ⟨data, rest, 1 / 20 + max 0 (allowSendAt - m.time), rfl,
        lt_of_not_ge htime, ?_⟩)
      rw [sendNext]
      dsimp only
      rw [if_neg htime]

/-- **`send_next` releases one command**, if it is time. -/
theorem sendNext_paced (m : Moment) (s : Server433) :
    ((s.sendNext settings m).1.paced, handed (s.sendNext settings m).2.1)
      = PacedQueue.step sendInterval (.release m.time) s.paced := by
  rcases sendNext_cases settings m s with
    ⟨hqueue, hrun⟩ | ⟨data, rest, delay, hqueue, htime, hrun⟩ |
    ⟨data, rest, hqueue, htime, hserver, hhanded, -⟩
  · rw [hrun, PacedQueue.step, paced, hqueue]
    rfl
  · rw [hrun, PacedQueue.step, paced, hqueue]
    dsimp only
    rw [if_neg (not_le_of_gt htime)]
    rfl
  · rw [hserver, hhanded, PacedQueue.step, paced, paced, hqueue]
    dsimp only
    rw [if_pos htime]

/-- **When `send_next` schedules what it should**: unless it raised and left something. -/
theorem sendNext_live_iff (m : Moment) (s : Server433) :
    (scheduled (s.sendNext settings m).2.1).length
        = (if (s.sendNext settings m).1.sendQueue = [] then 0 else 1)
      ↔ ¬ (2 ≤ s.sendQueue.length ∧ s.allowSendAt ≤ m.time ∧ m.raises = true) := by
  rcases sendNext_cases settings m s with
    ⟨hqueue, hrun⟩ | ⟨data, rest, delay, hqueue, htime, hrun⟩ |
    ⟨data, rest, hqueue, htime, hserver, -, hscheduled⟩
  · rw [hrun, hqueue]
    exact ⟨fun _ h => absurd h.1 (by decide), fun _ => rfl⟩
  · rw [hrun, hqueue]
    exact ⟨fun _ h => absurd h.2.1 (not_le_of_gt htime), fun _ => rfl⟩
  · rw [hscheduled, hserver, hqueue]
    cases rest with
    | nil =>
      rw [if_pos (.inr rfl), if_pos rfl]
      exact ⟨fun _ h => absurd h.1 (by simp), fun _ => rfl⟩
    | cons data' rest =>
      have hne : data' :: rest ≠ [] := List.cons_ne_nil _ _
      dsimp only
      rw [if_neg hne]
      by_cases hraises : m.raises = true
      · rw [if_pos (.inl hraises)]
        exact ⟨fun h => absurd h (by decide), fun h => absurd ⟨by simp, htime, hraises⟩ h⟩
      · rw [if_neg (not_or.mpr ⟨hraises, hne⟩)]
        exact ⟨fun _ h => hraises h.2.2, fun _ => rfl⟩

theorem sendNext_lights (m : Moment) (s : Server433) :
    (s.sendNext settings m).1.nameToLightDataMap = s.nameToLightDataMap := by
  rcases sendNext_cases settings m s with ⟨-, hrun⟩ | ⟨_, _, _, -, -, hrun⟩ |
    ⟨_, _, -, -, hserver, -⟩
  · rw [hrun]
  · rw [hrun]
  · rw [hserver]

theorem datagramReceived_rejected {dataBytes : List UInt8} {s : Server433}
    (h : (s.decodeDatagram dataBytes).1 = none) (m : Moment) :
    s.datagramReceived settings dataBytes m = (s, []) := by
  unfold datagramReceived
  split
  · rfl
  · next hdecode =>
    rw [hdecode] at h
    cases h

/-- A datagram with a command: `send_next` runs at once if the queue was empty. -/
theorem datagramReceived_accepted {dataBytes : List UInt8} {s : Server433} {data : AbstractData}
    (h : (s.decodeDatagram dataBytes).1 = some data) (m : Moment) :
    let queued : Server433 := { s with sendQueue := s.sendQueue ++ [data] }
    let after := s.datagramReceived settings dataBytes m
    if s.sendQueue = [] then
      after.1 = (queued.sendNext settings m).1 ∧
        handed after.2 = handed (queued.sendNext settings m).2.1 ∧
        scheduled after.2 = scheduled (queued.sendNext settings m).2.1
    else after.1 = queued ∧ handed after.2 = [] ∧ scheduled after.2 = [] := by
  intro queued after
  have hafter : after = s.datagramReceived settings dataBytes m := rfl
  unfold datagramReceived at hafter
  cases hdecode : s.decodeDatagram dataBytes with
  | mk command sendToTimerService =>
    rw [hdecode] at h hafter
    dsimp only at h
    subst h
    have hquiet := fun s => copies_quiet settings s data sendToTimerService
    have hlength : (s.sendQueue ++ [data]).length = 1 ↔ s.sendQueue = [] := by
      rw [List.length_append, List.length_singleton, Nat.add_eq_right, List.length_eq_zero_iff]
    dsimp only at hafter
    by_cases hempty : s.sendQueue = []
    · rw [if_pos hempty]
      rw [if_pos (hlength.mpr hempty)] at hafter
      rw [hafter]
      refine ⟨rfl, ?_, ?_⟩
      · dsimp only
        split
        · rfl
        · rw [handed_append, (hquiet _).1, List.append_nil]
      · dsimp only
        split
        · rfl
        · rw [scheduled_append, (hquiet _).2, List.append_nil]
    · rw [if_neg hempty]
      rw [if_neg (mt hlength.mp hempty)] at hafter
      rw [hafter]
      exact ⟨rfl, hquiet _⟩

end

end Server433

/-! ## The reactor -/

/-- The server, and the delays of the calls of `send_next` that are scheduled. -/
structure Reactor where
  server : Server433
  pending : List ℚ

namespace Reactor

/-- What the reactor runs a handler for. -/
inductive Input where
  | datagramReceived (dataBytes : List UInt8) (m : Moment)
  /-- The scheduled call with this index is made. -/
  | delayedCall (i : Nat) (m : Moment)

def initial (lights : List (Text × Text)) : Reactor := ⟨.init lights, []⟩

section

variable (settings : Settings)

def step (e : Input) (s : Reactor) : Reactor × List Call433 :=
  match e with
  | .datagramReceived dataBytes m =>
    let (server, calls) := s.server.datagramReceived settings dataBytes m
    (⟨server, s.pending ++ scheduled calls⟩, calls)
  | .delayedCall i m =>
    if i < s.pending.length then
      let (server, calls, _) := s.server.sendNext settings m
      (⟨server, s.pending.eraseIdx i ++ scheduled calls⟩, calls)
    else (s, [])

def after (es : List Input) (s : Reactor) : Reactor := (Mealy.run (step settings) es s).1

def calls (es : List Input) (s : Reactor) : List Call433 :=
  (Mealy.run (step settings) es s).2.flatten

theorem step_datagram (dataBytes : List UInt8) (m : Moment) (s : Reactor) :
    step settings (.datagramReceived dataBytes m) s
      = (⟨(s.server.datagramReceived settings dataBytes m).1,
          s.pending ++ scheduled (s.server.datagramReceived settings dataBytes m).2⟩,
        (s.server.datagramReceived settings dataBytes m).2) := rfl

theorem step_delayedCall {i : Nat} (m : Moment) {s : Reactor} (hi : i < s.pending.length) :
    step settings (.delayedCall i m) s
      = (⟨(s.server.sendNext settings m).1,
          s.pending.eraseIdx i ++ scheduled (s.server.sendNext settings m).2.1⟩,
        (s.server.sendNext settings m).2.1) := if_pos hi

theorem after_cons (e : Input) (es : List Input) (s : Reactor) :
    after settings (e :: es) s = after settings es (step settings e s).1 := rfl

theorem calls_cons (e : Input) (es : List Input) (s : Reactor) :
    calls settings (e :: es) s
      = (step settings e s).2 ++ calls settings es (step settings e s).1 := rfl

end

/-! ## First in, first out -/

def Input.command (lights : List (Text × Text)) : Input → Option AbstractData
  | .datagramReceived dataBytes _ => ((Server433.init lights).decodeDatagram dataBytes).1
  | .delayedCall _ _ => none

def actions (s : Reactor) : Input → List (PacedQueue.Action AbstractData ℚ)
  | .datagramReceived dataBytes m =>
    match (s.server.decodeDatagram dataBytes).1 with
    | none => []
    | some data => .accept data :: if s.server.sendQueue = [] then [.release m.time] else []
  | .delayedCall i m => if i < s.pending.length then [.release m.time] else []

section

variable (settings : Settings)

/-- **Every handler is a few actions on a paced queue.** -/
theorem step_refines (e : Input) (s : Reactor) :
    let q := Mealy.run (PacedQueue.step Server433.sendInterval) (s.actions e) s.server.paced
    (step settings e s).1.server.paced = q.1 ∧ handed (step settings e s).2 = q.2.flatten := by
  have hrelease := fun m s => Prod.ext_iff.mp (Server433.sendNext_paced settings m s)
  cases e with
  | datagramReceived dataBytes m =>
    cases hdecode : (s.server.decodeDatagram dataBytes).1 with
    | none =>
      rw [step, Server433.datagramReceived_rejected settings hdecode, actions, hdecode]
      exact ⟨rfl, rfl⟩
    | some data =>
      have haccepted := Server433.datagramReceived_accepted settings hdecode m
      dsimp only at haccepted
      rw [step, actions, hdecode]
      dsimp only
      by_cases hempty : s.server.sendQueue = []
      · rw [if_pos hempty] at haccepted ⊢
        obtain ⟨hserver, hhanded, -⟩ := haccepted
        obtain ⟨hpaced, hsent⟩ :=
          hrelease m { s.server with sendQueue := s.server.sendQueue ++ [data] }
        rw [hserver, hhanded]
        refine ⟨hpaced, hsent.trans ?_⟩
        exact (List.append_nil _).symm
      · rw [if_neg hempty] at haccepted ⊢
        obtain ⟨hserver, hhanded, -⟩ := haccepted
        rw [hserver, hhanded]
        exact ⟨rfl, rfl⟩
  | delayedCall i m =>
    rw [step, actions]
    by_cases hi : i < s.pending.length
    · rw [if_pos hi, if_pos hi]
      obtain ⟨hpaced, hsent⟩ := hrelease m s.server
      exact ⟨hpaced, hsent.trans (List.append_nil _).symm⟩
    · rw [if_neg hi, if_neg hi]
      exact ⟨rfl, rfl⟩

theorem step_lights (e : Input) (s : Reactor) :
    (step settings e s).1.server.nameToLightDataMap = s.server.nameToLightDataMap := by
  have hsend := Server433.sendNext_lights settings
  cases e with
  | datagramReceived dataBytes m =>
    cases hdecode : (s.server.decodeDatagram dataBytes).1 with
    | none => rw [step, Server433.datagramReceived_rejected settings hdecode]
    | some data =>
      have haccepted := Server433.datagramReceived_accepted settings hdecode m
      dsimp only at haccepted
      rw [step_datagram]
      by_cases hempty : s.server.sendQueue = []
      · rw [if_pos hempty] at haccepted
        dsimp only
        rw [haccepted.1, hsend]
      · rw [if_neg hempty] at haccepted
        dsimp only
        rw [haccepted.1]
  | delayedCall i m =>
    rw [step]
    split
    · exact hsend m s.server
    · rfl

theorem actions_items (e : Input) (s : Reactor) :
    (s.actions e).filterMap PacedQueue.Action.item
      = (e.command s.server.nameToLightDataMap).toList := by
  cases e with
  | datagramReceived dataBytes m =>
    have hcommand : (Input.datagramReceived dataBytes m).command s.server.nameToLightDataMap
        = (s.server.decodeDatagram dataBytes).1 := rfl
    rw [hcommand, actions]
    cases (s.server.decodeDatagram dataBytes).1 with
    | none => rfl
    | some data =>
      dsimp only
      split <;> rfl
  | delayedCall i m =>
    rw [actions]
    split <;> rfl

def actionsOf : List Input → Reactor → List (PacedQueue.Action AbstractData ℚ)
  | [], _ => []
  | e :: es, s => s.actions e ++ actionsOf es (step settings e s).1

theorem actionsOf_items (es : List Input) (s : Reactor) :
    (actionsOf settings es s).filterMap PacedQueue.Action.item
      = es.filterMap (Input.command s.server.nameToLightDataMap) := by
  induction es generalizing s with
  | nil => rfl
  | cons e es ih =>
    rw [actionsOf, List.filterMap_append, actions_items, ih, step_lights, List.filterMap_cons]
    cases e.command s.server.nameToLightDataMap <;> rfl

theorem run_refines (es : List Input) (s : Reactor) :
    let q := Mealy.run (PacedQueue.step Server433.sendInterval) (actionsOf settings es s)
      s.server.paced
    (after settings es s).server.paced = q.1 ∧ handed (calls settings es s) = q.2.flatten := by
  induction es generalizing s with
  | nil => exact ⟨rfl, rfl⟩
  | cons e es ih =>
    obtain ⟨hpaced, hhanded⟩ := step_refines settings e s
    obtain ⟨hpaced', hhanded'⟩ := ih (step settings e s).1
    dsimp only
    rw [actionsOf, Mealy.run_append, List.flatten_append, after_cons, calls_cons, handed_append,
      hpaced', hhanded', hpaced, hhanded]
    exact ⟨rfl, rfl⟩

/-- **First in, first out, and spaced.** At every moment of every run the commands handed to
    `device_send`, and then those in the queue, are the commands that came in, in their order; and
    of any two that were handed over the later one was so at least `SEND_INTERVAL` later. -/
theorem commands_in_order (lights : List (Text × Text)) (es : List Input) :
    (handed (calls settings es (initial lights))).map Prod.snd
        ++ (after settings es (initial lights)).server.sendQueue
      = es.filterMap (Input.command lights) ∧
    (handed (calls settings es (initial lights))).Pairwise
      fun p p' => p.1 + Server433.sendInterval ≤ p'.1 := by
  obtain ⟨hpaced, hhanded⟩ := run_refines settings es (initial lights)
  have hqueue := congrArg PacedQueue.waiting hpaced
  constructor
  · have hfifo := PacedQueue.run_fifo Server433.sendInterval
      (actionsOf settings es (initial lights)) (initial lights).server.paced
    rw [← hhanded, ← hqueue, actionsOf_items] at hfifo
    exact hfifo
  · have hinterval : 0 ≤ Server433.sendInterval := by decide +kernel
    rw [hhanded]
    exact (PacedQueue.run_spaced hinterval _ _).2

/-! ## Whether the queue moves -/

/-- `send_next` is scheduled once if there is something to send, and not otherwise. -/
def Live (s : Reactor) : Prop :=
  s.pending.length = if s.server.sendQueue = [] then 0 else 1

instance (s : Reactor) : Decidable s.Live := by unfold Live; infer_instance

/-- A scheduled call that sends one of several commands, and `device_send` raises. -/
def Stalls (s : Reactor) : Input → Prop
  | .datagramReceived _ _ => False
  | .delayedCall i m => i < s.pending.length ∧ 2 ≤ s.server.sendQueue.length ∧
      s.server.allowSendAt ≤ m.time ∧ m.raises = true

/-- **One handler keeps the queue moving**, unless it stalls. -/
theorem step_live_iff {s : Reactor} (h : s.Live) (e : Input) :
    (step settings e s).1.Live ↔ ¬ s.Stalls e := by
  cases e with
  | datagramReceived dataBytes m =>
    refine iff_of_true ?_ id
    rw [step_datagram]
    cases hdecode : (s.server.decodeDatagram dataBytes).1 with
    | none =>
      rw [Server433.datagramReceived_rejected settings hdecode]
      exact (congrArg List.length (List.append_nil _)).trans h
    | some data =>
      have haccepted := Server433.datagramReceived_accepted settings hdecode m
      dsimp only at haccepted
      unfold Live
      by_cases hempty : s.server.sendQueue = []
      · -- Nothing is scheduled, and `send_next` runs with one command in the queue.
        rw [if_pos hempty] at haccepted
        obtain ⟨hserver, -, hscheduled⟩ := haccepted
        have hnone : s.pending = [] := by
          rw [Live, if_pos hempty] at h
          exact List.length_eq_zero_iff.mp h
        dsimp only
        rw [hserver, hscheduled, hnone, List.nil_append]
        refine (Server433.sendNext_live_iff settings m _).mpr fun hmany => ?_
        rw [hempty] at hmany
        exact absurd hmany.1 (by simp)
      · rw [if_neg hempty] at haccepted
        obtain ⟨hserver, -, hscheduled⟩ := haccepted
        rw [Live, if_neg hempty] at h
        dsimp only
        rw [hserver, hscheduled, List.append_nil, h, if_neg (by simp)]
  | delayedCall i m =>
    by_cases hi : i < s.pending.length
    · -- The only call that was scheduled is made.
      have hone : (s.pending.eraseIdx i).length = 0 := by
        rw [List.length_eraseIdx_of_lt hi, h]
        split <;> rfl
      rw [step_delayedCall settings m hi, Live, List.length_append, hone, Nat.zero_add,
        Server433.sendNext_live_iff]
      exact not_congr ⟨fun hstalls => ⟨hi, hstalls⟩, fun hstalls => hstalls.2⟩
    · rw [step, if_neg hi]
      exact iff_of_true h fun hstalls => hi hstalls.1

/-- **When the queue never gets stuck**: exactly in the runs in which no handler stalls. -/
theorem live_iff (lights : List (Text × Text)) (es : List Input) :
    (∀ n, (after settings (es.take n) (initial lights)).Live)
      ↔ ∀ n e, es[n]? = some e → ¬ (after settings (es.take n) (initial lights)).Stalls e := by
  suffices hrun : ∀ s : Reactor, s.Live → ((∀ n, (after settings (es.take n) s).Live)
      ↔ ∀ n e, es[n]? = some e → ¬ (after settings (es.take n) s).Stalls e) from
    hrun _ rfl
  induction es with
  | nil =>
    intro s hs
    exact ⟨fun _ n e he => absurd he (by simp), fun _ n => by rwa [List.take_nil]⟩
  | cons e es ih =>
    intro s hs
    rw [← Nat.and_forall_add_one, ← Nat.and_forall_add_one (p := fun n =>
      ∀ e', (e :: es)[n]? = some e' → ¬ (after settings ((e :: es).take n) s).Stalls e')]
    have hhead : (∀ e', (e :: es)[0]? = some e' → ¬ s.Stalls e') ↔ (step settings e s).1.Live := by
      rw [step_live_iff settings hs]
      exact ⟨fun h => h e rfl, fun h e' he' => Option.some.inj he' ▸ h⟩
    constructor
    · rintro ⟨-, hlive⟩
      have hnext : (step settings e s).1.Live := hlive 0
      exact ⟨hhead.mpr hnext, (ih _ hnext).mp hlive⟩
    · rintro ⟨hfirst, hrest⟩
      have hnext : (step settings e s).1.Live := hhead.mp hfirst
      exact ⟨hs, (ih _ hnext).mpr hrest⟩

/-- Three commands: the second is due when the transmitter fails, and the third stays for good. -/
theorem third_command_stuck :
    let datagram := ['N'.toUInt8, 'C'.toUInt8] ++ List.replicate 31 0
    let settings : Settings := ⟨[], 0, [], 0, [], 0⟩
    let stuck := after settings
      [.datagramReceived datagram ⟨0, false, 0⟩, .datagramReceived datagram ⟨0, false, 0⟩,
        .datagramReceived datagram ⟨1, false, 1⟩, .delayedCall 0 ⟨3, true, 3⟩] (initial [])
    stuck.server.sendQueue = [.ncData datagram] ∧ stuck.pending = [] ∧ ¬ stuck.Live := by
  decide +kernel

end

end Reactor
end CpeClock
