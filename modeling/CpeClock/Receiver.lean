import CpeClock.Reception
import Mathlib.Logic.Relation

/-!
# The clock as one party of the radio protocol

A receiver is a powered clock or one without power, and its NVRAM. It may be handed any mailbox,
its buttons may be pressed and its alarm looked at, it may be booted, and its power may be cut
after any event of any of these. `Cause` says for each step which of the two things happened that
matter to the protocol: the stored counter stayed where it was, or a packet was accepted and the
counter became that packet's. It is proved along the programs (`Accounted`), so that the cuts
come with the completed runs, and the invariants of the protocol are all derived from
`Step.cause`.
-/

namespace CpeClock

open Lib Hmac433 Mail

/-- A receiver: the NVRAM, the static variables while there is power, and the calls of
    `new_packet` so far. -/
structure Receiver where
  nvram : Nvram
  clock : Option Clock
  commands : List Command

namespace Receiver

/-- What a clock with power does in its `loop`. -/
inductive Call where
  | mailReceiveMessages (mailbox : Mailbox)
  | alarmUpdate (hour minute : UInt8)
  | alarmReset
  | alarmUnset

section

variable (hash : Hash) (secretData : List UInt8) (rs : Rs.RsControl)

def Call.program (clock : Clock) : Call → Sketch (Option Clock)
  | mailReceiveMessages mailbox => do
    let (clock, _) ← Mail.mailReceiveMessages hash secretData rs clock mailbox
    return some clock
  | alarmUpdate hour minute => do
    let (_, alarm) ← Alarm.alarmUpdate clock.alarm hour minute
    return some { clock with alarm := alarm }
  | alarmReset => do
    let (_, alarm) ← Alarm.alarmReset clock.alarm
    return some { clock with alarm := alarm }
  | alarmUnset => do
    let (_, alarm) ← Alarm.alarmUnset clock.alarm
    return some { clock with alarm := alarm }

end

def complete (r : Receiver) (p : Sketch (Option Clock)) : Receiver where
  nvram := p.final r.nvram
  clock := p.value r.nvram
  commands := r.commands ++ CpeClock.commands (p.events r.nvram)

/-- The receiver after the power was cut when a program had performed `n` events. -/
def powerCut (r : Receiver) (p : Sketch (Option Clock)) (n : Nat) : Receiver where
  nvram := p.cut r.nvram n
  clock := none
  commands := r.commands ++ CpeClock.commands ((p.events r.nvram).take n)

/-- One step of a receiver. `Delivers` says which mailboxes may reach which clock. -/
inductive Step (hash : Hash) (secretData : List UInt8) (rs : Rs.RsControl)
    (Delivers : Clock → Mailbox → Prop) : Receiver → Receiver → Prop
  | call {r : Receiver} {clock : Clock} (hclock : r.clock = some clock) (call : Call)
      (hdelivers : ∀ mailbox, call = .mailReceiveMessages mailbox → Delivers clock mailbox) :
      Step hash secretData rs Delivers r
        (r.complete (call.program hash secretData rs clock))
  | callCut {r : Receiver} {clock : Clock} (hclock : r.clock = some clock) (call : Call)
      (hdelivers : ∀ mailbox, call = .mailReceiveMessages mailbox → Delivers clock mailbox)
      (n : Nat) :
      Step hash secretData rs Delivers r
        (r.powerCut (call.program hash secretData rs clock) n)
  | boot (r : Receiver) : Step hash secretData rs Delivers r (r.complete setup)
  | bootCut (r : Receiver) (n : Nat) : Step hash secretData rs Delivers r (r.powerCut setup n)

theorem complete_receive (hash : Hash) (secretData : List UInt8) (rs : Rs.RsControl) (r : Receiver)
    (clock : Clock) (mailbox : Mailbox) :
    let p := Mail.mailReceiveMessages hash secretData rs clock mailbox
    r.complete ((Call.mailReceiveMessages mailbox).program hash secretData rs clock)
      = ⟨p.final r.nvram, some (p.value r.nvram).1,
          r.commands ++ CpeClock.commands (p.events r.nvram)⟩ := by
  dsimp only
  unfold complete Call.program
  rw [Traced.final_bind, Traced.value_bind, Traced.events_bind]
  simp only [Traced.final_pure, Traced.value_pure, Traced.events_pure, List.append_nil]

/-! ## The invariant, and what a step can do -/

/-- The store is good, and a clock with power has the stored counter in RAM. -/
structure Inv (r : Receiver) : Prop where
  formatted : Formatted r.nvram
  ram : ∀ clock, r.clock = some clock → clock.hmacMessageCounter = storedCounter r.nvram

section Cause

variable {hash : Hash} {secretData : List UInt8} {rs : Rs.RsControl}
  {Delivers : Clock → Mailbox → Prop}

/-- Either the stored counter and the commands stay, or one packet was accepted. -/
inductive Cause (hash : Hash) (secretData : List UInt8) (rs : Rs.RsControl)
    (Delivers : Clock → Mailbox → Prop) (r r' : Receiver) : Prop
  | same (hstored : storedCounter r'.nvram = storedCounter r.nvram)
      (hcommands : r'.commands = r.commands)
  | accepts (clock : Clock) (mailbox : Mailbox) (packet : Packet) (counter : UInt64) (rsRc : Nat)
      (hclock : r.clock = some clock) (hdelivers : Delivers clock mailbox)
      (haccepted : accepted hash secretData rs clock mailbox = some (packet, counter, rsRc))
      (hstored : storedCounter r'.nvram = counter)
      (hcommands : r'.commands = r.commands ∨
        r'.commands = r.commands ++ commandsOf packet counter rsRc)

/-- All along a run of `p`: the store is good, and the cause is one of the two. -/
def Accounted (hash : Hash) (secretData : List UInt8) (rs : Rs.RsControl)
    (Delivers : Clock → Mailbox → Prop) (r : Receiver) (p : Sketch (Option Clock)) : Prop :=
  Traced.Along (fun es nv => Formatted nv ∧ Cause hash secretData rs Delivers r
    ⟨nv, none, r.commands ++ CpeClock.commands es⟩) p r.nvram

/-- The static variables play no part in the cause. -/
theorem Cause.withClock {r : Receiver} {nv : Nvram} {before clock : Option Clock}
    {commands : List Command}
    (h : Cause hash secretData rs Delivers r ⟨nv, before, commands⟩) :
    Cause hash secretData rs Delivers r ⟨nv, clock, commands⟩ := by
  cases h with
  | same hstored hcommands => exact .same hstored hcommands
  | accepts clock mailbox packet counter rsRc hclock hdelivers haccepted hstored hcommands =>
    exact .accepts clock mailbox packet counter rsRc hclock hdelivers haccepted hstored hcommands

theorem Accounted.powerCut {r : Receiver} {p : Sketch (Option Clock)}
    (h : Accounted hash secretData rs Delivers r p) (n : Nat) :
    Inv (r.powerCut p n) ∧ Cause hash secretData rs Delivers r (r.powerCut p n) := by
  obtain ⟨hf, hcause⟩ := h n
  exact ⟨⟨hf, fun c hc => absurd hc (by simp [Receiver.powerCut])⟩, hcause⟩

theorem Accounted.complete {r : Receiver} {p : Sketch (Option Clock)}
    (h : Accounted hash secretData rs Delivers r p)
    (hram : ∀ c, p.value r.nvram = some c →
      c.hmacMessageCounter = storedCounter (p.final r.nvram)) :
    Inv (r.complete p) ∧ Cause hash secretData rs Delivers r (r.complete p) := by
  obtain ⟨hf, hcause⟩ := h.last
  exact ⟨⟨hf, hram⟩, hcause.withClock⟩

/-- Events that leave the counter alone all along, and call nothing, are accounted for. -/
theorem accounted_of_keeps {r : Receiver} {p : Sketch (Option Clock)}
    (h : Traced.Along (fun es nv => (Formatted nv ∧ storedCounter nv = storedCounter r.nvram) ∧
      CpeClock.commands es = []) p r.nvram) :
    Accounted hash secretData rs Delivers r p := by
  refine h.mono fun es nv hkept => ?_
  obtain ⟨⟨hf, hstored⟩, hcommands⟩ := hkept
  exact ⟨hf, .same hstored (by rw [hcommands, List.append_nil])⟩

/-- A program that keeps off the counter, in NVRAM and in RAM. -/
structure Keeps (clock : Clock) (p : Sketch (Option Clock)) : Prop where
  writes : WritesIn CommandArea p
  ram : ∀ nv c, p.value nv = some c → c.hmacMessageCounter = clock.hmacMessageCounter

theorem Keeps.along {r : Receiver} (hinv : Inv r) {clock : Clock} {p : Sketch (Option Clock)}
    (h : Keeps clock p) :
    Traced.Along (fun es nv => (Formatted nv ∧ storedCounter nv = storedCounter r.nvram) ∧
      CpeClock.commands es = []) p r.nvram :=
  (along_keeps_store h.writes commandArea_outside r.nvram).mono
    fun _ _ hkept => ⟨⟨hkept.1.1 hinv.formatted, hkept.1.2⟩, hkept.2⟩

/-- A program of the alarm, with its result stored in the static variables. -/
theorem keeps_alarm {clock : Clock} {α : Type} {p : Sketch (α × Alarm)}
    (hp : WritesIn Alarm.Owns p) :
    Keeps clock (p >>= fun out => return some { clock with alarm := out.2 }) := by
  refine ⟨Traced.emits_bind (hp.mono (Event.WritesIn.mono fun _ => .inl))
    fun _ => Traced.emits_pure _, fun nv c hc => ?_⟩
  obtain rfl := Option.some.inj hc
  rfl

/-- Of the calls only that of the mail touches the counter. -/
theorem Call.mail_or_keeps (hash : Hash) (secretData : List UInt8) (rs : Rs.RsControl)
    (clock : Clock) (call : Call) :
    (∃ mailbox, call = .mailReceiveMessages mailbox) ∨
      Keeps clock (call.program hash secretData rs clock) := by
  cases call with
  | mailReceiveMessages mailbox => exact .inl ⟨mailbox, rfl⟩
  | alarmUpdate hour minute =>
    exact .inr (keeps_alarm (Alarm.writesIn_alarmUpdate clock.alarm hour minute))
  | alarmReset => exact .inr (keeps_alarm (Alarm.writesIn_alarmSet _ _ _))
  | alarmUnset => exact .inr (keeps_alarm (Alarm.writesIn_alarmUnset clock.alarm))

theorem accounted_receive {r : Receiver} (hinv : Inv r) {clock : Clock}
    (hclock : r.clock = some clock) {mailbox : Mailbox} (hdelivers : Delivers clock mailbox) :
    Accounted hash secretData rs Delivers r
      ((Call.mailReceiveMessages mailbox).program hash secretData rs clock) := by
  have hmail : Traced.Along (fun es nv => Formatted nv ∧ Cause hash secretData rs Delivers r
      ⟨nv, none, r.commands ++ CpeClock.commands es⟩)
      (Mail.mailReceiveMessages hash secretData rs clock mailbox) r.nvram := by
    cases haccepted : accepted hash secretData rs clock mailbox with
    | none =>
      obtain ⟨-, -, hquiet⟩ := receive_rejected hash secretData rs haccepted r.nvram
      intro n
      have hquiet' : ∀ e ∈ ((Mail.mailReceiveMessages hash secretData rs clock mailbox).events
          r.nvram).take n, Event.Quiet e :=
        fun e he => hquiet e (List.mem_of_mem_take he)
      rw [Traced.cut, replay_of_quiet hquiet', commands_of_quiet hquiet', List.append_nil]
      exact ⟨hinv.formatted, .same rfl rfl⟩
    | some a =>
      obtain ⟨packet, counter, rsRc⟩ := a
      refine (along_receive_accepted hash secretData rs haccepted hinv.formatted).mono
        fun es nv hreached => ?_
      obtain ⟨hf, hold | hnew⟩ := hreached
      · exact ⟨hf, .same hold.1 (by rw [hold.2, List.append_nil])⟩
      · refine ⟨hf, .accepts clock mailbox packet counter rsRc hclock hdelivers haccepted
          hnew.1 ?_⟩
        rcases hnew.2 with hnone | hsome
        · exact .inl (by rw [hnone, List.append_nil])
        · exact .inr (by rw [hsome])
  -- The new static variables are stored without an event.
  refine Traced.along_bind hmail (Traced.along_pure _ ?_)
  rw [List.append_nil]
  exact hmail.last

theorem ram_receive (hash : Hash) (secretData : List UInt8) (rs : Rs.RsControl)
    {r : Receiver} (hinv : Inv r) {clock : Clock}
    (hclock : r.clock = some clock) (mailbox : Mailbox) :
    ∀ c, ((Call.mailReceiveMessages mailbox).program hash secretData rs clock).value r.nvram
        = some c →
      c.hmacMessageCounter = storedCounter
        (((Call.mailReceiveMessages mailbox).program hash secretData rs clock).final r.nvram) := by
  intro c hc
  have hfinal : ((Call.mailReceiveMessages mailbox).program hash secretData rs clock).final r.nvram
      = (Mail.mailReceiveMessages hash secretData rs clock mailbox).final r.nvram :=
    Traced.final_bind
  obtain rfl : ((Mail.mailReceiveMessages hash secretData rs clock mailbox).value r.nvram).1 = c :=
    Option.some.inj hc
  rw [hfinal]
  cases haccepted : accepted hash secretData rs clock mailbox with
  | none =>
    obtain ⟨hcounter, hnv, -⟩ := receive_rejected hash secretData rs haccepted r.nvram
    rw [hcounter, hnv, hinv.ram clock hclock]
  | some a =>
    obtain ⟨packet, counter, rsRc⟩ := a
    obtain ⟨-, hstored, hcounter, -⟩ :=
      receive_accepted hash secretData rs haccepted r.nvram
    rw [hcounter, hstored]

theorem Call.accounted {r : Receiver} (hinv : Inv r) {clock : Clock}
    (hclock : r.clock = some clock) {call : Call}
    (hdelivers : ∀ mailbox, call = .mailReceiveMessages mailbox → Delivers clock mailbox) :
    Accounted hash secretData rs Delivers r (call.program hash secretData rs clock) := by
  rcases call.mail_or_keeps hash secretData rs clock with ⟨mailbox, rfl⟩ | hkeeps
  · exact accounted_receive hinv hclock (hdelivers mailbox rfl)
  · exact accounted_of_keeps (hkeeps.along hinv)

theorem Call.ram {r : Receiver} (hinv : Inv r) {clock : Clock} (hclock : r.clock = some clock)
    (call : Call) :
    ∀ c, (call.program hash secretData rs clock).value r.nvram = some c →
      c.hmacMessageCounter
        = storedCounter ((call.program hash secretData rs clock).final r.nvram) := by
  rcases call.mail_or_keeps hash secretData rs clock with ⟨mailbox, rfl⟩ | hkeeps
  · exact ram_receive hash secretData rs hinv hclock mailbox
  · intro c hc
    obtain ⟨⟨-, hstored⟩, -⟩ := (hkeeps.along hinv).last
    rw [hkeeps.ram r.nvram c hc, hstored, hinv.ram clock hclock]

/-- **What a step of a receiver can do.** -/
theorem Step.cause {r r' : Receiver} (hinv : Inv r)
    (hstep : Step hash secretData rs Delivers r r') :
    Inv r' ∧ Cause hash secretData rs Delivers r r' := by
  cases hstep with
  | call hclock call hdelivers =>
    exact (call.accounted hinv hclock hdelivers).complete (call.ram hinv hclock)
  | callCut hclock call hdelivers n => exact (call.accounted hinv hclock hdelivers).powerCut n
  | boot =>
    obtain ⟨⟨clock, hvalue, hcounter, -⟩, halong⟩ := setup_formatted hinv.formatted
    refine (accounted_of_keeps halong).complete fun c hc => ?_
    obtain ⟨⟨-, hstored⟩, -⟩ := halong.last
    obtain rfl : clock = c := Option.some.inj (hvalue.symm.trans hc)
    exact hcounter.trans hstored.symm
  | bootCut n =>
    obtain ⟨-, halong⟩ := setup_formatted hinv.formatted
    exact (accounted_of_keeps halong).powerCut n

end Cause

end Receiver
end CpeClock
