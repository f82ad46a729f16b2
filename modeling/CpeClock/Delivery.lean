import CpeClock.RadioMailbox
import CpeClock.RebroadcastFilter
import CpeClock.Receiver

/-!
# What is broadcast is received

Nobody acknowledges anything, so this is about a run in which nothing is lost: the main loop comes
by between the ends of any two broadcasts (`Attended`), and each packet is accepted after the one
before it (`InStep`). Then every new code is taken once and in order (`polled_attended`), and every
packet is executed once and in order, whatever else the main loop does (`runCalls_inStep`).
-/

namespace CpeClock

open Lib Mealy Hmac433 Mail Rx433 Tx433 LatestValue

/-! ## Broadcasts and the main loop -/

namespace Radio

/-- Commands that are broadcast one after another to a clock whose main loop comes by before each
    of them ends, and after the one before. -/
inductive Attended : UInt32 → List AbstractData → List RadioEvent → Prop
  | nil (before : UInt32) {events : List RadioEvent} (hquiet : edges events = []) :
      Attended before [] events
  | cons {before start first last : UInt32} {data : AbstractData} {sent : List AbstractData}
      {times : List UInt32} {events later : List RadioEvent}
      (hedges : List.Forall₂ (fun n time => Jittered (start + UInt32.ofNat n) time)
        (risingEdges 0 false data.deviceSend) (first :: times))
      (hevents : first :: times = edges events ++ [last])
      (hpoll : .poll ∈ events)
      (hlo : 4096 ≤ (first - before).toNat) (hhi : (first - before).toNat < 2 ^ 31)
      (hlater : Attended last sent later) :
      Attended before (data :: sent) (events ++ .edge last :: later)

theorem edges_map (times : List UInt32) : edges (times.map .edge) = times := by
  unfold edges
  rw [List.filterMap_map]
  exact List.filterMap_some

/-- One more broadcast, with a poll before it. -/
theorem attended_cons {before start first : UInt32} {data : AbstractData}
    {sent : List AbstractData} {times : List UInt32} {later : List RadioEvent}
    (hedges : List.Forall₂ (fun n time => Jittered (start + UInt32.ofNat n) time)
      (risingEdges 0 false data.deviceSend) (first :: times))
    (hlo : 4096 ≤ (first - before).toNat) (hhi : (first - before).toNat < 2 ^ 31)
    (hlater : Attended ((first :: times).getLastD before) sent later) :
    Attended before (data :: sent) (.poll :: (first :: times).map .edge ++ later) := by
  obtain ⟨early, last, hlast⟩ : ∃ early last, first :: times = early ++ [last] :=
    (List.eq_nil_or_concat' _).resolve_left (List.cons_ne_nil first times)
  have hevents : first :: times = edges (.poll :: early.map .edge) ++ [last] := by
    rw [hlast]
    exact congrArg (· ++ [last]) (edges_map early).symm
  rw [hlast, List.getLastD_concat] at hlater
  have h := Attended.cons hedges hevents List.mem_cons_self hlo hhi hlater
  rw [hlast, List.map_append, List.cons_append, List.append_assoc]
  exact h

theorem take_mem_ops {α : Type} (select : Publication → Option α) {events : List RadioEvent}
    (hpoll : .poll ∈ events) (s : Rx433) : Op.take ∈ ops select events s := by
  induction events generalizing s with
  | nil => cases hpoll
  | cons event events ih =>
    cases event with
    | edge time =>
      obtain hpoll := (List.mem_cons.mp hpoll).resolve_left (by simp)
      exact List.mem_append_right _ (ih hpoll _)
    | poll => exact List.mem_cons_self

theorem ops_edge {α : Type} (select : Publication → Option α) (time : UInt32)
    (events : List RadioEvent) (s : Rx433) :
    ops select (.edge time :: events) s
      = ((rx433Interrupt time s).2.filterMap select).map Op.put
        ++ ops select events (rx433Interrupt time s).1 := rfl

/-- **No new code is published on another**, and what is published are those of the commands. -/
theorem ops_attended {before : UInt32} {sent : List AbstractData} {events : List RadioEvent}
    (hattended : Attended before sent events) {s : Rx433} (hs : Settled s)
    (hbefore : s.oldTime = before) :
    puts (ops Publication.newCode? events s) = sent.filterMap newCodeOf ∧
      ∀ slot, KeepsUp (ops Publication.newCode? events s) slot := by
  induction hattended generalizing s with
  | @nil before events hquiet =>
    have hputs : puts (ops Publication.newCode? events s) = [] := by
      rw [puts_ops, hquiet]
      rfl
    exact ⟨hputs, keepsUp_of_quiet hputs⟩
  | @cons before start first last data sent times events later hedges hevents hpoll hlo hhi _ ih =>
    subst hbefore
    obtain ⟨hquiet, hnow⟩ := newCodes_last data hs hedges hevents hlo hhi
    obtain ⟨-, hsettled⟩ := hear_data data hs hedges hlo hhi
    have hheard : (hear (first :: times) s).1
        = (rx433Interrupt last (hear (edges events) s).1).1 := by
      rw [hevents, hear, run_append]
      rfl
    rw [hheard] at hsettled
    obtain ⟨hputs, hkeeps⟩ := ih hsettled rfl
    have hbefore : puts (ops Publication.newCode? events s) = [] := by rw [puts_ops, hquiet]
    have hlength : (newCodeOf data).toList.length ≤ 1 := by
      cases newCodeOf data <;> simp
    rw [ops_append, ops_edge, hnow]
    constructor
    · rw [puts_append, puts_append, puts_puts, hbefore, hputs, List.nil_append,
        List.filterMap_cons]
      cases newCodeOf data <;> rfl
    · exact keepsUp_quiet_put hbefore (take_mem_ops _ hpoll s) hlength hkeeps

/-- **Every new code is received once, in order**, if the main loop comes by in time. -/
theorem polled_attended {sent : List AbstractData} {events : List RadioEvent} {r : Radio}
    (hsettled : Settled r.rx) (hattended : Attended r.rx.oldTime sent events)
    (hempty : r.mailbox.newCodeReady = false) :
    polledCodes events r ++ (run step events r).1.mailbox.code?.toList
      = sent.filterMap newCodeOf := by
  have hslot : r.mailbox.code? = none := by
    rw [Mailbox.code?, hempty]
    rfl
  obtain ⟨hputs, hkeeps⟩ := ops_attended hattended hsettled rfl
  have hkept := (isSlot_newCode.run events r none hslot).2
  rw [polledCodes_eq, hslot, hkept, ← hputs]
  exact (hkeeps none).takes_complete

end Radio

/-! ## Packets in step -/

section

variable (hash : Hash) (secretData : List UInt8)

/-- Packets, with their counters, that are accepted one after another. -/
inductive InStep : UInt64 → Packet → List (UInt64 × Packet) → Prop
  | nil (counter : UInt64) (previous : Packet) : InStep counter previous []
  | cons {counter n : UInt64} {previous packet : Packet} {later : List (UInt64 × Packet)}
      (hflag : packet.counterResyncFlag &&& 0x7f = 0)
      (hrebuilt : rebuildCounter packet counter = some n)
      (htag : packet.hmac = packetHmac hash secretData n packet.payload)
      (hdiffers : previous ≠ packet)
      (hlater : InStep (n + 1) packet later) :
      InStep counter previous ((n, packet) :: later)

end

/-- The command that a packet brings, once its counter was `n`. -/
def commandsOfSent (sent : List (UInt64 × Packet)) : List Command :=
  sent.flatMap fun e => commandsOf e.2 (e.1 + 1) 1

/-- The counter after some packets. -/
def counterAfterSent (counter : UInt64) (sent : List (UInt64 × Packet)) : UInt64 :=
  ((sent.getLast?).map fun e => e.1 + 1).getD counter

namespace Receiver

def Call.mailbox? : Call → Option Mailbox
  | mailReceiveMessages mailbox => some mailbox
  | _ => none

/-- The new code that a call takes, if any. -/
def Call.code? (call : Call) : Option NcCode := call.mailbox?.bind Mailbox.code?

section

variable (hash : Hash) (secretData : List UInt8) (rs : Rs.RsControl)

/-- A call of the main loop. A clock without power makes none. -/
def runCall (r : Receiver) (call : Call) : Receiver :=
  match r.clock with
  | none => r
  | some clock => r.complete (call.program hash secretData rs clock)

def runCalls (calls : List Call) (r : Receiver) : Receiver :=
  calls.foldl (runCall hash secretData rs) r

end

/-- There is power, and the clock has this counter and has last seen this packet. -/
def Has (counter : UInt64) (previous : Packet) (r : Receiver) : Prop :=
  ∃ clock, r.clock = some clock ∧ clock.hmacMessageCounter = counter ∧
    clock.previousPacket = previous

section

variable {hash : Hash} {secretData : List UInt8} {rs : Rs.RsControl} {counter : UInt64}
  {previous : Packet} {r : Receiver}

/-- What a call that accepts nothing leaves in `previous_packet`. -/
theorem receive_rejected_previous {clock : Clock} {mailbox : Mailbox}
    (h : accepted hash secretData rs clock mailbox = none) (nv : Nvram) :
    ((mailReceiveMessages hash secretData rs clock mailbox).value nv).1.previousPacket
      = (((mailbox.code?.bind (decodePacket rs)).map Prod.fst).getD clock.previousPacket) := by
  rw [mailReceiveMessages, Traced.value_bind, Traced.value_bind]
  generalize (receiveHomeEasy mailbox).final nv = nv
  show ((receiveNewCode hash secretData rs clock mailbox).value nv).previousPacket = _
  unfold receiveNewCode Mailbox.code?
  by_cases hready : mailbox.newCodeReady = true
  · rw [accepted, if_pos hready] at h
    rw [if_pos hready, if_pos hready, receiveCode, Option.bind_some]
    cases hdecode : decodePacket rs mailbox.newCode with
    | none => rfl
    | some decoded =>
      rw [hdecode] at h
      dsimp only at h ⊢
      unfold receivePacket
      by_cases hsame : clock.previousPacket = decoded.1
      · rw [if_pos hsame]
        exact hsame
      · rw [if_neg hsame] at h
        rw [if_neg hsame]
        dsimp only
        rw [Option.map_eq_none_iff.mp h]
        rfl
  · rw [if_neg hready, if_neg hready]
    rfl

variable (hash secretData rs) in
/-- A call that takes no packet, or one that is refused, leaves the counter and executes nothing. -/
theorem runCall_refuses (hr : r.Has counter previous) {call : Call}
    (hrefuses : ∀ code packet rsRc, call.code? = some code →
      decodePacket rs code = some (packet, rsRc) →
      previous = packet ∨ hmac433Authenticate hash secretData packet counter = none) :
    (runCall hash secretData rs r call).Has counter
        (((call.code?.bind (decodePacket rs)).map Prod.fst).getD previous) ∧
      (runCall hash secretData rs r call).commands = r.commands := by
  obtain ⟨clock, hclock, rfl, rfl⟩ := hr
  unfold runCall
  rw [hclock]
  have halarm : ∀ {α : Type} (p : Sketch (α × Alarm)), WritesIn Alarm.Owns p →
      (r.complete (p >>= fun out => return some { clock with alarm := out.2 })).Has
          clock.hmacMessageCounter clock.previousPacket ∧
        (r.complete (p >>= fun out => return some { clock with alarm := out.2 })).commands
          = r.commands := by
    intro α p hp
    refine ⟨⟨_, rfl, rfl, rfl⟩, ?_⟩
    show r.commands ++ CpeClock.commands _ = _
    rw [Traced.events_bind, Traced.events_pure, List.append_nil,
      commands_of_writesIn (hp r.nvram), List.append_nil]
  cases call with
  | mailReceiveMessages mailbox =>
    have hnone : accepted hash secretData rs clock mailbox = none := by
      by_contra hsome
      obtain ⟨⟨packet, n, rsRc⟩, haccepted⟩ := Option.ne_none_iff_exists'.mp hsome
      obtain ⟨hready, hdecode, hdiffers, hauth⟩ :=
        (accepted_eq_some hash secretData rs).mp haccepted
      rcases hrefuses _ packet rsRc (if_pos hready) hdecode with hsame | hfails
      · exact hdiffers hsame
      · rw [hfails] at hauth
        cases hauth
    obtain ⟨hcounter, -, hquiet⟩ := receive_rejected hash secretData rs hnone r.nvram
    dsimp only
    rw [complete_receive]
    dsimp only
    rw [commands_of_quiet hquiet, List.append_nil]
    exact ⟨⟨_, rfl, hcounter, receive_rejected_previous hnone r.nvram⟩, rfl⟩
  | alarmUpdate hour minute => exact halarm _ (Alarm.writesIn_alarmUpdate clock.alarm hour minute)
  | alarmReset => exact halarm _ (Alarm.writesIn_alarmSet _ _ _)
  | alarmUnset => exact halarm _ (Alarm.writesIn_alarmUnset clock.alarm)

theorem receive_previous {clock : Clock} {mailbox : Mailbox} {packet : Packet} {n : UInt64}
    {rsRc : Nat} (h : accepted hash secretData rs clock mailbox = some (packet, n, rsRc))
    (nv : Nvram) :
    ((mailReceiveMessages hash secretData rs clock mailbox).value nv).1.previousPacket
      = packet := by
  rw [mailReceiveMessages, Traced.value_bind, Traced.value_bind,
    receiveNewCode_accepted hash secretData rs h]
  exact acceptPacket_previous { clock with previousPacket := packet } packet n rsRc _

theorem Call.of_code {call : Call} {code : NcCode} (hcall : call.code? = some code) :
    ∃ mailbox, call = .mailReceiveMessages mailbox ∧ mailbox.newCodeReady = true ∧
      mailbox.newCode = code := by
  cases call with
  | mailReceiveMessages mailbox =>
    have hcode : mailbox.code? = some code := hcall
    unfold Mailbox.code? at hcode
    split at hcode
    · exact ⟨mailbox, rfl, ‹_›, Option.some.inj hcode⟩
    · cases hcode
  | alarmUpdate | alarmReset | alarmUnset => cases hcall

/-- A call that takes the code of a packet with the right tag, not the same packet again, accepts
    and executes it. -/
theorem runCall_accepts (hr : r.Has counter previous) {packet : Packet} {n : UInt64} {rsRc : Nat}
    (hrebuilt : rebuildCounter packet counter = some n)
    (htag : packet.hmac = packetHmac hash secretData n packet.payload)
    (hdiffers : previous ≠ packet) {call : Call} {code : NcCode}
    (hcall : call.code? = some code) (hdecode : decodePacket rs code = some (packet, rsRc)) :
    (runCall hash secretData rs r call).Has (n + 1) packet ∧
      (runCall hash secretData rs r call).commands
        = r.commands ++ commandsOf packet (n + 1) rsRc := by
  obtain ⟨clock, hclock, rfl, rfl⟩ := hr
  obtain ⟨mailbox, rfl, hready, rfl⟩ := Call.of_code hcall
  have haccepted : accepted hash secretData rs clock mailbox = some (packet, n + 1, rsRc) :=
    (accepted_eq_some hash secretData rs).mpr
      ⟨hready, hdecode, hdiffers, authenticate_of_rebuilt hash secretData _ hrebuilt htag⟩
  obtain ⟨-, -, hcounter, hcommands⟩ := receive_accepted hash secretData rs haccepted r.nvram
  unfold runCall
  rw [hclock]
  dsimp only
  rw [complete_receive]
  dsimp only
  rw [hcommands]
  exact ⟨⟨_, rfl, hcounter, receive_previous haccepted r.nvram⟩, rfl⟩

/-- **Packets in step are executed**, each once and in order, whatever else the main loop does. -/
theorem runCalls_inStep (hrs : Ncrs.ncrsInit = some rs) {sent : List (UInt64 × Packet)}
    (hsent : InStep hash secretData counter previous sent) {calls : List Call}
    (hcalls : calls.filterMap Call.code?
      = sent.map fun e => Ncrs.ncrsEncode rs e.2.toBytes)
    (hr : r.Has counter previous) :
    (∃ previous', (runCalls hash secretData rs calls r).Has (counterAfterSent counter sent)
        previous') ∧
      (runCalls hash secretData rs calls r).commands = r.commands ++ commandsOfSent sent := by
  induction calls generalizing r counter previous sent with
  | nil =>
    cases sent with
    | nil => exact ⟨⟨previous, hr⟩, (List.append_nil _).symm⟩
    | cons e sent => cases hcalls
  | cons call calls ih =>
    cases hcode : call.code? with
    | none =>
      rw [List.filterMap_cons_none hcode] at hcalls
      obtain ⟨hhas, hcommands⟩ := runCall_refuses hash secretData rs hr fun code _ _ hsome =>
        absurd (hcode.symm.trans hsome) (Option.some_ne_none code).symm
      rw [hcode] at hhas
      obtain ⟨hlast, hall⟩ := ih hsent hcalls hhas
      exact ⟨hlast, hall.trans (by rw [hcommands])⟩
    | some code =>
      rw [List.filterMap_cons_some hcode] at hcalls
      cases hsent with
      | nil => cases hcalls
      | @cons _ n _ packet later hflag hrebuilt htag hdiffers hlater =>
        obtain ⟨rfl, hrest⟩ := List.cons.inj hcalls
        obtain ⟨hhas, hcommands⟩ := runCall_accepts hr hrebuilt htag hdiffers hcode
          (decodePacket_encoded hrs hflag)
        obtain ⟨hlast, hall⟩ := ih hlater hrest hhas
        refine ⟨?_, ?_⟩
        · cases later with
          | nil => exact hlast
          | cons e later => exact hlast
        · refine hall.trans ?_
          rw [hcommands, List.append_assoc]
          rfl

end

end Receiver
end CpeClock
