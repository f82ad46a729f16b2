import CpeClock.Receiver

/-!
# The counter store under power cuts

Everything the clock writes is written by one of a few programs: accepting a packet, setting or
updating the alarm, setting the night, coming up after a reboot. A run of the store is any sequence
of these, each of them cut anywhere or not at all. Beside the NVRAM it carries `lastSaved`, what the
last completed `save_counter` was given. That the two agree is the invariant (`Store.Inv`), and
`mail_init` reads back no more than it says.
-/

namespace CpeClock

open Lib Mail

/-- A program that writes to the NVRAM. -/
inductive Job where
  | acceptPacket (clock : Clock) (packet : Packet) (counter : UInt64) (rsRc : Nat)
  | alarmSet (alarm : Alarm) (hour minute : UInt8)
  | alarmUnset (alarm : Alarm)
  | alarmReset (alarm : Alarm)
  | alarmUpdate (alarm : Alarm) (nowHour nowMinute : UInt8)
  | nightDayTimeSet (startNightHour startNightMinute startDayHour startDayMinute : UInt8)
  | setup

namespace Job

/-- The NVRAM if the power is cut after `n` events of the job, or if it performs no more. -/
def cut (nv : Nvram) (n : Nat) : Job → Nvram
  | acceptPacket clock packet counter rsRc => (Mail.acceptPacket clock packet counter rsRc).cut nv n
  | alarmSet alarm hour minute => (Alarm.alarmSet alarm hour minute).cut nv n
  | alarmUnset alarm => (Alarm.alarmUnset alarm).cut nv n
  | alarmReset alarm => (Alarm.alarmReset alarm).cut nv n
  | alarmUpdate alarm nowHour nowMinute => (Alarm.alarmUpdate alarm nowHour nowMinute).cut nv n
  | nightDayTimeSet startNightHour startNightMinute startDayHour startDayMinute =>
    (NightDayTime.nightDayTimeSet startNightHour startNightMinute startDayHour startDayMinute).cut
      nv n
  | setup => Mail.setup.cut nv n

/-- The counter of the `save_counter` that is complete when `n` events have been performed. -/
def saved (nv : Nvram) (n : Nat) : Job → Option UInt64
  | acceptPacket _ _ counter _ =>
    if ((saveCounter counter).events nv).length ≤ n then some counter else none
  | _ => none

end Job

/-- The NVRAM, and the counter of the last `save_counter` that completed. -/
structure Store where
  nvram : Nvram
  lastSaved : UInt64

namespace Store

/-- A job is run, to its end or up to a power cut. -/
inductive Step : Store → Store → Prop
  | job (s : Store) (job : Job) (n : Nat) :
      Step s ⟨job.cut s.nvram n, (job.saved s.nvram n).getD s.lastSaved⟩

/-- The store is good, and the live slot holds the counter saved last. -/
structure Inv (s : Store) : Prop where
  formatted : Formatted s.nvram
  stored : storedCounter s.nvram = s.lastSaved

/-! ## The jobs -/

/-- **Accepting a packet is all or nothing**, as far as the counter goes. -/
theorem acceptPacket_cut {nv : Nvram} (hf : Formatted nv) (clock : Clock) (packet : Packet)
    (counter : UInt64) (rsRc n : Nat) :
    Formatted ((Mail.acceptPacket clock packet counter rsRc).cut nv n) ∧
      storedCounter ((Mail.acceptPacket clock packet counter rsRc).cut nv n)
        = if 9 ≤ n then counter else storedCounter nv := by
  rw [acceptPacket_eq]
  refine saveCounter_bind_cut hf counter (fun nv' => ?_) n
  exact (along_afterSave _ packet rsRc nv').mono fun _ _ h => h.1

theorem Inv.keeps {s : Store} (h : Inv s) {α : Type} {p : Sketch α} (hp : WritesIn CommandArea p)
    (n : Nat) : Inv ⟨p.cut s.nvram n, s.lastSaved⟩ := by
  obtain ⟨⟨hf, hstored⟩, -⟩ := along_keeps_store hp commandArea_outside s.nvram n
  exact ⟨hf h.formatted, hstored.trans h.stored⟩

theorem Inv.keeps_alarm {s : Store} (h : Inv s) {α : Type} {p : Sketch α}
    (hp : WritesIn Alarm.Owns p) (n : Nat) : Inv ⟨p.cut s.nvram n, s.lastSaved⟩ :=
  h.keeps (hp.mono (Event.WritesIn.mono fun _ => .inl)) n

/-- **No job breaks the invariant**, wherever it is cut. -/
theorem Inv.step {s s' : Store} (h : Inv s) (hstep : Step s s') : Inv s' := by
  obtain ⟨job, n⟩ := hstep
  cases job with
  | acceptPacket clock packet counter rsRc =>
    obtain ⟨hf, hstored⟩ := acceptPacket_cut h.formatted clock packet counter rsRc n
    refine ⟨hf, hstored.trans ?_⟩
    simp only [Job.saved, length_saveCounter]
    by_cases hn : 9 ≤ n
    · rw [if_pos hn, if_pos hn]
      rfl
    · rw [if_neg hn, if_neg hn]
      exact h.stored
  | alarmSet alarm hour minute => exact h.keeps_alarm (Alarm.writesIn_alarmSet alarm hour minute) n
  | alarmUnset alarm => exact h.keeps_alarm (Alarm.writesIn_alarmUnset alarm) n
  | alarmReset alarm => exact h.keeps_alarm (Alarm.writesIn_alarmSet alarm _ _) n
  | alarmUpdate alarm nowHour nowMinute =>
    exact h.keeps_alarm (Alarm.writesIn_alarmUpdate alarm nowHour nowMinute) n
  | nightDayTimeSet startNightHour startNightMinute startDayHour startDayMinute =>
    exact h.keeps ((NightDayTime.writesIn_nightDayTimeSet _ _ _ _).mono
      (Event.WritesIn.mono fun _ => .inr)) n
  | setup =>
    -- The counter is loaded, and the other modules come up.
    obtain ⟨-, halong⟩ := setup_formatted h.formatted
    obtain ⟨⟨hf, hstored⟩, -⟩ := halong n
    exact ⟨hf, hstored.trans h.stored⟩

theorem inv_run {s s' : Store} (h : Inv s) (hrun : Relation.ReflTransGen Step s s') : Inv s' := by
  induction hrun with
  | refl => exact h
  | tail _ hstep ih => exact ih.step hstep

/-- **The counter store is crash-atomic.** After any run, cut any number of times, `mail_init`
    takes the load path and finds what the last completed `save_counter` was given. -/
theorem mailInit_lastSaved {nv : Nvram} (hf : Formatted nv) {s : Store}
    (hrun : Relation.ReflTransGen Step ⟨nv, storedCounter nv⟩ s) :
    mailInit s.nvram = loadCounter (s.nvram Nvram.stateAddr) s.nvram ∧
      mailInit.value s.nvram = some s.lastSaved ∧
      (s.nvram Nvram.stateAddr = 0 ∨ s.nvram Nvram.stateAddr = 1) := by
  have hstart : Inv ⟨nv, storedCounter nv⟩ := ⟨hf, rfl⟩
  have hinv := inv_run hstart hrun
  refine ⟨mailInit_loads hinv.formatted, ?_, hinv.formatted.state⟩
  rw [(mailInit_formatted hinv.formatted).1, hinv.stored]

/-- A save cut after five of its writes, a reboot, and a save that only just completes. -/
theorem mailInit_lastSaved_sample :
    let clock : Clock := ⟨8, Packet.zero, ⟨0, .disabled⟩, ⟨0, 0⟩⟩
    let cutSave := (Job.acceptPacket clock Packet.zero 9 1).cut (formattedNvram 7) 5
    let rebooted := Job.setup.cut cutSave 7
    mailInit.value ((Job.acceptPacket clock Packet.zero 12 1).cut rebooted 9) = some 12 := by
  intro clock cutSave rebooted
  obtain ⟨hf, -⟩ := formattedNvram_formatted 7
  have hcut := Step.job ⟨formattedNvram 7, storedCounter (formattedNvram 7)⟩
    (.acceptPacket clock Packet.zero 9 1) 5
  have hboot := Step.job ⟨cutSave, storedCounter (formattedNvram 7)⟩ .setup 7
  have hsave := Step.job ⟨rebooted, storedCounter (formattedNvram 7)⟩
    (.acceptPacket clock Packet.zero 12 1) 9
  exact (mailInit_lastSaved hf (((Relation.ReflTransGen.single hcut).tail hboot).tail hsave)).2.1

end Store

/-! ## The steps of a receiver are jobs -/

namespace Receiver

section

variable {hash : Hash} {secretData : List UInt8} {rs : Rs.RsControl}
  {Delivers : Clock → Mailbox → Prop}

variable (hash secretData rs) in
/-- A call, cut anywhere, leaves what a job leaves that is cut somewhere. -/
theorem Call.job (clock : Clock) (call : Call) (nv : Nvram) (n : Nat) :
    ∃ (job : Job) (m : Nat), (call.program hash secretData rs clock).cut nv n = job.cut nv m := by
  cases call with
  | mailReceiveMessages mailbox =>
    have hprogram : ((Call.mailReceiveMessages mailbox).program hash secretData rs clock).cut nv n
        = (Mail.mailReceiveMessages hash secretData rs clock mailbox).cut nv n :=
      Traced.cut_bind_pure (fun out => some out.1) n
    rw [hprogram]
    cases haccepted : accepted hash secretData rs clock mailbox with
    | none =>
      obtain ⟨-, -, hquiet⟩ := receive_rejected hash secretData rs haccepted nv
      exact ⟨.setup, 0, replay_of_quiet (fun e he => hquiet e (List.mem_of_mem_take he)) nv⟩
    | some a =>
      obtain ⟨packet, counter, rsRc⟩ := a
      -- The display of a Home Easy message comes first.
      have hdisplay := emits_receiveHomeEasy mailbox nv
      rw [Mail.mailReceiveMessages, Traced.cut_bind]
      split
      · exact ⟨.setup, 0, replay_of_quiet (fun e he => hdisplay e (List.mem_of_mem_take he)) nv⟩
      · refine ⟨.acceptPacket { clock with previousPacket := packet } packet counter rsRc,
          n - ((receiveHomeEasy mailbox).events nv).length, ?_⟩
        rw [receiveNewCode_accepted hash secretData rs haccepted, Traced.cut_bind_pure,
          show (receiveHomeEasy mailbox).final nv = nv from replay_of_quiet hdisplay nv]
        rfl
  | alarmUpdate hour minute =>
    exact ⟨.alarmUpdate clock.alarm hour minute, n, Traced.cut_bind_pure _ n⟩
  | alarmReset => exact ⟨.alarmReset clock.alarm, n, Traced.cut_bind_pure _ n⟩
  | alarmUnset => exact ⟨.alarmUnset clock.alarm, n, Traced.cut_bind_pure _ n⟩

/-- **Every step of a receiver is a job**, as far as the NVRAM goes. -/
theorem Step.job {r r' : Receiver} (hstep : Step hash secretData rs Delivers r r') :
    ∃ (job : Job) (n : Nat), r'.nvram = job.cut r.nvram n := by
  cases hstep with
  | call hclock call =>
    obtain ⟨job, m, hjob⟩ := Call.job hash secretData rs _ call r.nvram
      ((call.program hash secretData rs _).events r.nvram).length
    exact ⟨job, m, (Traced.cut_of_length_le (Nat.le_refl _)).symm.trans hjob⟩
  | callCut hclock call _ n => exact Call.job hash secretData rs _ call r.nvram n
  | boot => exact ⟨.setup, _, (Traced.cut_of_length_le (Nat.le_refl _)).symm⟩
  | bootCut n => exact ⟨.setup, n, rfl⟩

/-- So every run of a receiver is a run of the store. -/
theorem run_store {r r' : Receiver} (hrun : Relation.ReflTransGen
      (Step hash secretData rs Delivers) r r') (lastSaved : UInt64) :
    ∃ lastSaved', Relation.ReflTransGen Store.Step ⟨r.nvram, lastSaved⟩ ⟨r'.nvram, lastSaved'⟩ := by
  induction hrun with
  | refl => exact ⟨lastSaved, .refl⟩
  | tail _ hstep ih =>
    obtain ⟨before, hbefore⟩ := ih
    obtain ⟨job, n, hjob⟩ := hstep.job
    exact ⟨_, hbefore.tail (hjob ▸ Store.Step.job ⟨_, before⟩ job n)⟩

end

end Receiver
end CpeClock
