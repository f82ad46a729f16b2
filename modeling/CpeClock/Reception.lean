import CpeClock.CounterStore

/-!
# What one call of `mail_receive_messages` does

A call either authenticates a packet or it does not (`accepted`). If it does not, it displays
something at most. If it does, it saves the packet's counter and then acts on the packet, and the
order of these two is the whole of what survives a power cut: at every point of the call, the
store holds the old counter and nothing has been acted on, or it holds the new counter
(`along_acceptPacket`).
-/

namespace CpeClock
namespace Mail

open Lib Hmac433

/-! ## Acting on a packet -/

/-- The addresses `new_packet` may write. -/
def CommandArea (addr : UInt8) : Prop := Alarm.Owns addr ∨ NightDayTime.Owns addr

theorem commandArea_outside : ∀ addr, counterArea addr → ¬ CommandArea addr := by
  rintro addr h (hown | hown)
  · exact alarm_outside addr h hown
  · exact nightDayTime_outside addr h hown

theorem Event.WritesIn.mono {A B : UInt8 → Prop} (hAB : ∀ addr, A addr → B addr) (e : Event)
    (h : e.WritesIn A) : e.WritesIn B := by
  cases e with
  | nvramWrite addr data => exact hAB addr h
  | newPacket => exact h
  | displayMessage | displayMessageLp | clockSet => trivial

theorem writesIn_performCommand (clock : Clock) (payload : Payload) (rsRc : Nat) :
    WritesIn CommandArea (performCommand clock payload rsRc) := by
  have hpure : ∀ (p : Sketch Unit), WritesIn CommandArea p →
      WritesIn CommandArea (p >>= fun _ => (pure clock : Sketch Clock)) :=
    fun p hp => Traced.emits_bind hp fun _ => Traced.emits_pure _
  have halarm : ∀ p : Sketch (Bool × Alarm), WritesIn Alarm.Owns p →
      WritesIn CommandArea (p >>= fun r => (pure { clock with alarm := r.2 } : Sketch Clock)) :=
    fun p hp => Traced.emits_bind (hp.mono (Event.WritesIn.mono fun _ => .inl))
      fun _ => Traced.emits_pure _
  unfold performCommand
  refine Traced.emits_ite (hpure _ (writesIn_displayMessage _ _)) ?_
  refine Traced.emits_ite (hpure _ (writesIn_displayMessage _ _)) ?_
  refine Traced.emits_ite (hpure _ (Traced.emits_emit trivial)) ?_
  refine Traced.emits_ite (halarm _ (Alarm.writesIn_alarmSet _ _ _)) ?_
  refine Traced.emits_ite (Traced.emits_bind
    ((NightDayTime.writesIn_nightDayTimeSet _ _ _ _).mono (Event.WritesIn.mono fun _ => .inr))
    fun _ => Traced.emits_pure _) ?_
  exact Traced.emits_ite (halarm _ (Alarm.writesIn_alarmUnset _))
    (hpure _ (writesIn_displayMessage _ _))

theorem performCommand_counter (clock : Clock) (payload : Payload) (rsRc : Nat) (nv : Nvram) :
    ((performCommand clock payload rsRc).value nv).hmacMessageCounter
        = clock.hmacMessageCounter := by
  unfold performCommand
  simp only [Traced.value_ite]
  split_ifs <;> rfl

/-! ## Accepting a packet -/

def commandsOf (packet : Packet) (counter : UInt64) (rsRc : Nat) : List Command :=
  if packet.counterResyncFlag ≠ 0 then [] else [⟨counter, packet.payload, rsRc⟩]

/-- What is done once the new counter is saved. -/
def afterSave (clock : Clock) (packet : Packet) (rsRc : Nat) : Sketch Clock :=
  if packet.counterResyncFlag ≠ 0 then do
    displayMessageLp "COUNTER\nRESYNCHED"
    return clock
  else
    newPacket clock packet.payload rsRc

theorem acceptPacket_eq (clock : Clock) (packet : Packet) (counter : UInt64) (rsRc : Nat) :
    acceptPacket clock packet counter rsRc
      = saveCounter counter >>= fun _ =>
          afterSave { clock with hmacMessageCounter := counter } packet rsRc := rfl

theorem afterSave_counter (clock : Clock) (packet : Packet) (rsRc : Nat) (nv : Nvram) :
    ((afterSave clock packet rsRc).value nv).hmacMessageCounter = clock.hmacMessageCounter := by
  unfold afterSave
  rw [Traced.value_ite]
  split
  · rfl
  · exact performCommand_counter ..

theorem afterSave_commands (clock : Clock) (packet : Packet) (rsRc : Nat) (nv : Nvram) :
    commands ((afterSave clock packet rsRc).events nv)
      = commandsOf packet clock.hmacMessageCounter rsRc := by
  unfold afterSave commandsOf
  rw [Traced.events_ite]
  split
  · rfl
  · rw [newPacket, Traced.events_bind, commands_append,
      commands_of_writesIn (writesIn_performCommand _ _ _ _)]
    rfl

/-- What follows the save keeps the store, and performs the packet's commands at most. -/
theorem along_afterSave (clock : Clock) (packet : Packet) (rsRc : Nat) (nv : Nvram) :
    Traced.Along (fun es nv' => ((Formatted nv → Formatted nv') ∧
        storedCounter nv' = storedCounter nv) ∧
        (commands es = [] ∨ commands es = commandsOf packet clock.hmacMessageCounter rsRc))
      (afterSave clock packet rsRc) nv := by
  refine Traced.along_ite (fun _ => ?_) fun hflag => ?_
  · have hquiet : WritesIn CommandArea (displayMessageLp "COUNTER\nRESYNCHED" >>= fun _ =>
        (pure clock : Sketch Clock)) :=
      Traced.emits_bind (writesIn_displayMessageLp _ _) fun _ => Traced.emits_pure _
    exact (along_keeps_store hquiet commandArea_outside nv).mono fun _ _ h => ⟨h.1, .inl h.2⟩
  · have hcommands : commandsOf packet clock.hmacMessageCounter rsRc
        = [⟨clock.hmacMessageCounter, packet.payload, rsRc⟩] := if_neg hflag
    rw [hcommands]
    -- The call itself is the first event; nothing after it is another.
    refine Traced.along_bind (Traced.along_emit ⟨⟨id, rfl⟩, .inl rfl⟩ ⟨⟨id, rfl⟩, .inr rfl⟩) ?_
    exact (along_keeps_store (writesIn_performCommand _ _ _) commandArea_outside nv).mono
      fun es _ h => ⟨h.1, .inr (by rw [commands_append, h.2]; rfl)⟩

theorem commands_saveCounter (counter : UInt64) (nv : Nvram) :
    commands ((saveCounter counter).events nv) = [] := by
  rw [saveCounter_events, commands_append, slotWrites]
  simp [commands, List.filterMap_map, Event.command, Function.comp_def]

/-- **Save, then act.** Wherever a call is cut that accepts a packet, the store is good, and either
    it holds the old counter and nothing was acted on, or it holds the new one. -/
theorem along_acceptPacket (clock : Clock) (packet : Packet) (counter : UInt64) (rsRc : Nat)
    {nv : Nvram} (hf : Formatted nv) :
    Traced.Along (fun es nv' => Formatted nv' ∧
        ((storedCounter nv' = storedCounter nv ∧ commands es = []) ∨
          (storedCounter nv' = counter ∧
            (commands es = [] ∨ commands es = commandsOf packet counter rsRc))))
      (acceptPacket clock packet counter rsRc) nv := by
  obtain ⟨hfinal, hstored⟩ := saveCounter_final counter nv
  rw [acceptPacket_eq]
  refine Traced.along_bind (fun n => ?_) ?_
  · have hnone : commands (((saveCounter counter).events nv).take n) = [] :=
      List.filterMap_eq_nil_iff.mpr fun e he =>
        List.filterMap_eq_nil_iff.mp (commands_saveCounter counter nv) e (List.mem_of_mem_take he)
    obtain ⟨hf', hold | hnew⟩ := along_saveCounter hf counter n
    · exact ⟨hf', .inl ⟨hold, hnone⟩⟩
    · exact ⟨hf', .inr ⟨hnew, .inl hnone⟩⟩
  · refine (along_afterSave _ packet rsRc _).mono fun es nv' h => ?_
    rw [commands_append, commands_saveCounter, List.nil_append]
    exact ⟨h.1.1 (hfinal hf), .inr ⟨h.1.2.trans hstored, h.2⟩⟩

theorem acceptPacket_final (clock : Clock) (packet : Packet) (counter : UInt64) (rsRc : Nat)
    (nv : Nvram) :
    let p := acceptPacket clock packet counter rsRc
    (Formatted nv → Formatted (p.final nv)) ∧ storedCounter (p.final nv) = counter ∧
      (p.value nv).hmacMessageCounter = counter ∧
      commands (p.events nv) = commandsOf packet counter rsRc := by
  obtain ⟨hfinal, hstored⟩ := saveCounter_final counter nv
  have hlast := (along_afterSave { clock with hmacMessageCounter := counter } packet rsRc
    ((saveCounter counter).final nv)).last
  dsimp only
  rw [acceptPacket_eq]
  refine ⟨fun hf => ?_, ?_, ?_, ?_⟩
  · rw [Traced.final_bind]
    exact hlast.1.1 (hfinal hf)
  · rw [Traced.final_bind]
    exact hlast.1.2.trans hstored
  · rw [Traced.value_bind, afterSave_counter]
  · rw [Traced.events_bind, commands_append, commands_saveCounter, afterSave_commands]
    rfl

/-! ## The whole call -/

section Receive

variable (hash : Hash) (secretData : List UInt8) (rs : Rs.RsControl)

/-- The packet a call authenticates, with the counter it brings and `rs_rc`, if any. -/
def accepted (clock : Clock) (mailbox : Mailbox) : Option (Packet × UInt64 × Nat) :=
  if mailbox.newCodeReady then
    match decodePacket rs mailbox.newCode with
    | none => none
    | some (packet, rsRc) =>
      if clock.previousPacket = packet then none
      else (hmac433Authenticate hash secretData packet clock.hmacMessageCounter).map
        fun counter => (packet, counter, rsRc)
  else none

theorem accepted_eq_some {clock : Clock} {mailbox : Mailbox} {packet : Packet} {counter : UInt64}
    {rsRc : Nat} :
    accepted hash secretData rs clock mailbox = some (packet, counter, rsRc)
      ↔ mailbox.newCodeReady = true ∧ decodePacket rs mailbox.newCode = some (packet, rsRc) ∧
        clock.previousPacket ≠ packet ∧
        hmac433Authenticate hash secretData packet clock.hmacMessageCounter = some counter := by
  unfold accepted
  by_cases hready : mailbox.newCodeReady = true
  · rw [if_pos hready]
    cases hdecode : decodePacket rs mailbox.newCode with
    | none => simp
    | some decoded =>
      by_cases hsame : clock.previousPacket = decoded.1
      · dsimp only
        rw [if_pos hsame]
        constructor
        · intro h
          exact absurd h (by simp)
        · rintro ⟨-, hpacket, hne, -⟩
          obtain rfl := Option.some.inj hpacket
          exact absurd hsame hne
      · dsimp only
        rw [if_neg hsame, Option.map_eq_some_iff]
        constructor
        · rintro ⟨counter', hauth, heq⟩
          obtain ⟨rfl, rfl, rfl⟩ : decoded.1 = packet ∧ counter' = counter ∧ decoded.2 = rsRc := by
            simpa using heq
          exact ⟨hready, rfl, hsame, hauth⟩
        · rintro ⟨-, hpacket, -, hauth⟩
          obtain rfl := Option.some.inj hpacket
          exact ⟨counter, hauth, rfl⟩
  · rw [if_neg hready]
    constructor
    · intro h
      exact absurd h (by simp)
    · exact fun h => absurd h.1 hready

/-- What a call that accepts nothing may do. -/
def Event.Quiet : Event → Prop
  | .displayMessageLp _ => True
  | _ => False

theorem Event.Quiet.writesIn {e : Event} (h : Event.Quiet e) (A : UInt8 → Prop) : e.WritesIn A := by
  cases e with
  | displayMessageLp => trivial
  | nvramWrite | displayMessage | clockSet | newPacket => exact absurd h id

/-- The display of a Home Easy message comes first, and is no more than that. -/
theorem emits_receiveHomeEasy (mailbox : Mailbox) :
    Traced.Emits Event.Quiet (receiveHomeEasy mailbox) :=
  Traced.emits_ite (Traced.emits_emit trivial) (Traced.emits_pure _)

theorem replay_of_quiet {es : List Event} (h : ∀ e ∈ es, Event.Quiet e) (nv : Nvram) :
    replay nv es = nv := by
  induction es with
  | nil => rfl
  | cons e es ih =>
    have hact : Acts.act e nv = nv := by
      cases e with
      | displayMessageLp => rfl
      | nvramWrite | displayMessage | clockSet | newPacket =>
        exact absurd (h _ List.mem_cons_self) id
    rw [replay_cons, hact]
    exact ih fun e' he' => h e' (List.mem_cons_of_mem e he')

theorem commands_of_quiet {es : List Event} (h : ∀ e ∈ es, Event.Quiet e) : commands es = [] :=
  commands_of_writesIn (A := counterArea) fun e he => (h e he).writesIn _

/-- **A call that accepts nothing changes nothing**: not the counter, not the NVRAM; it calls
    nothing but the low-priority display. -/
theorem receive_rejected {clock : Clock} {mailbox : Mailbox}
    (h : accepted hash secretData rs clock mailbox = none) (nv : Nvram) :
    let p := mailReceiveMessages hash secretData rs clock mailbox
    (p.value nv).1.hmacMessageCounter = clock.hmacMessageCounter ∧ p.final nv = nv ∧
      ∀ e ∈ p.events nv, Event.Quiet e := by
  have hcode : ((receiveNewCode hash secretData rs clock mailbox).value nv).hmacMessageCounter
        = clock.hmacMessageCounter ∧
      ∀ e ∈ (receiveNewCode hash secretData rs clock mailbox).events nv, Event.Quiet e := by
    unfold receiveNewCode
    by_cases hready : mailbox.newCodeReady
    · rw [accepted, if_pos hready] at h
      rw [if_pos hready, receiveCode]
      cases hdecode : decodePacket rs mailbox.newCode with
      | none => exact ⟨rfl, fun _ he => absurd he List.not_mem_nil⟩
      | some decoded =>
        rw [hdecode] at h
        dsimp only at h ⊢
        unfold receivePacket
        by_cases hsame : clock.previousPacket = decoded.1
        · rw [if_pos hsame]
          exact ⟨rfl, fun _ he => absurd he List.not_mem_nil⟩
        · rw [if_neg hsame] at h
          rw [if_neg hsame]
          dsimp only
          rw [Option.map_eq_none_iff.mp h]
          exact ⟨rfl, fun e he => List.mem_singleton.mp he ▸ trivial⟩
    · rw [if_neg hready]
      exact ⟨rfl, fun _ he => absurd he List.not_mem_nil⟩
  have hnv : (receiveHomeEasy mailbox).final nv = nv :=
    replay_of_quiet (emits_receiveHomeEasy mailbox nv) nv
  have hevents : ∀ e ∈ (mailReceiveMessages hash secretData rs clock mailbox).events nv,
      Event.Quiet e := by
    intro e he
    simp only [mailReceiveMessages, Traced.events_bind, Traced.events_pure, List.append_nil,
      List.mem_append, hnv] at he
    rcases he with he | he
    · exact emits_receiveHomeEasy mailbox nv e he
    · exact hcode.2 e he
  refine ⟨?_, ?_, hevents⟩
  · simp only [mailReceiveMessages, Traced.value_bind, Traced.value_pure, hnv]
    exact hcode.1
  · exact replay_of_quiet hevents nv

/-- A call that accepts a packet is the display of a Home Easy message and `acceptPacket`. -/
theorem receiveNewCode_accepted {clock : Clock} {mailbox : Mailbox} {packet : Packet}
    {counter : UInt64} {rsRc : Nat}
    (h : accepted hash secretData rs clock mailbox = some (packet, counter, rsRc)) :
    receiveNewCode hash secretData rs clock mailbox
      = acceptPacket { clock with previousPacket := packet } packet counter rsRc := by
  obtain ⟨hready, hdecode, hsame, hauth⟩ := (accepted_eq_some hash secretData rs).mp h
  rw [receiveNewCode, if_pos hready, receiveCode, hdecode]
  dsimp only
  rw [receivePacket, if_neg hsame]
  dsimp only
  rw [hauth]

/-- **A call that accepts a packet**, cut anywhere. -/
theorem along_receive_accepted {clock : Clock} {mailbox : Mailbox} {packet : Packet}
    {counter : UInt64} {rsRc : Nat}
    (h : accepted hash secretData rs clock mailbox = some (packet, counter, rsRc)) {nv : Nvram}
    (hf : Formatted nv) :
    Traced.Along (fun es nv' => Formatted nv' ∧
        ((storedCounter nv' = storedCounter nv ∧ commands es = []) ∨
          (storedCounter nv' = counter ∧
            (commands es = [] ∨ commands es = commandsOf packet counter rsRc))))
      (mailReceiveMessages hash secretData rs clock mailbox) nv := by
  have hquiet := emits_receiveHomeEasy mailbox
  have hnv : (receiveHomeEasy mailbox).final nv = nv := replay_of_quiet (hquiet nv) nv
  unfold mailReceiveMessages
  refine Traced.along_bind ?_ ?_
  · refine (along_keeps_store (hquiet.mono fun e he => he.writesIn CommandArea)
      commandArea_outside nv).mono fun es nv' h => ⟨h.1.1 hf, .inl ⟨h.1.2, h.2⟩⟩
  · have hdisplay := commands_of_quiet (hquiet nv)
    rw [hnv, receiveNewCode_accepted hash secretData rs h]
    refine Traced.along_bind ((along_acceptPacket _ packet counter rsRc hf).mono
      fun es nv' h => ?_) (Traced.along_pure _ ?_)
    · rw [commands_append, hdisplay, List.nil_append]
      exact h
    · obtain ⟨hfinal, hstored, -, hcommands⟩ :=
        acceptPacket_final { clock with previousPacket := packet } packet counter rsRc nv
      simp only [commands_append, hdisplay, List.nil_append, List.append_nil]
      exact ⟨hfinal hf, .inr ⟨hstored, .inr hcommands⟩⟩

/-- **A call that accepts a packet**, run to its end: the counter is the packet's in RAM and in the
    slot `mail_init` would load, and the packet's commands have been performed. -/
theorem receive_accepted {clock : Clock} {mailbox : Mailbox} {packet : Packet}
    {counter : UInt64} {rsRc : Nat}
    (h : accepted hash secretData rs clock mailbox = some (packet, counter, rsRc)) (nv : Nvram) :
    let p := mailReceiveMessages hash secretData rs clock mailbox
    (Formatted nv → Formatted (p.final nv)) ∧ storedCounter (p.final nv) = counter ∧
      (p.value nv).1.hmacMessageCounter = counter ∧
      commands (p.events nv) = commandsOf packet counter rsRc := by
  have hquiet := emits_receiveHomeEasy mailbox
  have hnv : (receiveHomeEasy mailbox).final nv = nv := replay_of_quiet (hquiet nv) nv
  obtain ⟨hfinal, hstored, hcounter, hcommands⟩ :=
    acceptPacket_final { clock with previousPacket := packet } packet counter rsRc nv
  dsimp only
  simp only [mailReceiveMessages, Traced.final_bind, Traced.value_bind, Traced.events_bind,
    Traced.final_pure, Traced.value_pure, Traced.events_pure, List.append_nil, commands_append,
    hnv, receiveNewCode_accepted hash secretData rs h, commands_of_quiet (hquiet nv),
    List.nil_append]
  exact ⟨hfinal, hstored, hcounter, hcommands⟩

end Receive

/-! ## Starting up -/

/-- **A boot from a good store** loads the stored counter, and keeps the store wherever it is cut.
-/
theorem setup_formatted {nv : Nvram} (hf : Formatted nv) :
    (∃ clock, setup.value nv = some clock ∧ clock.hmacMessageCounter = storedCounter nv ∧
      clock.previousPacket = Packet.zero) ∧
      Traced.Along (fun es nv' => (Formatted nv' ∧ storedCounter nv' = storedCounter nv) ∧
        commands es = []) setup nv := by
  obtain ⟨hvalue, hevents⟩ := mailInit_formatted hf
  have hfinal : mailInit.final nv = nv := by
    unfold Traced.final
    rw [hevents]
    rfl
  have hmodules : WritesIn CommandArea (startModules (storedCounter nv)) :=
    Traced.emits_bind (Alarm.writesIn_alarmInit.mono (Event.WritesIn.mono fun _ => .inl)) fun _ =>
      Traced.emits_bind (NightDayTime.writesIn_nightDayTimeInit.mono
        (Event.WritesIn.mono fun _ => .inr)) fun _ => Traced.emits_pure _
  -- The load path performs no event, so the boot is the modules' part alone.
  have hsetup : setup nv = startModules (storedCounter nv) nv := by
    unfold setup
    change Traced.bind mailInit _ nv = _
    unfold Traced.bind
    dsimp only
    rw [hvalue, hevents, hfinal]
    rfl
  constructor
  · exact ⟨_, congrArg Prod.fst hsetup, rfl, rfl⟩
  · have hcut : ∀ n, setup.cut nv n = (startModules (storedCounter nv)).cut nv n := fun n => by
      unfold Traced.cut Traced.events
      rw [hsetup]
    have hlog : setup.events nv = (startModules (storedCounter nv)).events nv :=
      congrArg Prod.snd hsetup
    intro n
    rw [hcut, hlog]
    obtain ⟨⟨hf', hstored⟩, hcommands⟩ :=
      along_keeps_store hmodules commandArea_outside nv n
    exact ⟨⟨hf' hf, hstored⟩, hcommands⟩

end Mail
end CpeClock
