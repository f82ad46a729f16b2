import CpeClock.CrashSafety
import CpeClock.Integrity
import CpeClock.PacketCodec

/-!
# Commands are executed at most once, and in order

`World` is a sender and a receiver with an arbitrary channel between them. The invariant is that
every command executed so far came in a packet whose counter is below the stored one; a packet that
is accepted has a counter from the stored one on, and the store moves past it before the command is
executed.

One thing breaks this. The reconstruction of an ordinary packet's counter adds 256 when the low byte
lies behind, and nothing stops that from wrapping at `2 ^ 64`; the special packet's counter is
checked ("the counter must always advance"), the ordinary one's is not. `Wraps` is a packet for
which it happens. In runs without such a packet commands are executed in strictly increasing order
(`commands_increasing`); with one, an old command can be replayed (`old_command_replayed`).
-/

namespace CpeClock

open Lib Hmac433 Mail Relation

/-- A sender, a receiver, and whatever channel. -/
structure World where
  sender : Sender
  receiver : Receiver

namespace World

section

variable (hash : Hash) (secretData : List UInt8) (rs : Rs.RsControl)

/-- One step of the sender or of the receiver. `Condition` restricts what is delivered. -/
inductive Step (Condition : Clock → Mailbox → Prop) : World → World → Prop
  | sender {s s' : Sender} (r : Receiver) (h : Sender.Step hash secretData s s') :
      Step Condition ⟨s, r⟩ ⟨s', r⟩
  | receiver (s : Sender) {r r' : Receiver}
      (h : Receiver.Step hash secretData rs
        (fun clock mailbox => Ideal hash secretData rs s.sent clock mailbox ∧
          Condition clock mailbox) r r') :
      Step Condition ⟨s, r⟩ ⟨s, r'⟩

/-- An ordinary packet whose low byte lies behind that of a counter in the last 256: the rebuilt
    counter wraps to the low byte alone. Its tag is that of the wrapped counter. -/
def Wraps (counter : UInt64) (packet : Packet) : Prop :=
  packet.counterResyncFlag = 0 ∧ 2 ^ 64 - 256 ≤ counter.toNat ∧
    packet.counterLow.toNat < counter.toNat % 256 ∧
    packetHmac hash secretData packet.counterLow.toUInt64 packet.payload = packet.hmac

/-- No such packet is delivered, other than as a rebroadcast. -/
def NoWrap (clock : Clock) (mailbox : Mailbox) : Prop :=
  ∀ packet rsRc, mailbox.newCodeReady → decodePacket rs mailbox.newCode = some (packet, rsRc) →
    clock.previousPacket ≠ packet → ¬ Wraps hash secretData clock.hmacMessageCounter packet

end

/-- Nothing was sent or received yet, and the receiver's NVRAM is formatted. -/
structure Initial (w : World) : Prop where
  nothingSent : w.sender.sent = []
  nothingReceived : w.receiver.commands = []
  formatted : Formatted w.receiver.nvram
  unpowered : w.receiver.clock = none

/-- The sender's counters of the commands executed, in order. -/
def executed (w : World) : List UInt64 := w.receiver.commands.map Command.senderCounter

structure Inv (w : World) : Prop where
  receiver : w.receiver.Inv
  genuine : ∀ e ∈ w.sender.sent, Sender.Genuine e.1 e.2
  increasing : w.executed.Pairwise (· < ·)
  below : ∀ n ∈ w.executed, n < storedCounter w.receiver.nvram

variable {hash : Hash} {secretData : List UInt8} {rs : Rs.RsControl}
  {Condition : Clock → Mailbox → Prop}

/-- **A packet that is accepted moves the counter forward**, unless it wraps. -/
theorem accepted_advances {sent : List (UInt64 × Packet)}
    (hgenuine : ∀ e ∈ sent, Sender.Genuine e.1 e.2) {clock : Clock} {mailbox : Mailbox}
    (hideal : Ideal hash secretData rs sent clock mailbox)
    (hnowrap : NoWrap hash secretData rs clock mailbox) {packet : Packet} {counter : UInt64}
    {rsRc : Nat}
    (h : accepted hash secretData rs clock mailbox = some (packet, counter, rsRc)) :
    clock.hmacMessageCounter ≤ counter - 1 ∧ counter - 1 < counter := by
  obtain ⟨n, hn, rfl, htag, ⟨p, hsent, -⟩, hready, hdecode, hsame⟩ := hideal.tagged h
  have hbelow := (hgenuine (n, p) hsent).1
  have hnw := hnowrap packet rsRc hready hdecode hsame
  have hlt : n < n + 1 := by
    rw [UInt64.lt_iff_toNat_lt, UInt64.toNat_add]
    change n.toNat < (n.toNat + 1) % 2 ^ 64
    change n.toNat < 2 ^ 64 - 1 at hbelow
    omega
  rw [UInt64.add_sub_cancel]
  refine ⟨?_, hlt⟩
  rw [UInt64.le_iff_toNat_le]
  unfold rebuildCounter at hn
  split at hn
  · next hflag =>
    -- An ordinary packet: either nothing wraps, or this is the packet excluded.
    obtain rfl := Option.some.inj hn
    by_cases hwrap : 2 ^ 64 - 256 ≤ clock.hmacMessageCounter.toNat ∧
        packet.counterLow.toNat < clock.hmacMessageCounter.toNat % 256
    · have hlow : ordinaryCounter clock.hmacMessageCounter packet.counterLow
          = packet.counterLow.toUInt64 := by
        rw [← UInt64.toNat_inj, ordinaryCounter_wraps hwrap.1 hwrap.2, UInt8.toNat_toUInt64]
      exact absurd ⟨hflag, hwrap.1, hwrap.2, hlow ▸ htag⟩ hnw
    · exact le_ordinaryCounter (by omega)
  · dsimp only at hn
    split at hn
    · exact absurd hn (by simp)
    · next hge =>
      obtain rfl := Option.some.inj hn
      exact UInt64.le_iff_toNat_le.mp (UInt64.not_lt.mp hge)

/-- The command of a packet, if it has one, is counted as the packet was tagged. -/
theorem senderCounter_commandsOf (packet : Packet) (counter : UInt64) (rsRc : Nat) :
    (commandsOf packet counter rsRc).map Command.senderCounter = [] ∨
      (commandsOf packet counter rsRc).map Command.senderCounter = [counter - 1] := by
  unfold commandsOf
  split
  · exact .inl rfl
  · exact .inr rfl

theorem inv_receiver {s : Sender} {r r' : Receiver} (hinv : Inv ⟨s, r⟩)
    (h : Receiver.Step hash secretData rs
      (fun clock mailbox => Ideal hash secretData rs s.sent clock mailbox ∧
        NoWrap hash secretData rs clock mailbox) r r') : Inv ⟨s, r'⟩ := by
  obtain ⟨hr, hcause⟩ := h.cause hinv.receiver
  have hincreasing : (r.commands.map Command.senderCounter).Pairwise (· < ·) := hinv.increasing
  have hbelow : ∀ n ∈ r.commands.map Command.senderCounter, n < storedCounter r.nvram :=
    hinv.below
  cases hcause with
  | same hstored hcommands =>
    refine ⟨hr, hinv.genuine, ?_, ?_⟩
    · show (r'.commands.map Command.senderCounter).Pairwise (· < ·)
      rwa [hcommands]
    · show ∀ n ∈ r'.commands.map Command.senderCounter, n < storedCounter r'.nvram
      rwa [hcommands, hstored]
  | accepts clock mailbox packet counter rsRc hclock hdelivers haccepted hstored hcommands =>
    obtain ⟨hle, hlt⟩ := accepted_advances hinv.genuine hdelivers.1 hdelivers.2 haccepted
    rw [hinv.receiver.ram clock hclock] at hle
    -- What was executed before is below the stored counter, so below the packet's.
    have hold : ∀ n ∈ r.commands.map Command.senderCounter, n < counter - 1 :=
      fun n hn => UInt64.lt_of_lt_of_le (hbelow n hn) hle
    have hexecuted : r'.commands.map Command.senderCounter
          = r.commands.map Command.senderCounter ∨
        r'.commands.map Command.senderCounter
          = r.commands.map Command.senderCounter ++ [counter - 1] := by
      rcases hcommands with hsame | hmore
      · exact .inl (congrArg _ hsame)
      · rw [hmore, List.map_append]
        rcases senderCounter_commandsOf packet counter rsRc with hnone | hone
        · exact .inl (by rw [hnone, List.append_nil])
        · exact .inr (by rw [hone])
    refine ⟨hr, hinv.genuine, ?_, ?_⟩
    · show (r'.commands.map Command.senderCounter).Pairwise (· < ·)
      rcases hexecuted with hsame | hmore
      · rwa [hsame]
      · rw [hmore, List.pairwise_append]
        refine ⟨hincreasing, List.pairwise_singleton .., fun n hn m hm => ?_⟩
        rw [List.mem_singleton.mp hm]
        exact hold n hn
    · show ∀ n ∈ r'.commands.map Command.senderCounter, n < storedCounter r'.nvram
      intro n hn
      rw [hstored]
      have hsplit : n ∈ r.commands.map Command.senderCounter ∨ n = counter - 1 := by
        rcases hexecuted with hsame | hmore
        · exact .inl (hsame ▸ hn)
        · rw [hmore, List.mem_append] at hn
          exact hn.imp_right List.mem_singleton.mp
      rcases hsplit with hn | rfl
      · exact UInt64.lt_trans (hold n hn) hlt
      · exact hlt

theorem inv_step {w w' : World} (hinv : Inv w)
    (h : Step hash secretData rs (NoWrap hash secretData rs) w w') : Inv w' := by
  cases h with
  | sender r h => exact ⟨hinv.receiver, h.genuine hinv.genuine, hinv.increasing, hinv.below⟩
  | receiver s h => exact inv_receiver hinv h

theorem inv_run {w₀ w : World} (hstart : Initial w₀)
    (hrun : ReflTransGen (Step hash secretData rs (NoWrap hash secretData rs)) w₀ w) : Inv w := by
  induction hrun with
  | refl =>
    refine ⟨⟨hstart.formatted, fun c hc => ?_⟩, ?_, ?_, ?_⟩
    · rw [hstart.unpowered] at hc
      exact absurd hc (by simp)
    · rw [hstart.nothingSent]
      exact fun e he => absurd he List.not_mem_nil
    · unfold executed
      rw [hstart.nothingReceived]
      exact List.Pairwise.nil
    · unfold executed
      rw [hstart.nothingReceived]
      exact fun n hn => absurd hn List.not_mem_nil
  | tail _ hstep ih => exact inv_step ih hstep

/-! ## Building runs -/

theorem run_sender {s s' : Sender} (r : Receiver)
    (h : ReflTransGen (Sender.Step hash secretData) s s') :
    ReflTransGen (Step hash secretData rs Condition) ⟨s, r⟩ ⟨s', r⟩ := by
  induction h with
  | refl => exact .refl
  | tail _ hstep ih => exact ih.tail (.sender r hstep)

theorem run_advance (hash : Hash) (secretData : List UInt8) (c : Nat)
    (sent : List (UInt64 × Packet)) (k : Nat)
    (h : c + 65536 * k < 2 ^ 64 - 1) :
    ReflTransGen (Sender.Step hash secretData) ⟨UInt64.ofNat c, sent⟩
      ⟨UInt64.ofNat (c + 65536 * k), sent⟩ := by
  induction k with
  | zero => exact .refl
  | succ k ih =>
    rw [Nat.mul_succ] at h
    have hk : (UInt64.ofNat (c + 65536 * k)).toNat = c + 65536 * k := by
      rw [UInt64.toNat_ofNat']
      exact Nat.mod_eq_of_lt (by omega)
    have hadd : (UInt64.ofNat (c + 65536 * k) + 0x10000).toNat = c + 65536 * (k + 1) := by
      rw [UInt64.toNat_add, hk, Nat.mul_succ]
      change (c + 65536 * k + 65536) % 2 ^ 64 = _
      omega
    have hnext : UInt64.ofNat (c + 65536 * k) + 0x10000 = UInt64.ofNat (c + 65536 * (k + 1)) := by
      rw [← hadd, UInt64.ofNat_toNat]
    rw [← hnext]
    refine (ih (by omega)).tail (Sender.Step.advance ⟨_, sent⟩ ?_ ?_)
    · rw [UInt64.lt_iff_toNat_lt, hk, hadd, Nat.mul_succ]
      omega
    · rw [hadd, Nat.mul_succ]
      omega

theorem step_encode {c c' : Nat} (sent : List (UInt64 × Packet)) (packet : Packet)
    (hc : c < c') (hc' : c' < 2 ^ 64 - 1)
    (hadvance : advanceCounter packet.counterResyncFlag (UInt64.ofNat c) = UInt64.ofNat c') :
    Sender.Step hash secretData ⟨UInt64.ofNat c, sent⟩
      ⟨UInt64.ofNat c', sent ++ [(UInt64.ofNat c',
        (hmac433Encode hash secretData packet (UInt64.ofNat c)).1)]⟩ := by
  have hn : ∀ n < 2 ^ 64, (UInt64.ofNat n).toNat = n := fun n hn => by
    rw [UInt64.toNat_ofNat']
    exact Nat.mod_eq_of_lt hn
  have hstep := @Sender.Step.encode hash secretData
    ⟨UInt64.ofNat c, sent⟩ packet
    (by
      rw [hadvance, UInt64.lt_iff_toNat_lt, hn c (by omega), hn c' (by omega)]
      exact hc)
    (by
      rw [hadvance, hn c' (by omega)]
      exact hc')
  rw [encode_counter, hadvance] at hstep
  exact hstep

theorem run_resync (hash : Hash) (secretData : List UInt8) (c : Nat)
    (sent : List (UInt64 × Packet)) (k : Nat)
    (h : c + 256 * k < 2 ^ 64 - 1) (hc : c % 256 = 0) :
    ∃ sent', (∀ e ∈ sent, e ∈ sent') ∧
      ReflTransGen (Sender.Step hash secretData) ⟨UInt64.ofNat c, sent⟩
        ⟨UInt64.ofNat (c + 256 * k), sent'⟩ := by
  induction k with
  | zero => exact ⟨sent, fun _ he => he, .refl⟩
  | succ k ih =>
    rw [Nat.mul_succ] at h
    obtain ⟨sent', hsub, hrun⟩ := ih (by omega)
    rw [Nat.mul_succ]
    have hnext : advanceCounter 0x80 (UInt64.ofNat (c + 256 * k))
        = UInt64.ofNat (c + (256 * k + 256)) := by
      rw [← UInt64.toNat_inj, advanceCounter_mod, if_neg (by decide), UInt64.toNat_ofNat',
        UInt64.toNat_ofNat']
      omega
    exact ⟨_, fun e he => List.mem_append_left _ (hsub e he), hrun.tail
      (step_encode sent' { Packet.zero with counterResyncFlag := 0x80 } (by omega) h hnext)⟩

theorem ideal_mailboxOf {sent : List (UInt64 × Packet)} {clock : Clock} {p : Packet} {n : UInt64}
    (hrs : Ncrs.ncrsInit = some rs) (hflag : p.counterResyncFlag &&& 0x7f = 0)
    (hn : rebuildCounter p clock.hmacMessageCounter = some n) (hsent : (n, p) ∈ sent) :
    Ideal hash secretData rs sent clock (mailboxOf rs 0 p) := by
  intro packet rsRc _ hdecode m hm _
  obtain rfl : p = packet := by
    have hsame := (decodePacket_encoded hrs hflag).symm.trans hdecode
    exact congrArg Prod.fst (Option.some.inj hsame)
  obtain rfl : n = m := Option.some.inj (hn.symm.trans hm)
  exact ⟨p, hsent, rfl⟩

theorem step_deliver {s : Sender} {r : Receiver} {clock : Clock} (hclock : r.clock = some clock)
    {mailbox : Mailbox} (hideal : Ideal hash secretData rs s.sent clock mailbox)
    (hcondition : Condition clock mailbox) :
    let p := mailReceiveMessages hash secretData rs clock mailbox
    Step hash secretData rs Condition ⟨s, r⟩ ⟨s, ⟨p.final r.nvram, some (p.value r.nvram).1,
      r.commands ++ CpeClock.commands (p.events r.nvram)⟩⟩ := by
  have hstep : Step hash secretData rs Condition ⟨s, r⟩ ⟨s, r.complete
      ((Receiver.Call.mailReceiveMessages mailbox).program hash secretData rs clock)⟩ := by
    refine .receiver s (.call hclock _ fun mailbox' hmailbox => ?_)
    obtain rfl := Receiver.Call.mailReceiveMessages.inj hmailbox
    exact ⟨hideal, hcondition⟩
  rwa [Receiver.complete_receive] at hstep

/-- A clock is handed the code of a packet that its counter accepts. -/
theorem run_deliver {s : Sender} {r : Receiver} {clock : Clock} {p : Packet} {n : UInt64}
    (hrs : Ncrs.ncrsInit = some rs) (hclock : r.clock = some clock) (hf : Formatted r.nvram)
    (hflag : p.counterResyncFlag = 0) (hprevious : clock.previousPacket ≠ p)
    (hn : rebuildCounter p clock.hmacMessageCounter = some n)
    (htag : p.hmac = packetHmac hash secretData n p.payload) (hsent : (n, p) ∈ s.sent)
    (hcondition : Condition clock (mailboxOf rs 0 p)) :
    ∃ r' : Receiver, Formatted r'.nvram ∧ storedCounter r'.nvram = n + 1 ∧
      r'.commands = r.commands ++ [⟨n + 1, p.payload, 1⟩] ∧
      Step hash secretData rs Condition ⟨s, r⟩ ⟨s, r'⟩ := by
  have hflag' : p.counterResyncFlag &&& 0x7f = 0 := by rw [hflag]; rfl
  have haccepted : accepted hash secretData rs clock (mailboxOf rs 0 p) = some (p, n + 1, 1) :=
    accepted_mailboxOf hrs hflag' hprevious hn htag 0
  have hcommandsOf : commandsOf p (n + 1) 1 = [⟨n + 1, p.payload, 1⟩] :=
    if_neg (not_not_intro hflag)
  obtain ⟨hf', hstored, -, hcommands⟩ := receive_accepted hash secretData rs haccepted r.nvram
  refine ⟨_, ?_, ?_, ?_, step_deliver hclock (ideal_mailboxOf hrs hflag' hn hsent) hcondition⟩
  · dsimp only
    exact hf' hf
  · dsimp only
    exact hstored
  · dsimp only
    rw [hcommands, hcommandsOf]

/-- The power is cut while the counter of such a packet is saved. -/
theorem run_cut {s : Sender} {r : Receiver} {clock : Clock} {p : Packet} {n : UInt64}
    (hrs : Ncrs.ncrsInit = some rs) (hclock : r.clock = some clock) (hf : Formatted r.nvram)
    (hflag : p.counterResyncFlag = 0) (hprevious : clock.previousPacket ≠ p)
    (hn : rebuildCounter p clock.hmacMessageCounter = some n)
    (htag : p.hmac = packetHmac hash secretData n p.payload) (hsent : (n, p) ∈ s.sent)
    (hnew : storedCounter r.nvram ≠ n + 1)
    (hcondition : Condition clock (mailboxOf rs 0 p)) {k : Nat} (hk : k < 9) :
    ∃ r' : Receiver, Formatted r'.nvram ∧ storedCounter r'.nvram = storedCounter r.nvram ∧
      r'.commands = r.commands ∧ Step hash secretData rs Condition ⟨s, r⟩ ⟨s, r'⟩ := by
  have hflag' : p.counterResyncFlag &&& 0x7f = 0 := by rw [hflag]; rfl
  have haccepted : accepted hash secretData rs clock (mailboxOf rs 0 p) = some (p, n + 1, 1) :=
    accepted_mailboxOf hrs hflag' hprevious hn htag 0
  have hprogram : r.powerCut ((Receiver.Call.mailReceiveMessages (mailboxOf rs 0 p)).program hash
      secretData rs clock) k
        = ⟨(mailReceiveMessages hash secretData rs clock (mailboxOf rs 0 p)).cut r.nvram k, none,
          r.commands ++ CpeClock.commands (((mailReceiveMessages hash secretData rs clock
            (mailboxOf rs 0 p)).events r.nvram).take k)⟩ := by
    unfold Receiver.powerCut Receiver.Call.program
    dsimp only
    rw [Traced.cut_bind_pure, Traced.events_bind, Traced.events_pure, List.append_nil]
  have hstep : Step hash secretData rs Condition ⟨s, r⟩ ⟨s, r.powerCut
      ((Receiver.Call.mailReceiveMessages (mailboxOf rs 0 p)).program hash secretData rs clock)
      k⟩ := by
    refine .receiver s (.callCut hclock _ (fun mailbox hmailbox => ?_) k)
    obtain rfl := Receiver.Call.mailReceiveMessages.inj hmailbox
    exact ⟨ideal_mailboxOf hrs hflag' hn hsent, hcondition⟩
  -- Nothing is displayed before the save, so the cut is in the save.
  have hstored : storedCounter ((mailReceiveMessages hash secretData rs clock
      (mailboxOf rs 0 p)).cut r.nvram k) = storedCounter r.nvram := by
    have hsilent : (receiveHomeEasy (mailboxOf rs 0 p)).events r.nvram = [] := rfl
    have hfinal : (receiveHomeEasy (mailboxOf rs 0 p)).final r.nvram = r.nvram :=
      replay_of_quiet (emits_receiveHomeEasy _ r.nvram) r.nvram
    have hcode := (Store.acceptPacket_cut hf { clock with previousPacket := p } p (n + 1) 1 k).2
    rw [if_neg (by omega)] at hcode
    rw [mailReceiveMessages, Traced.cut_bind, hsilent]
    split
    · next hzero =>
      have hk0 : k = 0 := Nat.le_zero.mp hzero
      rw [hk0, Traced.cut, List.take_zero, replay_nil]
    · rw [receiveNewCode_accepted hash secretData rs haccepted, Traced.cut_bind_pure, hfinal,
        List.length_nil, Nat.sub_zero]
      exact hcode
  obtain ⟨hf', ⟨-, hcommands⟩ | ⟨hmoved, -⟩⟩ :=
    along_receive_accepted hash secretData rs haccepted hf k
  · rw [hprogram, hcommands, List.append_nil] at hstep
    exact ⟨⟨(mailReceiveMessages hash secretData rs clock (mailboxOf rs 0 p)).cut r.nvram k, none,
      r.commands⟩, hf', hstored, rfl, hstep⟩
  · exact absurd (hstored.symm.trans hmoved) hnew

/-- A receiver is booted. -/
theorem step_boot (Condition : Clock → Mailbox → Prop) (s : Sender) {r : Receiver}
    (hf : Formatted r.nvram) :
    ∃ (r' : Receiver) (clock : Clock), r'.clock = some clock ∧ Formatted r'.nvram ∧
      storedCounter r'.nvram = storedCounter r.nvram ∧ r'.commands = r.commands ∧
      clock.hmacMessageCounter = storedCounter r.nvram ∧ clock.previousPacket = Packet.zero ∧
      Step hash secretData rs Condition ⟨s, r⟩ ⟨s, r'⟩ := by
  obtain ⟨⟨clock, hvalue, hcounter, hprevious⟩, halong⟩ := setup_formatted hf
  obtain ⟨⟨hf', hstored⟩, hcommands⟩ := halong.last
  have hboot : Step hash secretData rs Condition ⟨s, r⟩ ⟨s, r.complete setup⟩ :=
    .receiver s (.boot r)
  have hbooted : r.complete setup = ⟨setup.final r.nvram, some clock, r.commands⟩ := by
    rw [Receiver.complete, hvalue, hcommands, List.append_nil]
  rw [hbooted] at hboot
  exact ⟨⟨setup.final r.nvram, some clock, r.commands⟩, clock, rfl, hf', hstored, rfl, hcounter,
    hprevious, hboot⟩

/-- A packet whose tag is not right is not accepted. -/
theorem run_refused {s : Sender} {r : Receiver} {clock : Clock} {p : Packet}
    (hrs : Ncrs.ncrsInit = some rs) (hclock : r.clock = some clock)
    (hflag : p.counterResyncFlag = 0)
    (hwrong : ∀ n, rebuildCounter p clock.hmacMessageCounter = some n →
      packetHmac hash secretData n p.payload ≠ p.hmac)
    (hcondition : Condition clock (mailboxOf rs 0 p)) :
    ∃ r' : Receiver, r'.commands = r.commands ∧
      Step hash secretData rs Condition ⟨s, r⟩ ⟨s, r'⟩ := by
  have hflag' : p.counterResyncFlag &&& 0x7f = 0 := by rw [hflag]; rfl
  have hdecoded {packet : Packet} {rsRc : Nat}
      (h : decodePacket rs (mailboxOf rs 0 p).newCode = some (packet, rsRc)) : p = packet :=
    congrArg Prod.fst (Option.some.inj ((decodePacket_encoded hrs hflag').symm.trans h))
  have hnone : accepted hash secretData rs clock (mailboxOf rs 0 p) = none := by
    rw [Option.eq_none_iff_forall_ne_some]
    rintro ⟨packet, counter, rsRc⟩ haccepted
    obtain ⟨-, hdecode, -, hauth⟩ := (accepted_eq_some hash secretData rs).mp haccepted
    obtain rfl := hdecoded hdecode
    obtain ⟨n, hn, htag, -⟩ := authenticate_eq_some hash secretData _ hauth
    exact hwrong n hn htag
  have hideal : Ideal hash secretData rs s.sent clock (mailboxOf rs 0 p) := by
    intro packet rsRc _ hdecode n hn htag
    obtain rfl := hdecoded hdecode
    exact absurd htag (hwrong n hn)
  obtain ⟨-, -, hquiet⟩ := receive_rejected hash secretData rs hnone r.nvram
  refine ⟨_, ?_, step_deliver hclock hideal hcondition⟩
  dsimp only
  rw [commands_of_quiet hquiet, List.append_nil]

/-- A receiver is booted and handed the code of a packet that its counter accepts. -/
theorem run_boot_deliver (Condition : Clock → Mailbox → Prop) {s : Sender} {r : Receiver}
    {p : Packet} {n : UInt64}
    (hrs : Ncrs.ncrsInit = some rs) (hf : Formatted r.nvram) (hflag : p.counterResyncFlag = 0)
    (hzero : Packet.zero ≠ p)
    (hn : rebuildCounter p (storedCounter r.nvram) = some n)
    (htag : p.hmac = packetHmac hash secretData n p.payload) (hsent : (n, p) ∈ s.sent)
    (hcondition : ∀ clock, clock.hmacMessageCounter = storedCounter r.nvram →
      Condition clock (mailboxOf rs 0 p)) :
    ∃ r' : Receiver, Formatted r'.nvram ∧ storedCounter r'.nvram = n + 1 ∧
      r'.commands = r.commands ++ [⟨n + 1, p.payload, 1⟩] ∧
      ReflTransGen (Step hash secretData rs Condition) ⟨s, r⟩ ⟨s, r'⟩ := by
  obtain ⟨r₁, clock, hclock, hf₁, -, hcommands₁, hcounter, hprevious, hboot⟩ :=
    @step_boot hash secretData rs Condition s r hf
  obtain ⟨r', hf', hstored, hcommands, hdeliver⟩ := run_deliver hrs hclock hf₁ hflag
    (hprevious ▸ hzero) (hcounter ▸ hn) htag hsent (hcondition clock hcounter)
  exact ⟨r', hf', hstored, hcommands₁ ▸ hcommands, (ReflTransGen.single hboot).tail hdeliver⟩

/-- A receiver is booted, and the power is cut while the counter of such a packet is saved. -/
theorem run_boot_cut (Condition : Clock → Mailbox → Prop) {s : Sender} {r : Receiver}
    {p : Packet} {n : UInt64}
    (hrs : Ncrs.ncrsInit = some rs) (hf : Formatted r.nvram) (hflag : p.counterResyncFlag = 0)
    (hzero : Packet.zero ≠ p)
    (hn : rebuildCounter p (storedCounter r.nvram) = some n)
    (htag : p.hmac = packetHmac hash secretData n p.payload) (hsent : (n, p) ∈ s.sent)
    (hnew : storedCounter r.nvram ≠ n + 1)
    (hcondition : ∀ clock, clock.hmacMessageCounter = storedCounter r.nvram →
      Condition clock (mailboxOf rs 0 p)) {k : Nat} (hk : k < 9) :
    ∃ r' : Receiver, Formatted r'.nvram ∧ storedCounter r'.nvram = storedCounter r.nvram ∧
      r'.commands = r.commands ∧
      ReflTransGen (Step hash secretData rs Condition) ⟨s, r⟩ ⟨s, r'⟩ := by
  obtain ⟨r₁, clock, hclock, hf₁, hstored₁, hcommands₁, hcounter, hprevious, hboot⟩ :=
    @step_boot hash secretData rs Condition s r hf
  obtain ⟨r', hf', hstored, hcommands, hcut⟩ := run_cut hrs hclock hf₁ hflag
    (hprevious ▸ hzero) (hcounter ▸ hn) htag hsent (by rwa [hstored₁])
    (hcondition clock hcounter) hk
  exact ⟨r', hf', hstored.trans hstored₁, hcommands.trans hcommands₁,
    (ReflTransGen.single hboot).tail hcut⟩

/-- A receiver is booted and handed the code of a packet whose tag is not right. -/
theorem run_boot_refused (Condition : Clock → Mailbox → Prop) {s : Sender} {r : Receiver}
    {p : Packet} {n : UInt64}
    (hrs : Ncrs.ncrsInit = some rs) (hf : Formatted r.nvram) (hflag : p.counterResyncFlag = 0)
    (hn : rebuildCounter p (storedCounter r.nvram) = some n)
    (hwrong : packetHmac hash secretData n p.payload ≠ p.hmac)
    (hcondition : ∀ clock, clock.hmacMessageCounter = storedCounter r.nvram →
      Condition clock (mailboxOf rs 0 p)) :
    ∃ r' : Receiver, r'.commands = r.commands ∧
      ReflTransGen (Step hash secretData rs Condition) ⟨s, r⟩ ⟨s, r'⟩ := by
  obtain ⟨r₁, clock, hclock, -, -, hcommands₁, hcounter, -, hboot⟩ :=
    @step_boot hash secretData rs Condition s r hf
  obtain ⟨r', hcommands, hrefused⟩ := @run_refused hash secretData rs Condition s r₁ clock p hrs
    hclock hflag
    (fun m hm => by
      rw [hcounter, hn] at hm
      exact Option.some.inj hm ▸ hwrong)
    (hcondition clock hcounter)
  exact ⟨r', hcommands.trans hcommands₁, (ReflTransGen.single hboot).tail hrefused⟩

theorem zero_ne_encode {command : Packet} (hflag : command.counterResyncFlag = 0)
    (hpayload : Packet.zero.payload ≠ command.payload) (counter : UInt64) :
    Packet.zero ≠ (hmac433Encode hash secretData command counter).1 := by
  intro heq
  apply hpayload
  rw [heq, (encode_ordinary hash secretData command counter hflag).1]

theorem senderCounter_succ (n : UInt64) (payload : Payload) (rsRc : Nat) :
    Command.senderCounter ⟨n + 1, payload, rsRc⟩ = n := UInt64.add_sub_cancel ..

def oldCommand : Packet :=
  { Packet.zero with payload := #v['M'.toUInt8, 'o'.toUInt8, 'l'.toUInt8, 'd'.toUInt8, 0, 0] }

theorem step_oldCommand : Sender.Step hash secretData ⟨0, []⟩
    ⟨1, [(1, (hmac433Encode hash secretData oldCommand 0).1)]⟩ :=
  @step_encode hash secretData 0 1 [] oldCommand (by decide) (by decide) (by decide)

def newCommand : Packet :=
  { Packet.zero with payload := #v['M'.toUInt8, 'n'.toUInt8, 'e'.toUInt8, 'w'.toUInt8, 0, 0] }

theorem noWrap_mailboxOf {clock : Clock} {p : Packet} (hrs : Ncrs.ncrsInit = some rs)
    (hflag : p.counterResyncFlag = 0) (h : ¬ Wraps hash secretData clock.hmacMessageCounter p) :
    NoWrap hash secretData rs clock (mailboxOf rs 0 p) := by
  have hflag' : p.counterResyncFlag &&& 0x7f = 0 := by rw [hflag]; rfl
  intro packet rsRc _ hdecode _
  obtain rfl : p = packet := by
    have hsame := (decodePacket_encoded hrs hflag').symm.trans hdecode
    exact congrArg Prod.fst (Option.some.inj hsame)
  exact h

/-- The low byte of a packet does not lie behind. -/
theorem noWrap_of_le {clock : Clock} {p : Packet} (hrs : Ncrs.ncrsInit = some rs)
    (hflag : p.counterResyncFlag = 0)
    (h : clock.hmacMessageCounter.toNat % 256 ≤ p.counterLow.toNat) :
    NoWrap hash secretData rs clock (mailboxOf rs 0 p) :=
  noWrap_mailboxOf hrs hflag fun hwraps => Nat.not_lt.mpr h hwraps.2.2.1

/-- The power is cut when five bytes of the first command's counter have been saved. It is sent
    again and executed, and so is the second one. The first one is not when it is replayed: the
    counter that is rebuilt for it wraps, and is not its own. -/
theorem exists_run (hash : Hash) (secretData : List UInt8) {rs : Rs.RsControl}
    (hrs : Ncrs.ncrsInit = some rs)
    (hwrong : packetHmac hash secretData 57 oldCommand.payload
      ≠ packetHmac hash secretData (UInt64.ofNat (2 ^ 64 - 199)) oldCommand.payload) :
    ∃ w₀ w : World, Initial w₀ ∧
      ReflTransGen (Step hash secretData rs (NoWrap hash secretData rs)) w₀ w ∧
      w.executed = [UInt64.ofNat (2 ^ 64 - 199), UInt64.ofNat (2 ^ 64 - 198)] := by
  let first := (hmac433Encode hash secretData oldCommand (UInt64.ofNat (2 ^ 64 - 200))).1
  let second := (hmac433Encode hash secretData newCommand (UInt64.ofNat (2 ^ 64 - 199))).1
  let s : Sender := ⟨UInt64.ofNat (2 ^ 64 - 198),
    [(UInt64.ofNat (2 ^ 64 - 199), first), (UInt64.ofNat (2 ^ 64 - 198), second)]⟩
  have hfirst : Sender.Step hash secretData ⟨UInt64.ofNat (2 ^ 64 - 200), []⟩
      ⟨UInt64.ofNat (2 ^ 64 - 199), [(UInt64.ofNat (2 ^ 64 - 199), first)]⟩ :=
    step_encode [] oldCommand (by decide) (by decide) (by decide)
  have hsecond : Sender.Step hash secretData
      ⟨UInt64.ofNat (2 ^ 64 - 199), [(UInt64.ofNat (2 ^ 64 - 199), first)]⟩ s :=
    step_encode _ newCommand (by decide) (by decide) (by decide)
  have hrebuilt₁ (c : UInt64) : rebuildCounter first c = some (ordinaryCounter c 57) := rfl
  have hrebuilt₂ (c : UInt64) : rebuildCounter second c = some (ordinaryCounter c 58) := rfl
  have htag₁ : first.hmac
      = packetHmac hash secretData (UInt64.ofNat (2 ^ 64 - 199)) first.payload := rfl
  have htag₂ : second.hmac
      = packetHmac hash secretData (UInt64.ofNat (2 ^ 64 - 198)) second.payload := rfl
  have hlow₁ : first.counterLow = 57 := rfl
  have hlow₂ : second.counterLow = 58 := rfl
  have hzero₁ : Packet.zero ≠ first := zero_ne_encode rfl (by decide) _
  have hzero₂ : Packet.zero ≠ second := zero_ne_encode rfl (by decide) _
  obtain ⟨hf, hstored⟩ := formattedNvram_formatted (UInt64.ofNat (2 ^ 64 - 200))
  generalize formattedNvram (UInt64.ofNat (2 ^ 64 - 200)) = nv at hf hstored
  have hcondition (clock : Clock) (hcounter : clock.hmacMessageCounter
      = UInt64.ofNat (2 ^ 64 - 200)) : NoWrap hash secretData rs clock (mailboxOf rs 0 first) :=
    noWrap_of_le hrs rfl (by rw [hcounter, hlow₁]; decide)
  -- The first command, with a power cut and without.
  obtain ⟨r₁, hf₁, hstored₁, hcommands₁, hrun₁⟩ := run_boot_cut (NoWrap hash secretData rs)
    (s := s) (r := ⟨nv, none, []⟩) (p := first) (n := UInt64.ofNat (2 ^ 64 - 199)) (k := 5)
    hrs hf rfl hzero₁ (by rw [hstored, hrebuilt₁]; decide) htag₁ List.mem_cons_self
    (by rw [hstored]; decide)
    (fun clock hcounter => hcondition clock (hcounter.trans hstored)) (by decide)
  replace hstored₁ : storedCounter r₁.nvram = UInt64.ofNat (2 ^ 64 - 200) := hstored₁.trans hstored
  obtain ⟨r₂, hf₂, hstored₂, hcommands₂, hrun₂⟩ := run_boot_deliver (NoWrap hash secretData rs)
    (s := s) (n := UInt64.ofNat (2 ^ 64 - 199)) hrs hf₁ rfl hzero₁
    (by rw [hstored₁, hrebuilt₁]; decide) htag₁ List.mem_cons_self
    fun clock hcounter => hcondition clock (hcounter.trans hstored₁)
  -- The second.
  obtain ⟨r₃, hf₃, hstored₃, hcommands₃, hrun₃⟩ := run_boot_deliver (NoWrap hash secretData rs)
    (s := s) (n := UInt64.ofNat (2 ^ 64 - 198)) hrs hf₂ rfl hzero₂
    (by rw [hstored₂, hrebuilt₂]; decide) htag₂
    (List.mem_cons_of_mem _ (List.mem_singleton.mpr rfl))
    fun clock hcounter => noWrap_of_le hrs rfl (by rw [hcounter, hstored₂, hlow₂]; decide)
  -- The first again, which is refused.
  obtain ⟨r₄, hcommands₄, hrun₄⟩ := run_boot_refused (NoWrap hash secretData rs) (s := s)
    (p := first) (n := 57) hrs hf₃ rfl (by rw [hstored₃, hrebuilt₁]; decide) hwrong
    fun clock _ => noWrap_mailboxOf hrs rfl fun hwraps => hwrong hwraps.2.2.2
  refine ⟨⟨⟨UInt64.ofNat (2 ^ 64 - 200), []⟩, ⟨nv, none, []⟩⟩, ⟨s, r₄⟩,
    ⟨rfl, rfl, hf, rfl⟩, ?_, ?_⟩
  · have hsender := (ReflTransGen.single hfirst).tail hsecond
    exact ((((run_sender _ hsender).trans hrun₁).trans hrun₂).trans hrun₃).trans hrun₄
  · rw [executed, hcommands₄, hcommands₃, hcommands₂, hcommands₁]
    simp only [List.nil_append, List.cons_append, List.map_cons, List.map_nil,
      senderCounter_succ]

/-! ## The result -/

/-- **Commands are executed at most once and in order, across power cuts**, in every run in which no
    wrapping packet is delivered: the sender's counters of the commands executed are strictly
    increasing; and in every state reached, a delivery of which no packet is accepted changes
    neither the counter nor the NVRAM, and calls nothing but the low-priority display. -/
theorem commands_increasing {w₀ w : World} (hstart : Initial w₀)
    (hrun : ReflTransGen (Step hash secretData rs (NoWrap hash secretData rs)) w₀ w) :
    w.executed.Pairwise (· < ·) ∧
      ∀ clock mailbox, w.receiver.clock = some clock →
        accepted hash secretData rs clock mailbox = none →
        let p := mailReceiveMessages hash secretData rs clock mailbox
        (p.value w.receiver.nvram).1.hmacMessageCounter = clock.hmacMessageCounter ∧
          p.final w.receiver.nvram = w.receiver.nvram ∧
          ∀ e ∈ p.events w.receiver.nvram, Event.Quiet e :=
  ⟨(inv_run hstart hrun).increasing, fun _ _ _ h => receive_rejected hash secretData rs h _⟩

theorem commands_increasing_sample : ∃ w₀ w : World, Initial w₀ ∧
    ReflTransGen (Step sha256 sampleSecret Rs.rs32 (NoWrap sha256 sampleSecret Rs.rs32)) w₀ w ∧
    w.executed = [UInt64.ofNat (2 ^ 64 - 199), UInt64.ofNat (2 ^ 64 - 198)] ∧
    w.executed.Pairwise (· < ·) := by
  obtain ⟨w₀, w, hstart, hrun, hexecuted⟩ :=
    exists_run sha256 sampleSecret Ncrs.ncrsInit_eq (by decide +kernel)
  exact ⟨w₀, w, hstart, hrun, hexecuted, (commands_increasing hstart hrun).1⟩

/-! ## A run with a wrapping packet -/

abbrev AnyStep (hash : Hash) (secretData : List UInt8) (rs : Rs.RsControl) :
    World → World → Prop :=
  Step hash secretData rs fun _ _ => True

/-- **An old command is replayed.** The sender sends a command with counter 1 and one with counter
    `2 ^ 64 - 255`; a clock that has executed the second executes the first as well. -/
theorem exists_replay (hash : Hash) (secretData : List UInt8) {rs : Rs.RsControl}
    (hrs : Ncrs.ncrsInit = some rs) :
    ∃ w₀ w : World, Initial w₀ ∧ ReflTransGen (AnyStep hash secretData rs) w₀ w ∧
      w.executed = [UInt64.ofNat (2 ^ 64 - 255), 1] := by
  -- What is sent: the old command, nothing for a long time, special packets, the new command.
  let old := (hmac433Encode hash secretData oldCommand 0).1
  let new := (hmac433Encode hash secretData newCommand (UInt64.ofNat (2 ^ 64 - 256))).1
  have hlong := run_advance hash secretData 1 [(1, old)] (2 ^ 48 - 1)
    (by decide)
  have halign := @step_encode hash secretData (1 + 65536 * (2 ^ 48 - 1)) (2 ^ 64 - 65536 + 256)
    [(1, old)] { Packet.zero with counterResyncFlag := 0x80 } (by decide) (by decide) (by decide)
  obtain ⟨sent, hsub, hresync⟩ := run_resync hash secretData
    (2 ^ 64 - 65536 + 256) _ 254 (by decide) (by decide)
  have hnew : Sender.Step hash secretData ⟨UInt64.ofNat (2 ^ 64 - 256), sent⟩
      ⟨UInt64.ofNat (2 ^ 64 - 255), sent ++ [(UInt64.ofNat (2 ^ 64 - 255), new)]⟩ :=
    step_encode sent newCommand (by decide) (by decide) (by decide)
  have hsender :=
    ((((ReflTransGen.single step_oldCommand).trans hlong).tail halign).trans hresync).tail hnew
  -- What is delivered: the new command, then the old one.
  obtain ⟨hformatted, hstored⟩ := formattedNvram_formatted (UInt64.ofNat (2 ^ 64 - 256))
  generalize formattedNvram (UInt64.ofNat (2 ^ 64 - 256)) = nv at hformatted hstored
  let s : Sender := ⟨UInt64.ofNat (2 ^ 64 - 255), sent ++ [(UInt64.ofNat (2 ^ 64 - 255), new)]⟩
  have hrebuilt₁ : rebuildCounter new (storedCounter nv) = some (UInt64.ofNat (2 ^ 64 - 255)) := by
    rw [hstored]
    show some (ordinaryCounter (UInt64.ofNat (2 ^ 64 - 256))
      (UInt64.ofNat (2 ^ 64 - 256) + 1).toUInt8) = _
    decide
  obtain ⟨r₁, hf₁, hstored₁, hcommands₁, hrun₁⟩ := run_boot_deliver (fun _ _ => True) (s := s)
    (r := ⟨nv, none, []⟩) (p := new) (n := UInt64.ofNat (2 ^ 64 - 255)) hrs hformatted rfl
    (zero_ne_encode rfl (by decide) _) hrebuilt₁ rfl
    (List.mem_append_right _ (List.mem_singleton.mpr rfl)) fun _ _ => trivial
  have hrebuilt₂ : rebuildCounter old (storedCounter r₁.nvram) = some 1 := by
    rw [hstored₁]
    show some (ordinaryCounter (UInt64.ofNat (2 ^ 64 - 255) + 1) ((0 : UInt64) + 1).toUInt8) = _
    decide
  obtain ⟨r₂, -, -, hcommands₂, hrun₂⟩ := run_boot_deliver (fun _ _ => True) (s := s)
    (p := old) (n := 1) hrs hf₁ rfl
    (zero_ne_encode rfl (by decide) _) hrebuilt₂ rfl
    (List.mem_append_left _ (hsub _ (List.mem_append_left _ (List.mem_singleton.mpr rfl))))
    fun _ _ => trivial
  refine ⟨⟨⟨0, []⟩, ⟨nv, none, []⟩⟩, ⟨s, r₂⟩, ⟨rfl, rfl, hformatted, rfl⟩,
    ((run_sender _ hsender).trans hrun₁).trans hrun₂, ?_⟩
  rw [executed, hcommands₂, hcommands₁]
  simp only [List.nil_append, List.cons_append, List.map_cons, List.map_nil,
    senderCounter_succ]

/-- **Without the condition the order is lost.** -/
theorem old_command_replayed :
    ¬ ∀ w₀ w : World, Initial w₀ → ReflTransGen (AnyStep sha256 sampleSecret Rs.rs32) w₀ w →
      w.executed.Pairwise (· < ·) := by
  intro h
  obtain ⟨w₀, w, hstart, hrun, hexecuted⟩ := exists_replay sha256 sampleSecret Ncrs.ncrsInit_eq
  have hincreasing := h w₀ w hstart hrun
  rw [hexecuted] at hincreasing
  exact absurd hincreasing (by decide)

end World
end CpeClock
