import CpeClock.PacketCodec

/-!
# The rebroadcast filter

"Same as last code?" saves the work of authenticating a packet again, and nothing else. A packet
that was refused when it came first is refused again, since the counter has not moved. One that was
accepted with counter `n` has moved the counter to `n + 1`, from where `n` is never rebuilt
(`rebuildCounter_succ_ne`), so its tag would have to be right for two counters. `Judged` says which
of the two it was, and is what the run without the check keeps.
-/

namespace CpeClock
namespace Mail

open Lib Hmac433

/-! ## Receiving without the check -/

section

variable (hash : Hash) (secretData : List UInt8) (rs : Rs.RsControl)

/-- What `mail_receive_messages` does with a packet after "Same as last code?". -/
def authenticatePacket (clock : Clock) (packet : Packet) (rsRc : Nat) : Sketch Clock :=
  let clock := { clock with previousPacket := packet }
  match hmac433Authenticate hash secretData packet clock.hmacMessageCounter with
  | none => do
    displayMessageLp "HMAC ERROR"
    return clock
  | some counter => acceptPacket clock packet counter rsRc

def unfilteredCode (clock : Clock) (code : NcCode) : Sketch Clock :=
  match decodePacket rs code with
  | none => return clock
  | some (packet, rsRc) => authenticatePacket hash secretData clock packet rsRc

def unfilteredNewCode (clock : Clock) (mailbox : Mailbox) : Sketch Clock :=
  if mailbox.newCodeReady then unfilteredCode hash secretData rs clock mailbox.newCode
  else return clock

/-- `mail_receive_messages` with the check removed. -/
def unfilteredReceiveMessages (clock : Clock) (mailbox : Mailbox) : Sketch (Clock × Mailbox) := do
  receiveHomeEasy mailbox
  let clock ← unfilteredNewCode hash secretData rs clock mailbox
  return (clock, mailbox.emptied)

/-- One call after another. -/
def receiveAll (receive : Clock → Mailbox → Sketch (Clock × Mailbox)) :
    List Mailbox → Clock → Sketch Clock
  | [], clock => return clock
  | mailbox :: mailboxes, clock => do
    let (clock, _) ← receive clock mailbox
    receiveAll receive mailboxes clock

/-- A new code was copied, and it decodes to a packet. -/
def Delivers (mailbox : Mailbox) (packet : Packet) : Prop :=
  mailbox.newCodeReady = true ∧ ∃ rsRc, decodePacket rs mailbox.newCode = some (packet, rsRc)

/-! ## The ideal MAC -/

/-- The comparison of a tag that a call makes: the counter that was rebuilt, and the packet. -/
def comparison (clock : Clock) (mailbox : Mailbox) : Option (UInt64 × Packet) :=
  if mailbox.newCodeReady then
    match decodePacket rs mailbox.newCode with
    | none => none
    | some (packet, _) =>
      (rebuildCounter packet clock.hmacMessageCounter).map fun n => (n, packet)
  else none

/-- All comparisons of a run without the check. -/
def comparisons : List Mailbox → Clock → Nvram → List (UInt64 × Packet)
  | [], _, _ => []
  | mailbox :: mailboxes, clock, nv =>
    let p := unfilteredReceiveMessages hash secretData rs clock mailbox
    (comparison rs clock mailbox).toList ++ comparisons mailboxes (p.value nv).1 (p.final nv)

/-- The comparison succeeds. -/
def Verifies (n : UInt64) (packet : Packet) : Prop :=
  packetHmac hash secretData n packet.payload = packet.hmac

/-- No tag of these comparisons is right for two counters or two payloads. -/
def IdealMac (compared : List (UInt64 × Packet)) : Prop :=
  ∀ c ∈ compared, ∀ c' ∈ compared, c.2.hmac = c'.2.hmac → Verifies hash secretData c.1 c.2 →
    Verifies hash secretData c'.1 c'.2 → c.1 = c'.1 ∧ c.2.payload = c'.2.payload

/-! ## The last packet -/

/-- What became of the packet that was decoded last. -/
def Judged (compared : List (UInt64 × Packet)) (clock : Clock) : Prop :=
  clock.previousPacket = Packet.zero ∨
    hmac433Authenticate hash secretData clock.previousPacket clock.hmacMessageCounter = none ∨
    ∃ n, (n, clock.previousPacket) ∈ compared ∧ Verifies hash secretData n clock.previousPacket ∧
      clock.hmacMessageCounter = n + 1

end

/-- **A counter is not rebuilt from the next.** -/
theorem rebuildCounter_succ_ne (packet : Packet) (n : UInt64) :
    rebuildCounter packet (n + 1) ≠ some n := by
  have hn := n.toNat_lt
  have hsucc : (n + 1).toNat = (n.toNat + 1) % 2 ^ 64 := UInt64.toNat_add ..
  unfold rebuildCounter
  split
  · intro heq
    have hordinary := ordinaryCounter_toNat (n + 1) packet.counterLow
    have hlow := packet.counterLow.toNat_lt
    rw [Option.some.inj heq, hsucc] at hordinary
    split at hordinary <;> omega
  · dsimp only
    split
    · exact (Option.some_ne_none n).symm
    · next hle =>
      intro heq
      have hmod := resyncCounter_mod packet.payload packet.counterLow
      rw [Option.some.inj heq, UInt64.lt_iff_toNat_lt, hsucc] at hle
      rw [Option.some.inj heq] at hmod
      omega

section

variable {hash : Hash} {secretData : List UInt8} {rs : Rs.RsControl}

theorem authenticate_eq_none_iff {packet : Packet} {r : UInt64} :
    hmac433Authenticate hash secretData packet r = none
      ↔ ∀ n, rebuildCounter packet r = some n → ¬ Verifies hash secretData n packet := by
  unfold hmac433Authenticate Verifies
  cases rebuildCounter packet r with
  | none => simp
  | some n => simp

/-- **A packet that comes again is refused**, if the tags of all comparisons are ideal. -/
theorem Judged.refuses {compared : List (UInt64 × Packet)} {clock : Clock}
    (hjudged : Judged hash secretData compared clock) (hzero : clock.previousPacket ≠ Packet.zero)
    (hideal : ∀ n, rebuildCounter clock.previousPacket clock.hmacMessageCounter = some n →
      IdealMac hash secretData (compared ++ [(n, clock.previousPacket)])) :
    hmac433Authenticate hash secretData clock.previousPacket clock.hmacMessageCounter = none := by
  rcases hjudged with hstart | hrefused | ⟨n, hmem, hverifies, hcounter⟩
  · exact absurd hstart hzero
  · exact hrefused
  · refine authenticate_eq_none_iff.mpr fun m hm hverifies' => ?_
    obtain ⟨rfl, -⟩ := hideal m hm _ (List.mem_append_left _ hmem) _
      (List.mem_append_right _ (List.mem_singleton.mpr rfl)) rfl hverifies hverifies'
    rw [hcounter] at hm
    exact rebuildCounter_succ_ne _ _ hm

theorem performCommand_previous (clock : Clock) (payload : Payload) (rsRc : Nat) (nv : Nvram) :
    ((performCommand clock payload rsRc).value nv).previousPacket = clock.previousPacket := by
  unfold performCommand
  simp only [Traced.value_ite]
  split_ifs <;> rfl

theorem acceptPacket_previous (clock : Clock) (packet : Packet) (counter : UInt64) (rsRc : Nat)
    (nv : Nvram) :
    ((acceptPacket clock packet counter rsRc).value nv).previousPacket = clock.previousPacket := by
  rw [acceptPacket_eq, Traced.value_bind, afterSave, Traced.value_ite]
  split
  · rfl
  · exact performCommand_previous ..

/-- Whatever packet is authenticated, it is judged. -/
theorem judged_authenticatePacket (compared : List (UInt64 × Packet)) (clock : Clock)
    (packet : Packet) (rsRc : Nat) (nv : Nvram) :
    Judged hash secretData (compared
        ++ ((rebuildCounter packet clock.hmacMessageCounter).map fun n => (n, packet)).toList)
      ((authenticatePacket hash secretData clock packet rsRc).value nv) := by
  unfold authenticatePacket
  dsimp only
  cases hauth : hmac433Authenticate hash secretData packet clock.hmacMessageCounter with
  | none => exact .inr (.inl hauth)
  | some counter =>
    obtain ⟨n, hn, hverifies, rfl⟩ := authenticate_eq_some hash secretData _ hauth
    obtain ⟨-, -, hcounter, -⟩ :=
      acceptPacket_final { clock with previousPacket := packet } packet (n + 1) rsRc nv
    have hprevious :=
      acceptPacket_previous { clock with previousPacket := packet } packet (n + 1) rsRc nv
    refine .inr (.inr ⟨n, ?_, ?_, hcounter⟩)
    · rw [hprevious, hn]
      exact List.mem_append_right _ (List.mem_singleton.mpr rfl)
    · rw [hprevious]
      exact hverifies

/-! ## One call -/

/-- What may be seen of a run, with "HMAC ERROR" left out. -/
def notHmacError (e : Event) : Bool := e ≠ .displayMessageLp "HMAC ERROR"

theorem receiveNewCode_sameSeen {compared : List (UInt64 × Packet)} {clock : Clock}
    {mailbox : Mailbox} (hjudged : Judged hash secretData compared clock)
    (hzero : ¬ Delivers rs mailbox Packet.zero)
    (hideal : IdealMac hash secretData (compared ++ (comparison rs clock mailbox).toList))
    (nv : Nvram) :
    Traced.SameSeen notHmacError (receiveNewCode hash secretData rs clock mailbox)
        (unfilteredNewCode hash secretData rs clock mailbox) nv ∧
      Judged hash secretData (compared ++ (comparison rs clock mailbox).toList)
        ((unfilteredNewCode hash secretData rs clock mailbox).value nv) := by
  unfold receiveNewCode unfilteredNewCode comparison at *
  by_cases hready : mailbox.newCodeReady = true
  · simp only [if_pos hready] at hideal ⊢
    unfold receiveCode unfilteredCode
    cases hdecode : decodePacket rs mailbox.newCode with
    | none => exact ⟨Traced.SameSeen.refl .., by simpa using hjudged⟩
    | some decoded =>
      obtain ⟨packet, rsRc⟩ := decoded
      rw [hdecode] at hideal
      dsimp only at hideal ⊢
      refine ⟨?_, judged_authenticatePacket compared clock packet rsRc nv⟩
      unfold receivePacket
      by_cases hsame : clock.previousPacket = packet
      · -- A rebroadcast: the check saves a refusal.
        subst hsame
        have hne : clock.previousPacket ≠ Packet.zero := fun heq =>
          hzero ⟨hready, rsRc, heq ▸ hdecode⟩
        have hrefused := hjudged.refuses hne fun n hn => by rwa [hn] at hideal
        rw [if_pos rfl]
        unfold authenticatePacket
        dsimp only
        rw [hrefused]
        have hdropped : [Event.displayMessageLp "HMAC ERROR"].filter notHmacError = [] := by decide
        exact ⟨rfl, rfl, hdropped.symm⟩
      · rw [if_neg hsame]
        exact Traced.SameSeen.refl ..
  · simp only [if_neg hready] at hideal ⊢
    exact ⟨Traced.SameSeen.refl .., by simpa using hjudged⟩

theorem receiveMessages_sameSeen {compared : List (UInt64 × Packet)} {clock : Clock}
    {mailbox : Mailbox} (hjudged : Judged hash secretData compared clock)
    (hzero : ¬ Delivers rs mailbox Packet.zero)
    (hideal : IdealMac hash secretData (compared ++ (comparison rs clock mailbox).toList))
    (nv : Nvram) :
    Traced.SameSeen notHmacError (mailReceiveMessages hash secretData rs clock mailbox)
        (unfilteredReceiveMessages hash secretData rs clock mailbox) nv ∧
      Judged hash secretData (compared ++ (comparison rs clock mailbox).toList)
        ((unfilteredReceiveMessages hash secretData rs clock mailbox).value nv).1 := by
  obtain ⟨hsame, hjudged'⟩ := receiveNewCode_sameSeen hjudged hzero hideal
    ((receiveHomeEasy mailbox).final nv)
  exact ⟨(Traced.SameSeen.refl ..).bind (hsame.bind (Traced.SameSeen.refl ..)), hjudged'⟩

/-! ## The whole run -/

theorem receiveAll_cons (receive : Clock → Mailbox → Sketch (Clock × Mailbox)) (mailbox : Mailbox)
    (mailboxes : List Mailbox) (clock : Clock) :
    receiveAll receive (mailbox :: mailboxes) clock
      = receive clock mailbox >>= fun r => receiveAll receive mailboxes r.1 := rfl

theorem receiveAll_sameSeen {mailboxes : List Mailbox} {compared : List (UInt64 × Packet)}
    {clock : Clock} {nv : Nvram} (hjudged : Judged hash secretData compared clock)
    (hzero : ∀ mailbox ∈ mailboxes, ¬ Delivers rs mailbox Packet.zero)
    (hideal : IdealMac hash secretData
      (compared ++ comparisons hash secretData rs mailboxes clock nv)) :
    Traced.SameSeen notHmacError
      (receiveAll (mailReceiveMessages hash secretData rs) mailboxes clock)
      (receiveAll (unfilteredReceiveMessages hash secretData rs) mailboxes clock) nv := by
  induction mailboxes generalizing compared clock nv with
  | nil =>
    rw [receiveAll, receiveAll]
    exact Traced.SameSeen.refl ..
  | cons mailbox mailboxes ih =>
    rw [comparisons, ← List.append_assoc] at hideal
    have hnow : IdealMac hash secretData (compared ++ (comparison rs clock mailbox).toList) :=
      fun c hc c' hc' =>
        hideal c (List.mem_append_left _ hc) c' (List.mem_append_left _ hc')
    obtain ⟨hsame, hjudged'⟩ :=
      receiveMessages_sameSeen hjudged (hzero mailbox List.mem_cons_self) hnow nv
    rw [receiveAll_cons, receiveAll_cons]
    refine hsame.bind ?_
    exact ih hjudged' (fun m hm => hzero m (List.mem_cons_of_mem _ hm)) hideal

/-- The display of an error is no command. -/
theorem commands_filter (es : List Event) : commands (es.filter notHmacError) = commands es := by
  have hnone (e : Event) : (if notHmacError e then e.command else none) = e.command := by
    cases e with
    | displayMessageLp => exact ite_self none
    | nvramWrite | displayMessage | clockSet | newPacket => rfl
  rw [commands, List.filterMap_filter]
  simp only [hnone]
  rfl

end

/-- **The rebroadcast filter is transparent.** From power-on, with any counter and any NVRAM, and
    for every sequence of mailboxes of which none delivers the all-zero packet: with and without the
    check the run leaves the same variables and the same NVRAM, calls `new_packet` in the same
    sequence, and does everything else the same but for the display of "HMAC ERROR". -/
theorem rebroadcast_filter_transparent (hash : Hash) (secretData : List UInt8) (rs : Rs.RsControl)
    (mailboxes : List Mailbox) (clock : Clock) (nv : Nvram)
    (hstart : clock.previousPacket = Packet.zero)
    (hzero : ∀ mailbox ∈ mailboxes, ¬ Delivers rs mailbox Packet.zero)
    (hideal : IdealMac hash secretData (comparisons hash secretData rs mailboxes clock nv)) :
    let p := receiveAll (mailReceiveMessages hash secretData rs) mailboxes clock
    let q := receiveAll (unfilteredReceiveMessages hash secretData rs) mailboxes clock
    p.value nv = q.value nv ∧ p.final nv = q.final nv ∧
      commands (p.events nv) = commands (q.events nv) ∧
      (p.events nv).filter notHmacError = (q.events nv).filter notHmacError := by
  have hjudged : Judged hash secretData [] clock := .inl hstart
  have hsame := receiveAll_sameSeen hjudged hzero hideal
  refine ⟨hsame.value, hsame.final, ?_, hsame.events⟩
  rw [← commands_filter, hsame.events, commands_filter]

theorem unfilteredReceive_counter {hash : Hash} {secretData : List UInt8} {rs : Rs.RsControl}
    {clock : Clock} {mailbox : Mailbox} {packet : Packet} {rsRc : Nat} {counter : UInt64}
    (hready : mailbox.newCodeReady = true)
    (hdecode : decodePacket rs mailbox.newCode = some (packet, rsRc))
    (hauth : hmac433Authenticate hash secretData packet clock.hmacMessageCounter = some counter)
    (nv : Nvram) :
    ((unfilteredReceiveMessages hash secretData rs clock mailbox).value nv).1.hmacMessageCounter
      = counter := by
  have hprogram : unfilteredNewCode hash secretData rs clock mailbox
      = acceptPacket { clock with previousPacket := packet } packet counter rsRc := by
    rw [unfilteredNewCode, if_pos hready, unfilteredCode, hdecode]
    dsimp only
    rw [authenticatePacket]
    dsimp only
    rw [hauth]
  obtain ⟨-, -, hcounter, -⟩ := acceptPacket_final { clock with previousPacket := packet } packet
    counter rsRc ((receiveHomeEasy mailbox).final nv)
  rw [unfilteredReceiveMessages, Traced.value_bind, Traced.value_bind, hprogram]
  exact hcounter

theorem comparison_mailboxOf {rs : Rs.RsControl} (hrs : Ncrs.ncrsInit = some rs) {packet : Packet}
    (hflag : packet.counterResyncFlag &&& 0x7f = 0) (clock : Clock) (homeEasy : UInt32) :
    comparison rs clock (mailboxOf rs homeEasy packet)
      = (rebuildCounter packet clock.hmacMessageCounter).map fun n => (n, packet) := by
  have hdecode := decodePacket_encoded hrs hflag
  unfold comparison mailboxOf
  dsimp only
  rw [if_pos rfl, hdecode]

/-- An ordinary packet with counter 8. -/
def packetEight : Packet := (hmac433Encode sha256 [] Packet.zero 7).1

def clockEight : Clock where
  hmacMessageCounter := 8
  previousPacket := Packet.zero
  alarm := { alarmTime := 0, alarmState := .disabled }
  nightDayTime := { startNightTime := 0, startDayTime := 0 }

theorem packetEight_flag : packetEight.counterResyncFlag &&& 0x7f = 0 := by
  rw [packetEight, encode_flag]
  rfl

theorem packetEight_ne_zero : packetEight ≠ Packet.zero := by
  intro heq
  have hlow : packetEight.counterLow = 0 := congrArg Packet.counterLow heq
  exact absurd hlow (by decide +kernel)

theorem packetEight_wrong : ¬ Verifies sha256 [] 264 packetEight := by
  unfold Verifies
  decide +kernel

/-- It is accepted, and compared again when the counter is 9. -/
theorem comparisons_packetEight :
    comparisons sha256 [] Rs.rs32 (List.replicate 2 (mailboxOf Rs.rs32 0 packetEight)) clockEight
        (fun _ => 0)
      = [(8, packetEight), (264, packetEight)] := by
  have hcompare := comparison_mailboxOf Ncrs.ncrsInit_eq packetEight_flag
  have hauth : hmac433Authenticate sha256 [] packetEight clockEight.hmacMessageCounter = some 9 :=
    authenticate_encoded sha256 [] Packet.zero 7 8 (by decide)
  have hcounter := @unfilteredReceive_counter _ _ _ _ (mailboxOf Rs.rs32 0 packetEight) _ _ _ rfl
    (decodePacket_encoded Ncrs.ncrsInit_eq packetEight_flag) hauth (fun _ => 0)
  have hfirst : rebuildCounter packetEight clockEight.hmacMessageCounter = some 8 := by
    decide +kernel
  have hsecond : rebuildCounter packetEight 9 = some 264 := by decide +kernel
  rw [List.replicate_succ, comparisons, hcompare, hfirst, List.replicate_one, comparisons,
    hcompare, hcounter, hsecond]
  rfl

/-- A packet is accepted and comes again. -/
theorem rebroadcast_filter_sample :
    let mailboxes := List.replicate 2 (mailboxOf Rs.rs32 0 packetEight)
    let p := receiveAll (mailReceiveMessages sha256 [] Rs.rs32) mailboxes clockEight
    let q := receiveAll (unfilteredReceiveMessages sha256 [] Rs.rs32) mailboxes clockEight
    (p.value fun _ => 0) = (q.value fun _ => 0) ∧
      commands (p.events fun _ => 0) = commands (q.events fun _ => 0) := by
  have hzero : ∀ mailbox ∈ List.replicate 2 (mailboxOf Rs.rs32 0 packetEight),
      ¬ Delivers Rs.rs32 mailbox Packet.zero := by
    intro mailbox hmem
    obtain rfl := List.eq_of_mem_replicate hmem
    rintro ⟨-, rsRc, hzero⟩
    have hdecode := decodePacket_encoded Ncrs.ncrsInit_eq packetEight_flag
    obtain ⟨heq, -⟩ := Prod.mk.inj (Option.some.inj (hdecode.symm.trans hzero))
    exact packetEight_ne_zero heq
  have hideal : IdealMac sha256 [] (comparisons sha256 [] Rs.rs32
      (List.replicate 2 (mailboxOf Rs.rs32 0 packetEight)) clockEight fun _ => 0) := by
    rw [comparisons_packetEight]
    intro c hc c' hc' _ hverifies hverifies'
    simp only [List.mem_cons, List.not_mem_nil, or_false] at hc hc'
    rcases hc with rfl | rfl
    · rcases hc' with rfl | rfl
      · exact ⟨rfl, rfl⟩
      · exact absurd hverifies' packetEight_wrong
    · exact absurd hverifies packetEight_wrong
  have h := rebroadcast_filter_transparent sha256 [] Rs.rs32
    (List.replicate 2 (mailboxOf Rs.rs32 0 packetEight)) clockEight (fun _ => 0) rfl hzero hideal
  exact ⟨h.1, h.2.2.1⟩

end Mail
end CpeClock
