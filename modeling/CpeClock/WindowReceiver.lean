import CpeClock.Delivery
import CpeClock.Lib.ReplayWindow

/-!
# The clock as a receiver with a window

The clock hears the last byte of a counter and a tag, and keeps one counter in NVRAM and the last
packet in RAM. What that comes to is a receiver that is told the whole counter of each packet and
takes it if it is in a window of 256 (`ReplayWindow`): `turns_taken`, whatever is lost, repeated or
reordered on the way, and however often the clock is restarted between two calls. `Tracks` is what
each turn keeps; the last packet needs a place in it, as a packet that is refused when it comes
again must be one that the window refuses as well.

The tags are asked for one thing, `TagsDiffer`: a tag that is compared with that of another counter
is not the same. Noise that is decoded to a packet nobody sent is asked for the like of it
(`Hears`): it authenticates at no counter that the clock can have.
-/

namespace CpeClock

open Lib Lib.ReplayWindow Hmac433 Mail

/-! ## Packets that were sent -/

section

variable (hash : Hash) (secretData : List UInt8)

/-- A packet with the counter that it was sent with: its tag, and where its counter is rebuilt. -/
structure SentWith (n : UInt64) (packet : Packet) : Prop where
  tag : packet.hmac = packetHmac hash secretData n packet.payload
  rebuilt : ∀ counter, rebuildCounter packet counter = some n
    ↔ if packet.counterResyncFlag = 0 then (n - counter).toNat ≤ 255 else counter ≤ n

theorem sentWith_encode (p : Packet) (c : UInt64) :
    SentWith hash secretData (advanceCounter p.counterResyncFlag c)
      (hmac433Encode hash secretData p c).1 where
  tag := encode_hmac hash secretData p c
  rebuilt counter := by
    rw [encode_flag]
    exact rebuildCounter_encoded hash secretData p c counter

/-- No packet has the tag of a counter that one of these clocks would rebuild from it, other than
    its own. -/
def TagsDiffer (counters : List UInt64) (sent : List (UInt64 × Packet)) : Prop :=
  ∀ counter ∈ counters, ∀ e ∈ sent, ∀ m, rebuildCounter e.2 counter = some m →
    e.2.hmac = packetHmac hash secretData m e.2.payload → m = e.1

/-- The counters that a clock can have which starts with one of them. -/
def countersFrom (start : UInt64) (sent : List (UInt64 × Packet)) : List UInt64 :=
  start :: sent.map fun e => e.1 + 1

/-- Packets that were sent to a clock with this counter, none of them all zero. -/
structure Sendable (start : UInt64) (sent : List (UInt64 × Packet)) : Prop where
  sentWith : ∀ e ∈ sent, SentWith hash secretData e.1 e.2
  ne_zero : ∀ e ∈ sent, e.2 ≠ Packet.zero
  tags : TagsDiffer hash secretData (countersFrom start sent) sent
  start_below : start.toNat + 256 ≤ 2 ^ 64
  below : ∀ e ∈ sent, e.1.toNat + 257 ≤ 2 ^ 64

/-- What is decoded, and what it is of the packets that were sent: each is one of them, or noise
    that authenticates at no counter that the clock can have. -/
inductive Hears (start : UInt64) (sent : List (UInt64 × Packet)) :
    List (Packet × Nat) → List ((UInt64 × Packet) × Nat) → Prop
  | nil : Hears start sent [] []
  | sent {e : (UInt64 × Packet) × Nat} {decoded : List (Packet × Nat)}
      {heard : List ((UInt64 × Packet) × Nat)} (hmem : e.1 ∈ sent)
      (hlater : Hears start sent decoded heard) :
      Hears start sent ((e.1.2, e.2) :: decoded) (e :: heard)
  | noise {packet : Packet} {rsRc : Nat} {decoded : List (Packet × Nat)}
      {heard : List ((UInt64 × Packet) × Nat)}
      (hfails : ∀ counter ∈ countersFrom start sent,
        hmac433Authenticate hash secretData packet counter = none)
      (hlater : Hears start sent decoded heard) :
      Hears start sent ((packet, rsRc) :: decoded) heard

theorem hears_map {start : UInt64} {sent : List (UInt64 × Packet)}
    {heard : List ((UInt64 × Packet) × Nat)} (h : ∀ e ∈ heard, e.1 ∈ sent) :
    Hears hash secretData start sent (heard.map fun e => (e.1.2, e.2)) heard := by
  induction heard with
  | nil => exact .nil
  | cons e heard ih =>
    exact .sent (h e List.mem_cons_self) (ih fun e he => h e (List.mem_cons_of_mem _ he))

end

/-- A packet that was decoded, with the return code of `ncrs_decode`, as a numbered message. -/
def numbered (e : (UInt64 × Packet) × Nat) : Numbered (Packet × Nat) where
  number := e.1.1.toNat
  leaps := e.1.2.counterResyncFlag ≠ 0
  content := (e.1.2, e.2)

/-- What the messages that are taken come to. -/
def commandsOfTaken (taken : List (Numbered (Packet × Nat))) : List Command :=
  taken.flatMap fun m => commandsOf m.content.1 (UInt64.ofNat (m.number + 1)) m.content.2

theorem commandsOfTaken_cons (m : Numbered (Packet × Nat))
    (taken : List (Numbered (Packet × Nat))) :
    commandsOfTaken (m :: taken)
      = commandsOf m.content.1 (UInt64.ofNat (m.number + 1)) m.content.2 ++ commandsOfTaken taken :=
  List.flatMap_cons

/-- **A counter is rebuilt in the window**, and nowhere else. -/
theorem SentWith.rebuilt_iff_takes {hash : Hash} {secretData : List UInt8} {n : UInt64}
    {packet : Packet} (h : SentWith hash secretData n packet) {counter : UInt64}
    (hbelow : counter.toNat + 256 ≤ 2 ^ 64) (rsRc : Nat) :
    rebuildCounter packet counter = some n
      ↔ Takes 256 counter.toNat (numbered ((n, packet), rsRc)) := by
  rw [h.rebuilt]
  unfold Takes numbered
  have hn := n.toNat_lt
  by_cases hflag : packet.counterResyncFlag = 0
  · rw [if_pos hflag, UInt64.toNat_sub]
    simp only [hflag, ne_eq, not_true_eq_false, decide_false, Bool.false_eq_true, false_or]
    omega
  · rw [if_neg hflag, UInt64.le_iff_toNat_le]
    simp [hflag]

theorem toNat_succ {n : UInt64} (hbelow : n.toNat + 257 ≤ 2 ^ 64) :
    (n + 1).toNat = n.toNat + 1 := by
  rw [UInt64.toNat_add]
  exact Nat.mod_eq_of_lt (by show n.toNat + 1 < 2 ^ 64; omega)

theorem Sendable.reached_below {hash : Hash} {secretData : List UInt8} {start counter : UInt64}
    {sent : List (UInt64 × Packet)} (h : Sendable hash secretData start sent)
    (hcounter : counter ∈ countersFrom start sent) : counter.toNat + 256 ≤ 2 ^ 64 := by
  rcases List.mem_cons.mp hcounter with rfl | hmem
  · exact h.start_below
  · obtain ⟨e, he, rfl⟩ := List.mem_map.mp hmem
    have hbelow := h.below e he
    rw [toNat_succ hbelow]
    omega

/-! ## Turns of a clock -/

namespace Receiver

/-- What happens to a clock: a call of its main loop, or a restart between two of them. -/
inductive Turn where
  | call (call : Call)
  | restart

/-- The new code that is taken. -/
def Turn.code? : Turn → Option NcCode
  | call c => c.code?
  | restart => none

/-- The packet that is decoded, with the return code of `ncrs_decode`. -/
def Turn.packet? (rs : Rs.RsControl) (turn : Turn) : Option (Packet × Nat) :=
  turn.code?.bind (decodePacket rs)

section

variable (hash : Hash) (secretData : List UInt8) (rs : Rs.RsControl)

def runTurn (r : Receiver) : Turn → Receiver
  | .call call => runCall hash secretData rs r call
  | .restart => r.complete setup

def runTurns (turns : List Turn) (r : Receiver) : Receiver :=
  turns.foldl (runTurn hash secretData rs) r

/-- The counter is where the window is, in RAM and in NVRAM, and the window refuses the last packet
    if it was one of these. -/
structure Tracks (start : UInt64) (sent : List (UInt64 × Packet)) (counter : UInt64)
    (r : Receiver) : Prop where
  inv : r.Inv
  reached : counter ∈ countersFrom start sent
  has : ∃ previous, r.Has counter previous ∧
    ∀ e ∈ sent, e.2 = previous → rebuildCounter e.2 counter ≠ some e.1

end

section

variable {hash : Hash} {secretData : List UInt8} {rs : Rs.RsControl} {start counter : UInt64}
  {sent : List (UInt64 × Packet)} {r : Receiver}

variable (hash secretData rs) in
theorem inv_runCall (hinv : r.Inv) (call : Call) : (runCall hash secretData rs r call).Inv := by
  unfold runCall
  cases hclock : r.clock with
  | none => exact hinv
  | some clock =>
    have hstep : Step hash secretData rs (fun _ _ => True) r
        (r.complete (call.program hash secretData rs clock)) :=
      .call hclock call fun _ _ => trivial
    exact (hstep.cause hinv).1

theorem Tracks.stored (h : Tracks start sent counter r) : storedCounter r.nvram = counter := by
  obtain ⟨previous, ⟨clock, hclock, hcounter, -⟩, -⟩ := h.has
  exact (h.inv.ram clock hclock).symm.trans hcounter

/-- A restart loads the counter again. -/
theorem Tracks.restart (h : Tracks start sent counter r)
    (hzero : ∀ e ∈ sent, e.2 ≠ Packet.zero) :
    Tracks start sent counter (r.complete setup) ∧
      (r.complete setup).commands = r.commands := by
  obtain ⟨⟨clock, hvalue, hcounter, hprevious⟩, halong⟩ := setup_formatted h.inv.formatted
  obtain ⟨-, hcommands⟩ := halong.last
  have hstep : Step sha256 [] Rs.rs32 (fun _ _ => True) r (r.complete setup) := .boot r
  refine ⟨⟨(hstep.cause h.inv).1, h.reached, _, ⟨clock, hvalue, hcounter.trans h.stored, rfl⟩,
    fun e he hsame => ?_⟩, ?_⟩
  · exact absurd (hsame.trans hprevious) (hzero e he)
  · show r.commands ++ CpeClock.commands _ = _
    rw [hcommands, List.append_nil]

variable (hash secretData rs) in
/-- A call that takes no new code, or one that cannot be decoded. -/
theorem Tracks.undecoded (h : Tracks start sent counter r) {call : Call}
    (hcall : call.code?.bind (decodePacket rs) = none) :
    Tracks start sent counter (runCall hash secretData rs r call) ∧
      (runCall hash secretData rs r call).commands = r.commands := by
  obtain ⟨previous, hhas, hrefused⟩ := h.has
  obtain ⟨hhas', hcommands⟩ := runCall_refuses hash secretData rs hhas
    fun code packet rsRc hcode hdecode => by
      rw [hcode, Option.bind_some, hdecode] at hcall
      cases hcall
  rw [hcall] at hhas'
  have hinv := inv_runCall hash secretData rs h.inv call
  exact ⟨⟨hinv, h.reached, previous, hhas', hrefused⟩, hcommands⟩

/-- A packet that was sent has one counter, as far as these clocks can tell. -/
theorem unique_counter (hsent : Sendable hash secretData start sent)
    (hcounter : counter ∈ countersFrom start sent) {n m : UInt64} {packet : Packet}
    (hn : (n, packet) ∈ sent) (hm : (m, packet) ∈ sent)
    (hrebuilt : rebuildCounter packet counter = some m) : m = n :=
  hsent.tags counter hcounter _ hn m hrebuilt (hsent.sentWith _ hm).tag

/-- A packet that does not authenticate is remembered, and nothing else. -/
theorem Tracks.refused (hsent : Sendable hash secretData start sent)
    (h : Tracks start sent counter r) {call : Call} {code : NcCode} {packet : Packet} {rsRc : Nat}
    (hcall : call.code? = some code) (hdecode : decodePacket rs code = some (packet, rsRc))
    (hfails : hmac433Authenticate hash secretData packet counter = none) :
    Tracks start sent counter (runCall hash secretData rs r call) ∧
      (runCall hash secretData rs r call).commands = r.commands := by
  obtain ⟨previous, hhas, -⟩ := h.has
  obtain ⟨hhas', hcommands⟩ := runCall_refuses hash secretData rs hhas
    fun code' packet' rsRc' hcode hdecode' => by
      obtain rfl := Option.some.inj (hcall.symm.trans hcode)
      obtain ⟨rfl, -⟩ := Prod.mk.inj (Option.some.inj (hdecode.symm.trans hdecode'))
      exact .inr hfails
  rw [hcall, Option.bind_some, hdecode] at hhas'
  have hinv := inv_runCall hash secretData rs h.inv call
  refine ⟨⟨hinv, h.reached, packet, hhas', fun e he hsame hagain => ?_⟩, hcommands⟩
  -- A packet that was sent would have authenticated.
  subst hsame
  have haccepts := authenticate_of_rebuilt hash secretData counter hagain (hsent.sentWith e he).tag
  exact absurd (hfails.symm.trans haccepts) (by simp)

/-- **A packet that was sent is accepted if and only if the window takes it.** -/
theorem Tracks.decoded (hsent : Sendable hash secretData start sent)
    (h : Tracks start sent counter r) {n : UInt64} {packet : Packet} (hmem : (n, packet) ∈ sent)
    {call : Call} {code : NcCode} {rsRc : Nat} (hcall : call.code? = some code)
    (hdecode : decodePacket rs code = some (packet, rsRc)) :
    let r' := runCall hash secretData rs r call
    if Takes 256 counter.toNat (numbered ((n, packet), rsRc)) then
      Tracks start sent (n + 1) r' ∧ r'.commands = r.commands ++ commandsOf packet (n + 1) rsRc
    else Tracks start sent counter r' ∧ r'.commands = r.commands := by
  have hwith := hsent.sentWith _ hmem
  have htakes := hwith.rebuilt_iff_takes (hsent.reached_below h.reached) rsRc
  obtain ⟨previous, hhas, hrefused⟩ := h.has
  have hinv := inv_runCall hash secretData rs h.inv call
  dsimp only
  split
  · next htaken =>
    have hrebuilt := htakes.mpr htaken
    have hdiffers : previous ≠ packet := fun hsame => hrefused _ hmem hsame.symm hrebuilt
    obtain ⟨hhas', hcommands⟩ := runCall_accepts hhas hrebuilt hwith.tag hdiffers hcall hdecode
    have hreached : n + 1 ∈ countersFrom start sent :=
      List.mem_cons_of_mem _ (List.mem_map_of_mem hmem)
    refine ⟨⟨hinv, hreached, packet, hhas', fun e he hsame hagain => ?_⟩, hcommands⟩
    obtain rfl : e.1 = n := unique_counter hsent hreached hmem (hsame ▸ he) (hsame ▸ hagain)
    exact rebuildCounter_succ_ne _ _ hagain
  · next hnot =>
    have hwindow : rebuildCounter packet counter ≠ some n := fun h => hnot (htakes.mp h)
    have hfails : hmac433Authenticate hash secretData packet counter = none :=
      authenticate_eq_none_iff.mpr fun m hm htag => by
        obtain rfl := hsent.tags counter h.reached _ hmem m hm htag.symm
        exact hwindow hm
    exact h.refused hsent hcall hdecode hfails

/-- A turn in which nothing is decoded. -/
theorem Tracks.turn_none (hsent : Sendable hash secretData start sent)
    (h : Tracks start sent counter r) {turn : Turn} (hnone : turn.packet? rs = none) :
    Tracks start sent counter (runTurn hash secretData rs r turn) ∧
      (runTurn hash secretData rs r turn).commands = r.commands := by
  cases turn with
  | restart => exact h.restart hsent.ne_zero
  | call call => exact h.undecoded hash secretData rs hnone

/-- A turn in which a packet is decoded is a call. -/
theorem Turn.of_packet {turn : Turn} {decoded : Packet × Nat}
    (h : turn.packet? rs = some decoded) :
    ∃ call code, turn = .call call ∧ call.code? = some code ∧
      decodePacket rs code = some decoded := by
  cases turn with
  | restart => cases h
  | call call =>
    obtain ⟨code, hcode, hdecode⟩ := Option.bind_eq_some_iff.mp h
    exact ⟨call, code, rfl, hcode, hdecode⟩

theorem Tracks.run (hsent : Sendable hash secretData start sent)
    (h : Tracks start sent counter r) {turns : List Turn} {heard : List ((UInt64 × Packet) × Nat)}
    (hheard : Hears hash secretData start sent (turns.filterMap (Turn.packet? rs)) heard) :
    (∃ counter', Tracks start sent counter' (runTurns hash secretData rs turns r) ∧
        counter'.toNat = nextAfter 256 counter.toNat (heard.map numbered)) ∧
      (runTurns hash secretData rs turns r).commands
        = r.commands ++ commandsOfTaken (taken 256 counter.toNat (heard.map numbered)) := by
  induction turns generalizing r counter heard with
  | nil =>
    cases hheard
    exact ⟨⟨counter, h, rfl⟩, (List.append_nil _).symm⟩
  | cons turn turns ih =>
    cases hpacket : turn.packet? rs with
    | none =>
      rw [List.filterMap_cons_none hpacket] at hheard
      obtain ⟨htracks, hquiet⟩ := h.turn_none hsent hpacket
      obtain ⟨hnext, hcommands⟩ := ih htracks hheard
      exact ⟨hnext, hcommands.trans (by rw [hquiet])⟩
    | some decoded =>
      rw [List.filterMap_cons_some hpacket] at hheard
      obtain ⟨call, code, rfl, hcall, hdecode⟩ := Turn.of_packet hpacket
      cases hheard with
      | noise hfails hlater =>
        obtain ⟨htracks, hquiet⟩ := h.refused hsent hcall hdecode (hfails counter h.reached)
        obtain ⟨hnext, hcommands⟩ := ih htracks hlater
        exact ⟨hnext, hcommands.trans (by rw [hquiet])⟩
      | @sent e _ heard hmem hlater =>
        obtain ⟨⟨n, packet⟩, rsRc⟩ := e
        have hstep := h.decoded hsent hmem hcall hdecode
        dsimp only at hstep
        rw [List.map_cons]
        split at hstep
        · next htakes =>
          obtain ⟨⟨counter', hlast, hnext⟩, hcommands⟩ := ih hstep.1 hlater
          have hsucc := toNat_succ (hsent.below _ hmem)
          rw [hsucc] at hnext hcommands
          refine ⟨⟨counter', hlast, hnext.trans (if_pos htakes).symm⟩, ?_⟩
          rw [taken_cons_of_takes htakes, commandsOfTaken_cons]
          refine hcommands.trans ?_
          rw [hstep.2, List.append_assoc]
          have hofNat : UInt64.ofNat (n.toNat + 1) = n + 1 := by
            rw [← hsucc, UInt64.ofNat_toNat]
          show _ = r.commands ++ (commandsOf packet (UInt64.ofNat (n.toNat + 1)) rsRc ++ _)
          rw [hofNat]
          rfl
        · next hnot =>
          obtain ⟨⟨counter', hlast, hnext⟩, hcommands⟩ := ih hstep.1 hlater
          refine ⟨⟨counter', hlast, hnext.trans (if_neg hnot).symm⟩, ?_⟩
          exact hcommands.trans (by rw [taken_cons_of_not_takes hnot, hstep.2])

theorem tracks_clock {clock : Clock} (hclock : r.clock = some clock) (hinv : r.Inv)
    (hfresh : ∀ e ∈ sent, e.2 ≠ clock.previousPacket) :
    Tracks clock.hmacMessageCounter sent clock.hmacMessageCounter r :=
  ⟨hinv, List.mem_cons_self, clock.previousPacket, ⟨clock, hclock, rfl, rfl⟩,
    fun e he hsame => absurd hsame (hfresh e he)⟩

/-- **The clock is a receiver with a window.** It is handed codes of packets that were sent, in any
    order, any number of times and with noise that is corrected, and noise, which is not decoded or
    does not authenticate, and may be restarted between any two calls: it executes what the window
    takes of the packets, and its counter is where the window is. -/
theorem turns_taken {clock : Clock} (hclock : r.clock = some clock) (hinv : r.Inv)
    (hsent : Sendable hash secretData clock.hmacMessageCounter sent)
    (hfresh : ∀ e ∈ sent, e.2 ≠ clock.previousPacket) {turns : List Turn}
    {heard : List ((UInt64 × Packet) × Nat)}
    (hheard : Hears hash secretData clock.hmacMessageCounter sent
      (turns.filterMap (Turn.packet? rs)) heard) :
    let after := runTurns hash secretData rs turns r
    let start := clock.hmacMessageCounter.toNat
    after.commands = r.commands ++ commandsOfTaken (taken 256 start (heard.map numbered)) ∧
      (storedCounter after.nvram).toNat = nextAfter 256 start (heard.map numbered) := by
  obtain ⟨⟨counter', hlast, hnext⟩, hcommands⟩ :=
    (tracks_clock hclock hinv hfresh).run hsent hheard
  exact ⟨hcommands, (congrArg UInt64.toNat hlast.stored).trans hnext⟩

/-- **No request is lost** of those that reach the clock, if and only if the counter of each is past
    that of the one before, by 256 at most. -/
theorem turns_lossless_iff {clock : Clock} (hclock : r.clock = some clock) (hinv : r.Inv)
    (hsent : Sendable hash secretData clock.hmacMessageCounter sent)
    (hfresh : ∀ e ∈ sent, e.2 ≠ clock.previousPacket) {turns : List Turn}
    {heard : List ((UInt64 × Packet) × Nat)} (hheard : ∀ e ∈ heard, e.1 ∈ sent)
    (hdecoded : turns.filterMap (Turn.packet? rs) = heard.map fun e => (e.1.2, e.2))
    (hrequests : ∀ e ∈ heard, e.1.2.counterResyncFlag = 0) :
    (runTurns hash secretData rs turns r).commands
        = r.commands ++ commandsOfTaken (heard.map numbered)
      ↔ InWindow 256 clock.hmacMessageCounter.toNat (heard.map numbered) := by
  have hhears : Hears hash secretData clock.hmacMessageCounter sent
      (heard.map fun e => (e.1.2, e.2)) heard := hears_map hash secretData hheard
  obtain ⟨-, hcommands⟩ := (tracks_clock hclock hinv hfresh).run hsent (hdecoded ▸ hhears)
  have hrequest : ∀ m ∈ heard.map numbered,
      commandsOf m.content.1 (UInt64.ofNat (m.number + 1)) m.content.2 ≠ [] := by
    intro m hm
    obtain ⟨e, he, rfl⟩ := List.mem_map.mp hm
    have hflag : ¬ (numbered e).content.1.counterResyncFlag ≠ 0 := not_not.mpr (hrequests e he)
    rw [commandsOf, if_neg hflag]
    exact List.cons_ne_nil _ _
  rw [hcommands, List.append_cancel_left_eq]
  exact flatMap_taken_eq_iff hrequest _

end

/-! ## A packet that comes twice -/

def sampleEight : Receiver where
  nvram := formattedNvram 8
  clock := some clockEight
  commands := []

theorem sendable_packetEight : Sendable sha256 [] 8 [(8, packetEight)] where
  sentWith := by
    intro e he
    rw [List.mem_singleton.mp he]
    exact sentWith_encode sha256 [] Packet.zero 7
  ne_zero := by
    intro e he
    rw [List.mem_singleton.mp he]
    exact packetEight_ne_zero
  tags := by
    intro counter hcounter e he m hm htag
    rw [List.mem_singleton.mp he] at hm htag ⊢
    simp only [countersFrom, List.map_cons, List.map_nil, List.mem_cons, List.not_mem_nil,
      or_false] at hcounter
    rcases hcounter with rfl | rfl
    · have hfirst : rebuildCounter packetEight 8 = some 8 := by decide +kernel
      exact Option.some.inj (hm.symm.trans hfirst)
    · have hsecond : rebuildCounter packetEight (8 + 1) = some 264 := by decide +kernel
      obtain rfl := Option.some.inj (hm.symm.trans hsecond)
      exact absurd htag.symm packetEight_wrong
  start_below := by decide
  below := by
    intro e he
    rw [List.mem_singleton.mp he]
    decide

/-- A packet with counter 8 comes, the clock is restarted, and the packet comes again. -/
def turnsTwice (rs : Rs.RsControl) (packet : Packet) : List Turn :=
  [.call (.mailReceiveMessages (mailboxOf rs 0 packet)), .restart,
    .call (.mailReceiveMessages (mailboxOf rs 0 packet))]

def heardTwice (packet : Packet) : List ((UInt64 × Packet) × Nat) :=
  [((8, packet), 1), ((8, packet), 1)]

theorem packet_mailboxOf {rs : Rs.RsControl} (hrs : Ncrs.ncrsInit = some rs) {packet : Packet}
    (hflag : packet.counterResyncFlag &&& 0x7f = 0) :
    (Turn.call (.mailReceiveMessages (mailboxOf rs 0 packet))).packet? rs = some (packet, 1) := by
  have hcode : (Turn.call (.mailReceiveMessages (mailboxOf rs 0 packet))).code?
      = some (Ncrs.ncrsEncode rs packet.toBytes) := rfl
  rw [Turn.packet?, hcode, Option.bind_some]
  exact decodePacket_encoded hrs hflag

theorem packets_turnsTwice {rs : Rs.RsControl} (hrs : Ncrs.ncrsInit = some rs) {packet : Packet}
    (hflag : packet.counterResyncFlag &&& 0x7f = 0) :
    (turnsTwice rs packet).filterMap (Turn.packet? rs)
      = (heardTwice packet).map fun e => (e.1.2, e.2) := by
  have hpacket := packet_mailboxOf hrs hflag
  rw [turnsTwice, List.filterMap_cons_some hpacket, List.filterMap_cons_none rfl,
    List.filterMap_cons_some hpacket]
  rfl

theorem taken_heardTwice (packet : Packet) :
    taken 256 8 ((heardTwice packet).map numbered) = [numbered ((8, packet), 1)] := by
  have htakes : Takes 256 8 (numbered ((8, packet), 1)) :=
    ⟨Nat.le_refl 8, .inr (show 8 < 8 + 256 by decide)⟩
  rw [heardTwice, List.map_cons, taken_cons_of_takes htakes, List.map_cons,
    taken_cons_of_not_takes (not_takes_self _)]
  rfl

theorem sampleEight_inv : sampleEight.Inv := by
  obtain ⟨hformatted, hstored⟩ := formattedNvram_formatted 8
  refine ⟨hformatted, fun clock hclock => ?_⟩
  obtain rfl := Option.some.inj hclock
  exact hstored.symm

theorem packetEight_fresh :
    ∀ e ∈ [((8 : UInt64), packetEight)], e.2 ≠ clockEight.previousPacket := by
  intro e he
  rw [List.mem_singleton.mp he]
  exact packetEight_ne_zero

theorem heardTwice_sent (packet : Packet) :
    ∀ e ∈ heardTwice packet, e.1 ∈ [((8 : UInt64), packet)] := by
  intro e he
  have hsame : e = ((8, packet), 1) := by
    simpa only [heardTwice, List.mem_cons, List.not_mem_nil, or_false, or_self] using he
  rw [hsame]
  exact List.mem_singleton.mpr rfl

/-- Noise that is decoded to a packet with another payload. -/
def packetNoise : Packet := { packetEight with payload := Vector.replicate 6 77 }

def turnNoise : Turn := .call (.mailReceiveMessages (mailboxOf Rs.rs32 0 packetNoise))

/-- Noise, then a packet that comes before a restart and after it, and noise again. -/
theorem turns_taken_sample :
    (runTurns sha256 [] Rs.rs32 (turnNoise :: turnsTwice Rs.rs32 packetEight ++ [turnNoise])
      sampleEight).commands = commandsOf packetEight 9 1 := by
  have hflag : packetNoise.counterResyncFlag &&& 0x7f = 0 := packetEight_flag
  have hnoise : turnNoise.packet? Rs.rs32 = some (packetNoise, 1) :=
    packet_mailboxOf Ncrs.ncrsInit_eq hflag
  have hfails : ∀ counter ∈ countersFrom 8 [(8, packetEight)],
      hmac433Authenticate sha256 [] packetNoise counter = none := by
    intro counter hcounter
    simp only [countersFrom, List.map_cons, List.map_nil, List.mem_cons, List.not_mem_nil,
      or_false] at hcounter
    rcases hcounter with rfl | rfl <;> decide +kernel
  have hmem : ((8 : UInt64), packetEight) ∈ [((8 : UInt64), packetEight)] := List.mem_cons_self
  have hheard : Hears sha256 [] 8 [(8, packetEight)]
      ((turnNoise :: turnsTwice Rs.rs32 packetEight ++ [turnNoise]).filterMap
        (Turn.packet? Rs.rs32)) (heardTwice packetEight) := by
    rw [List.cons_append, List.filterMap_cons_some hnoise, List.filterMap_append,
      packets_turnsTwice Ncrs.ncrsInit_eq packetEight_flag, List.filterMap_cons_some hnoise]
    exact .noise hfails (.sent (e := ((8, packetEight), 1)) hmem
      (.sent (e := ((8, packetEight), 1)) hmem (.noise hfails .nil)))
  obtain ⟨hcommands, -⟩ := turns_taken (r := sampleEight) rfl sampleEight_inv sendable_packetEight
    packetEight_fresh hheard
  have hstart : clockEight.hmacMessageCounter.toNat = 8 := rfl
  rw [hcommands, hstart, taken_heardTwice, commandsOfTaken_cons]
  exact List.append_nil _

theorem turns_lossless_iff_sample :
    (runTurns sha256 [] Rs.rs32 (turnsTwice Rs.rs32 packetEight) sampleEight).commands
      ≠ commandsOfTaken ((heardTwice packetEight).map numbered) := by
  have hrequests : ∀ e ∈ heardTwice packetEight, e.1.2.counterResyncFlag = 0 := by
    intro e he
    rw [List.mem_singleton.mp (heardTwice_sent packetEight e he), packetEight, encode_flag]
    rfl
  intro hall
  obtain ⟨-, hagain, -⟩ := (turns_lossless_iff (r := sampleEight) rfl sampleEight_inv
    sendable_packetEight packetEight_fresh (heardTwice_sent packetEight)
    (packets_turnsTwice Ncrs.ncrsInit_eq packetEight_flag) hrequests).mp hall
  exact not_takes_self _ hagain

end Receiver
end CpeClock
