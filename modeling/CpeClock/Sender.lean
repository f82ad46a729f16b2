import CpeClock.Receiver

/-!
# The sender, and the ideal MAC

The sender is its counter and what it has sent: each packet with the counter it was tagged for. The
channel is not a state of its own: whatever was sent may arrive any number of times, in any order or
never, altered, or mixed with packets nobody sent. All that is asked of the tags is `MacHolds`:
where the comparison in `hmac433_authenticate` succeeds, the counter and the payload are those of a
packet that was sent. A packet that was tagged but never left the sender is not among these.
-/

namespace CpeClock

open Hmac433 Mail

/-- A sender, with the packets it has sent and their counters. -/
structure Sender where
  counter : UInt64
  sent : List (UInt64 × Packet)

namespace Sender

/-- One call of `hmac433_encode` or `libnc_advance`, with the counter staying below `2 ^ 64 - 1`. -/
inductive Step (hash : Hash) (secretData : List UInt8) : Sender → Sender → Prop
  | encode (s : Sender) (packet : Packet)
      (hnowrap : s.counter < advanceCounter packet.counterResyncFlag s.counter)
      (hbelow : (advanceCounter packet.counterResyncFlag s.counter).toNat < 2 ^ 64 - 1) :
      Step hash secretData s
        { counter := (hmac433Encode hash secretData packet s.counter).2
          sent := s.sent ++ [((hmac433Encode hash secretData packet s.counter).2,
            (hmac433Encode hash secretData packet s.counter).1)] }
  | advance (s : Sender) (hnowrap : s.counter < s.counter + 0x10000)
      (hbelow : (s.counter + 0x10000).toNat < 2 ^ 64 - 1) :
      Step hash secretData s { s with counter := s.counter + 0x10000 }

/-- What a sent packet is like: a special packet's payload is its counter. -/
def Genuine (n : UInt64) (p : Packet) : Prop :=
  n.toNat < 2 ^ 64 - 1 ∧
    (p.counterResyncFlag ≠ 0 → p.payload = resyncPayload n ∧ n.toNat % 256 = 0)

theorem genuine_encode (hash : Hash) (secretData : List UInt8) (packet : Packet) (c : UInt64)
    (hbelow : (advanceCounter packet.counterResyncFlag c).toNat < 2 ^ 64 - 1) :
    Genuine (hmac433Encode hash secretData packet c).2
      (hmac433Encode hash secretData packet c).1 := by
  refine ⟨hbelow, fun hflag => ?_⟩
  rw [encode_flag] at hflag
  obtain ⟨hpayload, -, hmod⟩ := encode_resync hash secretData packet c hflag
  exact ⟨hpayload, hmod⟩

/-- A counter and a payload that were sent together. -/
def Tagged (sent : List (UInt64 × Packet)) (n : UInt64) (payload : Payload) : Prop :=
  ∃ p, (n, p) ∈ sent ∧ p.payload = payload

theorem Step.genuine {hash : Hash} {secretData : List UInt8} {s s' : Sender}
    (hs : ∀ e ∈ s.sent, Genuine e.1 e.2) (h : Step hash secretData s s') :
    ∀ e ∈ s'.sent, Genuine e.1 e.2 := by
  cases h with
  | encode packet hnowrap hbelow =>
    intro e he
    rcases List.mem_append.mp he with he | he
    · exact hs e he
    · rw [List.mem_singleton.mp he]
      exact genuine_encode hash secretData packet s.counter hbelow
  | advance hnowrap hbelow => exact hs

end Sender

/-- The truncated HMAC is ideal at one comparison: if the tag of `packet` is right for the counter
    that is rebuilt from it, the counter and the payload were sent together. -/
def MacHolds (hash : Hash) (secretData : List UInt8) (sent : List (UInt64 × Packet))
    (counter : UInt64) (packet : Packet) : Prop :=
  ∀ n, rebuildCounter packet counter = some n →
    packetHmac hash secretData n packet.payload = packet.hmac → Sender.Tagged sent n packet.payload

/-- A packet that is accepted was sent, with the same counter and payload. -/
theorem MacHolds.tagged {hash : Hash} {secretData : List UInt8} {sent : List (UInt64 × Packet)}
    {counter counter' : UInt64} {packet : Packet}
    (hmac : MacHolds hash secretData sent counter packet)
    (h : hmac433Authenticate hash secretData packet counter = some counter') :
    ∃ n, rebuildCounter packet counter = some n ∧ counter' = n + 1 ∧
      Sender.Tagged sent n packet.payload := by
  obtain ⟨n, hn, htag, hcounter⟩ := authenticate_eq_some hash secretData counter h
  exact ⟨n, hn, hcounter, hmac n hn htag⟩

/-- What the channel may deliver to a clock: any mailbox, as long as the MAC is ideal where a packet
    from it is compared. -/
def Ideal (hash : Hash) (secretData : List UInt8) (rs : Rs.RsControl)
    (sent : List (UInt64 × Packet)) (clock : Clock) (mailbox : Mailbox) : Prop :=
  ∀ packet rsRc, mailbox.newCodeReady → decodePacket rs mailbox.newCode = some (packet, rsRc) →
    MacHolds hash secretData sent clock.hmacMessageCounter packet

/-- A packet that a clock accepts is not a rebroadcast, and was sent. -/
theorem Ideal.tagged {hash : Hash} {secretData : List UInt8} {rs : Rs.RsControl}
    {sent : List (UInt64 × Packet)} {clock : Clock} {mailbox : Mailbox}
    (hideal : Ideal hash secretData rs sent clock mailbox) {packet : Packet} {counter : UInt64}
    {rsRc : Nat}
    (h : accepted hash secretData rs clock mailbox = some (packet, counter, rsRc)) :
    ∃ n, rebuildCounter packet clock.hmacMessageCounter = some n ∧ counter = n + 1 ∧
      packetHmac hash secretData n packet.payload = packet.hmac ∧
      Sender.Tagged sent n packet.payload ∧ mailbox.newCodeReady ∧
      decodePacket rs mailbox.newCode = some (packet, rsRc) ∧ clock.previousPacket ≠ packet := by
  obtain ⟨hready, hdecode, hsame, hauth⟩ := (accepted_eq_some hash secretData rs).mp h
  obtain ⟨n, hn, htag, hcounter⟩ := authenticate_eq_some hash secretData _ hauth
  exact ⟨n, hn, hcounter, htag, hideal packet rsRc hready hdecode n hn htag, hready, hdecode, hsame⟩

end CpeClock
