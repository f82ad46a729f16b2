import CpeClock.Sender

/-!
# What a received packet proves about the one that was sent

The HMAC covers the counter and the payload, not `counter_resync_flag`. A packet whose flag was
changed on the way is still tied to its counter, because the other branch must rebuild the same
counter; that leaves the packets whose payload is the counter itself, and only those
(`authenticate_integrity`). For these the flag can be changed (`resync_taken_as_command`).

Which of the sender's packets are accepted at all depends on how far apart the two counters are
(`authenticate_window`).
-/

namespace CpeClock

open Hmac433 Sender Relation

/-- Sent packets are genuine, in every run of a sender. -/
theorem Sender.run_genuine {hash : Hash} {secretData : List UInt8} {s₀ s : Sender}
    (hrun : ReflTransGen (Step hash secretData) s₀ s) (hstart : s₀.sent = []) :
    ∀ e ∈ s.sent, Genuine e.1 e.2 := by
  induction hrun with
  | refl =>
    rw [hstart]
    exact fun e he => absurd he List.not_mem_nil
  | tail _ hstep ih => exact hstep.genuine ih

/-- **Packet integrity.** A packet that is accepted was sent with the same counter and the same
    payload, and with the same flag unless the counter is a multiple of 256 and the payload is the
    counter's upper 48 bits. -/
theorem authenticate_integrity {hash : Hash} {secretData : List UInt8} {s₀ s : Sender}
    (hrun : ReflTransGen (Step hash secretData) s₀ s) (hstart : s₀.sent = [])
    {counter counter' : UInt64} {packet : Packet}
    (hmac : MacHolds hash secretData s.sent counter packet)
    (haccept : hmac433Authenticate hash secretData packet counter = some counter') :
    ∃ n p, (n, p) ∈ s.sent ∧ counter' = n + 1 ∧ p.payload = packet.payload ∧
      ((p.counterResyncFlag = 0 ↔ packet.counterResyncFlag = 0) ∨
        (n.toNat % 256 = 0 ∧ packet.payload = resyncPayload n)) := by
  obtain ⟨n, hn, hcounter, p, hsent, hpayload⟩ := hmac.tagged haccept
  have hgenuine := Sender.run_genuine hrun hstart (n, p) hsent
  refine ⟨n, p, hsent, hcounter, hpayload, ?_⟩
  by_cases hflag : packet.counterResyncFlag = 0
  · by_cases hpflag : p.counterResyncFlag = 0
    · exact .inl ⟨fun _ => hflag, fun _ => hpflag⟩
    · obtain ⟨hp, hmod⟩ := hgenuine.2 hpflag
      exact .inr ⟨hmod, hpayload ▸ hp⟩
  · -- A special packet is rebuilt from its payload, so the payload is the counter's.
    unfold rebuildCounter at hn
    rw [if_neg hflag] at hn
    dsimp only at hn
    split at hn
    · exact absurd hn (by simp)
    · obtain rfl := Option.some.inj hn
      exact .inr ⟨resyncCounter_mod _ _, (resyncPayload_resyncCounter _ _).symm⟩

def sampleSecret : List UInt8 := (List.range 56).map fun i => (7 * i + 3).toUInt8

def sampleResync : Packet × UInt64 :=
  hmac433Encode sha256 sampleSecret { Packet.zero with counterResyncFlag := 0x80 } 0

/-- The same packet with its flag and `counter_low` cleared on the way. -/
def sampleFlipped : Packet := { sampleResync.1 with counterResyncFlag := 0, counterLow := 0 }

theorem sampleResync_run : ReflTransGen (Step sha256 sampleSecret) ⟨0, []⟩
    ⟨sampleResync.2, [(sampleResync.2, sampleResync.1)]⟩ :=
  .single (Step.encode ⟨0, []⟩ { Packet.zero with counterResyncFlag := 0x80 }
    (by decide) (by decide))

theorem sampleFlipped_rebuilt : rebuildCounter sampleFlipped 100 = some sampleResync.2 := by
  decide +kernel

theorem sampleFlipped_macHolds :
    MacHolds sha256 sampleSecret [(sampleResync.2, sampleResync.1)] 100 sampleFlipped := by
  intro n hn _
  obtain rfl : sampleResync.2 = n := Option.some.inj (sampleFlipped_rebuilt.symm.trans hn)
  exact ⟨sampleResync.1, List.mem_singleton.mpr rfl, rfl⟩

theorem sampleFlipped_accepted :
    hmac433Authenticate sha256 sampleSecret sampleFlipped 100 = some (sampleResync.2 + 1) :=
  authenticate_of_rebuilt sha256 sampleSecret 100 sampleFlipped_rebuilt rfl

/-- A special packet can be made into an ordinary one: the flag is not as it was sent. -/
theorem resync_taken_as_command :
    ¬ ∀ (s₀ s : Sender) (counter counter' : UInt64) (packet : Packet),
      ReflTransGen (Step sha256 sampleSecret) s₀ s → s₀.sent = [] →
      MacHolds sha256 sampleSecret s.sent counter packet →
      hmac433Authenticate sha256 sampleSecret packet counter = some counter' →
      ∃ n p, (n, p) ∈ s.sent ∧ counter' = n + 1 ∧ p.payload = packet.payload ∧
        (p.counterResyncFlag = 0 ↔ packet.counterResyncFlag = 0) := by
  intro h
  obtain ⟨n, p, hsent, -, -, hflag⟩ := h _ _ 100 _ sampleFlipped sampleResync_run rfl
    sampleFlipped_macHolds sampleFlipped_accepted
  obtain ⟨rfl, rfl⟩ := Prod.mk.injEq .. ▸ List.mem_singleton.mp hsent
  exact absurd (hflag.mpr rfl) (by decide +kernel)

theorem authenticate_integrity_sample :
    ∃ n p, (n, p) ∈ [(sampleResync.2, sampleResync.1)] ∧ sampleResync.2 + 1 = n + 1 ∧
      p.payload = sampleFlipped.payload ∧
      ((p.counterResyncFlag = 0 ↔ sampleFlipped.counterResyncFlag = 0) ∨
        (n.toNat % 256 = 0 ∧ sampleFlipped.payload = resyncPayload n)) :=
  authenticate_integrity sampleResync_run rfl sampleFlipped_macHolds sampleFlipped_accepted

/-! ## Which packets are accepted -/

/-- `*counter` after a call of `hmac433_authenticate`. -/
def counterAfter (hash : Hash) (secretData : List UInt8) (packet : Packet) (counter : UInt64) :
    UInt64 :=
  (hmac433Authenticate hash secretData packet counter).getD counter

/-- **The acceptance window.** Where the MAC is ideal, an ordinary packet is accepted from the
    receivers at most 255 behind its counter `n`, modulo `2 ^ 64`, and a special packet, whose
    counter is the next multiple of 256, from those not ahead of it. Their counter becomes `n + 1`;
    that of the others is left as it was. -/
theorem authenticate_window (hash : Hash) (secretData : List UInt8) (p : Packet) (c r : UInt64)
    (hmac : MacHolds hash secretData
      [((hmac433Encode hash secretData p c).2, (hmac433Encode hash secretData p c).1)] r
      (hmac433Encode hash secretData p c).1) :
    let packet := (hmac433Encode hash secretData p c).1
    let n := (hmac433Encode hash secretData p c).2
    let window := if packet.counterResyncFlag = 0 then (n - r).toNat ≤ 255 else r ≤ n
    ((hmac433Authenticate hash secretData packet r).isSome = true ↔ window) ∧
      (window → counterAfter hash secretData packet r = n + 1) ∧
      (¬ window → counterAfter hash secretData packet r = r) ∧
      n.toNat = (if packet.counterResyncFlag = 0 then c.toNat + 1
        else (c.toNat / 256 + 1) * 256) % 2 ^ 64 := by
  dsimp only
  rw [encode_flag, encode_counter]
  have hrebuilt := rebuildCounter_encoded hash secretData p c r
  unfold counterAfter
  by_cases hwindow : if p.counterResyncFlag = 0 then
      (advanceCounter p.counterResyncFlag c - r).toNat ≤ 255
    else r ≤ advanceCounter p.counterResyncFlag c
  · rw [authenticate_encoded hash secretData p c r hwindow]
    exact ⟨⟨fun _ => hwindow, fun _ => rfl⟩, fun _ => rfl, fun h => absurd hwindow h,
      advanceCounter_mod p.counterResyncFlag c⟩
  · -- Another counter is rebuilt, and the tag is not that of any other.
    have hnone : hmac433Authenticate hash secretData (hmac433Encode hash secretData p c).1 r
        = none := by
      by_contra haccepted
      obtain ⟨r', hr'⟩ := Option.ne_none_iff_exists'.mp haccepted
      obtain ⟨m, hm, -, q, hq, -⟩ := hmac.tagged hr'
      obtain ⟨rfl, -⟩ := Prod.mk.injEq .. ▸ List.mem_singleton.mp hq
      exact hwindow (hrebuilt.mp hm)
    rw [hnone]
    exact ⟨⟨fun h => absurd h (by decide), fun h => absurd h hwindow⟩, fun h => absurd h hwindow,
      fun _ => rfl, advanceCounter_mod p.counterResyncFlag c⟩

/-- The packet with counter 300 is accepted by a receiver 255 behind, and not by one 256 behind. -/
theorem authenticate_window_sample :
    counterAfter sha256 sampleSecret (hmac433Encode sha256 sampleSecret Packet.zero 299).1 45
        = 301 ∧
      counterAfter sha256 sampleSecret (hmac433Encode sha256 sampleSecret Packet.zero 299).1 44
        = 44 := by
  have hnear : MacHolds sha256 sampleSecret [((300 : UInt64),
      (hmac433Encode sha256 sampleSecret Packet.zero 299).1)] 45
      (hmac433Encode sha256 sampleSecret Packet.zero 299).1 := by
    intro m hm _
    have hrebuilt : rebuildCounter (hmac433Encode sha256 sampleSecret Packet.zero 299).1 45
        = some 300 := by decide +kernel
    obtain rfl : 300 = m := Option.some.inj (hrebuilt.symm.trans hm)
    exact ⟨_, List.mem_singleton.mpr rfl, rfl⟩
  have hfar : MacHolds sha256 sampleSecret [((300 : UInt64),
      (hmac433Encode sha256 sampleSecret Packet.zero 299).1)] 44
      (hmac433Encode sha256 sampleSecret Packet.zero 299).1 := by
    intro m hm htag
    have hrebuilt : rebuildCounter (hmac433Encode sha256 sampleSecret Packet.zero 299).1 44
        = some 44 := by decide +kernel
    obtain rfl : 44 = m := Option.some.inj (hrebuilt.symm.trans hm)
    exact absurd htag (by decide +kernel)
  exact ⟨(authenticate_window sha256 sampleSecret Packet.zero 299 45 hnear).2.1 (by decide +kernel),
    (authenticate_window sha256 sampleSecret Packet.zero 299 44 hfar).2.2.1 (by decide +kernel)⟩

end CpeClock
