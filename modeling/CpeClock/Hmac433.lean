import CpeClock.Hmac
import Mathlib.Data.Nat.Bitwise
import Mathlib.Tactic.IntervalCases

/-!
# `hmac433.c` — packets, and what a packet says about the counter

The 64-bit counter itself is not sent. An ordinary packet carries its low byte, and the receiver
takes the first value from its own counter on with that low byte; a resynchronisation packet
carries the upper 56 bits in place of a payload. Both reconstructions are then put to the test of
the HMAC, which covers the counter and the payload.

`rebuildCounter` is the part of `hmac433_authenticate` before the HMAC. What later modules use of
the two functions are the facts here: which counter is rebuilt from which packet, in ordinary
numbers (`ordinaryCounter_toNat`, `resyncCounter_toNat`), and that rebuilding undoes encoding
(`ordinaryCounter_eq_iff`, `resyncCounter_encoded`).
-/

namespace CpeClock

/-- `PACKET_PAYLOAD_SIZE` bytes. -/
abbrev Payload := Vector UInt8 6

/-- `hmac433_packet_t`. -/
@[ext]
structure Packet where
  payload : Payload
  counterLow : UInt8
  hmac : Vector UInt8 6
  counterResyncFlag : UInt8
  deriving DecidableEq

namespace Hmac433

/-! ## The source -/

/-- The secret after `secret_size` is limited to `HMAC_BLOCK_SIZE - 8`. -/
def clampSecret (secretData : List UInt8) : List UInt8 := secretData.take (hmacBlockSize - 8)

def packetHmac (hash : Hash) (secretData : List UInt8) (counter : UInt64) (payload : Payload) :
    Vector UInt8 6 :=
  let digest := hmacSha256 hash (clampSecret secretData) counter payload.toList
  Vector.ofFn fun i => digest[i]

/-- "Ordinary packet: update counter based on counter_low only". -/
def ordinaryCounter (counter : UInt64) (counterLow : UInt8) : UInt64 :=
  let newCounter := (counter &&& ~~~0xff) ||| counterLow.toUInt64
  if newCounter < counter then newCounter + 0x100 else newCounter

def orShift (newCounter : UInt64) (b : UInt8) : UInt64 := (newCounter ||| b.toUInt64) <<< 8

/-- "payload stores counter bits 63..16 in big endian form", "counter_low stores bits 15..8". -/
def resyncCounter (payload : Payload) (counterLow : UInt8) : UInt64 :=
  orShift (payload.toList.foldl orShift 0) counterLow

/-- The counter a packet stands for. "This is not valid - the counter must always advance" is
    `none`; only the special packet is checked so. -/
def rebuildCounter (packet : Packet) (counter : UInt64) : Option UInt64 :=
  if packet.counterResyncFlag = 0 then
    some (ordinaryCounter counter packet.counterLow)
  else
    let newCounter := resyncCounter packet.payload packet.counterLow
    if newCounter < counter then none else some newCounter

/-- `hmac433_authenticate`: the receiver's counter afterwards, or `none` for a return value of
    zero, which leaves it as it was. -/
def hmac433Authenticate (hash : Hash) (secretData : List UInt8) (packet : Packet)
    (counter : UInt64) : Option UInt64 :=
  match rebuildCounter packet counter with
  | none => none
  | some newCounter =>
    if packetHmac hash secretData newCounter packet.payload ≠ packet.hmac then
      none -- message fails the check
    else
      some (newCounter + 1)

/-- "payload stores counter bits 63..16 in big endian form": after `i` rounds `tmp` is the
    counter shifted up by `8 * i`. -/
def resyncPayload (counter : UInt64) : Payload :=
  Vector.ofFn fun i => ((counter <<< (8 * i.val).toUInt64) >>> 56).toUInt8

/-- "counter_low stores bits 15..8". -/
def resyncLow (counter : UInt64) : UInt8 := ((counter <<< 48) >>> 56).toUInt8

/-- The sender's counter after it is moved on for a packet. -/
def advanceCounter (counterResyncFlag : UInt8) (counter : UInt64) : UInt64 :=
  if counterResyncFlag = 0 then
    counter + 1
  else
    -- Counter advanced to the next number divisible by 256
    (counter + 0x100) &&& ~~~0xff

/-- `hmac433_encode`: the packet filled in, and the sender's counter afterwards. -/
def hmac433Encode (hash : Hash) (secretData : List UInt8) (packet : Packet) (counter : UInt64) :
    Packet × UInt64 :=
  let counter := advanceCounter packet.counterResyncFlag counter
  let packet :=
    if packet.counterResyncFlag = 0 then
      { packet with counterLow := counter.toUInt8 }
    else
      { packet with payload := resyncPayload counter, counterLow := resyncLow counter }
  ({ packet with hmac := packetHmac hash secretData counter packet.payload }, counter)

/-! ## Masks and bytes, in ordinary numbers -/

theorem and_clear_low {n : Nat} (h : n < 2 ^ 64) : n &&& (2 ^ 64 - 2 ^ 8) = n / 256 * 256 := by
  apply Nat.eq_of_testBit_eq
  intro i
  rw [show (2 ^ 64 - 2 ^ 8 : Nat) = (2 ^ 56 - 1) <<< 8 by decide,
    show n / 256 * 256 = (n >>> 8) <<< 8 by rw [Nat.shiftRight_eq_div_pow, Nat.shiftLeft_eq],
    Nat.testBit_and, Nat.testBit_shiftLeft, Nat.testBit_shiftLeft, Nat.testBit_two_pow_sub_one,
    Nat.testBit_shiftRight]
  by_cases h8 : 8 ≤ i
  · by_cases h56 : i - 8 < 56
    · simp [h8, h56]
    · have hbit : n.testBit i = false :=
        Nat.testBit_lt_two_pow (lt_of_lt_of_le h (Nat.pow_le_pow_right (by decide) (by omega)))
      simp [h8, h56, hbit]
  · simp [h8]

theorem clearLow_toNat (c : UInt64) : (c &&& ~~~0xff).toNat = c.toNat / 256 * 256 := by
  have hmask : (~~~(0xff : UInt64)).toNat = 2 ^ 64 - 2 ^ 8 := by decide
  rw [UInt64.toNat_and, hmask, and_clear_low c.toNat_lt]

theorem or_byte {a : Nat} (l : UInt8) (ha : a % 256 = 0) : a ||| l.toNat = a + l.toNat := by
  have hor := Nat.shiftLeft_add_eq_or_of_lt (i := 8) (b := l.toNat) l.toNat_lt (a / 256)
  rw [Nat.shiftLeft_eq, Nat.div_mul_cancel (Nat.dvd_of_mod_eq_zero ha)] at hor
  exact hor.symm

theorem shiftLeft_eight_toNat (c : UInt64) : (c <<< 8).toNat = c.toNat * 256 % 2 ^ 64 := by
  rw [UInt64.toNat_shiftLeft, show (8 : UInt64).toNat % 64 = 8 from rfl, Nat.shiftLeft_eq]

theorem toList_payload (p : Payload) : p.toList = [p[0], p[1], p[2], p[3], p[4], p[5]] := by
  apply List.ext_getElem
  · simp
  · intro i h1 h2
    have hi : i < 6 := by simpa using h1
    interval_cases i <;> simp

/-! ## Rebuilding -/

theorem ordinaryCounter_toNat (counter : UInt64) (counterLow : UInt8) :
    (ordinaryCounter counter counterLow).toNat
      = if counter.toNat / 256 * 256 + counterLow.toNat < counter.toNat then
          (counter.toNat / 256 * 256 + counterLow.toNat + 256) % 2 ^ 64
        else counter.toNat / 256 * 256 + counterLow.toNat := by
  have hbase : ((counter &&& ~~~0xff) ||| counterLow.toUInt64).toNat
      = counter.toNat / 256 * 256 + counterLow.toNat := by
    rw [UInt64.toNat_or, clearLow_toNat, UInt8.toNat_toUInt64,
      or_byte counterLow (Nat.mul_mod_left ..)]
  unfold ordinaryCounter
  dsimp only
  by_cases hlt : (counter &&& ~~~0xff) ||| counterLow.toUInt64 < counter
  · have hlt' := UInt64.lt_iff_toNat_lt.mp hlt
    rw [hbase] at hlt'
    rw [if_pos hlt, if_pos hlt', UInt64.toNat_add, hbase]
    rfl
  · have hlt' := fun h => hlt (UInt64.lt_iff_toNat_lt.mpr h)
    rw [hbase] at hlt'
    rw [if_neg hlt, if_neg hlt', hbase]

/-- **An ordinary packet's counter is rebuilt** exactly when it is at most 255 ahead, modulo
    `2 ^ 64`. -/
theorem ordinaryCounter_eq_iff (r n : UInt64) :
    ordinaryCounter r n.toUInt8 = n ↔ (n - r).toNat ≤ 255 := by
  have hr := r.toNat_lt
  have hn := n.toNat_lt
  rw [← UInt64.toNat_inj, ordinaryCounter_toNat, UInt64.toNat_toUInt8, UInt64.toNat_sub]
  split <;> omega

/-- When nothing wraps, an ordinary packet never stands for an earlier counter. -/
theorem le_ordinaryCounter {r : UInt64} {low : UInt8}
    (h : r.toNat < 2 ^ 64 - 256 ∨ r.toNat % 256 ≤ low.toNat) :
    r.toNat ≤ (ordinaryCounter r low).toNat := by
  have hr := r.toNat_lt
  have hlow := low.toNat_lt
  rw [ordinaryCounter_toNat]
  split <;> omega

/-- Where it wraps, it stands for its low byte alone. -/
theorem ordinaryCounter_wraps {r : UInt64} {low : UInt8}
    (hr : 2 ^ 64 - 256 ≤ r.toNat) (hlow : low.toNat < r.toNat % 256) :
    (ordinaryCounter r low).toNat = low.toNat := by
  have hr' := r.toNat_lt
  rw [ordinaryCounter_toNat]
  split <;> omega

/-- A byte string as a number, most significant byte first. -/
def bigEndian (bs : List UInt8) : Nat := bs.foldl (fun n b => n * 256 + b.toNat) 0

theorem bigEndian_payload (p : Payload) :
    bigEndian p.toList
      = ((((p[0].toNat * 256 + p[1].toNat) * 256 + p[2].toNat) * 256 + p[3].toNat) * 256
          + p[4].toNat) * 256 + p[5].toNat := by
  rw [toList_payload]
  simp only [bigEndian, List.foldl_cons, List.foldl_nil]
  rw [Nat.zero_mul, Nat.zero_add]

theorem bigEndian_payload_lt (p : Payload) : bigEndian p.toList < 2 ^ 48 := by
  have h0 := p[0].toNat_lt
  have h1 := p[1].toNat_lt
  have h2 := p[2].toNat_lt
  have h3 := p[3].toNat_lt
  have h4 := p[4].toNat_lt
  have h5 := p[5].toNat_lt
  rw [bigEndian_payload]
  omega

theorem orShift_toNat {acc : UInt64} {n : Nat} (b : UInt8) (h : acc.toNat = n * 256 % 2 ^ 64) :
    (orShift acc b).toNat = (n * 256 + b.toNat) * 256 % 2 ^ 64 := by
  rw [orShift, shiftLeft_eight_toNat, UInt64.toNat_or, UInt8.toNat_toUInt64, or_byte b (by omega),
    h]
  omega

theorem foldl_orShift (bs : List UInt8) {acc : UInt64} {n : Nat}
    (h : acc.toNat = n * 256 % 2 ^ 64) :
    (bs.foldl orShift acc).toNat
      = bs.foldl (fun n b => n * 256 + b.toNat) n * 256 % 2 ^ 64 := by
  induction bs generalizing acc n with
  | nil => exact h
  | cons b bs ih => exact ih (orShift_toNat b h)

/-- A special packet stands for its payload and `counter_low`, with a zero byte below. -/
theorem resyncCounter_toNat (payload : Payload) (counterLow : UInt8) :
    (resyncCounter payload counterLow).toNat
      = (bigEndian payload.toList * 256 + counterLow.toNat) * 256 := by
  have hupper : (payload.toList.foldl orShift 0).toNat
      = bigEndian payload.toList * 256 % 2 ^ 64 :=
    foldl_orShift payload.toList (by decide)
  have hlt := bigEndian_payload_lt payload
  have hlow := counterLow.toNat_lt
  rw [resyncCounter, orShift_toNat counterLow hupper]
  exact Nat.mod_eq_of_lt (by omega)

theorem resyncCounter_mod (payload : Payload) (counterLow : UInt8) :
    (resyncCounter payload counterLow).toNat % 256 = 0 := by
  rw [resyncCounter_toNat]
  exact Nat.mul_mod_left ..

theorem resyncPayload_getElem (n : UInt64) {i : Nat} (hi : i < 6) :
    (resyncPayload n)[i].toNat = n.toNat / 2 ^ (56 - 8 * i) % 256 := by
  have hn := n.toNat_lt
  have hshift : (8 * i).toUInt64.toNat % 64 = 8 * i := by
    rw [Nat.toUInt64, UInt64.toNat_ofNat']
    omega
  simp only [resyncPayload, Vector.getElem_ofFn, UInt64.toNat_toUInt8, UInt64.toNat_shiftRight,
    UInt64.toNat_shiftLeft, hshift]
  rw [show (56 : UInt64).toNat % 64 = 56 from rfl, Nat.shiftRight_eq_div_pow, Nat.shiftLeft_eq]
  interval_cases i <;> omega

theorem resyncLow_toNat (n : UInt64) : (resyncLow n).toNat = n.toNat / 2 ^ 8 % 256 := by
  have hn := n.toNat_lt
  simp only [resyncLow, UInt64.toNat_toUInt8, UInt64.toNat_shiftRight, UInt64.toNat_shiftLeft]
  rw [show (56 : UInt64).toNat % 64 = 56 from rfl, show (48 : UInt64).toNat % 64 = 48 from rfl,
    Nat.shiftRight_eq_div_pow, Nat.shiftLeft_eq]
  omega

theorem div_byte (n k : Nat) : n / 2 ^ (k + 8) * 256 + n / 2 ^ k % 256 = n / 2 ^ k := by
  rw [Nat.pow_add, ← Nat.div_div_eq_div_mul]
  exact Nat.div_add_mod' (n / 2 ^ k) 256

theorem bigEndian_resyncPayload (n : UInt64) :
    bigEndian (resyncPayload n).toList = n.toNat / 2 ^ 16 := by
  have hn := n.toNat_lt
  have h0 : (resyncPayload n)[0].toNat = n.toNat / 2 ^ (48 + 8) := by
    rw [resyncPayload_getElem n (by decide)]
    exact Nat.mod_eq_of_lt (by omega)
  have h1 : (resyncPayload n)[1].toNat = n.toNat / 2 ^ 48 % 256 :=
    resyncPayload_getElem n (by decide)
  have h2 : (resyncPayload n)[2].toNat = n.toNat / 2 ^ 40 % 256 :=
    resyncPayload_getElem n (by decide)
  have h3 : (resyncPayload n)[3].toNat = n.toNat / 2 ^ 32 % 256 :=
    resyncPayload_getElem n (by decide)
  have h4 : (resyncPayload n)[4].toNat = n.toNat / 2 ^ 24 % 256 :=
    resyncPayload_getElem n (by decide)
  have h5 : (resyncPayload n)[5].toNat = n.toNat / 2 ^ 16 % 256 :=
    resyncPayload_getElem n (by decide)
  rw [bigEndian_payload, h0, h1, h2, h3, h4, h5, div_byte, div_byte _ 40, div_byte _ 32,
    div_byte _ 24, div_byte _ 16]

/-- **A special packet's counter is rebuilt**, whatever the receiver's counter is. -/
theorem resyncCounter_encoded {n : UInt64} (hn : n.toNat % 256 = 0) :
    resyncCounter (resyncPayload n) (resyncLow n) = n := by
  have hlt := n.toNat_lt
  rw [← UInt64.toNat_inj, resyncCounter_toNat, bigEndian_resyncPayload, resyncLow_toNat]
  omega

theorem resyncPayload_resyncCounter (payload : Payload) (counterLow : UInt8) :
    resyncPayload (resyncCounter payload counterLow) = payload := by
  have h0 := payload[0].toNat_lt
  have h1 := payload[1].toNat_lt
  have h2 := payload[2].toNat_lt
  have h3 := payload[3].toNat_lt
  have h4 := payload[4].toNat_lt
  have h5 := payload[5].toNat_lt
  have hlow := counterLow.toNat_lt
  apply Vector.ext
  intro i hi
  rw [← UInt8.toNat_inj, resyncPayload_getElem _ hi, resyncCounter_toNat, bigEndian_payload]
  interval_cases i <;> omega

/-! ## Encoding, then authenticating -/

section Encode

variable (hash : Hash) (secretData : List UInt8) (p : Packet) (c r : UInt64)

theorem encode_flag :
    (hmac433Encode hash secretData p c).1.counterResyncFlag = p.counterResyncFlag := by
  unfold hmac433Encode
  dsimp only
  split <;> rfl

theorem encode_counter :
    (hmac433Encode hash secretData p c).2 = advanceCounter p.counterResyncFlag c := rfl

theorem encode_hmac :
    (hmac433Encode hash secretData p c).1.hmac
      = packetHmac hash secretData (advanceCounter p.counterResyncFlag c)
          (hmac433Encode hash secretData p c).1.payload := rfl

theorem encode_ordinary (h : p.counterResyncFlag = 0) :
    (hmac433Encode hash secretData p c).1.payload = p.payload ∧
      (hmac433Encode hash secretData p c).1.counterLow = (c + 1).toUInt8 ∧
        (hmac433Encode hash secretData p c).2 = c + 1 := by
  have hc : advanceCounter p.counterResyncFlag c = c + 1 := if_pos h
  unfold hmac433Encode
  dsimp only
  rw [if_pos h, hc]
  exact ⟨rfl, rfl, rfl⟩

theorem encode_resync (h : p.counterResyncFlag ≠ 0) :
    let n := advanceCounter p.counterResyncFlag c
    (hmac433Encode hash secretData p c).1.payload = resyncPayload n ∧
      (hmac433Encode hash secretData p c).1.counterLow = resyncLow n ∧ n.toNat % 256 = 0 := by
  unfold hmac433Encode
  dsimp only
  rw [if_neg h]
  refine ⟨rfl, rfl, ?_⟩
  rw [advanceCounter, if_neg h, clearLow_toNat]
  exact Nat.mul_mod_left ..

/-- What the sender's counter becomes: the next number, or the next multiple of 256. -/
theorem advanceCounter_mod (flag : UInt8) (c : UInt64) :
    (advanceCounter flag c).toNat
      = (if flag = 0 then c.toNat + 1 else (c.toNat / 256 + 1) * 256) % 2 ^ 64 := by
  have hc := c.toNat_lt
  unfold advanceCounter
  split
  · exact UInt64.toNat_add ..
  · rw [clearLow_toNat, UInt64.toNat_add]
    change (c.toNat + 256) % 2 ^ 64 / 256 * 256 = _
    omega

/-- **Which receivers rebuild an encoded packet's counter**: for an ordinary packet those at most
    255 behind, for a special packet all those not ahead. -/
theorem rebuildCounter_encoded :
    rebuildCounter (hmac433Encode hash secretData p c).1 r
        = some (advanceCounter p.counterResyncFlag c)
      ↔ if p.counterResyncFlag = 0 then (advanceCounter p.counterResyncFlag c - r).toNat ≤ 255
        else r ≤ advanceCounter p.counterResyncFlag c := by
  unfold rebuildCounter
  rw [encode_flag]
  by_cases h : p.counterResyncFlag = 0
  · obtain ⟨-, hlow, hn⟩ := encode_ordinary hash secretData p c h
    rw [encode_counter] at hn
    rw [if_pos h, if_pos h, hlow, Option.some.injEq, hn]
    exact ordinaryCounter_eq_iff r (c + 1)
  · obtain ⟨hpayload, hlow, hmod⟩ := encode_resync hash secretData p c h
    rw [if_neg h, if_neg h, hpayload, hlow]
    dsimp only
    rw [resyncCounter_encoded hmod]
    constructor
    · intro hsome
      by_contra hle
      rw [if_pos (UInt64.not_le.mp hle)] at hsome
      exact absurd hsome (by simp)
    · intro hle
      rw [if_neg (UInt64.not_lt.mpr hle)]

theorem authenticate_of_rebuilt {packet : Packet} {n : UInt64}
    (hn : rebuildCounter packet r = some n)
    (hmac : packet.hmac = packetHmac hash secretData n packet.payload) :
    hmac433Authenticate hash secretData packet r = some (n + 1) := by
  rw [hmac433Authenticate, hn]
  dsimp only
  rw [if_neg (not_not_intro hmac.symm)]

theorem authenticate_eq_some {packet : Packet} {r' : UInt64}
    (h : hmac433Authenticate hash secretData packet r = some r') :
    ∃ n, rebuildCounter packet r = some n ∧
      packetHmac hash secretData n packet.payload = packet.hmac ∧ r' = n + 1 := by
  unfold hmac433Authenticate at h
  cases hn : rebuildCounter packet r with
  | none => rw [hn] at h; exact absurd h (by simp)
  | some n =>
    rw [hn] at h
    dsimp only at h
    split at h
    · exact absurd h (by simp)
    · exact ⟨n, rfl, not_not.mp ‹_›, (Option.some.inj h).symm⟩

/-- **An encoded packet is accepted** by the receivers that rebuild its counter. -/
theorem authenticate_encoded
    (h : if p.counterResyncFlag = 0 then (advanceCounter p.counterResyncFlag c - r).toNat ≤ 255
      else r ≤ advanceCounter p.counterResyncFlag c) :
    hmac433Authenticate hash secretData (hmac433Encode hash secretData p c).1 r
      = some (advanceCounter p.counterResyncFlag c + 1) :=
  authenticate_of_rebuilt hash secretData r
    ((rebuildCounter_encoded hash secretData p c r).mpr h) (encode_hmac hash secretData p c)

end Encode

end Hmac433
end CpeClock
