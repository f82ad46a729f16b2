import CpeClock.NcrsDecode
import CpeClock.Reception

/-!
# A packet through the message codec

A packet is 14 bytes, and the codec keeps 105 bits of them: all but the low seven bits of the flag.
The flags the sender uses, 0 and 0x80, lose nothing.
-/

namespace CpeClock
namespace Mail

open Lib Hmac433 Ncrs

theorem fits_toBytes {p : Packet} (hflag : p.counterResyncFlag &&& 0x7f = 0) : Fits p.toBytes := by
  have hlast : p.toBytes.toList.getD 13 0 = p.counterResyncFlag := by
    simp [Packet.toBytes]
  rw [Fits, hlast]
  exact hflag

/-- **A packet that was encoded and arrives whole is decoded**, with return code 1. -/
theorem ncrsDecode_packet {rs : Rs.RsControl} (hrs : ncrsInit = some rs) (original : Message)
    {p : Packet} (hflag : p.counterResyncFlag &&& 0x7f = 0) :
    ncrsDecode rs original (ncrsEncode rs p.toBytes) = (1, p.toBytes) := by
  obtain rfl : Rs.rs32 = rs := Option.some.inj (ncrsInit_eq.symm.trans hrs)
  exact ncrsDecode_corrects hrs (e := 0) (fits_toBytes hflag) (ncrsEncode_codeword p.toBytes).1
    (hammingDist_self _) (by decide)

theorem decodePacket_encoded {rs : Rs.RsControl} (hrs : ncrsInit = some rs) {p : Packet}
    (hflag : p.counterResyncFlag &&& 0x7f = 0) :
    decodePacket rs (ncrsEncode rs p.toBytes) = some (p, 1) := by
  unfold decodePacket
  rw [ncrsDecode_packet hrs _ hflag]
  simp

def mailboxOf (rs : Rs.RsControl) (homeEasy : UInt32) (p : Packet) : Mailbox where
  homeEasy := homeEasy
  newCode := ncrsEncode rs p.toBytes
  newCodeReady := true

/-- A packet whose counter is rebuilt and whose tag is right is accepted from its code. -/
theorem accepted_mailboxOf {hash : Hash} {secretData : List UInt8} {rs : Rs.RsControl}
    (hrs : ncrsInit = some rs) {p : Packet} (hflag : p.counterResyncFlag &&& 0x7f = 0)
    {clock : Clock} (hprevious : clock.previousPacket ≠ p) {n : UInt64}
    (hn : rebuildCounter p clock.hmacMessageCounter = some n)
    (htag : p.hmac = packetHmac hash secretData n p.payload) (homeEasy : UInt32) :
    accepted hash secretData rs clock (mailboxOf rs homeEasy p) = some (p, n + 1, 1) := by
  refine (accepted_eq_some hash secretData rs).mpr
    ⟨rfl, decodePacket_encoded hrs hflag, hprevious, ?_⟩
  rw [authenticate_of_rebuilt hash secretData _ hn htag]

end Mail
end CpeClock
