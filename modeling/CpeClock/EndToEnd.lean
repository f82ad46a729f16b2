import CpeClock.Libnc
import Mathlib.Logic.Relation

/-!
# From the sender library to the clock

What one call of `libnc_encode` gives, and what a clock does with it. The layers were done one by
one: the codec returns the packet (`decodePacket_encoded`), the packet says its counter
(`rebuildCounter_encoded`), and an accepted packet is saved before it is acted on
(`receive_accepted`).
-/

namespace CpeClock

open Lib Hmac433 Mail Ncrs Relation

namespace Libnc

inductive Call (hash : Hash) (rs : Rs.RsControl) : Libnc → Libnc → Prop
  | init (s : Libnc) : Call hash rs s (libncInit s).2
  | advance (saves : Bool) (s : Libnc) : Call hash rs s (libncAdvance saves s).2
  | encode (payload : List UInt8) (message : NcCode) (maxMessageSize : Nat) (packet2 : Message)
      (saves : Bool) (s : Libnc) :
      Call hash rs s (libncEncode hash rs payload message maxMessageSize packet2 saves s).2.2

theorem Call.keeps_open {hash : Hash} {rs : Rs.RsControl} {s s' : Libnc} (h : Call hash rs s s')
    (hfd : s.secretFd.isSome) : s'.secretFd.isSome := by
  cases h with
  | init =>
    unfold libncInit
    rw [if_pos hfd]
    exact hfd
  | advance saves =>
    unfold libncAdvance
    split
    · exact hfd
    · rw [(saveSecretFile_static saves _).1, withCounter_secretFd]
      exact hfd
  | encode payload message maxMessageSize packet2 saves =>
    unfold libncEncode
    split
    · exact hfd
    split
    · exact hfd
    dsimp only
    split
    · exact hfd
    · rw [(saveSecretFile_static saves _).1, withCounter_secretFd]
      exact hfd

theorem loadSecretFile_open {envName : EnvName} {s : Libnc}
    (h : (loadSecretFile envName s).1 = true) :
    (loadSecretFile envName s).2.secretFd = some envName := by
  unfold loadSecretFile at h ⊢
  split
  · next hfile =>
    rw [hfile] at h
    exact absurd h (by simp)
  · next file hfile =>
    rw [hfile] at h
    dsimp only at h ⊢
    split
    · next hshort =>
      rw [if_pos hshort] at h
      exact absurd h (by simp)
    · rfl

theorem libncInit_open {s : Libnc} (h : (libncInit s).1 = true) :
    (libncInit s).2.secretFd.isSome := by
  unfold libncInit at h ⊢
  split
  · next hopen =>
    rw [if_pos hopen] at h
    exact absurd h (by simp)
  · next hopen =>
    rw [if_neg hopen] at h
    cases hrs : ncrsInit with
    | none =>
      rw [hrs] at h
      exact absurd h (by simp)
    | some rs =>
      rw [hrs] at h
      dsimp only at h ⊢
      split
      · next hloaded =>
        rw [loadSecretFile_open hloaded]
        rfl
      · next hloaded =>
        rw [if_neg hloaded] at h
        rw [loadSecretFile_open h]
        rfl

theorem isSome_of_calls {hash : Hash} {rs : Rs.RsControl} {s₀ s : Libnc}
    (hinit : (libncInit s₀).1 = true)
    (hcalls : ReflTransGen (Call hash rs) (libncInit s₀).2 s) : s.secretFd.isSome := by
  induction hcalls with
  | refl => exact libncInit_open hinit
  | tail _ hcall ih => exact hcall.keeps_open ih

end Libnc

open Libnc

theorem libncPacket_flag_eq_zero (payload : List UInt8) :
    (libncPacket payload).counterResyncFlag = 0 ↔ payload ≠ [] := by
  unfold libncPacket
  dsimp only
  cases payload <;> simp [resync]

theorem accepted_encoded {hash : Hash} {rs : Rs.RsControl} (hrs : ncrsInit = some rs)
    {secretData : List UInt8} {c : UInt64} {payload : List UInt8} {clock : Clock}
    (hle : clock.hmacMessageCounter
      ≤ advanceCounter (libncPacket payload).counterResyncFlag c)
    (hnear : payload ≠ [] →
      (advanceCounter (libncPacket payload).counterResyncFlag c).toNat
        ≤ clock.hmacMessageCounter.toNat + 255)
    (hprevious : clock.previousPacket ≠ (hmac433Encode hash secretData (libncPacket payload) c).1)
    (homeEasy : UInt32) :
    accepted hash secretData rs clock
        (mailboxOf rs homeEasy (hmac433Encode hash secretData (libncPacket payload) c).1)
      = some ((hmac433Encode hash secretData (libncPacket payload) c).1,
          advanceCounter (libncPacket payload).counterResyncFlag c + 1, 1) := by
  have hflag : (hmac433Encode hash secretData (libncPacket payload) c).1.counterResyncFlag &&& 0x7f
      = 0 := by
    rw [encode_flag]
    exact libncPacket_flag payload
  have hrebuilt : rebuildCounter (hmac433Encode hash secretData (libncPacket payload) c).1
      clock.hmacMessageCounter
        = some (advanceCounter (libncPacket payload).counterResyncFlag c) := by
    rw [rebuildCounter_encoded]
    split
    · next hordinary =>
      have h255 := hnear ((libncPacket_flag_eq_zero payload).mp hordinary)
      rw [UInt64.toNat_sub_of_le _ _ hle]
      omega
    · exact hle
  exact accepted_mailboxOf hrs hflag hprevious hrebuilt (encode_hmac hash secretData _ c) homeEasy

/-- **From `libnc_encode` to `new_packet`.** After a successful `libnc_init`, `libnc_encode` fails
    only if the file cannot be saved; and its symbols, handed to a clock with the same secret that
    is not too far behind, move the clock's counter to one past the sender's, in RAM and in NVRAM,
    and hand the padded payload to `new_packet`. -/
theorem libncEncode_received (hash : Hash) {rs : Rs.RsControl} (hrs : ncrsInit = some rs)
    {s₀ s : Libnc} (hinit : (libncInit s₀).1 = true)
    (hcalls : ReflTransGen (Call hash rs) (libncInit s₀).2 s) (payload : List UInt8)
    (hnowrap : s.secretFile.counter
      < advanceCounter (libncPacket payload).counterResyncFlag s.secretFile.counter)
    {maxMessageSize : Nat} (hsize : ncDataSize ≤ maxMessageSize) (message : NcCode)
    (packet2 : Message) (saves : Bool) :
    let secretData := s.secretFile.secretData.toList
    let packet := (hmac433Encode hash secretData (libncPacket payload) s.secretFile.counter).1
    let result := libncEncode hash rs payload message maxMessageSize packet2 saves s
    let n := result.2.2.secretFile.counter
    result.1 = saves ∧
      n = advanceCounter (libncPacket payload).counterResyncFlag s.secretFile.counter ∧
      ∀ (clock : Clock) (homeEasy : UInt32) (nv : Nvram),
        clock.hmacMessageCounter ≤ n →
        (payload ≠ [] → n.toNat ≤ clock.hmacMessageCounter.toNat + 255) →
        clock.previousPacket ≠ packet →
        let p := mailReceiveMessages hash secretData rs clock
          { homeEasy := homeEasy, newCode := result.2.1, newCodeReady := true }
        (p.value nv).1.hmacMessageCounter = n + 1 ∧
          storedCounter (p.final nv) = n + 1 ∧
          (Formatted nv → mailInit.value (p.final nv) = some (n + 1)) ∧
          commands (p.events nv)
            = if payload = [] then [] else [⟨n + 1, padded payload, 1⟩] := by
  have hfd := isSome_of_calls hinit hcalls
  have hencode := libncEncode_eq hash hrs hfd hnowrap hsize message packet2 saves
  dsimp only at hencode ⊢
  rw [hencode]
  dsimp only
  rw [(saveSecretFile_static saves _).2]
  dsimp only [withCounter]
  rw [encode_counter]
  refine ⟨rfl, rfl, fun clock homeEasy nv hle hnear hprevious => ?_⟩
  have haccepted := accepted_encoded hrs hle hnear hprevious homeEasy
  obtain ⟨hformatted, hstored, hcounter, hcommands⟩ := receive_accepted hash _ rs haccepted nv
  refine ⟨hcounter, hstored, fun hf => ?_, hcommands.trans ?_⟩
  · exact (mailInit_formatted (hformatted hf)).1.trans (congrArg some hstored)
  · unfold commandsOf
    rw [encode_flag]
    by_cases hpayload : payload = []
    · rw [if_pos hpayload, if_pos]
      exact fun hzero => (libncPacket_flag_eq_zero payload).mp hzero hpayload
    · have hflag := (libncPacket_flag_eq_zero payload).mpr hpayload
      rw [if_neg hpayload, if_neg (not_not_intro hflag), (encode_ordinary hash _ _ _ hflag).1]
      rfl

/-- A library before its first call, with a secret file whose counter is 4. -/
def sampleLibnc : Libnc where
  secretFd := none
  secretFile := SecretFile.zero
  files := fun envName => if envName = .home then some (4 :: List.replicate 63 0) else none

theorem libncInit_sample : (libncInit sampleLibnc).1 = true ∧
    (libncInit sampleLibnc).2.secretFile = ⟨4, Vector.replicate 56 0⟩ := by
  unfold libncInit
  rw [ncrsInit_eq]
  decide

/-- An alarm is set at 7:30 on a clock that has seen as many packets as were sent. -/
theorem libncEncode_received_sample :
    let s := (libncInit sampleLibnc).2
    let result := libncEncode sha256 Rs.rs32 ['A'.toUInt8, 7, 30] (Vector.replicate 31 0)
      ncDataSize (Vector.replicate 14 0) true s
    result.1 = true ∧
      ∀ (clock : Clock) (nv : Nvram), clock.hmacMessageCounter = 5 →
        clock.previousPacket = Packet.zero →
        commands ((mailReceiveMessages sha256 s.secretFile.secretData.toList Rs.rs32 clock
          { homeEasy := 0, newCode := result.2.1, newCodeReady := true }).events nv)
            = [⟨6, padded ['A'.toUInt8, 7, 30], 1⟩] := by
  obtain ⟨hinit, hfile⟩ := libncInit_sample
  obtain ⟨hsaved, hn, hreceived⟩ := libncEncode_received sha256 ncrsInit_eq hinit .refl
    ['A'.toUInt8, 7, 30] (by rw [hfile]; decide) (Nat.le_refl ncDataSize) (Vector.replicate 31 0)
    (Vector.replicate 14 0) true
  have hfive : advanceCounter (libncPacket ['A'.toUInt8, 7, 30]).counterResyncFlag
      (libncInit sampleLibnc).2.secretFile.counter = 5 := by
    rw [hfile]
    rfl
  rw [hfive] at hn
  refine ⟨hsaved, fun clock nv hcounter hprevious => ?_⟩
  have hdiffers : clock.previousPacket ≠ (hmac433Encode sha256
      (libncInit sampleLibnc).2.secretFile.secretData.toList (libncPacket ['A'.toUInt8, 7, 30])
      (libncInit sampleLibnc).2.secretFile.counter).1 := by
    rw [hprevious]
    exact fun heq => absurd (congrArg Packet.payload heq)
      (by decide : Packet.zero.payload ≠ padded ['A'.toUInt8, 7, 30])
  obtain ⟨-, -, -, hcommands⟩ := hreceived clock 0 nv
    (by rw [hcounter, hn]; exact UInt64.le_refl 5) (fun _ => by rw [hcounter, hn]; decide) hdiffers
  rw [hn] at hcommands
  exact hcommands

end CpeClock
