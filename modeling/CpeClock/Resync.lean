import CpeClock.Sender
import CpeClock.Station

/-!
# The clock can always be resynchronised

A station and a receiver, with an arbitrary channel between them. The receiver's counter is moved
only by a packet that was sent, and whatever was sent had its counter saved first; so the receiver
is never more than one ahead of the file (`Pairing.Inv.near`). A special packet has a counter above
the file's, and that is all the receiver asks of it.
-/

namespace CpeClock

open Lib Hmac433 Mail Ncrs Libnc Relation

/-- A sender that keeps its counter in a file, a receiver, and whatever channel. -/
structure Pairing where
  station : Station
  receiver : Receiver

namespace Pairing

inductive Step (hash : Hash) (secretData : List UInt8) (rs : Rs.RsControl) :
    Pairing → Pairing → Prop
  | station {s s' : Station} (r : Receiver) (h : Station.Step hash rs s s') :
      Step hash secretData rs ⟨s, r⟩ ⟨s', r⟩
  | receiver (s : Station) {r r' : Receiver}
      (h : Receiver.Step hash secretData rs (Ideal hash secretData rs s.sent) r r') :
      Step hash secretData rs ⟨s, r⟩ ⟨s, r'⟩

/-- Nothing was sent yet, the station's file has the receiver's secret, and the receiver's counter
    is at most one above the file's. -/
structure Initial (secretData : List UInt8) (w : Pairing) : Prop where
  idle : w.station.libnc.secretFd = none
  nothingSent : w.station.sent = []
  saved : ∃ f, savedFile w.station.libnc.files = some f ∧ f.secretData.toList = secretData ∧
    f.counter.toNat < Station.counterBound
  formatted : Formatted w.receiver.nvram
  ram : ∀ clock, w.receiver.clock = some clock →
    clock.hmacMessageCounter = storedCounter w.receiver.nvram
  near : (storedCounter w.receiver.nvram).toNat ≤ w.station.savedCounter.toNat + 1

structure Inv (secretData : List UInt8) (w : Pairing) : Prop where
  station : w.station.Inv secretData
  receiver : w.receiver.Inv
  near : (storedCounter w.receiver.nvram).toNat ≤ w.station.savedCounter.toNat + 1

variable {hash : Hash} {secretData : List UInt8} {rs : Rs.RsControl}

theorem Initial.inv {w : Pairing} (h : Initial secretData w) : Inv secretData w := by
  have hclosed : ¬ w.station.libnc.secretFd.isSome = true := by
    rw [h.idle]
    decide
  refine ⟨⟨h.saved, fun hopen => absurd hopen hclosed, fun hopen => absurd hopen hclosed, ?_⟩,
    ⟨h.formatted, h.ram⟩, h.near⟩
  rw [h.nothingSent]
  exact fun e he => absurd he List.not_mem_nil

theorem inv_receiver {s : Station} {r r' : Receiver} (hinv : Inv secretData ⟨s, r⟩)
    (h : Receiver.Step hash secretData rs (Ideal hash secretData rs s.sent) r r') :
    Inv secretData ⟨s, r'⟩ := by
  obtain ⟨hr, hcause⟩ := h.cause hinv.receiver
  refine ⟨hinv.station, hr, ?_⟩
  dsimp only
  cases hcause with
  | same hstored _ =>
    rw [hstored]
    exact hinv.near
  | accepts clock mailbox packet counter rsRc _ hideal haccepted hstored _ =>
    obtain ⟨n, -, hcounter, -, ⟨p, hsent, -⟩, -⟩ := hideal.tagged haccepted
    have hn : n.toNat ≤ s.savedCounter.toNat :=
      UInt64.le_iff_toNat_le.mp (hinv.station.sentBelow (n, p) hsent)
    have hsucc : (n + 1).toNat ≤ n.toNat + 1 := by
      rw [UInt64.toNat_add]
      exact Nat.mod_le _ _
    rw [hstored, hcounter]
    omega

theorem inv_step (hrs : ncrsInit = some rs) {w w' : Pairing} (hinv : Inv secretData w)
    (h : Step hash secretData rs w w') : Inv secretData w' := by
  cases h with
  | station r h =>
    obtain ⟨hstation, hgrows⟩ := Station.inv_step hrs hinv.station h
    refine ⟨hstation, hinv.receiver, Nat.le_trans hinv.near ?_⟩
    exact Nat.add_le_add_right (UInt64.le_iff_toNat_le.mp hgrows) 1
  | receiver s h => exact inv_receiver hinv h

theorem inv_run (hrs : ncrsInit = some rs) {w₀ w : Pairing} (hstart : Initial secretData w₀)
    (hrun : ReflTransGen (Step hash secretData rs) w₀ w) : Inv secretData w := by
  induction hrun with
  | refl => exact hstart.inv
  | tail _ hstep ih => exact inv_step hrs ih hstep

/-- The counter and secret the station's next packet may be encoded from: those of the invocation
    that is running, or those of the file for a new one. -/
inductive NextFile (s : Station) : SecretFile → Prop
  | running (hopen : s.libnc.secretFd.isSome) : NextFile s s.libnc.secretFile
  | reloaded {f : SecretFile} (hfile : savedFile s.libnc.files = some f) : NextFile s f

/-- The counters the receiver may compare with: that in RAM, or what `mail_init` would load. -/
inductive ReceiverCounter (r : Receiver) : UInt64 → Prop
  | ram {clock : Clock} (hclock : r.clock = some clock) :
      ReceiverCounter r clock.hmacMessageCounter
  | stored {counter : UInt64} (h : mailInit.value r.nvram = some counter) :
      ReceiverCounter r counter

theorem NextFile.bounds {w : Pairing} (hinv : Inv secretData w) {f : SecretFile}
    (h : NextFile w.station f) :
    w.station.savedCounter.toNat ≤ f.counter.toNat ∧ f.counter.toNat < Station.counterBound ∧
      f.secretData.toList = secretData := by
  cases h with
  | running hopen =>
    obtain ⟨hle, hbelow, hsecret⟩ := hinv.station.memory hopen
    exact ⟨UInt64.le_iff_toNat_le.mp hle, hbelow, hsecret⟩
  | reloaded hfile =>
    obtain ⟨f', hf', hsecret, hbelow⟩ := hinv.station.saved
    obtain rfl : f = f' := Option.some.inj (hfile.symm.trans hf')
    rw [Station.savedCounter_eq hfile]
    exact ⟨Nat.le_refl _, hbelow, hsecret⟩

theorem ReceiverCounter.near {w : Pairing} (hinv : Inv secretData w) {r : UInt64}
    (h : ReceiverCounter w.receiver r) : r.toNat ≤ w.station.savedCounter.toNat + 1 := by
  cases h with
  | ram hclock =>
    rw [hinv.receiver.ram _ hclock]
    exact hinv.near
  | stored h =>
    rw [(mailInit_formatted hinv.receiver.formatted).1] at h
    rw [← Option.some.inj h]
    exact hinv.near

theorem advance_resync {c : UInt64} (hbelow : c.toNat < Station.counterBound) :
    (advanceCounter (libncPacket []).counterResyncFlag c).toNat = (c.toNat / 256 + 1) * 256 := by
  rw [show (libncPacket []).counterResyncFlag = 0x80 from rfl, advanceCounter_mod,
    if_neg (by decide)]
  unfold Station.counterBound at hbelow
  omega

/-- A special packet encoded from a counter that the receiver is at most one ahead of is accepted,
    and so is the ordinary packet after it. -/
theorem resync_accepted (hash : Hash) (secretData : List UInt8) {c r : UInt64}
    (hr : r.toNat ≤ c.toNat + 1) (hbelow : c.toNat < Station.counterBound) :
    let n := (hmac433Encode hash secretData (libncPacket []) c).2
    hmac433Authenticate hash secretData (hmac433Encode hash secretData (libncPacket []) c).1 r
        = some (n + 1) ∧
      ∀ payload, payload ≠ [] →
        hmac433Authenticate hash secretData
          (hmac433Encode hash secretData (libncPacket payload) n).1 (n + 1) = some (n + 1 + 1) := by
  have hspecial : (libncPacket []).counterResyncFlag = 0x80 := rfl
  have hn := advance_resync hbelow
  refine ⟨?_, fun payload hpayload => ?_⟩
  · rw [encode_counter]
    refine authenticate_encoded hash secretData (libncPacket []) c r ?_
    rw [if_neg (by rw [hspecial]; decide), UInt64.le_iff_toNat_le, hn]
    omega
  · rw [encode_counter]
    generalize advanceCounter (libncPacket []).counterResyncFlag c = n
    have hflag := (libncPacket_flag_eq_zero payload).mpr hpayload
    have hnext : advanceCounter (libncPacket payload).counterResyncFlag n = n + 1 := if_pos hflag
    have hauth := authenticate_encoded hash secretData (libncPacket payload) n (n + 1)
      (by rw [if_pos hflag, hnext, UInt64.sub_self]; decide)
    rwa [hnext] at hauth

/-- A call of `libnc_encode` for a special packet succeeds if its save does. Then it is sent, and a
    receiver with this counter accepts it, and the ordinary packet that the next call sends. -/
def Resyncs (hash : Hash) (secretData : List UInt8) (rs : Rs.RsControl) (s : Station)
    (r : UInt64) : Prop :=
  ∀ (message : NcCode) (maxMessageSize : Nat) (packet2 : Message), ncDataSize ≤ maxMessageSize →
    (∀ saves, (libncEncode hash rs [] message maxMessageSize packet2 saves s.libnc).1 = saves) ∧
      let s' := s.encode hash rs [] message maxMessageSize packet2 true
      ∃ n packet, s'.sent = s.sent ++ [(n, packet)] ∧
        hmac433Authenticate hash secretData packet r = some (n + 1) ∧
        ∀ payload, payload ≠ [] → ∃ packet',
          (s'.encode hash rs payload message maxMessageSize packet2 true).sent
            = s'.sent ++ [(n + 1, packet')] ∧
          hmac433Authenticate hash secretData packet' (n + 1) = some (n + 1 + 1)

theorem resyncs (hrs : ncrsInit = some rs) {w : Pairing} (hinv : Inv secretData w)
    (hopen : w.station.libnc.secretFd.isSome) {r : UInt64} (hr : ReceiverCounter w.receiver r) :
    Resyncs hash secretData rs w.station r := by
  intro message maxMessageSize packet2 hsize
  obtain ⟨hsaved, hbelow, hsecret⟩ := (NextFile.running hopen).bounds hinv
  have hnear := hr.near hinv
  obtain ⟨haccepted, hnext⟩ := resync_accepted hash secretData (r := r) (by omega) hbelow
  rw [encode_counter] at haccepted hnext
  have hn := advance_resync hbelow
  have hnowrap : w.station.libnc.secretFile.counter < advanceCounter
      (libncPacket []).counterResyncFlag w.station.libnc.secretFile.counter := by
    rw [UInt64.lt_iff_toNat_lt, hn]
    omega
  refine ⟨fun saves => by rw [libncEncode_eq hash hrs hopen hnowrap hsize], ?_⟩
  dsimp only
  rw [Station.encode_eq hash hrs hopen hnowrap hsize, hsecret]
  obtain ⟨hfd, hfile⟩ := saveSecretFile_static true (w.station.libnc.withCounter
    (advanceCounter (libncPacket []).counterResyncFlag w.station.libnc.secretFile.counter))
  generalize advanceCounter (libncPacket []).counterResyncFlag w.station.libnc.secretFile.counter
    = n at hfd hfile hn haccepted hnext ⊢
  generalize (saveSecretFile true (w.station.libnc.withCounter n)).2 = libnc at hfd hfile ⊢
  refine ⟨n, _, rfl, haccepted, fun payload hpayload => ?_⟩
  have hflag := (libncPacket_flag_eq_zero payload).mpr hpayload
  have hadvance : advanceCounter (libncPacket payload).counterResyncFlag libnc.secretFile.counter
      = n + 1 := by
    rw [hfile]
    exact if_pos hflag
  have hlast : (n + 1).toNat = n.toNat + 1 := by
    rw [UInt64.toNat_add]
    refine Nat.mod_eq_of_lt ?_
    change n.toNat + 1 < 2 ^ 64
    unfold Station.counterBound at hbelow
    omega
  have hnowrap' : libnc.secretFile.counter < advanceCounter
      (libncPacket payload).counterResyncFlag libnc.secretFile.counter := by
    rw [hadvance, hfile, UInt64.lt_iff_toNat_lt, hlast]
    exact Nat.lt_succ_self _
  refine ⟨_, ?_, hnext payload hpayload⟩
  rw [Station.encode_eq hash hrs (hfd ▸ hopen) hnowrap' hsize, hadvance, hfile]
  dsimp only [withCounter]
  rw [hsecret]
  rfl

/-- **The clock can always be resynchronised.** In every state reached the receiver's counter, in
    RAM and as `mail_init` would load it, is at most one above the file's; so the next special
    packet is accepted, and so is the ordinary packet encoded after it. Those are the packets that
    the calls of a running invocation send, and a call succeeds if its save does. -/
theorem resynchronisable (hrs : ncrsInit = some rs) {w₀ w : Pairing}
    (hstart : Initial secretData w₀) (hrun : ReflTransGen (Step hash secretData rs) w₀ w) :
    (∀ r, ReceiverCounter w.receiver r → r.toNat ≤ w.station.savedCounter.toNat + 1) ∧
      (∀ f r, NextFile w.station f → ReceiverCounter w.receiver r →
        let packet := (hmac433Encode hash f.secretData.toList (libncPacket []) f.counter).1
        let n := (hmac433Encode hash f.secretData.toList (libncPacket []) f.counter).2
        hmac433Authenticate hash secretData packet r = some (n + 1) ∧
          ∀ payload, payload ≠ [] →
            hmac433Authenticate hash secretData
              (hmac433Encode hash f.secretData.toList (libncPacket payload) n).1 (n + 1)
                = some (n + 1 + 1)) ∧
      (w.station.libnc.secretFd.isSome → ∀ r, ReceiverCounter w.receiver r →
        Resyncs hash secretData rs w.station r) := by
  have hinv := inv_run hrs hstart hrun
  refine ⟨fun r hr => hr.near hinv, fun f r hf hr => ?_,
    fun hopen r hr => resyncs hrs hinv hopen hr⟩
  obtain ⟨hsaved, hbelow, hsecret⟩ := hf.bounds hinv
  have hnear := hr.near hinv
  rw [hsecret]
  exact resync_accepted hash secretData (by omega) hbelow

def samplePairing : Pairing where
  station := ⟨sampleLibnc, []⟩
  receiver := ⟨formattedNvram 5, none, []⟩

theorem samplePairing_initial : Initial (List.replicate 56 0) samplePairing := by
  obtain ⟨hformatted, hstored⟩ := formattedNvram_formatted 5
  have hfile : savedFile samplePairing.station.libnc.files = some ⟨4, Vector.replicate 56 0⟩ := by
    decide
  refine ⟨rfl, rfl, ⟨_, hfile, by decide, by decide⟩, hformatted,
    fun clock h => absurd h (by simp [samplePairing]), ?_⟩
  rw [Station.savedCounter_eq hfile]
  exact Nat.le_of_eq (congrArg UInt64.toNat hstored)

def sampleStation : Station := ⟨(libncInit sampleLibnc).2, []⟩

theorem sampleStation_libnc : sampleStation.libnc = (libncInit sampleLibnc).2 := by
  simp only [sampleStation]

theorem sampleStation_file : sampleStation.libnc.secretFile = ⟨4, Vector.replicate 56 0⟩ := by
  rw [sampleStation_libnc]
  exact libncInit_sample.2

theorem sampleStation_open : sampleStation.libnc.secretFd.isSome := by
  rw [sampleStation_libnc]
  exact libncInit_open libncInit_sample.1

/-- A new invocation, whatever the last one had in memory. -/
theorem step_sampleStation (hash : Hash) (rs : Rs.RsControl) {l : Libnc}
    (hfiles : l.files = sampleLibnc.files) : Station.Step hash rs ⟨l, []⟩ sampleStation := by
  have hcleared : { l with secretFd := none, secretFile := SecretFile.zero } = sampleLibnc := by
    rw [hfiles]
    rfl
  have hstep := @Station.Step.invoke hash rs ⟨l, []⟩
  rw [hcleared] at hstep
  rw [sampleStation]
  exact hstep

/-- Its next ordinary packet, which has counter 5. -/
def samplePacket (hash : Hash) : Packet :=
  (hmac433Encode hash (List.replicate 56 0) (libncPacket [0x43]) 4).1

/-- It encodes that packet, and the save fails or not. -/
theorem step_samplePacket (hash : Hash) {rs : Rs.RsControl} (hrs : ncrsInit = some rs)
    (saves : Bool) : Station.Step hash rs sampleStation
      ⟨(saveSecretFile saves (sampleStation.libnc.withCounter 5)).2,
        if saves then [(5, samplePacket hash)] else []⟩ := by
  have hadvance : advanceCounter (libncPacket [0x43]).counterResyncFlag
      sampleStation.libnc.secretFile.counter = 5 := by
    rw [sampleStation_file]
    rfl
  have hnowrap : sampleStation.libnc.secretFile.counter < advanceCounter
      (libncPacket [0x43]).counterResyncFlag sampleStation.libnc.secretFile.counter := by
    rw [hadvance, sampleStation_file]
    decide
  have hstep := @Station.Step.encode hash rs sampleStation [0x43]
    (Vector.replicate 31 0) ncDataSize (Vector.replicate 14 0) saves hnowrap
    (by rw [hadvance]; decide)
  rw [Station.encode_eq hash hrs sampleStation_open hnowrap (Nat.le_refl _), hadvance,
    sampleStation_file] at hstep
  exact hstep

theorem samplePacket_flag (hash : Hash) : (samplePacket hash).counterResyncFlag = 0 := by
  rw [samplePacket, encode_flag]
  rfl

theorem samplePacket_counter (hash : Hash) : rebuildCounter (samplePacket hash) 5 = some 5 := by
  have hflag : (libncPacket [0x43]).counterResyncFlag = 0 := rfl
  have hclose : if (libncPacket [0x43]).counterResyncFlag = 0
      then (advanceCounter (libncPacket [0x43]).counterResyncFlag 4 - 5).toNat ≤ 255
      else (5 : UInt64) ≤ advanceCounter (libncPacket [0x43]).counterResyncFlag 4 := by
    rw [if_pos hflag]
    decide
  exact (rebuildCounter_encoded hash (List.replicate 56 0) (libncPacket [0x43]) 4 5).mpr hclose

/-- A clock is booted, the power is cut while it saves the counter of that packet, and it is booted
    again. -/
theorem run_cut_samplePacket (hash : Hash) {rs : Rs.RsControl} (hrs : ncrsInit = some rs)
    {s : Station} (hsent : s.sent = [(5, samplePacket hash)]) {r : Receiver}
    (hinv : Inv (List.replicate 56 0) ⟨s, r⟩) (hstored : storedCounter r.nvram = 5) :
    ∃ r' clock, ReflTransGen (Step hash (List.replicate 56 0) rs) ⟨s, r⟩ ⟨s, r'⟩ ∧
      r'.clock = some clock := by
  obtain ⟨⟨clock, hclock, hcounter, -⟩, -⟩ := setup_formatted hinv.receiver.formatted
  have hboot : Step hash (List.replicate 56 0) rs ⟨s, r⟩ ⟨s, r.complete setup⟩ :=
    .receiver s (.boot r)
  have hflag : (samplePacket hash).counterResyncFlag &&& 0x7f = 0 := by
    rw [samplePacket_flag]
    rfl
  have hideal : Ideal hash (List.replicate 56 0) rs s.sent clock
      (mailboxOf rs 0 (samplePacket hash)) := by
    intro packet rsRc _ hdecode n hn _
    obtain rfl : samplePacket hash = packet := congrArg Prod.fst
      (Option.some.inj ((decodePacket_encoded hrs hflag).symm.trans hdecode))
    rw [hcounter, hstored, samplePacket_counter] at hn
    rw [hsent, ← Option.some.inj hn]
    exact ⟨samplePacket hash, List.mem_cons_self, rfl⟩
  have hcut : Step hash (List.replicate 56 0) rs ⟨s, r.complete setup⟩
      ⟨s, (r.complete setup).powerCut ((Receiver.Call.mailReceiveMessages
        (mailboxOf rs 0 (samplePacket hash))).program hash (List.replicate 56 0) rs clock) 3⟩ :=
    .receiver s (.callCut hclock _
      (fun mailbox hmailbox => Receiver.Call.mailReceiveMessages.inj hmailbox ▸ hideal) 3)
  have hinv' := inv_step hrs (inv_step hrs hinv hboot) hcut
  generalize (r.complete setup).powerCut _ 3 = r' at hcut hinv'
  obtain ⟨⟨clock', hclock', -⟩, -⟩ := setup_formatted hinv'.receiver.formatted
  exact ⟨r'.complete setup, clock', ((ReflTransGen.single hboot).tail hcut).tail
    (.receiver s (.boot r')), hclock'⟩

/-- An invocation encodes a packet and cannot save, and the next one sends it with the same counter.
    The clock loses power in the save of that counter. -/
theorem samplePairing_run (hash : Hash) {rs : Rs.RsControl} (hrs : ncrsInit = some rs) :
    ∃ w r, ReflTransGen (Step hash (List.replicate 56 0) rs) samplePairing w ∧
      w.station.libnc.secretFd.isSome ∧ w.station.sent = [(5, samplePacket hash)] ∧
      ReceiverCounter w.receiver r := by
  have hfiles : (saveSecretFile false (sampleStation.libnc.withCounter 5)).2.files
      = sampleLibnc.files := by
    have hsame : ∀ (l : Libnc) c, (l.withCounter c).files = l.files := fun _ _ => rfl
    rw [saveSecretFile_failed, hsame, sampleStation_libnc]
    exact (libncInit_files hrs rfl).1
  have hload := step_sampleStation hash rs (l := sampleLibnc) rfl
  have hfails : Station.Step hash rs sampleStation
      ⟨(saveSecretFile false (sampleStation.libnc.withCounter 5)).2, []⟩ :=
    step_samplePacket hash hrs false
  have hreload := step_sampleStation hash rs hfiles
  have hsends := step_samplePacket hash hrs true
  have hopen : (saveSecretFile true (sampleStation.libnc.withCounter 5)).2.secretFd.isSome := by
    rw [(saveSecretFile_static true _).1, withCounter_secretFd]
    exact sampleStation_open
  have hstation (r : Receiver) : ReflTransGen (Step hash (List.replicate 56 0) rs)
      ⟨⟨sampleLibnc, []⟩, r⟩
      ⟨⟨(saveSecretFile true (sampleStation.libnc.withCounter 5)).2, [(5, samplePacket hash)]⟩,
        r⟩ :=
    (((ReflTransGen.single (.station r hload)).tail (.station r hfails)).tail
      (.station r hreload)).tail (.station r hsends)
  have hrun := hstation samplePairing.receiver
  have hinv := inv_run hrs samplePairing_initial hrun
  generalize (saveSecretFile true (sampleStation.libnc.withCounter 5)).2 = l at hopen hrun hinv
  obtain ⟨r, clock, hrun', hclock⟩ :=
    run_cut_samplePacket hash hrs rfl hinv (formattedNvram_formatted 5).2
  exact ⟨⟨⟨l, _⟩, r⟩, clock.hmacMessageCounter, hrun.trans hrun', hopen, rfl, .ram hclock⟩

/-- From there the clock is resynchronised. -/
theorem resynchronisable_sample :
    ∃ w r, ReflTransGen (Step sha256 (List.replicate 56 0) Rs.rs32) samplePairing w ∧
      w.station.sent = [(5, samplePacket sha256)] ∧ ReceiverCounter w.receiver r ∧
      r.toNat ≤ w.station.savedCounter.toNat + 1 ∧
      Resyncs sha256 (List.replicate 56 0) Rs.rs32 w.station r := by
  obtain ⟨w, r, hrun, hopen, hsent, hr⟩ := samplePairing_run sha256 ncrsInit_eq
  obtain ⟨hnear, -, hresyncs⟩ := resynchronisable ncrsInit_eq samplePairing_initial hrun
  exact ⟨w, r, hrun, hsent, hr, hnear r hr, hresyncs hopen r hr⟩

end Pairing
end CpeClock
