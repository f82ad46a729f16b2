import CpeClock.Datagrams
import CpeClock.Delivery
import CpeClock.Txnc433

/-!
# From the command line to the clock

Invocations of `txnc433` send datagrams, the server broadcasts them among others, the clock's
handler hears the edges, and its main loop takes the codes and acts on them. If nothing is lost on
the way and the first packet is accepted, every request is executed once, in order
(`requests_executed`).

A packet is accepted after another if its counter is rebuilt from the one that the other left, and
if it is not the same packet again. `Stale` says that it is another one, and every packet is stale
once it was accepted (`stale_packet`).
-/

namespace CpeClock

open Lib Hmac433 Mail Ncrs Libnc Server433

/-! ## Packets that were accepted -/

/-- A packet that is not the next one. -/
def Stale (counter : UInt64) (p : Packet) : Prop :=
  rebuildCounter p counter ≠ some counter ∧
    (p.counterResyncFlag ≠ 0 → rebuildCounter p counter = none)

/-- **A packet is stale once it was accepted.** -/
theorem stale_encoded (hash : Hash) (secretData : List UInt8) (p : Packet) (c : UInt64)
    (hbelow : (advanceCounter p.counterResyncFlag c).toNat + 1 < 2 ^ 64) :
    Stale (advanceCounter p.counterResyncFlag c + 1) (hmac433Encode hash secretData p c).1 := by
  have hsucc : (advanceCounter p.counterResyncFlag c + 1).toNat
      = (advanceCounter p.counterResyncFlag c).toNat + 1 := by
    rw [UInt64.toNat_add]
    exact Nat.mod_eq_of_lt hbelow
  by_cases hflag : p.counterResyncFlag = 0
  · obtain ⟨-, hlow, hn⟩ := encode_ordinary hash secretData p c hflag
    rw [encode_counter] at hn
    refine ⟨fun hsame => ?_, fun hresync => absurd ((encode_flag hash secretData p c).trans hflag)
      hresync⟩
    unfold rebuildCounter at hsame
    rw [encode_flag, if_pos hflag, hlow, ← hn] at hsame
    -- Its last byte is that of the counter before.
    have hcounter := ordinaryCounter_toNat (advanceCounter p.counterResyncFlag c + 1)
      (advanceCounter p.counterResyncFlag c).toUInt8
    rw [Option.some.inj hsame, hsucc, UInt64.toNat_toUInt8] at hcounter
    split at hcounter <;> omega
  · have hnone : rebuildCounter (hmac433Encode hash secretData p c).1
        (advanceCounter p.counterResyncFlag c + 1) = none := by
      obtain ⟨hpayload, hlow, hmod⟩ := encode_resync hash secretData p c hflag
      unfold rebuildCounter
      rw [encode_flag, if_neg hflag, hpayload, hlow]
      dsimp only
      rw [resyncCounter_encoded hmod]
      exact if_pos (UInt64.lt_iff_toNat_lt.mpr (by rw [hsucc]; omega))
    exact ⟨by rw [hnone]; simp, fun _ => hnone⟩

namespace Txnc433

/-- The counter is only advanced for a resynchronisation. -/
theorem request_advances {setTime : UInt32 → Option (UInt8 × UInt8 × UInt8)} {args : List Text}
    {beyond : Option Text} {r : Request} (hr : request setTime args beyond = some r)
    (hadvances : r.advances = true) : r.bytes = [] := by
  have hbytes : r.size = 0 → r.bytes = [] := by
    intro hsize
    rw [Request.bytes, hsize]
    rfl
  apply hbytes
  unfold request at hr
  dsimp only at hr
  split_ifs at hr
  all_goals
    simp only [Option.map_eq_some_iff, Option.some.injEq] at hr
    first
      | (subst hr
         first | rfl | cases hadvances)
      | (obtain ⟨_, -, rfl⟩ := hr
         cases hadvances)

/-! ## Invocations -/

/-- The packets of some requests, with their counters. -/
def packets (hash : Hash) (secretData : List UInt8) : List Request → UInt64 →
    List (UInt64 × Packet)
  | [], _ => []
  | r :: requests, counter =>
    (r.nextCounter counter, r.packet hash secretData counter)
      :: packets hash secretData requests (r.nextCounter counter)

/-- One invocation after another: the datagrams, and the files afterwards. -/
def session (hash : Hash) : List (Surroundings × List Text) →
    (EnvName → Option (List UInt8)) → List (List UInt8) × (EnvName → Option (List UInt8))
  | [], files => ([], files)
  | (around, args) :: invocations, files =>
    let (sent, files) := invoke hash around args files
    let (later, files) := session hash invocations files
    (sent.toList ++ later, files)

/-- An invocation that makes a request and goes well. -/
def Makes (invocation : Surroundings × List Text) (r : Request) : Prop :=
  requestOf invocation.1 invocation.2 = some r ∧ invocation.1.GoesWell r

/-- What the requests come to on the clock. -/
def commandsOfRequests : List Request → UInt64 → List Command
  | [], _ => []
  | r :: requests, counter =>
    (if r.bytes = [] then [] else [⟨r.nextCounter counter + 1, padded r.bytes, 1⟩])
      ++ commandsOfRequests requests (r.nextCounter counter)

section

variable {hash : Hash} {rs : Rs.RsControl}

/-- **Each invocation sends the next packet.** -/
theorem session_sends (hrs : ncrsInit = some rs) {invocations : List (Surroundings × List Text)}
    {requests : List Request} (hmakes : List.Forall₂ Makes invocations requests)
    {files : EnvName → Option (List UInt8)} {f : SecretFile} (hf : savedFile files = some f)
    (hbelow : f.counter.toNat + Request.counterStep * requests.length < 2 ^ 64) :
    (session hash invocations files).1
      = (packets hash f.secretData.toList requests f.counter).map fun e => datagramOf rs e.2 := by
  induction hmakes generalizing files f with
  | nil => rfl
  | @cons invocation r invocations requests hmakes _ ih =>
    rw [List.length_cons, Nat.mul_succ] at hbelow
    obtain ⟨-, -, hnext⟩ := r.nextCounter_bounds f.counter (by omega)
    obtain ⟨hsent, hsaved⟩ := invoke_sends hash hrs hmakes.1 hmakes.2 hf (by omega)
    have hlater := ih hsaved (by dsimp only; omega)
    show (invoke hash invocation.1 invocation.2 files).1.toList
      ++ (session hash invocations (invoke hash invocation.1 invocation.2 files).2).1 = _
    rw [hsent, hlater]
    rfl

theorem commandsOf_packet (secretData : List UInt8) (r : Request) (counter : UInt64) :
    commandsOf (r.packet hash secretData counter) (r.nextCounter counter + 1) 1
      = if r.bytes = [] then [] else [⟨r.nextCounter counter + 1, padded r.bytes, 1⟩] := by
  have hflag : (r.packet hash secretData counter).counterResyncFlag
      = (libncPacket r.bytes).counterResyncFlag := encode_flag ..
  have hzero := libncPacket_flag_eq_zero r.bytes
  unfold commandsOf
  by_cases hbytes : r.bytes = []
  · rw [if_pos hbytes, hflag, if_pos fun h => hzero.mp h hbytes]
  · rw [if_neg hbytes, hflag, if_neg (not_not_intro (hzero.mpr hbytes))]
    obtain ⟨hpayload, -⟩ := encode_ordinary hash secretData (libncPacket r.bytes)
      (r.startCounter counter) (hzero.mpr hbytes)
    exact congrArg (fun payload => [Command.mk _ payload 1]) hpayload

theorem commandsOfSent_packets (secretData : List UInt8) (requests : List Request)
    (counter : UInt64) :
    commandsOfSent (packets hash secretData requests counter)
      = commandsOfRequests requests counter := by
  induction requests generalizing counter with
  | nil => rfl
  | cons r requests ih =>
    rw [packets, commandsOfSent, List.flatMap_cons, commandsOf_packet, commandsOfRequests, ← ih]
    rfl

/-- A request whose packet follows on the one before. -/
theorem rebuilt_packet (hash : Hash) (secretData : List UInt8) {r : Request}
    (hadvances : r.advances = true → r.bytes = []) {counter : UInt64}
    (hbelow : counter.toNat + Request.counterStep + 1 < 2 ^ 64) :
    rebuildCounter (r.packet hash secretData counter) (counter + 1)
      = some (r.nextCounter counter) := by
  obtain ⟨-, hgrows, -⟩ := r.nextCounter_bounds counter (by omega)
  refine (rebuildCounter_encoded hash secretData (libncPacket r.bytes)
    (r.startCounter counter) (counter + 1)).mpr ?_
  split
  · next hflag =>
    have hnone : r.startCounter counter = counter :=
      if_neg fun h => (libncPacket_flag_eq_zero r.bytes).mp hflag (hadvances h)
    rw [hnone, advanceCounter, if_pos hflag, UInt64.sub_self]
    decide
  · rw [UInt64.le_iff_toNat_le, UInt64.toNat_add]
    change (counter.toNat + 1) % 2 ^ 64 ≤ _
    rw [Nat.mod_eq_of_lt (by unfold Request.counterStep at hbelow; omega)]
    exact hgrows

theorem packet_differs (secretData : List UInt8) {r : Request}
    (hadvances : r.advances = true → r.bytes = []) {counter : UInt64}
    (hbelow : counter.toNat + Request.counterStep + 1 < 2 ^ 64) {previous : Packet}
    (hstale : Stale (counter + 1) previous) : previous ≠ r.packet hash secretData counter := by
  rintro rfl
  have hrebuilt := rebuilt_packet hash secretData hadvances hbelow
  by_cases hbytes : r.bytes = []
  · -- A resynchronisation is refused the second time.
    have hflag : (r.packet hash secretData counter).counterResyncFlag ≠ 0 := by
      have hsame : (r.packet hash secretData counter).counterResyncFlag
          = (libncPacket r.bytes).counterResyncFlag := encode_flag ..
      rw [hsame]
      exact fun h => (libncPacket_flag_eq_zero r.bytes).mp h hbytes
    rw [hstale.2 hflag] at hrebuilt
    cases hrebuilt
  · have hflag := (libncPacket_flag_eq_zero r.bytes).mpr hbytes
    have hnext : r.nextCounter counter = counter + 1 := by
      rw [Request.nextCounter, Request.startCounter, if_neg fun h => hbytes (hadvances h),
        advanceCounter, if_pos hflag]
    rw [hnext] at hrebuilt
    exact hstale.1 hrebuilt

theorem packet_flag (secretData : List UInt8) (r : Request) (counter : UInt64) :
    (r.packet hash secretData counter).counterResyncFlag &&& 0x7f = 0 := by
  have hsame : (r.packet hash secretData counter).counterResyncFlag
      = (libncPacket r.bytes).counterResyncFlag := encode_flag ..
  rw [hsame]
  exact libncPacket_flag r.bytes

theorem stale_packet (secretData : List UInt8) (r : Request) {counter : UInt64}
    (hbelow : (r.nextCounter counter).toNat + 1 < 2 ^ 64) :
    Stale (r.nextCounter counter + 1) (r.packet hash secretData counter) :=
  stale_encoded hash secretData (libncPacket r.bytes) (r.startCounter counter) hbelow

/-- **The packets of a session are in step**, once the first is. -/
theorem inStep_packets (secretData : List UInt8) {requests : List Request}
    (hadvances : ∀ r ∈ requests, r.advances = true → r.bytes = []) {counter : UInt64}
    (hbelow : counter.toNat + Request.counterStep * requests.length + 1 < 2 ^ 64)
    {previous : Packet} (hstale : Stale (counter + 1) previous) :
    InStep hash secretData (counter + 1) previous (packets hash secretData requests counter) := by
  induction requests generalizing counter previous with
  | nil => exact .nil _ _
  | cons r requests ih =>
    rw [List.length_cons, Nat.mul_succ] at hbelow
    have hr := hadvances r List.mem_cons_self
    obtain ⟨-, -, hnext⟩ := r.nextCounter_bounds counter (by omega)
    exact .cons (packet_flag secretData r counter)
      (rebuilt_packet hash secretData hr (by omega)) (encode_hmac ..)
      (packet_differs secretData hr (by omega) hstale)
      (ih (fun r hmem => hadvances r (List.mem_cons_of_mem _ hmem)) (by omega)
        (stale_packet secretData r (by omega)))

/-- A clock that accepts the first of some packets. -/
def Accepts (counter : UInt64) (previous : Packet) (sent : List (UInt64 × Packet)) : Prop :=
  ∀ e ∈ sent.head?, rebuildCounter e.2 counter = some e.1 ∧ previous ≠ e.2

theorem inStep_session (secretData : List UInt8) {requests : List Request}
    (hadvances : ∀ r ∈ requests, r.advances = true → r.bytes = []) {start counter : UInt64}
    (hbelow : start.toNat + Request.counterStep * requests.length + 1 < 2 ^ 64)
    {previous : Packet}
    (hfirst : Accepts counter previous (packets hash secretData requests start)) :
    InStep hash secretData counter previous (packets hash secretData requests start) := by
  cases requests with
  | nil => exact .nil _ _
  | cons r requests =>
    rw [List.length_cons, Nat.mul_succ] at hbelow
    obtain ⟨-, -, hnext⟩ := r.nextCounter_bounds start (by omega)
    obtain ⟨hrebuilt, hdiffers⟩ := hfirst _ (Option.mem_def.mpr rfl)
    exact .cons (packet_flag secretData r start) hrebuilt (encode_hmac ..) hdiffers
      (inStep_packets secretData (fun r hmem => hadvances r (List.mem_cons_of_mem _ hmem))
        (by omega) (stale_packet secretData r (by omega)))

end

/-! ## The server -/

/-- **The new codes of a server's commands** are those of the datagrams that look like one. -/
theorem newCodes_datagrams (server : Server433) (datagrams : List (List UInt8)) :
    (commandsOfDatagrams server datagrams).filterMap Rx433.newCodeOf
      = (datagrams.filter isNewCode).map fun datagram =>
          (AbstractData.symbols datagram).map Tx433.fiveBits := by
  unfold commandsOfDatagrams
  have hcons : ∀ datagram datagrams, List.filterMap
      (fun datagram => (server.decodeDatagram datagram).1) (datagram :: datagrams)
        = (server.decodeDatagram datagram).1.toList
          ++ List.filterMap (fun datagram => (server.decodeDatagram datagram).1) datagrams := by
    intro datagram datagrams
    rw [List.filterMap_cons]
    cases (server.decodeDatagram datagram).1 <;> rfl
  induction datagrams with
  | nil => rfl
  | cons datagram datagrams ih =>
    rw [hcons, List.filterMap_append, ih]
    by_cases h : isNewCode datagram = true
    · rw [congrArg Prod.fst (decodeDatagram_newCode server h), List.filter_cons_of_pos h]
      rfl
    · rw [List.filter_cons_of_neg h]
      cases hdecode : (server.decodeDatagram datagram).1 with
      | none => rfl
      | some data =>
        obtain ⟨number, rfl⟩ := decodeDatagram_other server h data (Option.mem_def.mpr hdecode)
        rfl

theorem symbols_datagramOf (rs : Rs.RsControl) (packet : Packet) :
    AbstractData.symbols (datagramOf rs packet) = ncrsEncode rs packet.toBytes := by
  apply Vector.ext
  intro i hi
  have hcode : (datagramOf rs packet).drop Server433.ncHeaderSize
      = (ncrsEncode rs packet.toBytes).toList := rfl
  unfold AbstractData.symbols
  rw [Vector.getElem_ofFn, hcode, List.getD_eq_getElem?_getD, Vector.getElem?_toList,
    Vector.getElem?_eq_getElem hi]
  rfl

theorem fiveBits_ncrsEncode {rs : Rs.RsControl} (hrs : ncrsInit = some rs) (packet : Packet) :
    (ncrsEncode rs packet.toBytes).map Tx433.fiveBits = ncrsEncode rs packet.toBytes := by
  obtain rfl : Rs.rs32 = rs := Option.some.inj (ncrsInit_eq.symm.trans hrs)
  exact Tx433.map_fiveBits_of_fiveBit (ncrsEncode_codeword packet.toBytes).1

/-- An invocation that only advances the counter sends no bytes. -/
theorem bytes_of_advances {invocations : List (Surroundings × List Text)} {requests : List Request}
    (hmakes : List.Forall₂ Makes invocations requests) :
    ∀ r ∈ requests, r.advances = true → r.bytes = [] := by
  induction hmakes with
  | nil => exact fun _ hmem => absurd hmem List.not_mem_nil
  | cons hmake _ ih =>
    intro r hmem
    rcases List.mem_cons.mp hmem with rfl | hmem
    · have hrequest := hmake.1
      unfold requestOf at hrequest
      split at hrequest
      · cases hrequest
      · exact request_advances hrequest
    · exact ih r hmem

/-- What is sent is taken for a new code. -/
theorem isNewCode_datagramOf (rs : Rs.RsControl) (packet : Packet) :
    isNewCode (datagramOf rs packet) = true := by
  refine decide_eq_true ⟨?_, List.prefix_append header _⟩
  rw [datagramOf, List.length_append, Vector.length_toList]
  rfl

/-! ## All the way -/

/-- **Every request is executed once, in order**, if nothing is lost: the server is sent no other
    new codes and broadcasts all that it is sent, the main loop comes by in time and does whatever
    else it does, and the first packet is accepted. -/
theorem requests_executed (hash : Hash) {rs : Rs.RsControl} (hrs : ncrsInit = some rs)
    {invocations : List (Surroundings × List Text)} {requests : List Request}
    (hmakes : List.Forall₂ Makes invocations requests)
    {files : EnvName → Option (List UInt8)} {f : SecretFile} (hf : savedFile files = some f)
    (hbelow : f.counter.toNat + Request.counterStep * requests.length + 1 < 2 ^ 64)
    (server : Server433) {arrivals : List (List UInt8)}
    (harrivals : arrivals.filter isNewCode = (session hash invocations files).1)
    {radio : Radio} (hsettled : Rx433.Settled radio.rx)
    (hempty : radio.mailbox.newCodeReady = false) {events : List RadioEvent}
    (hattended : Radio.Attended radio.rx.oldTime (commandsOfDatagrams server arrivals) events)
    (htaken : (Mealy.run Radio.step events radio).1.mailbox.newCodeReady = false)
    {r : Receiver} {clock : Clock} (hclock : r.clock = some clock)
    (hfirst : Accepts clock.hmacMessageCounter clock.previousPacket
      (packets hash f.secretData.toList requests f.counter))
    {calls : List Receiver.Call}
    (hcalls : calls.filterMap Receiver.Call.mailbox? = Radio.polled events radio) :
    (Receiver.runCalls hash f.secretData.toList rs calls r).commands
      = r.commands ++ commandsOfRequests requests f.counter := by
  have hcodes : Radio.polledCodes events radio
      = (packets hash f.secretData.toList requests f.counter).map fun e =>
          ncrsEncode rs e.2.toBytes := by
    have hpolled := Radio.polled_attended hsettled hattended hempty
    have hpending : (Mealy.run Radio.step events radio).1.mailbox.code? = none := by
      rw [Mailbox.code?, htaken]
      rfl
    rw [hpending, Option.toList_none, List.append_nil, newCodes_datagrams, harrivals,
      session_sends hrs hmakes hf (by omega), List.map_map] at hpolled
    rw [hpolled]
    apply List.map_congr_left
    intro e _
    exact (congrArg _ (symbols_datagramOf rs e.2)).trans (fiveBits_ncrsEncode hrs e.2)
  have htakes : calls.filterMap Receiver.Call.code?
      = (packets hash f.secretData.toList requests f.counter).map fun e =>
          ncrsEncode rs e.2.toBytes := by
    rw [← hcodes, Radio.polledCodes, ← hcalls, List.filterMap_filterMap]
    rfl
  have hsent := inStep_session f.secretData.toList (bytes_of_advances hmakes) hbelow hfirst
  obtain ⟨-, hcommands⟩ := Receiver.runCalls_inStep hrs hsent htakes
    (r := r) ⟨clock, hclock, rfl, rfl⟩
  rw [hcommands, commandsOfSent_packets]

/-! ## An alarm is set, and unset -/

def sampleInvocations : List (Surroundings × List Text) :=
  [(sampleSurroundings, sampleArgs), (sampleSurroundings, ["unset_alarm".toList])]

def sampleRequests : List Request :=
  [sampleRequest, ⟨#v['a'.toUInt8, 0, 0, 0, 0, 0], 1, false⟩]

theorem makes_sample : List.Forall₂ Makes sampleInvocations sampleRequests :=
  .cons ⟨requestOf_sample, goesWell_sample⟩
    (.cons ⟨by decide +kernel, fun _ => rfl, rfl, rfl, rfl⟩ .nil)

/-- The edges of the broadcast of a datagram, which is begun at `start`. -/
def edgesOf (start : UInt32) (datagram : List UInt8) : List UInt32 :=
  (Tx433.risingEdges 0 false (AbstractData.ncData datagram).deviceSend).map fun n =>
    start + UInt32.ofNat n

theorem edgesOf_eq (start : UInt32) (datagram : List UInt8) :
    ∃ times, edgesOf start datagram = start :: times ∧
      ∀ before, (start :: times).getLastD before = start + 119040 := by
  unfold edgesOf
  have hinner : Tx433.risingEdges 0 false (AbstractData.ncData datagram).deviceSend = _ :=
    Rx433.risingEdges_inner 0 _
  have hzero : start + UInt32.ofNat 0 = start := UInt32.add_zero start
  rw [hinner, List.map_cons, hzero, List.map_append]
  refine ⟨_, rfl, fun before => ?_⟩
  rw [← List.cons_append, List.map_singleton, List.getLastD_concat]
  rfl

/-- The edges of the two broadcasts, 80 milliseconds apart, with a poll before each and one after
    the last. -/
def sampleEvents : List RadioEvent :=
  let sent := packets sha256 sampleSecret.secretData.toList sampleRequests sampleSecret.counter
  .poll :: (edgesOf 5000 (datagramOf Rs.rs32 (sent.getD 0 (0, Packet.zero)).2)).map .edge
    ++ (.poll :: (edgesOf 205000 (datagramOf Rs.rs32 (sent.getD 1 (0, Packet.zero)).2)).map .edge
      ++ [.poll])

theorem attended_sample (first second : List UInt8) :
    Radio.Attended 0 [.ncData first, .ncData second]
      (.poll :: (edgesOf 5000 first).map .edge
        ++ (.poll :: (edgesOf 205000 second).map .edge ++ [.poll])) := by
  have hfirst := Rx433.jittered_exact 5000
    (Tx433.risingEdges 0 false (AbstractData.ncData first).deviceSend)
  have hsecond := Rx433.jittered_exact 205000
    (Tx433.risingEdges 0 false (AbstractData.ncData second).deviceSend)
  obtain ⟨times, htimes, hlast⟩ := edgesOf_eq 5000 first
  obtain ⟨times', htimes', hlast'⟩ := edgesOf_eq 205000 second
  change List.Forall₂ _ _ (edgesOf 5000 first) at hfirst
  change List.Forall₂ _ _ (edgesOf 205000 second) at hsecond
  rw [htimes] at hfirst ⊢
  rw [htimes'] at hsecond ⊢
  refine Radio.attended_cons hfirst (by decide) (by decide) ?_
  rw [hlast]
  exact Radio.attended_cons hsecond (by decide) (by decide) (.nil _ rfl)

def sampleReceiver : Receiver where
  nvram := fun _ => 0
  clock := some ⟨5, Packet.zero, ⟨0, .disabled⟩, ⟨0, 0⟩⟩
  commands := []

theorem samplePacket_ne_zero : Packet.zero ≠ samplePacket := by
  intro heq
  obtain ⟨hpayload, -⟩ := encode_ordinary sha256 sampleSecret.secretData.toList
    (libncPacket sampleRequest.bytes) (sampleRequest.startCounter sampleSecret.counter) (by decide)
  have hsame : Packet.zero.payload = (libncPacket sampleRequest.bytes).payload :=
    (congrArg Packet.payload heq).trans hpayload
  exact absurd hsame (by decide)

/-- `txnc433 set_alarm 7 30` and `txnc433 unset_alarm`, with a datagram that is no command between
    them, and a clock that is as far as the sender. -/
theorem requests_executed_sample :
    (Receiver.runCalls sha256 sampleSecret.secretData.toList Rs.rs32
        ((Radio.polled sampleEvents Radio.booted).map .mailReceiveMessages)
        sampleReceiver).commands
      = [⟨6, padded ['A'.toUInt8, 7, 30], 1⟩, ⟨7, padded ['a'.toUInt8], 1⟩] := by
  obtain ⟨sent, hsent⟩ : ∃ sent, packets sha256 sampleSecret.secretData.toList sampleRequests
    sampleSecret.counter = sent := ⟨_, rfl⟩
  obtain ⟨first, second, rfl⟩ : ∃ first second, sent = [first, second] := ⟨_, _, hsent.symm⟩
  have hsession : (session sha256 sampleInvocations sampleFiles).1
      = [datagramOf Rs.rs32 first.2, datagramOf Rs.rs32 second.2] := by
    rw [session_sends ncrsInit_eq makes_sample savedFile_sample (by decide), hsent]
    rfl
  have hother : isNewCode ['x'.toUInt8] = false := by decide
  have harrivals : [datagramOf Rs.rs32 first.2, ['x'.toUInt8],
        datagramOf Rs.rs32 second.2].filter isNewCode
      = (session sha256 sampleInvocations sampleFiles).1 := by
    rw [hsession, List.filter_cons_of_pos (isNewCode_datagramOf _ _),
      List.filter_cons_of_neg (by rw [hother]; decide),
      List.filter_cons_of_pos (isNewCode_datagramOf _ _)]
    rfl
  have hcommands : commandsOfDatagrams (Server433.init []) [datagramOf Rs.rs32 first.2,
        ['x'.toUInt8], datagramOf Rs.rs32 second.2]
      = [.ncData (datagramOf Rs.rs32 first.2), .ncData (datagramOf Rs.rs32 second.2)] := by
    have hnone : ((Server433.init []).decodeDatagram ['x'.toUInt8]).1 = none := by decide +kernel
    have hsome (packet : Packet) := congrArg Prod.fst
      (decodeDatagram_newCode (Server433.init []) (isNewCode_datagramOf Rs.rs32 packet))
    simp only [commandsOfDatagrams, List.filterMap_cons, List.filterMap_nil, hsome, hnone]
  have hevents : sampleEvents = .poll :: (edgesOf 5000 (datagramOf Rs.rs32 first.2)).map .edge
      ++ (.poll :: (edgesOf 205000 (datagramOf Rs.rs32 second.2)).map .edge ++ [.poll]) := by
    unfold sampleEvents
    rw [hsent]
    rfl
  have hlast : (Mealy.run Radio.step sampleEvents Radio.booted).1.mailbox.newCodeReady
      = false := by
    rw [hevents, ← List.append_assoc, Mealy.run_append]
    rfl
  have hcalls : ((Radio.polled sampleEvents Radio.booted).map
      Receiver.Call.mailReceiveMessages).filterMap Receiver.Call.mailbox?
        = Radio.polled sampleEvents Radio.booted := by
    rw [List.filterMap_map]
    exact List.filterMap_some
  refine requests_executed sha256 ncrsInit_eq makes_sample savedFile_sample (by decide)
    (Server433.init []) harrivals Rx433.settled_initial rfl
    (hcommands ▸ hevents ▸ attended_sample _ _) hlast
    (show sampleReceiver.clock = some _ from rfl) ?_ hcalls
  intro e he
  obtain rfl := Option.some.inj he
  exact ⟨rebuilt_packet sha256 sampleSecret.secretData.toList (fun h => absurd h (by decide))
    (by decide), samplePacket_ne_zero⟩

end Txnc433
end CpeClock
