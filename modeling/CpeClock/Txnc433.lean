import CpeClock.Lib.Numerals
import CpeClock.Server433
import CpeClock.Station
import Mathlib.Data.List.TakeWhile

/-!
# `txnc433.c` and `udp.c` — the command line

`main` makes a payload of its arguments: every argument is read as a number first, and then a known
word overwrites what it needs and says how many bytes there are. An invocation that sends something
has saved the counter of the packet before, and its packet is the one `hmac433_encode` makes of the
request (`invoke_sent_iff`).

The text of an argument is the list of its bytes, without the NUL that ends it. What the loops of
`set_time` find the time to be is a parameter, and so is whether the calls of the system go well.
-/

namespace CpeClock
namespace Txnc433

open Lib Hmac433 Mail Ncrs Libnc

/-! ## The source -/

/-- The digits below a base. -/
def digitBelow (base : Nat) (c : Char) : Option Nat := (Text.hexDigit c).filter (· < base)

/-- `strtol(text, NULL, 0)`, with a `long` of 64 bits. -/
def strtol (text : Text) : Int :=
  let text := text.dropWhile Text.isSpace
  let negative := text.head? = some '-'
  let text := if text.head? = some '-' ∨ text.head? = some '+' then text.tail else text
  let (base, text) :=
    if ['0', 'x'] <+: text ∨ ['0', 'X'] <+: text then (16, text.drop 2)
    else if text.head? = some '0' then (8, text)
    else (10, text)
  let n := Numerals.value (digitBelow base) base
    (text.takeWhile fun c => (digitBelow base c).isSome)
  if negative then max (-2 ^ 63) (-n) else min (2 ^ 63 - 1) n

/-- `strcasecmp` returns zero. -/
def sameWord (a b : Text) : Bool := a.map Char.toLower = b.map Char.toLower

/-- "Skip this obsolete part of the command": the arguments after the program's name, and what is
    in `argv` after them. The last one is still there when the others have moved down. -/
def skipObsolete (args : List Text) : List Text × Option Text :=
  match args with
  | first :: second :: rest =>
    if sameWord first "local".toList || sameWord first "udp".toList then
      (second :: rest, (second :: rest).getLast?)
    else (args, none)
  | _ => (args, none)

/-- A byte of an argument, up to the NUL. -/
def byteAt (text : Text) (k : Nat) : UInt8 := (text[k]?.map fun c => c.toNat.toUInt8).getD 0

/-- The payload with a number for each argument. -/
def numbers (args : List Text) : Payload :=
  Vector.ofFn fun i => if i < args.length then UInt8.ofInt (strtol (args.getD i [])) else 0

/-- The loop that copies the text of a message, with so many turns left: the payload and `i`. -/
def copyMessage (text : Text) : Nat → Nat → Payload → Payload × Nat
  | 0, i, payload => (payload, i)
  | turns + 1, i, payload =>
    let c := byteAt text (i - 1)
    let payload := payload.set! i c
    if c = 0 then (payload, i) else copyMessage text turns (i + 1) payload

/-- What `main` makes of its arguments. -/
structure Request where
  payload : Payload
  size : Nat
  /-- Whether `libnc_advance` is called. -/
  advances : Bool
  deriving DecidableEq

/-- The part of `main` between `libnc_init` and `udp_message`, or `none` where `set_time` fails or a
    message has no text. -/
def request (setTime : UInt32 → Option (UInt8 × UInt8 × UInt8)) (args : List Text)
    (beyond : Option Text) : Option Request :=
  let cmd := args.headD []
  let payload := numbers args
  if sameWord cmd "set_time".toList then
    let latency := if 2 ≤ args.length then strtol (args.getD 1 []) else 100000
    (setTime (1000000 - UInt32.ofInt latency)).map fun (hour, minute, second) =>
      { payload := (((payload.set 0 'T'.toUInt8).set 1 hour).set 2 minute).set 3 second
        size := 4
        advances := false }
  else if sameWord cmd "set_alarm".toList then
    some { payload := payload.set 0 'A'.toUInt8, size := 3, advances := false }
  else if sameWord cmd "unset_alarm".toList then
    some { payload := payload.set 0 'a'.toUInt8, size := 1, advances := false }
  else if sameWord cmd "set_day_night_time".toList then
    some { payload := payload.set 0 'N'.toUInt8, size := 5, advances := false }
  else if sameWord cmd "message".toList then
    ((args[1]?).or beyond).map fun text =>
      let (payload, i) := copyMessage text 5 1 (payload.set 0 'M'.toUInt8)
      { payload := payload, size := i, advances := false }
  else if sameWord cmd "counter".toList then
    some { payload := payload.set 0 'C'.toUInt8, size := 1, advances := false }
  else if sameWord cmd "resync".toList then
    some { payload := payload, size := resync, advances := false }
  else if sameWord cmd "advresync".toList then
    some { payload := payload, size := resync, advances := true }
  else
    some { payload := payload, size := min args.length 6, advances := false }

/-- What an invocation meets: the time that `set_time` finds for a trigger, what is on the stack of
    `libnc_encode`, and which calls go well. -/
structure Surroundings where
  setTime : UInt32 → Option (UInt8 × UInt8 × UInt8)
  packet2 : Message
  opensSocket : Bool
  savesAdvance : Bool
  saves : Bool
  sends : Bool

def header : List UInt8 := ['N'.toUInt8, 'C'.toUInt8]

/-- `udp_message`: the datagram that was sent, if its return value is 1. -/
def udpMessage (hash : Hash) (rs : Rs.RsControl) (around : Surroundings) (payload : List UInt8)
    (s : Libnc) : Option (List UInt8) × Libnc :=
  if ¬ around.opensSocket then (none, s)
  else
    let (encoded, message, s) := libncEncode hash rs payload (Vector.replicate 31 0) ncDataSize
      around.packet2 around.saves s
    if ¬ encoded then (none, s)
    else if ¬ around.sends then (none, s)
    else (some (header ++ message.toList), s)

/-- `main`, with the arguments after the program's name: the datagram that was sent, if it returns
    0. -/
def main (hash : Hash) (around : Surroundings) (args : List Text) (s : Libnc) :
    Option (List UInt8) × Libnc :=
  let (args, beyond) := skipObsolete args
  if args = [] then (none, s)
  else
    let (initialised, s) := libncInit s
    match initialised, ncrsInit with
    | true, some rs =>
      match request around.setTime args beyond with
      | none => (none, s)
      | some r =>
        if r.advances then
          let (advanced, s) := libncAdvance around.savesAdvance s
          if ¬ advanced then (none, s)
          else udpMessage hash rs around (r.payload.toList.take r.size) s
        else udpMessage hash rs around (r.payload.toList.take r.size) s
    | _, _ => (none, s)

/-! ## Numbers -/

theorem reads_digitBelow : Numerals.Reads (digitBelow 10) 10 := by decide

theorem decimal_isDigit (n : Nat) :
    ∀ c ∈ Nat.toDigits 10 n, (digitBelow 10 c).isSome = true := by
  intro c hc
  obtain ⟨d, hd, rfl⟩ := Numerals.mem_toDigits (by decide) n c hc
  rw [reads_digitBelow d hd]
  rfl

/-- **A decimal is read as its number.** -/
theorem strtol_decimal {n : Nat} (hn : n < 2 ^ 63) : strtol (Nat.toDigits 10 n) = n := by
  rcases Nat.eq_zero_or_pos n with rfl | hpos
  · decide
  · obtain ⟨d, hd, hd', hhead⟩ := Numerals.head_toDigits (show 1 < 10 by decide) hpos
    obtain ⟨rest, htext⟩ : ∃ rest, Nat.toDigits 10 n = d.digitChar :: rest := by
      cases htext : Nat.toDigits 10 n with
      | nil => rw [htext] at hhead; cases hhead
      | cons c rest =>
        rw [htext] at hhead
        exact ⟨rest, congrArg (· :: rest) (Option.some.inj hhead)⟩
    have hfirst : ∀ d < 10, 0 < d → Text.isSpace d.digitChar = false ∧
        d.digitChar ≠ '-' ∧ d.digitChar ≠ '+' ∧ d.digitChar ≠ '0' := by decide
    obtain ⟨hspace, hminus, hplus, hzero⟩ := hfirst d hd' hd
    have hdigits := decimal_isDigit n
    have hvalue := Numerals.value_toDigits reads_digitBelow (by decide) n
    rw [htext] at hdigits hvalue ⊢
    have hsign : ¬ ((d.digitChar :: rest).head? = some '-'
        ∨ (d.digitChar :: rest).head? = some '+') := by simp [hminus, hplus]
    have hhex : ¬ (['0', 'x'] <+: d.digitChar :: rest ∨ ['0', 'X'] <+: d.digitChar :: rest) := by
      simp [hzero.symm]
    have hoctal : ¬ (d.digitChar :: rest).head? = some '0' := by simp [hzero]
    unfold strtol
    rw [List.dropWhile_cons_of_neg (by rw [hspace]; decide)]
    simp only [if_neg hsign, if_neg hhex, if_neg hoctal]
    rw [List.takeWhile_eq_self_iff.mpr hdigits, hvalue, if_neg fun h => hsign (.inl h)]
    omega

theorem ofInt_strtol_decimal (b : UInt8) :
    UInt8.ofInt (strtol (Nat.toDigits 10 b.toNat)) = b := by
  have hb := b.toNat_lt
  rw [strtol_decimal (by omega), ← UInt8.toNat_inj, UInt8.ofInt, UInt8.toNat_ofNat']
  omega

/-! ## What is sent -/

namespace Request

/-- The bytes that are handed to `udp_message`. -/
def bytes (r : Request) : List UInt8 := r.payload.toList.take r.size

/-- The counter that `libnc_encode` finds. -/
def startCounter (r : Request) (counter : UInt64) : UInt64 :=
  if r.advances then counter + 0x10000 else counter

/-- The counter of the packet. -/
def nextCounter (r : Request) (counter : UInt64) : UInt64 :=
  advanceCounter (libncPacket r.bytes).counterResyncFlag (r.startCounter counter)

def packet (hash : Hash) (secretData : List UInt8) (r : Request) (counter : UInt64) : Packet :=
  (hmac433Encode hash secretData (libncPacket r.bytes) (r.startCounter counter)).1

/-- The counter moves on by at most so much. -/
def counterStep : Nat := 0x10000 + 256

theorem nextCounter_bounds (r : Request) (counter : UInt64)
    (hbelow : counter.toNat + counterStep < 2 ^ 64) :
    (r.startCounter counter).toNat < (r.nextCounter counter).toNat ∧
      counter.toNat < (r.nextCounter counter).toNat ∧
      (r.nextCounter counter).toNat ≤ counter.toNat + counterStep := by
  unfold counterStep at hbelow ⊢
  have hstart : (r.startCounter counter).toNat
      = if r.advances then counter.toNat + 0x10000 else counter.toNat := by
    unfold startCounter
    split
    · rw [UInt64.toNat_add]
      change (counter.toNat + 0x10000) % 2 ^ 64 = _
      omega
    · rfl
  have hnext := advanceCounter_mod (libncPacket r.bytes).counterResyncFlag
    (r.startCounter counter)
  rw [nextCounter, hnext]
  split at hstart <;> split <;> omega

end Request

/-- The calls of the system go well. -/
structure Surroundings.GoesWell (around : Surroundings) (r : Request) : Prop where
  savesAdvance : r.advances = true → around.savesAdvance = true
  opensSocket : around.opensSocket = true
  saves : around.saves = true
  sends : around.sends = true

/-- The datagram with the symbols of a packet. -/
def datagramOf (rs : Rs.RsControl) (packet : Packet) : List UInt8 :=
  header ++ (ncrsEncode rs packet.toBytes).toList

theorem udpMessage_eq (hash : Hash) {rs : Rs.RsControl} (hrs : ncrsInit = some rs)
    (around : Surroundings) (payload : List UInt8) {s : Libnc} (hfd : s.secretFd.isSome)
    (hnowrap : s.secretFile.counter
      < advanceCounter (libncPacket payload).counterResyncFlag s.secretFile.counter) :
    let encoded := hmac433Encode hash s.secretFile.secretData.toList (libncPacket payload)
      s.secretFile.counter
    udpMessage hash rs around payload s
      = if around.opensSocket then
          (if around.saves ∧ around.sends then some (datagramOf rs encoded.1) else none,
            (saveSecretFile around.saves (s.withCounter encoded.2)).2)
        else (none, s) := by
  dsimp only
  unfold udpMessage
  by_cases hsocket : around.opensSocket = true
  · rw [if_neg (not_not_intro hsocket), if_pos hsocket,
      libncEncode_eq hash hrs hfd hnowrap (Nat.le_refl ncDataSize)]
    dsimp only
    cases hsaves : around.saves with
    | false => rfl
    | true =>
      cases hsends : around.sends with
      | false => rfl
      | true => rfl
  · rw [if_pos hsocket, if_neg hsocket]

theorem withCounter_secretFile (s : Libnc) (counter : UInt64) :
    (s.withCounter counter).secretFile = { s.secretFile with counter := counter } := rfl

theorem libncInit_found {rs : Rs.RsControl} (hrs : ncrsInit = some rs) {s : Libnc}
    (hfd : s.secretFd = none) {f : SecretFile} (hf : savedFile s.files = some f) :
    (libncInit s).1 = true := by
  have hclosed : ¬ s.secretFd.isSome = true := by rw [hfd]; decide
  unfold libncInit
  rw [if_neg hclosed, hrs]
  dsimp only
  by_cases happdata : readable s.files .appdata = true
  · rw [loadSecretFile_readable (s := { s with secretFile := SecretFile.zero }) happdata,
      if_pos rfl]
  · obtain ⟨hfailed, -, hfiles⟩ := loadSecretFile_unreadable
      (s := { s with secretFile := SecretFile.zero }) happdata hfd
    generalize loadSecretFile .appdata { s with secretFile := SecretFile.zero } = loaded
      at hfailed hfiles
    have hhome : readable loaded.2.files .home = true := by
      rw [hfiles]
      by_contra hhome
      unfold savedFile located at hf
      rw [if_neg happdata, if_neg hhome] at hf
      cases hf
    rw [hfailed, if_neg (by decide), loadSecretFile_readable hhome]

/-- A new process, and the files it finds. -/
def freshProcess (files : EnvName → Option (List UInt8)) : Libnc where
  secretFd := none
  secretFile := SecretFile.zero
  files := files

/-- One invocation: the datagram it sent, if any, and the files afterwards. -/
def invoke (hash : Hash) (around : Surroundings) (args : List Text)
    (files : EnvName → Option (List UInt8)) :
    Option (List UInt8) × (EnvName → Option (List UInt8)) :=
  let (sent, s) := main hash around args (freshProcess files)
  (sent, s.files)

/-- The request an invocation makes, if it gets as far. -/
def requestOf (around : Surroundings) (args : List Text) : Option Request :=
  if (skipObsolete args).1 = [] then none
  else request around.setTime (skipObsolete args).1 (skipObsolete args).2

section

variable {hash : Hash} {rs : Rs.RsControl} {around : Surroundings} {args : List Text}
  {files : EnvName → Option (List UInt8)} {f : SecretFile} {r : Request}

variable (hash) in
/-- `main` after a request was made. -/
theorem main_eq (hrs : ncrsInit = some rs) (hr : requestOf around args = some r)
    (hf : savedFile files = some f) :
    ∃ s : Libnc, s.secretFd = located files ∧ s.secretFd.isSome ∧ s.secretFile = f ∧
      s.files = files ∧
      main hash around args (freshProcess files)
        = if r.advances then
            let (advanced, s) := libncAdvance around.savesAdvance s
            if ¬ advanced then (none, s) else udpMessage hash rs around r.bytes s
          else udpMessage hash rs around r.bytes s := by
  have hinit := libncInit_found hrs (s := freshProcess files) rfl hf
  obtain ⟨hfiles, hfd, hfile⟩ := libncInit_files hrs (s := freshProcess files) rfl
  have hopen := libncInit_open hinit
  refine ⟨(libncInit (freshProcess files)).2, hfd, hopen, hfile f hf, hfiles, ?_⟩
  unfold requestOf at hr
  split at hr
  · cases hr
  · next hargs =>
    unfold main
    dsimp only
    rw [if_neg hargs]
    generalize hlibnc : libncInit (freshProcess files) = initialised at hinit
    obtain ⟨ok, s⟩ := initialised
    obtain rfl : ok = true := hinit
    rw [hrs]
    dsimp only
    rw [hr]
    rfl

theorem invoke_refused (hr : requestOf around args = none) :
    (invoke hash around args files).1 = none := by
  unfold requestOf at hr
  unfold invoke main
  dsimp only
  split
  · rfl
  · next hargs =>
    rw [if_neg hargs] at hr
    split
    · rw [hr]
    · rfl

variable (hash) in
/-- The library when `udp_message` is called: its counter is the start counter. -/
theorem main_calls (hrs : ncrsInit = some rs) (hr : requestOf around args = some r)
    (hf : savedFile files = some f)
    (hadvance : r.advances = true → around.savesAdvance = true) :
    ∃ s : Libnc, s.secretFd = located s.files ∧ s.secretFd.isSome ∧
      s.secretFile = { f with counter := r.startCounter f.counter } ∧
      main hash around args (freshProcess files) = udpMessage hash rs around r.bytes s := by
  obtain ⟨s, hfd, hopen, rfl, rfl, hmain⟩ := main_eq hash hrs hr hf
  by_cases hadvances : r.advances = true
  · have hadvanced : r.startCounter s.secretFile.counter = s.secretFile.counter + 0x10000 :=
      if_pos hadvances
    rw [if_pos hadvances, libncAdvance_eq hopen, hadvance hadvances, ← hadvanced] at hmain
    generalize r.startCounter s.secretFile.counter = c at hmain ⊢
    dsimp only at hmain
    rw [if_neg (by decide)] at hmain
    obtain ⟨hlocated, -⟩ := saveSecretFile_saved (s := s.withCounter c) hfd hopen
    obtain ⟨hfd', hfile'⟩ := saveSecretFile_static true (s.withCounter c)
    refine ⟨_, ?_, ?_, hfile', hmain⟩
    · rw [hfd', hlocated]
      exact hfd
    · rw [hfd']
      exact hopen
  · rw [if_neg hadvances] at hmain
    refine ⟨s, hfd, hopen, ?_, hmain⟩
    rw [Request.startCounter, if_neg hadvances]

/-- **An invocation that goes well sends its request**, and the file then has the packet's
    counter. -/
theorem invoke_sends (hash : Hash) (hrs : ncrsInit = some rs)
    (hr : requestOf around args = some r) (hwell : around.GoesWell r)
    (hf : savedFile files = some f)
    (hbelow : f.counter.toNat + Request.counterStep < 2 ^ 64) :
    (invoke hash around args files).1
        = some (datagramOf rs (r.packet hash f.secretData.toList f.counter)) ∧
      savedFile (invoke hash around args files).2
        = some { f with counter := r.nextCounter f.counter } := by
  obtain ⟨hstart, -, -⟩ := r.nextCounter_bounds _ hbelow
  obtain ⟨s, hfd, hopen, hfile, hudp⟩ :=
    main_calls hash hrs hr hf hwell.savesAdvance
  have hcounter : s.secretFile.counter = r.startCounter f.counter := by rw [hfile]
  have hsent := udpMessage_eq hash hrs around r.bytes hopen
    (by rw [hcounter]; exact UInt64.lt_iff_toNat_lt.mpr hstart)
  obtain ⟨-, hsaved⟩ := saveSecretFile_saved (s := s.withCounter (hmac433Encode hash
    s.secretFile.secretData.toList (libncPacket r.bytes) s.secretFile.counter).2) hfd hopen
  unfold invoke
  dsimp only
  rw [hudp, hsent, if_pos hwell.opensSocket, if_pos ⟨hwell.saves, hwell.sends⟩, hwell.saves]
  dsimp only
  rw [hsaved, withCounter_secretFile, hfile]
  exact ⟨rfl, rfl⟩

/-- Whatever goes wrong, nothing is sent. -/
theorem invoke_fails (hrs : ncrsInit = some rs) (hr : requestOf around args = some r)
    (hbad : ¬ around.GoesWell r) (hf : savedFile files = some f)
    (hbelow : f.counter.toNat + Request.counterStep < 2 ^ 64) :
    (invoke hash around args files).1 = none := by
  obtain ⟨hstart, -, -⟩ := r.nextCounter_bounds _ hbelow
  by_cases hadvance : r.advances = true → around.savesAdvance = true
  · obtain ⟨s, hfd, hopen, hfile, hudp⟩ := main_calls hash hrs hr hf hadvance
    have hcounter : s.secretFile.counter = r.startCounter f.counter := by rw [hfile]
    have hsent := udpMessage_eq hash hrs around r.bytes hopen
      (by rw [hcounter]; exact UInt64.lt_iff_toNat_lt.mpr hstart)
    unfold invoke
    dsimp only
    rw [hudp, hsent]
    split
    · next hsocket =>
      exact if_neg fun hboth => hbad ⟨hadvance, hsocket, hboth.1, hboth.2⟩
    · rfl
  · obtain ⟨hadvances, hunsaved⟩ := Classical.not_imp.mp hadvance
    obtain ⟨s, -, hopen, -, -, hmain⟩ := main_eq hash hrs hr hf
    unfold invoke
    dsimp only
    rw [hmain, if_pos hadvances, libncAdvance_eq hopen]
    dsimp only
    rw [if_pos hunsaved]

/-- **What an invocation sends.** A datagram leaves if and only if the arguments are a request and
    every call goes well, and then it is the packet of that request, whose counter was saved. -/
theorem invoke_sent_iff (hash : Hash) {rs : Rs.RsControl} (hrs : ncrsInit = some rs)
    (around : Surroundings) (args : List Text) {files : EnvName → Option (List UInt8)}
    {f : SecretFile} (hf : savedFile files = some f)
    (hbelow : f.counter.toNat + Request.counterStep < 2 ^ 64) (datagram : List UInt8) :
    (invoke hash around args files).1 = some datagram
      ↔ ∃ r, requestOf around args = some r ∧ around.GoesWell r ∧
          datagram = datagramOf rs (r.packet hash f.secretData.toList f.counter) ∧
          savedFile (invoke hash around args files).2
            = some { f with counter := r.nextCounter f.counter } := by
  cases hr : requestOf around args with
  | none =>
    rw [invoke_refused hr]
    constructor
    · intro h
      cases h
    · rintro ⟨r, hnone, -⟩
      cases hnone
  | some r =>
    by_cases hwell : around.GoesWell r
    · obtain ⟨hsends, hsaved⟩ := invoke_sends hash hrs hr hwell hf hbelow
      rw [hsends]
      constructor
      · intro h
        exact ⟨r, rfl, hwell, (Option.some.inj h).symm, hsaved⟩
      · rintro ⟨r', hr', -, rfl, -⟩
        rw [Option.some.inj hr']
    · rw [invoke_fails hrs hr hwell hf hbelow]
      constructor
      · intro h
        cases h
      · rintro ⟨r', hr', hwell', -⟩
        exact absurd (Option.some.inj hr' ▸ hwell') hwell

end

def sampleSurroundings : Surroundings where
  setTime := fun _ => none
  packet2 := Vector.replicate 14 0
  opensSocket := true
  savesAdvance := true
  saves := true
  sends := true

def sampleRequest : Request := ⟨#v['A'.toUInt8, 7, 30, 0, 0, 0], 3, false⟩

def sampleArgs : List Text := ["set_alarm".toList, "7".toList, "30".toList]

theorem requestOf_sample : requestOf sampleSurroundings sampleArgs = some sampleRequest := by
  decide +kernel

theorem goesWell_sample : sampleSurroundings.GoesWell sampleRequest := ⟨fun _ => rfl, rfl, rfl, rfl⟩

def sampleSecret : SecretFile := ⟨4, Vector.replicate 56 0⟩

def sampleFiles : EnvName → Option (List UInt8) :=
  fun envName => if envName = .home then some (4 :: List.replicate 63 0) else none

theorem savedFile_sample : savedFile sampleFiles = some sampleSecret := by decide +kernel

def samplePacket : Packet :=
  sampleRequest.packet sha256 sampleSecret.secretData.toList sampleSecret.counter

/-- `txnc433 set_alarm 7 30`, with a counter of 4 in the file. -/
theorem invoke_sent_iff_sample :
    (invoke sha256 sampleSurroundings sampleArgs sampleFiles).1
      = some (datagramOf Rs.rs32 samplePacket) := by
  refine (invoke_sent_iff sha256 ncrsInit_eq sampleSurroundings sampleArgs savedFile_sample
    (by decide) _).mpr ⟨sampleRequest, requestOf_sample, goesWell_sample, rfl, ?_⟩
  exact (invoke_sends sha256 ncrsInit_eq requestOf_sample goesWell_sample savedFile_sample
    (by decide)).2

end Txnc433
end CpeClock
