import CpeClock.PacketCodec

/-!
# `libnc.c` — the sender library

The counter lives in the secret file, and a process works on a copy of it: each call moves the copy
on and then writes it back, and only a call that wrote it back reports success. The static
variables of the library and the files it may find are a `Libnc`; whether a save succeeds is an
argument, and a save that fails leaves the file as it was.

Both machines store the counter little-endian, so a file is read with the same `counterOfData` that
reads NVRAM, and what `save_secret_file` wrote is what `load_secret_file` reads
(`SecretFile.ofBytes_toBytes`).
-/

namespace CpeClock

open Hmac433 Mail Ncrs

/-- `secret_file_t`. -/
@[ext]
structure SecretFile where
  counter : UInt64
  secretData : Vector UInt8 56
  deriving DecidableEq

namespace SecretFile

def size : Nat := 64

/-- The bytes of the struct, which has no padding. -/
def toBytes (s : SecretFile) : List UInt8 := counterData s.counter ++ s.secretData.toList

/-- The struct in 64 bytes of memory. -/
def ofBytes (bytes : List UInt8) : SecretFile where
  counter := counterOfData (bytes.take 8)
  secretData := Vector.ofFn fun i => bytes.getD (8 + i) 0

def zero : SecretFile where
  counter := 0
  secretData := Vector.replicate 56 0

/-- `fread` into the struct: how many bytes were there, and the struct afterwards. -/
def fread (s : SecretFile) (file : List UInt8) : Nat × SecretFile :=
  let read := file.take size
  (read.length, ofBytes (read ++ s.toBytes.drop read.length))

/-- `rewind` and `fwrite`: the file afterwards. -/
def fwrite (s : SecretFile) (file : List UInt8) : List UInt8 := s.toBytes ++ file.drop size

theorem length_toBytes (s : SecretFile) : s.toBytes.length = size := by
  rw [toBytes, List.length_append, length_counterData, Vector.length_toList]
  rfl

theorem ofBytes_toBytes (s : SecretFile) : ofBytes s.toBytes = s := by
  have hcounter : s.toBytes.take 8 = counterData s.counter :=
    List.take_left' (length_counterData s.counter)
  refine SecretFile.ext ?_ ?_
  · rw [ofBytes, hcounter, counterOfData_counterData]
  · apply Vector.ext
    intro i hi
    have hbyte : s.toBytes[8 + i]? = s.secretData.toList[i]? := by
      rw [toBytes, List.getElem?_append_right (by rw [length_counterData]; omega),
        length_counterData, Nat.add_sub_cancel_left]
    simp [ofBytes, List.getD_eq_getElem?_getD, hbyte, hi]

theorem fread_of_le (s : SecretFile) {file : List UInt8} (h : size ≤ file.length) :
    s.fread file = (size, ofBytes (file.take size)) := by
  have hread : (file.take size).length = size := List.length_take_of_le h
  rw [fread, hread, List.drop_eq_nil_of_le (by rw [length_toBytes]), List.append_nil]

end SecretFile

/-- The environment variables that are looked at for a directory. -/
inductive EnvName where
  | appdata
  | home
  deriving DecidableEq

/-- `secret_fd` and `secret_file`, and what `.hmac433.dat` holds in each directory: `none` where
    the variable is not set or the file cannot be opened. -/
structure Libnc where
  secretFd : Option EnvName
  secretFile : SecretFile
  files : EnvName → Option (List UInt8)

namespace Libnc

/-! ## The source -/

def resync : Nat := 0

def ncDataSize : Nat := 31

def loadSecretFile (envName : EnvName) (s : Libnc) : Bool × Libnc :=
  match s.files envName with
  | none => (false, s)
  | some file =>
    let (rc, secretFile) := s.secretFile.fread file
    if rc ≠ SecretFile.size then
      (false, { s with secretFile := secretFile, secretFd := none })
    else
      (true, { s with secretFile := secretFile, secretFd := some envName })

/-- `save_secret_file`: `saves` says whether the writing goes well. -/
def saveSecretFile (saves : Bool) (s : Libnc) : Bool × Libnc :=
  match s.secretFd with
  | none => (false, s)
  | some envName =>
    if saves then
      let file := (s.files envName).map s.secretFile.fwrite
      (true, { s with files := Function.update s.files envName file })
    else
      (false, s)

def libncInit (s : Libnc) : Bool × Libnc :=
  if s.secretFd.isSome then
    (false, s) -- already initialised
  else
    let s := { s with secretFile := SecretFile.zero }
    match ncrsInit with
    | none => (false, s)
    | some _ =>
      let (loaded, s) := loadSecretFile .appdata s
      if loaded then (true, s) else loadSecretFile .home s

/-- An assignment to `secret_file.counter`. -/
def withCounter (s : Libnc) (counter : UInt64) : Libnc :=
  { s with secretFile := { s.secretFile with counter := counter } }

@[simp]
theorem withCounter_secretFd (s : Libnc) (counter : UInt64) :
    (s.withCounter counter).secretFd = s.secretFd := rfl

def libncAdvance (saves : Bool) (s : Libnc) : Bool × Libnc :=
  if s.secretFd.isNone then
    (false, s)
  else
    saveSecretFile saves (s.withCounter (s.secretFile.counter + 0x10000))

/-- The payload field: at most six bytes are copied, the rest are zero. -/
def padded (payload : List UInt8) : Payload := Vector.ofFn fun i => payload.getD i 0

/-- The packet before `hmac433_encode`, with the flag of a "special packet: counter resync" if there
    is no payload. -/
def libncPacket (payload : List UInt8) : Packet where
  payload := padded payload
  counterLow := 0
  hmac := Vector.replicate 6 0
  counterResyncFlag := if payload.length = resync then 0x80 else 0

/-- "Test that the packet can be decoded ok". `packet2` is what the buffer on the stack holds. -/
def selfTest (hash : Hash) (rs : Rs.RsControl) (secretFile : SecretFile) (packet : Packet)
    (message : NcCode) (packet2 : Message) : Bool :=
  let (_, packet2) := ncrsDecode rs packet2 message
  if packet2 ≠ packet.toBytes then
    false
  else
    (hmac433Authenticate hash secretFile.secretData.toList (Packet.ofBytes packet2)
      (secretFile.counter - 1)).isSome

/-- `libnc_encode`, with the caller's `message` buffer and the uninitialised `packet2`: the return
    value, the buffer and the library's state afterwards. -/
def libncEncode (hash : Hash) (rs : Rs.RsControl) (payload : List UInt8) (message : NcCode)
    (maxMessageSize : Nat) (packet2 : Message) (saves : Bool) (s : Libnc) :
    Bool × NcCode × Libnc :=
  if maxMessageSize < ncDataSize then
    (false, message, s)
  else if s.secretFd.isNone then
    (false, message, s)
  else
    let (packet, counter) := hmac433Encode hash s.secretFile.secretData.toList
      (libncPacket payload) s.secretFile.counter
    let s := s.withCounter counter
    let message := ncrsEncode rs packet.toBytes
    if ¬ selfTest hash rs s.secretFile packet message packet2 then
      (false, message, s)
    else
      let (saved, s) := saveSecretFile saves s
      (saved, message, s)

/-! ## The self-check -/

theorem toList_padded {payload : List UInt8} (h : payload.length ≤ 6) :
    (padded payload).toList = payload ++ List.replicate (6 - payload.length) 0 := by
  apply List.ext_getElem
  · rw [Vector.length_toList, List.length_append, List.length_replicate]
    omega
  · intro i hi _
    rw [Vector.length_toList] at hi
    have hbyte : (padded payload)[i] = payload.getD i 0 := Vector.getElem_ofFn ..
    rw [Vector.getElem_toList, hbyte, List.getD_eq_getElem?_getD, List.getElem_append]
    split
    · next hlt => rw [List.getElem?_eq_getElem hlt, Option.getD_some]
    · next hge => rw [List.getElem?_eq_none (by omega), Option.getD_none, List.getElem_replicate]

theorem libncPacket_flag (payload : List UInt8) :
    (libncPacket payload).counterResyncFlag &&& 0x7f = 0 := by
  unfold libncPacket
  dsimp only
  split <;> rfl

/-- **A packet that was just encoded passes the test**, unless the counter wrapped. -/
theorem selfTest_encoded (hash : Hash) {rs : Rs.RsControl} (hrs : ncrsInit = some rs)
    (secretFile : SecretFile) (payload : List UInt8) (packet2 : Message)
    (hnowrap : secretFile.counter
      < advanceCounter (libncPacket payload).counterResyncFlag secretFile.counter) :
    let encoded := hmac433Encode hash secretFile.secretData.toList (libncPacket payload)
      secretFile.counter
    selfTest hash rs { secretFile with counter := encoded.2 } encoded.1
      (ncrsEncode rs encoded.1.toBytes) packet2 = true := by
  dsimp only
  have hflag : (hmac433Encode hash secretFile.secretData.toList (libncPacket payload)
      secretFile.counter).1.counterResyncFlag &&& 0x7f = 0 := by
    rw [encode_flag]
    exact libncPacket_flag payload
  -- The receiver's counter of the test is one less than the packet's.
  have hpos : 0 < (advanceCounter (libncPacket payload).counterResyncFlag
      secretFile.counter).toNat := by
    have h := UInt64.lt_iff_toNat_lt.mp hnowrap
    omega
  have hnear : if (libncPacket payload).counterResyncFlag = 0 then
      (advanceCounter (libncPacket payload).counterResyncFlag secretFile.counter
        - (advanceCounter (libncPacket payload).counterResyncFlag secretFile.counter - 1)).toNat
          ≤ 255
      else advanceCounter (libncPacket payload).counterResyncFlag secretFile.counter - 1
        ≤ advanceCounter (libncPacket payload).counterResyncFlag secretFile.counter := by
    generalize advanceCounter (libncPacket payload).counterResyncFlag secretFile.counter = n
      at hpos
    have hsub : (n - 1).toNat = n.toNat - 1 :=
      UInt64.toNat_sub_of_le _ _ (UInt64.le_iff_toNat_le.mpr hpos)
    split
    · have hone : n - (n - 1) = 1 := by
        rw [← UInt64.toNat_inj,
          UInt64.toNat_sub_of_le _ _ (UInt64.le_iff_toNat_le.mpr (by omega)), hsub]
        show n.toNat - (n.toNat - 1) = 1
        omega
      rw [hone]
      decide
    · rw [UInt64.le_iff_toNat_le, hsub]
      omega
  have hauth := authenticate_encoded hash secretFile.secretData.toList (libncPacket payload)
    secretFile.counter _ hnear
  unfold selfTest
  rw [ncrsDecode_packet hrs packet2 hflag]
  dsimp only
  rw [if_neg (not_not_intro rfl), Packet.ofBytes_toBytes, encode_counter, hauth]
  rfl

/-! ## The calls, with the file open or not -/

theorem isNone_iff {fd : Option EnvName} : fd.isNone = true ↔ ¬ fd.isSome := by
  rw [Option.isNone_iff_eq_none, Option.not_isSome_iff_eq_none]

theorem not_isNone {fd : Option EnvName} (h : fd.isSome) : ¬ fd.isNone = true :=
  fun hnone => isNone_iff.mp hnone h

theorem saveSecretFile_fst (saves : Bool) (s : Libnc) (h : s.secretFd.isSome) :
    (saveSecretFile saves s).1 = saves := by
  obtain ⟨envName, henv⟩ := Option.isSome_iff_exists.mp h
  unfold saveSecretFile
  rw [henv]
  cases saves <;> rfl

theorem saveSecretFile_static (saves : Bool) (s : Libnc) :
    (saveSecretFile saves s).2.secretFd = s.secretFd ∧
      (saveSecretFile saves s).2.secretFile = s.secretFile := by
  unfold saveSecretFile
  split
  · exact ⟨rfl, rfl⟩
  · split <;> exact ⟨rfl, rfl⟩

/-- What `libnc_advance` comes to, with the file open. -/
theorem libncAdvance_eq {s : Libnc} (hfd : s.secretFd.isSome) (saves : Bool) :
    libncAdvance saves s
      = (saves, (saveSecretFile saves (s.withCounter (s.secretFile.counter + 0x10000))).2) := by
  have hsaves := saveSecretFile_fst saves (s.withCounter (s.secretFile.counter + 0x10000))
    (by rw [withCounter_secretFd]; exact hfd)
  rw [libncAdvance, if_neg (not_isNone hfd)]
  exact Prod.ext hsaves rfl

theorem libncAdvance_closed {s : Libnc} (hfd : ¬ s.secretFd.isSome) (saves : Bool) :
    libncAdvance saves s = (false, s) :=
  if_pos (isNone_iff.mpr hfd)

/-- What `libnc_encode` comes to, once the self-check is known to pass. -/
theorem libncEncode_eq (hash : Hash) {rs : Rs.RsControl} (hrs : ncrsInit = some rs) {s : Libnc}
    (hfd : s.secretFd.isSome) {payload : List UInt8}
    (hnowrap : s.secretFile.counter
      < advanceCounter (libncPacket payload).counterResyncFlag s.secretFile.counter)
    {maxMessageSize : Nat} (hsize : ncDataSize ≤ maxMessageSize) (message : NcCode)
    (packet2 : Message) (saves : Bool) :
    let encoded := hmac433Encode hash s.secretFile.secretData.toList (libncPacket payload)
      s.secretFile.counter
    libncEncode hash rs payload message maxMessageSize packet2 saves s
      = (saves, ncrsEncode rs encoded.1.toBytes,
          (saveSecretFile saves (s.withCounter encoded.2)).2) := by
  dsimp only
  have htest := selfTest_encoded hash hrs s.secretFile payload packet2 hnowrap
  dsimp only at htest
  unfold libncEncode
  rw [if_neg (Nat.not_lt.mpr hsize), if_neg (not_isNone hfd)]
  dsimp only [withCounter]
  rw [htest, if_neg (by decide)]
  exact congrArg (·, _, _) (saveSecretFile_fst saves _ hfd)

theorem libncEncode_refused (hash : Hash) (rs : Rs.RsControl) {s : Libnc} {maxMessageSize : Nat}
    (h : ¬ (ncDataSize ≤ maxMessageSize ∧ s.secretFd.isSome)) (payload : List UInt8)
    (message : NcCode) (packet2 : Message) (saves : Bool) :
    libncEncode hash rs payload message maxMessageSize packet2 saves s = (false, message, s) := by
  unfold libncEncode
  by_cases hsize : ncDataSize ≤ maxMessageSize
  · rw [if_neg (Nat.not_lt.mpr hsize), if_pos (isNone_iff.mpr fun hfd => h ⟨hsize, hfd⟩)]
  · rw [if_pos (Nat.not_le.mp hsize)]

end Libnc
end CpeClock
