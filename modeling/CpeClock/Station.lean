import CpeClock.EndToEnd

/-!
# The sender across invocations

Each invocation of the program starts with cleared static variables and reads the counter from the
secret file again. Between two saves the copy in memory runs ahead of the file, and a save that
fails leaves it ahead until the process ends. What is sent was saved first: `udp_message` sends
only if `libnc_encode` returned 1.

So all that is ever sent has a counter up to the one in the file (`Station.Inv.sentBelow`), and the
file's counter never goes back (`Station.inv_step`).
-/

namespace CpeClock

open Hmac433 Mail Ncrs

namespace Libnc

/-! ## The file that an invocation finds -/

/-- The file can be opened and is long enough. -/
def readable (files : EnvName → Option (List UInt8)) (envName : EnvName) : Bool :=
  match files envName with
  | none => false
  | some file => SecretFile.size ≤ file.length

def located (files : EnvName → Option (List UInt8)) : Option EnvName :=
  if readable files .appdata then some .appdata
  else if readable files .home then some .home
  else none

/-- The contents of a file as far as they are read. -/
def contents (files : EnvName → Option (List UInt8)) (envName : EnvName) : SecretFile :=
  match files envName with
  | none => SecretFile.zero
  | some file => SecretFile.ofBytes (file.take SecretFile.size)

/-- What a new invocation reads. -/
def savedFile (files : EnvName → Option (List UInt8)) : Option SecretFile :=
  (located files).map (contents files)

theorem loadSecretFile_readable {envName : EnvName} {s : Libnc}
    (h : readable s.files envName = true) :
    loadSecretFile envName s
      = (true, { s with secretFile := contents s.files envName, secretFd := some envName }) := by
  unfold readable at h
  unfold loadSecretFile contents
  cases hfile : s.files envName with
  | none =>
    rw [hfile] at h
    exact absurd h (by simp)
  | some file =>
    rw [hfile] at h
    dsimp only at h ⊢
    rw [SecretFile.fread_of_le _ (of_decide_eq_true h)]
    exact if_neg (not_not_intro rfl)

theorem loadSecretFile_unreadable {envName : EnvName} {s : Libnc}
    (h : ¬ readable s.files envName = true) (hfd : s.secretFd = none) :
    (loadSecretFile envName s).1 = false ∧ (loadSecretFile envName s).2.secretFd = none ∧
      (loadSecretFile envName s).2.files = s.files := by
  unfold readable at h
  unfold loadSecretFile
  cases hfile : s.files envName with
  | none => exact ⟨rfl, hfd, rfl⟩
  | some file =>
    rw [hfile] at h
    have hshort : (s.secretFile.fread file).1 ≠ SecretFile.size := by
      have hlen : file.length < SecretFile.size := by simpa using h
      rw [SecretFile.fread, List.length_take]
      omega
    dsimp only
    rw [if_pos hshort]
    exact ⟨rfl, rfl, rfl⟩

/-- **What an invocation starts with**: the file at the first place where it is readable. -/
theorem libncInit_files {rs : Rs.RsControl} (hrs : ncrsInit = some rs) {s : Libnc}
    (hfd : s.secretFd = none) :
    (libncInit s).2.files = s.files ∧ (libncInit s).2.secretFd = located s.files ∧
      ∀ f, savedFile s.files = some f → (libncInit s).2.secretFile = f := by
  have hclosed : ¬ s.secretFd.isSome = true := by rw [hfd]; decide
  unfold libncInit
  rw [if_neg hclosed, hrs]
  dsimp only
  unfold savedFile located
  by_cases happdata : readable s.files .appdata = true
  · have hload := loadSecretFile_readable (s := { s with secretFile := SecretFile.zero }) happdata
    rw [hload, if_pos rfl, if_pos happdata]
    exact ⟨rfl, rfl, fun f hf => Option.some.inj hf⟩
  · obtain ⟨hfailed, hfd', hfiles⟩ := loadSecretFile_unreadable
      (s := { s with secretFile := SecretFile.zero }) happdata hfd
    generalize loadSecretFile .appdata { s with secretFile := SecretFile.zero } = loaded
      at hfailed hfd' hfiles
    rw [hfailed, if_neg (by decide), if_neg happdata]
    by_cases hhome : readable s.files .home = true
    · have hload := loadSecretFile_readable (s := loaded.2) (by rw [hfiles]; exact hhome)
      rw [hload, if_pos hhome, hfiles]
      exact ⟨rfl, rfl, fun f hf => Option.some.inj hf⟩
    · obtain ⟨-, hfd'', hfiles'⟩ := loadSecretFile_unreadable (s := loaded.2)
        (by rw [hfiles]; exact hhome) hfd'
      rw [if_neg hhome]
      exact ⟨hfiles'.trans hfiles, hfd'', fun f hf => absurd hf (by simp)⟩

theorem saveSecretFile_failed (s : Libnc) : (saveSecretFile false s).2 = s := by
  unfold saveSecretFile
  split <;> rfl

theorem saveSecretFile_saved {s : Libnc} (h : s.secretFd = located s.files)
    (hopen : s.secretFd.isSome) :
    located (saveSecretFile true s).2.files = located s.files ∧
      savedFile (saveSecretFile true s).2.files = some s.secretFile := by
  obtain ⟨envName, henv⟩ := Option.isSome_iff_exists.mp hopen
  have hlocated : located s.files = some envName := h ▸ henv
  have hreadable : readable s.files envName = true := by
    unfold located at hlocated
    split at hlocated
    · next hr => exact Option.some.inj hlocated ▸ hr
    · split at hlocated
      · next hr => exact Option.some.inj hlocated ▸ hr
      · exact absurd hlocated (by simp)
  obtain ⟨file, hfile⟩ : ∃ file, s.files envName = some file := by
    unfold readable at hreadable
    split at hreadable
    · exact absurd hreadable (by simp)
    · exact ⟨_, ‹_›⟩
  have hfiles : (saveSecretFile true s).2.files
      = Function.update s.files envName (some (s.secretFile.fwrite file)) := by
    unfold saveSecretFile
    rw [henv]
    dsimp only
    rw [if_pos rfl, hfile]
    rfl
  have hlong : readable (Function.update s.files envName (some (s.secretFile.fwrite file))) envName
      = true := by
    unfold readable
    rw [Function.update_self]
    dsimp only
    rw [SecretFile.fwrite, List.length_append, SecretFile.length_toBytes]
    exact decide_eq_true (Nat.le_add_right ..)
  -- The other file, if there is one, is as it was.
  have hsame : ∀ e, readable (Function.update s.files envName (some (s.secretFile.fwrite file))) e
      = readable s.files e := by
    intro e
    by_cases he : e = envName
    · rw [he, hlong, hreadable]
    · unfold readable
      rw [Function.update_of_ne he]
  have hlocated' : located (saveSecretFile true s).2.files = located s.files := by
    unfold located
    rw [hfiles, hsame, hsame]
  refine ⟨hlocated', ?_⟩
  unfold savedFile
  rw [hlocated', hlocated, Option.map_some]
  have hbytes : (s.secretFile.fwrite file).take SecretFile.size = s.secretFile.toBytes :=
    List.take_left' s.secretFile.length_toBytes
  unfold contents
  rw [hfiles, Function.update_self]
  dsimp only
  rw [hbytes, SecretFile.ofBytes_toBytes]

end Libnc

open Libnc

/-- The library of the running invocation, and the packets sent so far with their counters. -/
structure Station where
  libnc : Libnc
  sent : List (UInt64 × Packet)

namespace Station

/-- A bound that the counter stays below. -/
def counterBound : Nat := 2 ^ 64 - 257

section

variable (hash : Hash) (rs : Rs.RsControl)

/-- A call of `libnc_encode`, whose packet is sent if it returned 1. -/
def encode (s : Station) (payload : List UInt8) (message : NcCode) (maxMessageSize : Nat)
    (packet2 : Message) (saves : Bool) : Station :=
  let result := libncEncode hash rs payload message maxMessageSize packet2 saves s.libnc
  let packet := (hmac433Encode hash s.libnc.secretFile.secretData.toList (libncPacket payload)
    s.libnc.secretFile.counter).1
  { libnc := result.2.2
    sent := if result.1 then s.sent ++ [(result.2.2.secretFile.counter, packet)] else s.sent }

/-- One step of the sender: a new invocation, or a call of the library of which the save may
    fail. -/
inductive Step : Station → Station → Prop
  | invoke (s : Station) :
      Step s { s with
        libnc := (libncInit
          { s.libnc with secretFd := none, secretFile := SecretFile.zero }).2 }
  | advance (s : Station) (saves : Bool)
      (hbelow : s.libnc.secretFile.counter.toNat + 0x10000 < counterBound) :
      Step s { s with libnc := (libncAdvance saves s.libnc).2 }
  | encode (s : Station) (payload : List UInt8) (message : NcCode) (maxMessageSize : Nat)
      (packet2 : Message) (saves : Bool)
      (hnowrap : s.libnc.secretFile.counter
        < advanceCounter (libncPacket payload).counterResyncFlag s.libnc.secretFile.counter)
      (hbelow : (advanceCounter (libncPacket payload).counterResyncFlag
        s.libnc.secretFile.counter).toNat < counterBound) :
      Step s (s.encode hash rs payload message maxMessageSize packet2 saves)

end

def savedCounter (s : Station) : UInt64 :=
  match savedFile s.libnc.files with
  | none => 0
  | some f => f.counter

/-- The file and the copy in memory belong together, and whatever was sent was saved. -/
structure Inv (secretData : List UInt8) (s : Station) : Prop where
  saved : ∃ f, savedFile s.libnc.files = some f ∧ f.secretData.toList = secretData ∧
    f.counter.toNat < counterBound
  fd : s.libnc.secretFd.isSome → s.libnc.secretFd = located s.libnc.files
  memory : s.libnc.secretFd.isSome → s.savedCounter ≤ s.libnc.secretFile.counter ∧
    s.libnc.secretFile.counter.toNat < counterBound ∧
    s.libnc.secretFile.secretData.toList = secretData
  sentBelow : ∀ e ∈ s.sent, e.1 ≤ s.savedCounter

theorem savedCounter_eq {s : Station} {f : SecretFile} (h : savedFile s.libnc.files = some f) :
    s.savedCounter = f.counter := by
  rw [savedCounter, h]

/-- **What a call of `libnc_encode` does**, unless the counter wraps: it moves the counter on, it
    saves, and the packet is sent if the save succeeded. -/
theorem encode_eq (hash : Hash) {rs : Rs.RsControl} (hrs : ncrsInit = some rs) {s : Station}
    (hopen : s.libnc.secretFd.isSome) {payload : List UInt8}
    (hnowrap : s.libnc.secretFile.counter
      < advanceCounter (libncPacket payload).counterResyncFlag s.libnc.secretFile.counter)
    {maxMessageSize : Nat} (hsize : ncDataSize ≤ maxMessageSize) (message : NcCode)
    (packet2 : Message) (saves : Bool) :
    let n := advanceCounter (libncPacket payload).counterResyncFlag s.libnc.secretFile.counter
    s.encode hash rs payload message maxMessageSize packet2 saves
      = ⟨(saveSecretFile saves (s.libnc.withCounter n)).2,
          if saves then s.sent ++ [(n, (hmac433Encode hash s.libnc.secretFile.secretData.toList
            (libncPacket payload) s.libnc.secretFile.counter).1)] else s.sent⟩ := by
  dsimp only
  rw [encode, libncEncode_eq hash hrs hopen hnowrap hsize, encode_counter]
  dsimp only
  rw [(saveSecretFile_static saves (s.libnc.withCounter _)).2]
  rfl

theorem inv_move {secretData : List UInt8} {s : Station} (hinv : Inv secretData s)
    (hopen : s.libnc.secretFd.isSome) {c : UInt64} (hle : s.libnc.secretFile.counter ≤ c)
    (hbelow : c.toNat < counterBound) :
    Inv secretData ⟨s.libnc.withCounter c, s.sent⟩ := by
  obtain ⟨hsaved, -, hsecret⟩ := hinv.memory hopen
  exact ⟨hinv.saved, hinv.fd, fun _ => ⟨UInt64.le_trans hsaved hle, hbelow, hsecret⟩,
    hinv.sentBelow⟩

/-- **Moving the counter on and saving it.** The file's counter stays or becomes the new one. -/
theorem inv_save {secretData : List UInt8} {s : Station} (hinv : Inv secretData s)
    (hopen : s.libnc.secretFd.isSome) {c : UInt64} (hle : s.libnc.secretFile.counter ≤ c)
    (hbelow : c.toNat < counterBound) (saves : Bool) :
    let libnc := (saveSecretFile saves (s.libnc.withCounter c)).2
    Inv secretData ⟨libnc, s.sent⟩ ∧ s.savedCounter ≤ savedCounter ⟨libnc, s.sent⟩ ∧
      (saves = true → savedCounter ⟨libnc, s.sent⟩ = c) := by
  obtain ⟨hsaved, -, hsecret⟩ := hinv.memory hopen
  have hfd := hinv.fd hopen
  cases saves with
  | false =>
    dsimp only
    rw [saveSecretFile_failed]
    exact ⟨inv_move hinv hopen hle hbelow, UInt64.le_refl _, fun h => absurd h (by decide)⟩
  | true =>
    obtain ⟨hlocated, hfile⟩ := saveSecretFile_saved (s := s.libnc.withCounter c) hfd hopen
    obtain ⟨hfd', hsecretFile⟩ := saveSecretFile_static true (s.libnc.withCounter c)
    dsimp only
    generalize (saveSecretFile true (s.libnc.withCounter c)).2 = libnc
      at hlocated hfile hfd' hsecretFile
    have hcounter : savedCounter ⟨libnc, s.sent⟩ = c :=
      savedCounter_eq (s := ⟨libnc, s.sent⟩) hfile
    have hgrows : s.savedCounter ≤ c := UInt64.le_trans hsaved hle
    refine ⟨⟨⟨_, hfile, hsecret, hbelow⟩, fun _ => ?_, fun _ => ?_, fun e he => ?_⟩, ?_,
      fun _ => hcounter⟩
    · rw [hfd', hlocated]
      exact hfd
    · rw [hcounter, hsecretFile]
      exact ⟨UInt64.le_refl c, hbelow, hsecret⟩
    · rw [hcounter]
      exact UInt64.le_trans (hinv.sentBelow e he) hgrows
    · rw [hcounter]
      exact hgrows

/-- **What a step keeps**: the invariant, and the file's counter never goes back. -/
theorem inv_step {hash : Hash} {rs : Rs.RsControl} (hrs : ncrsInit = some rs)
    {secretData : List UInt8} {s s' : Station} (hinv : Inv secretData s) (h : Step hash rs s s') :
    Inv secretData s' ∧ s.savedCounter ≤ s'.savedCounter := by
  cases h with
  | invoke =>
    obtain ⟨hfiles, hfd, hfile⟩ := libncInit_files hrs
      (s := { s.libnc with secretFd := none, secretFile := SecretFile.zero }) rfl
    generalize (libncInit { s.libnc with secretFd := none, secretFile := SecretFile.zero }).2
      = libnc at hfiles hfd hfile
    dsimp only at hfiles hfd hfile
    obtain ⟨f, hf, hsecret, hbelow⟩ := hinv.saved
    have hcounter : savedCounter ⟨libnc, s.sent⟩ = s.savedCounter := by
      unfold savedCounter
      rw [hfiles]
    refine ⟨⟨?_, fun _ => ?_, fun _ => ?_, ?_⟩, ?_⟩
    · rw [hfiles]
      exact ⟨f, hf, hsecret, hbelow⟩
    · rw [hfd, hfiles]
    · rw [hcounter, hfile f hf, savedCounter_eq hf]
      exact ⟨UInt64.le_refl _, hbelow, hsecret⟩
    · rw [hcounter]
      exact hinv.sentBelow
    · rw [hcounter]
      exact UInt64.le_refl _
  | advance saves hbelow =>
    by_cases hopen : s.libnc.secretFd.isSome
    · have hsum : (s.libnc.secretFile.counter + 0x10000).toNat
          = s.libnc.secretFile.counter.toNat + 0x10000 := by
        rw [UInt64.toNat_add]
        change (_ + 65536) % 2 ^ 64 = _ + 65536
        unfold counterBound at hbelow
        omega
      obtain ⟨hinv', hgrows, -⟩ := inv_save hinv hopen
        (c := s.libnc.secretFile.counter + 0x10000)
        (by rw [UInt64.le_iff_toNat_le, hsum]; omega) (by rw [hsum]; exact hbelow) saves
      rw [libncAdvance_eq hopen]
      exact ⟨hinv', hgrows⟩
    · rw [libncAdvance_closed hopen]
      exact ⟨hinv, UInt64.le_refl _⟩
  | encode payload message maxMessageSize packet2 saves hnowrap hbelow =>
    by_cases hruns : ncDataSize ≤ maxMessageSize ∧ s.libnc.secretFd.isSome
    · obtain ⟨hsize, hopen⟩ := hruns
      obtain ⟨hinv', hgrows, hsaved⟩ :=
        inv_save hinv hopen (UInt64.le_of_lt hnowrap) hbelow saves
      rw [encode_eq hash hrs hopen hnowrap hsize]
      refine ⟨?_, hgrows⟩
      cases saves with
      | false => exact hinv'
      | true =>
        -- The packet that is sent has the counter that was just saved.
        refine ⟨hinv'.saved, hinv'.fd, hinv'.memory, fun e he => ?_⟩
        rcases List.mem_append.mp he with he | he
        · exact hinv'.sentBelow e he
        · rw [List.mem_singleton.mp he]
          exact UInt64.le_of_eq (hsaved rfl).symm
    · rw [encode, libncEncode_refused hash rs hruns]
      exact ⟨hinv, UInt64.le_refl _⟩

end Station
end CpeClock
