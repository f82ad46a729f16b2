import CpeClock.Station

/-!
# Several invocations at a time

Every invocation of the program reads the counter from the secret file when it starts and writes it
back when it has encoded its message, and nothing keeps another one from doing the same in between.
Reading, writing and sending are the atomic steps here, in any order of the invocations.

What decides is whether an invocation has been *overtaken*: another one has saved since it loaded.
As long as an overtaken invocation saves no counter that the file has already reached
(`Admissible`), the file's counter grows with each save, and that carries everything else
(`Host.Inv`).
-/

namespace CpeClock

open Hmac433 Mail Ncrs Libnc

/-- Where an invocation is in `main`. -/
inductive Phase where
  | start
  | loaded
  | advanced
  | encoded
  | ended
  deriving DecidableEq

/-- One invocation: its static variables, the buffer of `udp_message`, and whether another one has
    saved since it loaded. -/
structure Invocation where
  phase : Phase
  secretFd : Option EnvName
  secretFile : SecretFile
  message : NcCode
  overtaken : Bool

/-- It has loaded, and may save. -/
def Invocation.Working (p : Invocation) : Prop := p.phase = .loaded ∨ p.phase = .advanced

instance (p : Invocation) : Decidable p.Working := by unfold Invocation.Working; infer_instance

/-- A computer: the files that the invocations share, and the messages sent, with their counters. -/
structure Host (ι : Type) where
  files : EnvName → Option (List UInt8)
  invocation : ι → Invocation
  sent : List (UInt64 × NcCode)

/-- An atomic step of an invocation, and whether it goes well. -/
inductive Action (ι : Type) where
  | load (i : ι)
  | advance (i : ι) (saves : Bool)
  | encode (i : ι) (payload : List UInt8) (packet2 : Message) (saves : Bool)
  | send (i : ι) (sends : Bool)
  | exit (i : ι)

namespace Host

variable {ι : Type} [DecidableEq ι]

def initial (files : EnvName → Option (List UInt8)) : Host ι where
  files := files
  invocation := fun _ => ⟨.start, none, SecretFile.zero, Vector.replicate 31 0, false⟩
  sent := []

def libnc (s : Host ι) (i : ι) : Libnc :=
  ⟨(s.invocation i).secretFd, (s.invocation i).secretFile, s.files⟩

def counter (s : Host ι) (i : ι) : UInt64 := (s.invocation i).secretFile.counter

def savedCounter (s : Host ι) : UInt64 := ((savedFile s.files).getD SecretFile.zero).counter

/-- An invocation has gone on to a phase, and has saved its copy or not. -/
def put (s : Host ι) (i : ι) (phase : Phase) (l : Libnc) (message : NcCode) (saved : Bool) :
    Host ι where
  files := l.files
  invocation := fun j =>
    if j = i then ⟨phase, l.secretFd, l.secretFile, message, false⟩
    else { s.invocation j with overtaken := (s.invocation j).overtaken || saved }
  sent := s.sent

section

variable (hash : Hash) (rs : Rs.RsControl)

/-- One step. A step whose turn it is not does nothing. -/
def step (s : Host ι) : Action ι → Host ι
  | .load i =>
    if (s.invocation i).phase = .start then
      let (ok, l) := libncInit ⟨none, SecretFile.zero, s.files⟩
      s.put i (if ok then .loaded else .ended) l (s.invocation i).message false
    else s
  | .advance i saves =>
    if (s.invocation i).phase = .loaded then
      let (ok, l) := libncAdvance saves (s.libnc i)
      s.put i (if ok then .advanced else .ended) l (s.invocation i).message ok
    else s
  | .encode i payload packet2 saves =>
    -- after `libnc_advance` it is a resync
    if (s.invocation i).phase = .loaded ∨
        ((s.invocation i).phase = .advanced ∧ payload.length = resync) then
      let (ok, message, l) := libncEncode hash rs payload (s.invocation i).message ncDataSize
        packet2 saves (s.libnc i)
      s.put i (if ok then .encoded else .ended) l message ok
    else s
  | .send i sends =>
    if (s.invocation i).phase = .encoded then
      { s.put i .ended (s.libnc i) (s.invocation i).message false with
        sent := if sends then s.sent ++ [(s.counter i, (s.invocation i).message)] else s.sent }
    else s
  | .exit i => s.put i .ended (s.libnc i) (s.invocation i).message false

def after (s : Host ι) (as : List (Action ι)) : Host ι := as.foldl (step hash rs) s

end

/-! ## Which saves are in order -/

/-- An invocation may save a counter: it is a move on, and if the invocation has been overtaken,
    also from what the file holds. -/
def MaySave (s : Host ι) (i : ι) (c : UInt64) : Prop :=
  (s.invocation i).Working →
    s.counter i < c ∧ ((s.invocation i).overtaken = true → s.savedCounter < c)

instance (s : Host ι) (i : ι) (c : UInt64) : Decidable (s.MaySave i c) := by
  unfold MaySave
  infer_instance

/-- The saves of a step are in order. -/
def Admissible (s : Host ι) : Action ι → Prop
  | .advance i _ => s.MaySave i (s.counter i + 0x10000)
  | .encode i payload _ _ =>
    s.MaySave i (advanceCounter (libncPacket payload).counterResyncFlag (s.counter i))
  | _ => True

instance (s : Host ι) (a : Action ι) : Decidable (s.Admissible a) := by
  unfold Admissible
  cases a <;> infer_instance

/-! ## The invariant -/

/-- The counters that were sent, or are about to be, are below the file's and all different; and a
    copy that was not overtaken is the file's. -/
structure Inv (s : Host ι) : Prop where
  saved : (savedFile s.files).isSome
  fd : ∀ i, (s.invocation i).Working → (s.invocation i).secretFd = located s.files
  copy : ∀ i, (s.invocation i).Working → (s.invocation i).overtaken = false →
    s.counter i = s.savedCounter
  sentBelow : ∀ e ∈ s.sent, e.1 ≤ s.savedCounter
  encodedBelow : ∀ i, (s.invocation i).phase = .encoded → s.counter i ≤ s.savedCounter
  encodedNew : ∀ i, (s.invocation i).phase = .encoded → ∀ e ∈ s.sent, e.1 ≠ s.counter i
  encodedApart : ∀ i j, i ≠ j → (s.invocation i).phase = .encoded →
    (s.invocation j).phase = .encoded → s.counter i ≠ s.counter j
  nodup : (s.sent.map Prod.fst).Nodup

theorem put_self (s : Host ι) (i : ι) (phase : Phase) (l : Libnc) (message : NcCode)
    (saved : Bool) : (s.put i phase l message saved).invocation i
      = ⟨phase, l.secretFd, l.secretFile, message, false⟩ := if_pos rfl

theorem put_other (s : Host ι) {i j : ι} (h : j ≠ i) (phase : Phase) (l : Libnc)
    (message : NcCode) (saved : Bool) : (s.put i phase l message saved).invocation j
      = { s.invocation j with overtaken := (s.invocation j).overtaken || saved } := if_neg h

omit [DecidableEq ι] in
theorem inv_initial {files : EnvName → Option (List UInt8)} (h : (savedFile files).isSome) :
    Inv (initial files : Host ι) := by
  have hstart : ∀ i, ((initial files : Host ι).invocation i).phase = .start := fun _ => rfl
  have hidle : ∀ i, ¬ ((initial files : Host ι).invocation i).Working := fun i hworking => by
    rw [Invocation.Working, hstart] at hworking
    exact absurd hworking (by decide)
  have hnone : ∀ i, ((initial files : Host ι).invocation i).phase ≠ .encoded := fun i => by
    rw [hstart]
    decide
  exact {
    saved := h
    fd := fun i hi => absurd hi (hidle i)
    copy := fun i hi => absurd hi (hidle i)
    sentBelow := fun _ he => absurd he List.not_mem_nil
    encodedBelow := fun i hi => absurd hi (hnone i)
    encodedNew := fun i hi => absurd hi (hnone i)
    encodedApart := fun i _ _ hi => absurd hi (hnone i)
    nodup := List.nodup_nil }

/-- A step that writes no file and encodes nothing. -/
theorem Inv.put_private {s : Host ι} (h : Inv s) (i : ι) (phase : Phase) {l : Libnc}
    (message : NcCode) (hfiles : l.files = s.files) (hphase : phase ≠ .encoded)
    (hworking : phase = .loaded ∨ phase = .advanced →
      l.secretFd = located s.files ∧ l.secretFile.counter = s.savedCounter) :
    Inv (s.put i phase l message false) ∧
      (s.put i phase l message false).savedCounter = s.savedCounter := by
  have hsaved : (s.put i phase l message false).savedCounter = s.savedCounter :=
    congrArg (fun f => ((savedFile f).getD SecretFile.zero).counter) hfiles
  have hfiles' : (s.put i phase l message false).files = s.files := hfiles
  -- Of the others nothing changes.
  have hother : ∀ j, j ≠ i → (s.put i phase l message false).invocation j = s.invocation j :=
    fun j hj => by rw [put_other s hj, Bool.or_false]
  have hencoded : ∀ j, ((s.put i phase l message false).invocation j).phase = .encoded →
      j ≠ i := fun j hj heq => hphase (by rwa [heq, put_self] at hj)
  have hcounter : ∀ j, j ≠ i → (s.put i phase l message false).counter j = s.counter j :=
    fun j hj => by rw [counter, hother j hj, counter]
  refine ⟨⟨?_, fun j hj => ?_, fun j hj hfresh => ?_, ?_, fun j hj => ?_, fun j hj => ?_,
    fun j k hjk hj hk => ?_, h.nodup⟩, hsaved⟩
  · rw [hfiles']
    exact h.saved
  · rw [hfiles']
    by_cases heq : j = i
    · subst heq
      rw [put_self] at hj ⊢
      exact (hworking hj).1
    · rw [hother j heq] at hj ⊢
      exact h.fd j hj
  · rw [hsaved]
    by_cases heq : j = i
    · subst heq
      rw [put_self] at hj
      rw [counter, put_self]
      exact (hworking hj).2
    · rw [hother j heq] at hj hfresh
      rw [hcounter j heq]
      exact h.copy j hj hfresh
  · rw [hsaved]
    exact h.sentBelow
  · have hne := hencoded j hj
    rw [hother j hne] at hj
    rw [hsaved, hcounter j hne]
    exact h.encodedBelow j hj
  · have hne := hencoded j hj
    rw [hother j hne] at hj
    rw [hcounter j hne]
    exact h.encodedNew j hj
  · have hj' := hencoded j hj
    have hk' := hencoded k hk
    rw [hother j hj'] at hj
    rw [hother k hk'] at hk
    rw [hcounter j hj', hcounter k hk']
    exact h.encodedApart j k hjk hj hk

/-- **A save that moves the file's counter on.** -/
theorem Inv.put_saved {s : Host ι} (h : Inv s) (i : ι) (phase : Phase) {l : Libnc}
    (message : NcCode) (hfile : savedFile l.files = some l.secretFile)
    (hlocated : located l.files = located s.files) (hfd : l.secretFd = located s.files)
    (hgrows : s.savedCounter < l.secretFile.counter) :
    Inv (s.put i phase l message true) ∧
      s.savedCounter < (s.put i phase l message true).savedCounter := by
  have hsaved : (s.put i phase l message true).savedCounter = l.secretFile.counter :=
    congrArg (fun f => (Option.getD f SecretFile.zero).counter) hfile
  have hself : (s.put i phase l message true).counter i = l.secretFile.counter := by
    rw [counter, put_self]
  have hother : ∀ j, j ≠ i → (s.put i phase l message true).counter j = s.counter j ∧
      ((s.put i phase l message true).invocation j).phase = (s.invocation j).phase ∧
      ((s.put i phase l message true).invocation j).secretFd = (s.invocation j).secretFd ∧
      ((s.put i phase l message true).invocation j).overtaken = true := fun j hj => by
    rw [counter, put_other s hj, Bool.or_true]
    exact ⟨rfl, rfl, rfl, rfl⟩
  -- Whatever was encoded before has a smaller counter.
  have hsmaller : ∀ j, j ≠ i → ((s.put i phase l message true).invocation j).phase = .encoded →
      (s.put i phase l message true).counter j < l.secretFile.counter := fun j hj hencoded => by
    obtain ⟨hcounter, hphase, -⟩ := hother j hj
    rw [hcounter]
    exact UInt64.lt_of_le_of_lt (h.encodedBelow j (hphase ▸ hencoded)) hgrows
  have hsent : ∀ e ∈ s.sent, e.1 < l.secretFile.counter := fun e he =>
    UInt64.lt_of_le_of_lt (h.sentBelow e he) hgrows
  refine ⟨⟨?_, fun j hj => ?_, fun j hj hfresh => ?_, fun e he => ?_, fun j hj => ?_,
    fun j hj e he => ?_, fun j k hjk hj hk => ?_, h.nodup⟩, hsaved ▸ hgrows⟩
  · exact Option.isSome_iff_exists.mpr ⟨_, hfile⟩
  · refine Eq.trans ?_ hlocated.symm
    by_cases heq : j = i
    · rw [heq, put_self]
      exact hfd
    · obtain ⟨-, hphase, hfd', -⟩ := hother j heq
      rw [hfd']
      exact h.fd j (by rwa [Invocation.Working, hphase] at hj)
  · by_cases heq : j = i
    · rw [heq, hself, hsaved]
    · rw [(hother j heq).2.2.2] at hfresh
      exact absurd hfresh (by decide)
  · rw [hsaved]
    exact UInt64.le_of_lt (hsent e he)
  · rw [hsaved]
    by_cases heq : j = i
    · rw [heq, hself]
      exact UInt64.le_refl _
    · exact UInt64.le_of_lt (hsmaller j heq hj)
  · by_cases heq : j = i
    · rw [heq, hself]
      exact UInt64.ne_of_lt (hsent e he)
    · obtain ⟨hcounter, hphase, -⟩ := hother j heq
      rw [hcounter]
      exact h.encodedNew j (hphase ▸ hj) e he
  · by_cases hj' : j = i
    · subst hj'
      rw [hself]
      exact (UInt64.ne_of_lt (hsmaller k hjk.symm hk)).symm
    · by_cases hk' : k = i
      · subst hk'
        rw [hself]
        exact UInt64.ne_of_lt (hsmaller j hj' hj)
      · obtain ⟨hcounter, hphase, -⟩ := hother j hj'
        obtain ⟨hcounter', hphase', -⟩ := hother k hk'
        rw [hcounter, hcounter']
        exact h.encodedApart j k hjk (hphase ▸ hj) (hphase' ▸ hk)

omit [DecidableEq ι] in
theorem Inv.put_sent {s : Host ι} (h : Inv s) {c : UInt64} (message : NcCode)
    (hle : c ≤ s.savedCounter) (hnew : ∀ e ∈ s.sent, e.1 ≠ c)
    (hapart : ∀ j, (s.invocation j).phase = .encoded → s.counter j ≠ c) :
    Inv { s with sent := s.sent ++ [(c, message)] } := by
  refine ⟨h.saved, h.fd, h.copy, fun e he => ?_, h.encodedBelow, fun j hj e he => ?_,
    h.encodedApart, ?_⟩
  · rcases List.mem_append.mp he with he | he
    · exact h.sentBelow e he
    · rw [List.mem_singleton.mp he]
      exact hle
  · rcases List.mem_append.mp he with he | he
    · exact h.encodedNew j hj e he
    · rw [List.mem_singleton.mp he]
      exact (hapart j hj).symm
  · rw [List.map_append, List.map_singleton, List.nodup_append_comm, List.singleton_append,
      List.nodup_cons]
    refine ⟨fun hmem => ?_, h.nodup⟩
    obtain ⟨e, he, heq⟩ := List.mem_map.mp hmem
    exact hnew e he heq

/-! ## The steps -/

omit [DecidableEq ι] in
theorem Inv.grows {s : Host ι} (h : Inv s) {i : ι} (hworking : (s.invocation i).Working)
    {c : UInt64} (hsave : s.MaySave i c) : s.savedCounter < c := by
  obtain ⟨hmove, hovertaken⟩ := hsave hworking
  cases hfresh : (s.invocation i).overtaken with
  | true => exact hovertaken hfresh
  | false => exact h.copy i hworking hfresh ▸ hmove

omit [DecidableEq ι] in
theorem Inv.isOpen {s : Host ι} (h : Inv s) {i : ι} (hworking : (s.invocation i).Working) :
    (s.libnc i).secretFd.isSome := by
  have hsome := h.saved
  rw [savedFile, Option.isSome_map, ← h.fd i hworking] at hsome
  exact hsome

theorem Inv.put_save {s : Host ι} (h : Inv s) {i : ι} (hworking : (s.invocation i).Working)
    {c : UInt64} (hgrows : s.savedCounter < c) (saves : Bool) {phase : Phase} (message : NcCode) :
    let l := (saveSecretFile saves ((s.libnc i).withCounter c)).2
    Inv (s.put i (if saves then phase else .ended) l message saves) ∧
      s.savedCounter
        ≤ (s.put i (if saves then phase else .ended) l message saves).savedCounter := by
  have hfd : ((s.libnc i).withCounter c).secretFd = located s.files := h.fd i hworking
  dsimp only
  cases saves with
  | false =>
    rw [saveSecretFile_failed]
    obtain ⟨hinv, hsaved⟩ := h.put_private i .ended (l := (s.libnc i).withCounter c) message rfl
      (by decide) (fun hphase => absurd hphase (by decide))
    exact ⟨hinv, UInt64.le_of_eq hsaved.symm⟩
  | true =>
    obtain ⟨hlocated, hfile⟩ := saveSecretFile_saved (s := (s.libnc i).withCounter c) hfd
      (h.isOpen hworking)
    obtain ⟨hfd', hsecretFile⟩ := saveSecretFile_static true ((s.libnc i).withCounter c)
    rw [← hsecretFile] at hfile
    obtain ⟨hinv, hsaved⟩ := h.put_saved i phase message hfile hlocated
      (hfd'.trans hfd) (by rw [hsecretFile]; exact hgrows)
    exact ⟨hinv, UInt64.le_of_lt hsaved⟩

/-- **What a step keeps**, if its saves are in order: the invariant, and the file's counter never
    goes back. -/
theorem Inv.step (hash : Hash) {rs : Rs.RsControl} (hrs : ncrsInit = some rs) {s : Host ι}
    (h : Inv s) {a : Action ι} (ha : s.Admissible a) :
    Inv (s.step hash rs a) ∧ s.savedCounter ≤ (s.step hash rs a).savedCounter := by
  have hsame : Inv s ∧ s.savedCounter ≤ s.savedCounter := ⟨h, UInt64.le_refl _⟩
  cases a with
  | load i =>
    by_cases hphase : (s.invocation i).phase = .start
    · rw [Host.step, if_pos hphase]
      obtain ⟨hfiles, hfd, hfile⟩ := libncInit_files hrs (s := ⟨none, SecretFile.zero, s.files⟩) rfl
      obtain ⟨f, hf⟩ := Option.isSome_iff_exists.mp h.saved
      have hcounter : f.counter = s.savedCounter := by rw [savedCounter, hf, Option.getD_some]
      have hloaded := hfile f hf
      generalize libncInit ⟨none, SecretFile.zero, s.files⟩ = init at hfiles hfd hloaded ⊢
      obtain ⟨hinv, hsaved⟩ := h.put_private i (if init.1 then .loaded else .ended)
        (s.invocation i).message hfiles (by split <;> decide)
        fun _ => ⟨hfd, hloaded ▸ hcounter⟩
      exact ⟨hinv, UInt64.le_of_eq hsaved.symm⟩
    · rw [Host.step, if_neg hphase]
      exact hsame
  | advance i saves =>
    by_cases hphase : (s.invocation i).phase = .loaded
    · have hworking : (s.invocation i).Working := .inl hphase
      rw [Host.step, if_pos hphase, libncAdvance_eq (h.isOpen hworking)]
      exact h.put_save hworking (h.grows hworking ha) saves _
    · rw [Host.step, if_neg hphase]
      exact hsame
  | encode i payload packet2 saves =>
    by_cases hphase : (s.invocation i).phase = .loaded ∨
        ((s.invocation i).phase = .advanced ∧ payload.length = resync)
    · have hworking : (s.invocation i).Working := hphase.imp_right And.left
      rw [Host.step, if_pos hphase, libncEncode_eq hash hrs (h.isOpen hworking) (ha hworking).1
        (Nat.le_refl _), encode_counter]
      exact h.put_save hworking (h.grows hworking ha) saves _
    · rw [Host.step, if_neg hphase]
      exact hsame
  | send i sends =>
    by_cases hphase : (s.invocation i).phase = .encoded
    · rw [Host.step, if_pos hphase]
      obtain ⟨hinv, hsaved⟩ := h.put_private i .ended (l := s.libnc i)
        (s.invocation i).message rfl (by decide) (fun hphase => absurd hphase (by decide))
      cases sends with
      | false => exact ⟨hinv, UInt64.le_of_eq hsaved.symm⟩
      | true =>
        refine ⟨hinv.put_sent _ (hsaved ▸ h.encodedBelow i hphase) (h.encodedNew i hphase)
          fun j hj => ?_, UInt64.le_of_eq hsaved.symm⟩
        by_cases heq : j = i
        · have hended : Phase.ended ≠ .encoded := by decide
          rw [heq, put_self] at hj
          exact absurd hj hended
        · rw [put_other s heq] at hj
          rw [counter, put_other s heq]
          exact h.encodedApart j i heq hj hphase
    · rw [Host.step, if_neg hphase]
      exact hsame
  | exit i =>
    obtain ⟨hinv, hsaved⟩ := h.put_private i .ended (l := s.libnc i)
      (s.invocation i).message rfl (by decide) (fun hphase => absurd hphase (by decide))
    exact ⟨hinv, UInt64.le_of_eq hsaved.symm⟩

/-! ## Runs -/

section

variable {hash : Hash} {rs : Rs.RsControl}

theorem after_append (s : Host ι) (as bs : List (Action ι)) :
    s.after hash rs (as ++ bs) = (s.after hash rs as).after hash rs bs := List.foldl_append

theorem after_single (s : Host ι) (a : Action ι) : s.after hash rs [a] = s.step hash rs a := rfl

/-- All saves of a run are in order. -/
def Orderly (hash : Hash) (rs : Rs.RsControl) (s : Host ι) (as : List (Action ι)) : Prop :=
  ∀ n a, as[n]? = some a → (s.after hash rs (as.take n)).Admissible a

theorem Orderly.take {s : Host ι} {as : List (Action ι)} (h : Orderly hash rs s as) (n : Nat) :
    Orderly hash rs s (as.take n) := by
  intro m a ha
  have hlt : m < n := by
    by_contra hge
    rw [List.getElem?_eq_none (by rw [List.length_take]; omega)] at ha
    exact absurd ha (by simp)
  rw [List.getElem?_take_of_lt hlt] at ha
  rw [List.take_take, Nat.min_eq_left hlt.le]
  exact h m a ha

theorem Orderly.drop {s : Host ι} {as : List (Action ι)} (h : Orderly hash rs s as) (n : Nat) :
    Orderly hash rs (s.after hash rs (as.take n)) (as.drop n) := by
  intro m a ha
  rw [List.getElem?_drop] at ha
  rw [← after_append, ← List.take_add]
  exact h (n + m) a ha

/-- **What a run keeps.** -/
theorem Inv.after (hrs : ncrsInit = some rs) {s : Host ι} (h : Inv s) {as : List (Action ι)}
    (hrun : Orderly hash rs s as) :
    Inv (s.after hash rs as) ∧ s.savedCounter ≤ (s.after hash rs as).savedCounter := by
  induction as generalizing s with
  | nil => exact ⟨h, UInt64.le_refl _⟩
  | cons a as ih =>
    obtain ⟨hinv, hgrows⟩ := h.step hash hrs (hrun 0 a rfl)
    obtain ⟨hinv', hgrows'⟩ := ih hinv (hrun.drop 1)
    exact ⟨hinv', UInt64.le_trans hgrows hgrows'⟩

end

/-- **Counters are not reused**, in any interleaving whose saves are in order: no two messages that
    are sent carry the same counter, and the counter in the file never decreases. -/
theorem counters_not_reused (hash : Hash) {rs : Rs.RsControl} (hrs : ncrsInit = some rs)
    {files : EnvName → Option (List UInt8)} (hfile : (savedFile files).isSome)
    {as : List (Action ι)} (hrun : Orderly hash rs (initial files) as) :
    (((initial files).after hash rs as).sent.map Prod.fst).Nodup ∧
      ∀ n, ((initial files).after hash rs (as.take n)).savedCounter
        ≤ ((initial files).after hash rs as).savedCounter := by
  have hstart : Inv (initial files : Host ι) := inv_initial hfile
  refine ⟨(hstart.after hrs hrun).1.nodup, fun n => ?_⟩
  obtain ⟨hinv, -⟩ := hstart.after hrs (hrun.take n)
  have hrest := (hinv.after hrs (hrun.drop n)).2
  rwa [← after_append, List.take_append_drop] at hrest

def sampleFiles : EnvName → Option (List UInt8) := fun _ => some (List.replicate 64 0)

theorem step_encode {hash : Hash} {rs : Rs.RsControl} (hrs : ncrsInit = some rs) {s : Host ι}
    {i : ι} (hphase : (s.invocation i).phase = .loaded) (hopen : (s.libnc i).secretFd.isSome)
    (payload : List UInt8) (packet2 : Message)
    (hnowrap : s.counter i
      < advanceCounter (libncPacket payload).counterResyncFlag (s.counter i)) :
    s.step hash rs (.encode i payload packet2 true)
      = s.put i .encoded (saveSecretFile true ((s.libnc i).withCounter
          (advanceCounter (libncPacket payload).counterResyncFlag (s.counter i)))).2
        (ncrsEncode rs (hmac433Encode hash (s.libnc i).secretFile.secretData.toList
          (libncPacket payload) (s.counter i)).1.toBytes) true := by
  rw [Host.step, if_pos (.inl hphase), libncEncode_eq hash hrs hopen hnowrap (Nat.le_refl _),
    encode_counter]
  rfl

theorem step_send (hash : Hash) (rs : Rs.RsControl) {s : Host ι} {i : ι}
    (hphase : (s.invocation i).phase = .encoded) :
    s.step hash rs (.send i true)
      = { s.put i .ended (s.libnc i) (s.invocation i).message false with
          sent := s.sent ++ [(s.counter i, (s.invocation i).message)] } := if_pos hphase

/-- Two invocations load; the first encodes and sends, and the other, overtaken by now, advances and
    sends a resync. -/
def overtakenRun : List (Action (Fin 2)) :=
  [.load 0, .load 1, .encode 0 [0x43] (Vector.replicate 14 0) true, .send 0 true,
    .advance 1 true, .encode 1 [] (Vector.replicate 14 0) true, .send 1 true]

def bothLoaded : Host (Fin 2) := (initial sampleFiles).after sha256 Rs.rs32 [.load 0, .load 1]

/-- The first has encoded. -/
def firstEncoded : Host (Fin 2) :=
  bothLoaded.put 0 .encoded (saveSecretFile true ((bothLoaded.libnc 0).withCounter 1)).2
    (ncrsEncode Rs.rs32 (hmac433Encode sha256 (bothLoaded.libnc 0).secretFile.secretData.toList
      (libncPacket [0x43]) (bothLoaded.counter 0)).1.toBytes) true

theorem overtakenRun_after (n : Nat) :
    (initial sampleFiles).after sha256 Rs.rs32 (overtakenRun.take (3 + n))
      = firstEncoded.after sha256 Rs.rs32 ((overtakenRun.drop 3).take n) := by
  have hstep := @step_encode _ _ sha256 Rs.rs32 ncrsInit_eq bothLoaded 0
    (by decide +kernel) (by decide +kernel) [0x43] (Vector.replicate 14 0) (by decide +kernel)
  have hcounter : advanceCounter (libncPacket [0x43]).counterResyncFlag (bothLoaded.counter 0)
      = 1 := by
    decide +kernel
  rw [hcounter] at hstep
  have htake : overtakenRun.take 3
      = [.load 0, .load 1] ++ [.encode 0 [0x43] (Vector.replicate 14 0) true] := rfl
  have hloaded : (initial sampleFiles).after sha256 Rs.rs32 [.load 0, .load 1] = bothLoaded := rfl
  rw [List.take_add, after_append, htake, after_append, hloaded, after_single, hstep,
    firstEncoded]

theorem overtakenRun_orderly : Orderly sha256 Rs.rs32 (initial sampleFiles) overtakenRun := by
  have hencode : bothLoaded.Admissible (.encode 0 [0x43] (Vector.replicate 14 0) true) := by
    decide +kernel
  have hadvance : (firstEncoded.after sha256 Rs.rs32
      ((overtakenRun.drop 3).take 1)).Admissible (.advance 1 true) := by
    decide +kernel
  have hresync : (firstEncoded.after sha256 Rs.rs32
      ((overtakenRun.drop 3).take 2)).Admissible (.encode 1 [] (Vector.replicate 14 0) true) := by
    decide +kernel
  intro n a ha
  have hn : n < 7 := (List.getElem?_eq_some_iff.mp ha).1
  interval_cases n <;> obtain rfl := Option.some.inj ha
  · trivial
  · trivial
  · exact hencode
  · trivial
  · rw [overtakenRun_after 1]
    exact hadvance
  · rw [overtakenRun_after 2]
    exact hresync
  · trivial

theorem counters_not_reused_sample :
    (((initial sampleFiles).after sha256 Rs.rs32 overtakenRun).sent.map Prod.fst).Nodup ∧
      ∀ n, ((initial sampleFiles).after sha256 Rs.rs32 (overtakenRun.take n)).savedCounter
        ≤ ((initial sampleFiles).after sha256 Rs.rs32 overtakenRun).savedCounter :=
  counters_not_reused sha256 ncrsInit_eq (by decide +kernel) overtakenRun_orderly

/-- **A counter is reused** whenever two invocations have the same in memory and both go on. -/
theorem sent_twice (hash : Hash) {rs : Rs.RsControl} (hrs : ncrsInit = some rs) {s : Host ι}
    {i j : ι} (hij : i ≠ j) (hi : (s.invocation i).phase = .loaded)
    (hj : (s.invocation j).phase = .loaded) (hopeni : (s.libnc i).secretFd.isSome)
    (hopenj : (s.libnc j).secretFd.isSome) (hsame : s.counter j = s.counter i)
    (payload : List UInt8) (packet2 : Message)
    (hnowrap : s.counter i
      < advanceCounter (libncPacket payload).counterResyncFlag (s.counter i)) :
    (s.after hash rs [.encode i payload packet2 true, .encode j payload packet2 true,
        .send i true, .send j true]).sent.map Prod.fst
      = s.sent.map Prod.fst ++ List.replicate 2
          (advanceCounter (libncPacket payload).counterResyncFlag (s.counter i)) := by
  simp only [after, List.foldl_cons, List.foldl_nil]
  -- The first saves; the other's copy is as it was.
  rw [step_encode hrs hi hopeni payload packet2 hnowrap]
  have hcounter := congrArg SecretFile.counter (saveSecretFile_static true ((s.libnc i).withCounter
    (advanceCounter (libncPacket payload).counterResyncFlag (s.counter i)))).2
  generalize (saveSecretFile true ((s.libnc i).withCounter _)).2 = l at hcounter ⊢
  generalize ncrsEncode rs _ = message
  have hother := put_other s hij.symm .encoded l message true
  have hself := put_self s i .encoded l message true
  have hsent : (s.put i .encoded l message true).sent = s.sent := rfl
  generalize s.put i .encoded l message true = p at hother hself hsent ⊢
  have hcopy : p.counter j = s.counter i := by rw [counter, hother, ← hsame, counter]
  -- Then the other.
  rw [step_encode hrs (by rw [hother]; exact hj) (by rw [libnc, hother]; exact hopenj) payload
    packet2 (by rw [hcopy]; exact hnowrap), hcopy]
  have hcounter' := congrArg SecretFile.counter (saveSecretFile_static true
    ((p.libnc j).withCounter
      (advanceCounter (libncPacket payload).counterResyncFlag (s.counter i)))).2
  generalize (saveSecretFile true ((p.libnc j).withCounter _)).2 = l' at hcounter' ⊢
  generalize ncrsEncode rs _ = message'
  have hother' := put_other p hij .encoded l' message' true
  have hself' := put_self p j .encoded l' message' true
  have hsent' : (p.put j .encoded l' message' true).sent = s.sent := hsent
  generalize p.put j .encoded l' message' true = q at hother' hself' hsent' ⊢
  rw [hself] at hother'
  -- Both send.
  have hsend := step_send hash rs (s := q) (i := i) (by rw [hother'])
  have hlast := put_other q hij.symm .ended (q.libnc i) (q.invocation i).message false
  rw [hself'] at hlast
  have hsend' := step_send hash rs (s := q.step hash rs (.send i true)) (i := j) (by
    rw [hsend]
    exact congrArg Invocation.phase hlast)
  have hcounters : q.counter i = l.secretFile.counter ∧
      (q.step hash rs (.send i true)).counter j = l'.secretFile.counter := by
    constructor
    · rw [counter, hother']
    · rw [hsend]
      exact congrArg (fun p => p.secretFile.counter) hlast
  rw [hsend', hcounters.2, hsend, hcounters.1, hsent', hcounter, hcounter']
  simp [withCounter]

/-- Two invocations load before either saves: both send counter 1. -/
theorem counter_sent_twice :
    ((initial sampleFiles : Host (Fin 2)).after sha256 Rs.rs32
      [.load 0, .load 1, .encode 0 [0x43] (Vector.replicate 14 0) true,
        .encode 1 [0x43] (Vector.replicate 14 0) true, .send 0 true, .send 1 true]).sent.map
          Prod.fst = [1, 1] := by
  have htwice := sent_twice sha256 ncrsInit_eq
    (s := (initial sampleFiles : Host (Fin 2)).after sha256 Rs.rs32 [.load 0, .load 1])
    (i := 0) (j := 1) (by decide) (by decide +kernel) (by decide +kernel) (by decide +kernel)
    (by decide +kernel) (by decide +kernel) [0x43] (Vector.replicate 14 0) (by decide +kernel)
  rw [← after_append] at htwice
  exact htwice.trans (by decide +kernel)

/-- A file whose counter is 2^64 - 1. -/
def fullFiles : EnvName → Option (List UInt8) := fun _ =>
  some (List.replicate 8 0xff ++ List.replicate 56 0)

/-- A save that wraps its counter takes the file's back, here from 2^64 - 1 to 65535. -/
theorem savedCounter_wraps :
    (((initial fullFiles : Host (Fin 1)).after sha256 Rs.rs32 [.load 0]).savedCounter,
      ((initial fullFiles : Host (Fin 1)).after sha256 Rs.rs32
        [.load 0, .advance 0 true]).savedCounter) = (0xffffffffffffffff, 0xffff) := by
  decide +kernel

end Host
end CpeClock
