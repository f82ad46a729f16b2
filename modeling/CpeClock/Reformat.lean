import CpeClock.CounterStore

/-!
# Formatting the NVRAM under power cuts

`reformat` writes the check bytes and the state byte before the counter. From the last of these
three writes on the store counts as formatted, and a power cut between that and the end of
`save_counter` leaves the next boot with a slot that was never written. It may happen sooner: a
store that was bad only in a check byte is formatted when that byte is mended.

What a cut leaves is `mailInit_cut_early` and `mailInit_cut_late`; they are the step of the
induction over the cuts (`mailInit_boots_iff`).
-/

namespace CpeClock
namespace Mail

open Lib

/-! ## The writes -/

/-- The writes of `reformat` before it calls `save_counter`. -/
def checkWrites : List Event :=
  [.nvramWrite Nvram.checkByte1Addr Nvram.checkByte1Value,
    .nvramWrite Nvram.checkByte2Addr Nvram.checkByte2Value,
    .nvramWrite Nvram.stateAddr 0]

/-- The check works: what was just written is read back. -/
theorem reformat_eq (nv : Nvram) :
    reformat.value nv = some 1 ∧
      reformat.events nv = checkWrites ++ ((saveCounter 1).events (replay nv checkWrites)
        ++ [.displayMessage "NVRAM INIT"]) := by
  let worked : Sketch (Option UInt64) := do
    saveCounter 1
    displayMessage "NVRAM INIT"
    return some 1
  let failed : Sketch (Option UInt64) := do
    displayMessage "NVRAM FAIL"
    return none
  have hrun : ∀ nv', replay nv checkWrites = nv' → reformat nv
      = let rest := if nv' Nvram.checkByte1Addr = Nvram.checkByte1Value ∧
            nv' Nvram.checkByte2Addr = Nvram.checkByte2Value then worked else failed
        (rest.value nv', checkWrites ++ rest.events nv') := fun nv' h => h ▸ rfl
  have h := hrun _ rfl
  rw [if_pos ⟨rfl, rfl⟩] at h
  exact ⟨congrArg Prod.fst h, congrArg Prod.snd h⟩

theorem mailInit_events_reformat {nv : Nvram} (h : ¬ Formatted nv) :
    mailInit.events nv = checkWrites ++ ((saveCounter 1).events (replay nv checkWrites)
      ++ [.displayMessage "NVRAM INIT"]) :=
  (congrArg Prod.snd (mailInit_reformats h)).trans (reformat_eq nv).2

/-- Before the state byte is written only check bytes have changed, each to its value. -/
theorem replay_checkWrites_take (nv : Nvram) {n : Nat} (hn : n < 3) :
    let nv' := replay nv (checkWrites.take n)
    nv' Nvram.checkByte1Addr
        = (if 1 ≤ n then Nvram.checkByte1Value else nv Nvram.checkByte1Addr) ∧
      nv' Nvram.checkByte2Addr
        = (if 2 ≤ n then Nvram.checkByte2Value else nv Nvram.checkByte2Addr) ∧
      nv' Nvram.stateAddr = nv Nvram.stateAddr := by
  interval_cases n <;> exact ⟨rfl, rfl, rfl⟩

/-- The slots lie below what is written. -/
theorem slotData_checkWrites (nv : Nvram) (n : Nat) (addr : UInt8)
    (haddr : addr = Nvram.counter0Addr ∨ addr = Nvram.counter1Addr) :
    slotData addr (replay nv (checkWrites.take n)) = slotData addr nv := by
  let I : List Event → Nvram → Prop := fun _ nv' => ∀ a < Nvram.checkByte1Addr, nv' a = nv a
  have hlow : I (checkWrites.take n) (replay nv (checkWrites.take n)) := by
    have hstart : I [] nv := fun _ _ => rfl
    refine replay_take_of_keeps (fun e he _ nv' hnv' a ha => ?_) hstart n
    have hwrite : ∃ high data, e = .nvramWrite high data ∧ Nvram.checkByte1Addr ≤ high := by
      simp only [checkWrites, List.mem_cons, List.not_mem_nil, or_false] at he
      rcases he with rfl | rfl | rfl <;> exact ⟨_, _, rfl, by decide⟩
    obtain ⟨high, data, rfl, hhigh⟩ := hwrite
    have hne : a ≠ high := fun heq =>
      absurd (UInt8.lt_of_lt_of_le ha hhigh) (heq ▸ UInt8.lt_irrefl a)
    rw [act_nvramWrite, Function.update_of_ne hne, hnv' a ha]
  refine List.map_congr_left fun i hi => hlow _ ?_
  have hi8 : i < 8 := List.mem_range.mp hi
  rcases haddr with rfl | rfl <;> interval_cases i <;> decide

theorem counterAddr_eq (state : UInt8) :
    counterAddr state = Nvram.counter0Addr ∨ counterAddr state = Nvram.counter1Addr := by
  unfold counterAddr
  split
  · exact .inr rfl
  · exact .inl rfl

theorem checkWrites_formatted (nv : Nvram) :
    Formatted (replay nv checkWrites) ∧
      storedCounter (replay nv checkWrites) = counterOfData (slotData Nvram.counter0Addr nv) := by
  have hstate : replay nv checkWrites Nvram.stateAddr = 0 := rfl
  refine ⟨⟨rfl, rfl, .inl hstate⟩, ?_⟩
  rw [storedCounter, hstate]
  exact congrArg counterOfData (slotData_checkWrites nv 3 _ (.inl rfl))

/-! ## One cut -/

/-- How many writes it takes until the store counts as formatted. -/
def writesToFormat (nv : Nvram) : Nat :=
  if nv Nvram.stateAddr > 1 then 3
  else if nv Nvram.checkByte2Addr ≠ Nvram.checkByte2Value then 2
  else 1

theorem mailInit_cut_early {nv : Nvram} (h : ¬ Formatted nv) {n : Nat} (hn : n < 3) :
    let nv' := mailInit.cut nv n
    (Formatted nv' ↔ writesToFormat nv ≤ n) ∧
      (n < writesToFormat nv → writesToFormat nv' = writesToFormat nv) ∧
      nv' Nvram.stateAddr = nv Nvram.stateAddr ∧
      ∀ addr, addr = Nvram.counter0Addr ∨ addr = Nvram.counter1Addr →
        slotData addr nv' = slotData addr nv := by
  have hcut : mailInit.cut nv n = replay nv (checkWrites.take n) := by
    unfold Traced.cut
    rw [mailInit_events_reformat h, List.take_append_of_le_length hn.le]
  obtain ⟨hcheck1, hcheck2, hstate⟩ := replay_checkWrites_take nv hn
  have hslots := slotData_checkWrites nv n
  dsimp only
  rw [hcut]
  generalize replay nv (checkWrites.take n) = nv' at hcheck1 hcheck2 hstate hslots ⊢
  rw [← not_formatted_iff] at h
  rw [← not_iff_not, ← not_formatted_iff nv', Nat.not_le]
  unfold writesToFormat
  rw [hcheck1, hcheck2, hstate]
  refine ⟨?_, ?_, rfl, hslots⟩
  · interval_cases n <;> split_ifs <;> simp_all
  · interval_cases n <;> split_ifs <;> simp_all

/-- A cut after it: the counter is 1 if all the writes were done, and else what slot 0 held. -/
theorem mailInit_cut_late {nv : Nvram} (h : ¬ Formatted nv) {n : Nat} (hn : 3 ≤ n) :
    Formatted (mailInit.cut nv n) ∧ storedCounter (mailInit.cut nv n)
      = if 12 ≤ n then 1 else counterOfData (slotData Nvram.counter0Addr nv) := by
  obtain ⟨hf, hstored⟩ := checkWrites_formatted nv
  have hcut : mailInit.cut nv n = (saveCounter 1 >>= fun _ => displayMessage "NVRAM INIT").cut
      (replay nv checkWrites) (n - 3) := by
    unfold Traced.cut
    rw [mailInit_events_reformat h, List.take_append, List.take_of_length_le hn, replay_append]
    rfl
  have hdisplay := fun nv => (along_keeps_store (writesIn_displayMessage Alarm.Owns "NVRAM INIT")
    alarm_outside nv).mono fun _ _ hkept => hkept.1
  have hiff : 12 ≤ n ↔ 9 ≤ n - 3 := by omega
  rw [hcut, ← hstored, if_congr hiff rfl rfl]
  exact saveCounter_bind_cut hf 1 hdisplay (n - 3)

/-! ## Cuts, and a boot that runs to its end -/

/-- The NVRAM after boots that were each cut after so many events of `mail_init`. -/
def boots (nv : Nvram) : List Nat → Nvram
  | [] => nv
  | n :: cuts => boots (mailInit.cut nv n) cuts

/-- The first cut that left a formatted store. -/
def formattingCut (nv : Nvram) (cuts : List Nat) : Option Nat :=
  cuts.find? (writesToFormat nv ≤ ·)

/-- What the slot holds that a cut makes live before the counter is saved. -/
def foundCounter (nv : Nvram) (n : Nat) : UInt64 :=
  counterOfData (slotData (if n < 3 then counterAddr (nv Nvram.stateAddr) else Nvram.counter0Addr)
    nv)

theorem boots_formatted {nv : Nvram} (h : Formatted nv) (cuts : List Nat) : boots nv cuts = nv := by
  induction cuts with
  | nil => rfl
  | cons n cuts ih =>
    have hcut : mailInit.cut nv n = nv := by
      rw [Traced.cut, (mailInit_formatted h).2, List.take_nil]
      rfl
    rw [boots, hcut, ih]

/-- What one cut leaves: a formatted store, or one that is no different for what follows. -/
theorem mailInit_cut {nv : Nvram} (h : ¬ Formatted nv) (n : Nat) :
    (writesToFormat nv ≤ n → Formatted (mailInit.cut nv n) ∧
      storedCounter (mailInit.cut nv n) = if 12 ≤ n then 1 else foundCounter nv n) ∧
    (n < writesToFormat nv → ¬ Formatted (mailInit.cut nv n) ∧
      writesToFormat (mailInit.cut nv n) = writesToFormat nv ∧
      foundCounter (mailInit.cut nv n) = foundCounter nv) := by
  have hle : writesToFormat nv ≤ 3 := by
    unfold writesToFormat
    split_ifs <;> decide
  rcases Nat.lt_or_ge n 3 with hlt | hge
  · obtain ⟨hformatted, hsame, hstate, hslots⟩ := mailInit_cut_early h hlt
    have hfound : foundCounter (mailInit.cut nv n) = foundCounter nv := by
      funext m
      unfold foundCounter
      rw [hstate]
      split_ifs
      · rw [hslots _ (counterAddr_eq _)]
      · rw [hslots _ (.inl rfl)]
    refine ⟨fun hn => ⟨hformatted.mpr hn, ?_⟩, fun hn => ⟨fun hf => ?_, hsame hn, hfound⟩⟩
    · rw [if_neg (by omega), ← hfound, foundCounter, if_pos hlt]
      rfl
    · exact absurd (hformatted.mp hf) (Nat.not_le.mpr hn)
  · obtain ⟨hf, hstored⟩ := mailInit_cut_late h hge
    refine ⟨fun _ => ⟨hf, hstored.trans ?_⟩, fun hn => absurd (hn.trans_le hle) (by omega)⟩
    rw [foundCounter, if_neg (Nat.not_lt.mpr hge)]

/-- **When formatting survives power cuts.** The counter is 1 in the end, unless the first cut that
    left a formatted store came before the counter was saved, and found something else. -/
theorem mailInit_boots_iff {nv : Nvram} (h : ¬ Formatted nv) (cuts : List Nat) :
    mailInit.value (boots nv cuts) = some 1
      ↔ ∀ n, formattingCut nv cuts = some n → 12 ≤ n ∨ foundCounter nv n = 1 := by
  induction cuts generalizing nv with
  | nil =>
    have hvalue : mailInit.value nv = some 1 :=
      (congrArg Prod.fst (mailInit_reformats h)).trans (reformat_eq nv).1
    exact ⟨fun _ n hn => absurd hn (by simp [formattingCut]), fun _ => hvalue⟩
  | cons n cuts ih =>
    obtain ⟨hlate, hearly⟩ := mailInit_cut h n
    rw [boots]
    by_cases hn : writesToFormat nv ≤ n
    · obtain ⟨hf, hstored⟩ := hlate hn
      have hfirst : formattingCut nv (n :: cuts) = some n :=
        List.find?_cons_of_pos (decide_eq_true hn)
      rw [boots_formatted hf, (mailInit_formatted hf).1, hfirst, hstored, Option.some.injEq]
      constructor
      · intro hone m hm
        obtain rfl := Option.some.inj hm
        by_cases h12 : 12 ≤ n
        · exact .inl h12
        · exact .inr (by rwa [if_neg h12] at hone)
      · intro hcond
        rcases hcond n rfl with h12 | hone
        · exact if_pos h12
        · rw [hone, ite_self]
    · obtain ⟨hf, hsame, hfound⟩ := hearly (Nat.not_le.mp hn)
      have hnext : formattingCut nv (n :: cuts) = formattingCut (mailInit.cut nv n) cuts := by
        rw [formattingCut, formattingCut, hsame]
        exact List.find?_cons_of_neg (by simpa using hn)
      rw [ih hf, hnext, hfound]

/-- Two cuts before anything counts, and a third when all is written. -/
theorem mailInit_boots_sample :
    mailInit.value (boots (fun _ => 0xff) [0, 2, 12]) = some 1 := by
  have hbad : ¬ Formatted (fun _ => 0xff) := fun h => absurd h.check1 (by decide)
  refine (mailInit_boots_iff hbad [0, 2, 12]).mpr fun n hn => .inl ?_
  obtain rfl : 12 = n := Option.some.inj hn
  exact Nat.le_refl 12

/-- A cut after three writes to a fresh chip: the counter is as large as it can be. -/
theorem mailInit_cut_fresh :
    ¬ Formatted (fun _ => 0xff) ∧
      mailInit.value (boots (fun _ => 0xff) [3]) = some 0xffffffffffffffff ∧
      mailInit.value (boots (fun _ => 0xff) [3]) ≠ some 1 := by
  refine ⟨fun h => absurd h.check1 (by decide), ?_, ?_⟩ <;> decide

end Mail
end CpeClock
