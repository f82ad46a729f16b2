import CpeClock.Mail

/-!
# The double-slot counter store

The counter is kept in two slots, and the state byte says which one is live. `save_counter` writes
the other slot and then flips the state byte, so the whole of the change is that one last write:
at every point before it the store still holds the old counter (`saveCounter_cut`), and after it
the new one (`saveCounter_final`).

Nothing else touches the store: the other modules write outside `counterArea`, and a program that
does so keeps the stored counter all along (`along_keeps_store`).
-/

namespace CpeClock
namespace Mail

open Lib

/-! ## A counter in memory -/

theorem counterData_getD (c : UInt64) {i : Nat} (hi : i < 8) :
    ((counterData c).getD i 0).toNat = c.toNat / 2 ^ (8 * i) % 256 := by
  have hshift : (8 * i).toUInt64.toNat % 64 = 8 * i := by
    rw [Nat.toUInt64, UInt64.toNat_ofNat']
    omega
  rw [counterData, List.getD_eq_getElem?_getD, List.getElem?_map, List.getElem?_range hi,
    Option.map_some, Option.getD_some, UInt64.toNat_toUInt8, UInt64.toNat_shiftRight, hshift,
    Nat.shiftRight_eq_div_pow]

theorem byte_add_div (n k : Nat) : n / 2 ^ k % 256 + 256 * (n / 2 ^ (k + 8)) = n / 2 ^ k := by
  rw [Nat.add_comm, Nat.mul_comm]
  exact Hmac433.div_byte n k

theorem length_counterData (c : UInt64) : (counterData c).length = 8 := by simp [counterData]

/-- **The bytes of a counter are that counter.** -/
theorem counterOfData_counterData (c : UInt64) : counterOfData (counterData c) = c := by
  have hc := c.toNat_lt
  have hlist : counterData c = (List.range 8).map fun i => (counterData c).getD i 0 := by
    apply List.ext_getElem
    · simp [counterData]
    · intro i h1 h2
      simp [List.getD_eq_getElem?_getD, List.getElem?_eq_getElem h1]
  have hb := fun i (hi : i < 8) => counterData_getD c hi
  have h0 : ((counterData c).getD 0 0).toNat = c.toNat / 2 ^ 0 % 256 := hb 0 (by decide)
  have h1 : ((counterData c).getD 1 0).toNat = c.toNat / 2 ^ 8 % 256 := hb 1 (by decide)
  have h2 : ((counterData c).getD 2 0).toNat = c.toNat / 2 ^ 16 % 256 := hb 2 (by decide)
  have h3 : ((counterData c).getD 3 0).toNat = c.toNat / 2 ^ 24 % 256 := hb 3 (by decide)
  have h4 : ((counterData c).getD 4 0).toNat = c.toNat / 2 ^ 32 % 256 := hb 4 (by decide)
  have h5 : ((counterData c).getD 5 0).toNat = c.toNat / 2 ^ 40 % 256 := hb 5 (by decide)
  have h6 : ((counterData c).getD 6 0).toNat = c.toNat / 2 ^ 48 % 256 := hb 6 (by decide)
  have h7 : ((counterData c).getD 7 0).toNat = c.toNat / 2 ^ 56 := by
    rw [hb 7 (by decide)]
    exact Nat.mod_eq_of_lt (by omega)
  have hsum : (counterData c).foldr (fun b n => b.toNat + 256 * n) 0 = c.toNat := by
    rw [hlist, show List.range 8 = [0, 1, 2, 3, 4, 5, 6, 7] from rfl]
    simp only [List.map_cons, List.map_nil, List.foldr_cons, List.foldr_nil]
    rw [h0, h1, h2, h3, h4, h5, h6, h7, Nat.mul_zero, Nat.add_zero, byte_add_div _ 48,
      byte_add_div _ 40, byte_add_div _ 32, byte_add_div _ 24, byte_add_div _ 16,
      byte_add_div _ 8, byte_add_div _ 0, Nat.pow_zero, Nat.div_one]
  rw [counterOfData, hsum]
  exact UInt64.ofNat_toNat

/-! ## What the store holds -/

/-- Both check bytes are correct and the state byte is 0 or 1. -/
structure Formatted (nv : Nvram) : Prop where
  check1 : nv Nvram.checkByte1Addr = Nvram.checkByte1Value
  check2 : nv Nvram.checkByte2Addr = Nvram.checkByte2Value
  state : nv Nvram.stateAddr = 0 ∨ nv Nvram.stateAddr = 1

/-- The counter that `mail_init` would load. -/
def storedCounter (nv : Nvram) : UInt64 :=
  counterOfData (slotData (counterAddr (nv Nvram.stateAddr)) nv)

def formattedNvram (c : UInt64) : Nvram := fun addr =>
  if addr = Nvram.checkByte1Addr then Nvram.checkByte1Value
  else if addr = Nvram.checkByte2Addr then Nvram.checkByte2Value
  else (counterData c).getD addr.toNat 0

theorem formattedNvram_formatted (c : UInt64) :
    Formatted (formattedNvram c) ∧ storedCounter (formattedNvram c) = c := by
  have hbyte : ∀ addr, addr ≠ Nvram.checkByte1Addr → addr ≠ Nvram.checkByte2Addr →
      formattedNvram c addr = (counterData c).getD addr.toNat 0 := fun addr h1 h2 =>
    (if_neg h1).trans (if_neg h2)
  have hstate : formattedNvram c Nvram.stateAddr = 0 := by
    rw [hbyte _ (by decide) (by decide)]
    exact List.getD_eq_default _ _ (by rw [length_counterData]; decide)
  refine ⟨⟨rfl, rfl, .inl hstate⟩, ?_⟩
  have hslot : slotData (counterAddr (formattedNvram c Nvram.stateAddr)) (formattedNvram c)
      = counterData c := by
    rw [hstate]
    refine List.map_congr_left fun i hi => ?_
    have hi8 : i < 8 := List.mem_range.mp hi
    interval_cases i <;> exact hbyte _ (by decide) (by decide)
  rw [storedCounter, hslot, counterOfData_counterData]

/-- The addresses of the counter, its check bytes and its state byte. -/
def counterArea (addr : UInt8) : Prop := addr ≤ Nvram.checkByte2Addr

instance (addr : UInt8) : Decidable (counterArea addr) := by unfold counterArea; infer_instance

theorem uint8_gt_one_iff (b : UInt8) : b > 1 ↔ ¬ (b = 0 ∨ b = 1) := by
  simp only [gt_iff_lt, UInt8.lt_iff_toNat_lt, ← UInt8.toNat_inj]
  have h0 : (0 : UInt8).toNat = 0 := rfl
  have h1 : (1 : UInt8).toNat = 1 := rfl
  omega

/-- The test of `mail_init` is that the store is not formatted. -/
theorem not_formatted_iff (nv : Nvram) :
    (nv Nvram.checkByte1Addr ≠ Nvram.checkByte1Value ∨
        nv Nvram.checkByte2Addr ≠ Nvram.checkByte2Value ∨ nv Nvram.stateAddr > 1)
      ↔ ¬ Formatted nv := by
  rw [uint8_gt_one_iff]
  constructor
  · rintro (h1 | h2 | h3) hf
    · exact h1 hf.check1
    · exact h2 hf.check2
    · exact h3 hf.state
  · intro h
    by_contra hgood
    obtain ⟨hcheck1, hrest⟩ := not_or.mp hgood
    obtain ⟨hcheck2, hstate⟩ := not_or.mp hrest
    exact h ⟨not_not.mp hcheck1, not_not.mp hcheck2, not_not.mp hstate⟩

theorem mailInit_eq (nv : Nvram) :
    mailInit nv = (if nv Nvram.checkByte1Addr ≠ Nvram.checkByte1Value ∨
      nv Nvram.checkByte2Addr ≠ Nvram.checkByte2Value ∨ nv Nvram.stateAddr > 1 then reformat
      else loadCounter (nv Nvram.stateAddr)) nv := rfl

theorem mailInit_loads {nv : Nvram} (h : Formatted nv) :
    mailInit nv = loadCounter (nv Nvram.stateAddr) nv := by
  rw [mailInit_eq, if_neg fun hbad => (not_formatted_iff nv).mp hbad h]

theorem mailInit_reformats {nv : Nvram} (h : ¬ Formatted nv) : mailInit nv = reformat nv := by
  rw [mailInit_eq, if_pos ((not_formatted_iff nv).mpr h)]

theorem mailInit_formatted {nv : Nvram} (h : Formatted nv) :
    mailInit.value nv = some (storedCounter nv) ∧ mailInit.events nv = [] :=
  ⟨congrArg Prod.fst (mailInit_loads h), congrArg Prod.snd (mailInit_loads h)⟩

theorem store_congr {nv nv' : Nvram} (h : ∀ addr, counterArea addr → nv' addr = nv addr) :
    (Formatted nv → Formatted nv') ∧ storedCounter nv' = storedCounter nv := by
  have hstate : nv' Nvram.stateAddr = nv Nvram.stateAddr := h _ (by decide)
  constructor
  · intro hf
    refine ⟨?_, ?_, ?_⟩
    · rw [h _ (by decide)]
      exact hf.check1
    · rw [h _ (by decide)]
      exact hf.check2
    · rw [hstate]
      exact hf.state
  · unfold storedCounter slotData
    rw [hstate]
    congr 1
    refine List.map_congr_left fun i hi => h _ ?_
    have hi8 : i < 8 := List.mem_range.mp hi
    unfold counterAddr
    split <;> interval_cases i <;> decide

/-- **A program that writes outside the counter's bytes keeps the store**, wherever it is cut, and
    acts on no packet. -/
theorem along_keeps_store {α : Type} {A : UInt8 → Prop} {p : Sketch α} (hp : WritesIn A p)
    (hA : ∀ addr, counterArea addr → ¬ A addr) (nv : Nvram) :
    Traced.Along (fun es nv' => ((Formatted nv → Formatted nv') ∧
      storedCounter nv' = storedCounter nv) ∧ commands es = []) p nv := by
  have hkeeps : Traced.Along (fun es nv' => (∀ addr, counterArea addr → nv' addr = nv addr) ∧
      commands es = []) p nv := by
    refine hp.along (fun e he es nv' hnv' => ⟨fun addr haddr => ?_, ?_⟩) ⟨fun _ _ => rfl, rfl⟩
    · rw [he.act_eq nv' (hA addr haddr), hnv'.1 addr haddr]
    · rw [commands_append, hnv'.2, commands_of_writesIn (A := A) (by simpa using he)]
      rfl
  exact hkeeps.mono fun _ nv' h => ⟨store_congr h.1, h.2⟩

theorem alarm_outside : ∀ addr, counterArea addr → ¬ Alarm.Owns addr := by
  intro addr h hown
  rcases hown with rfl | rfl | rfl <;> exact absurd h (by decide)

theorem nightDayTime_outside : ∀ addr, counterArea addr → ¬ NightDayTime.Owns addr := by
  intro addr h hown
  rcases hown with rfl | rfl | rfl | rfl <;> exact absurd h (by decide)

/-! ## Saving -/

def freeSlot (nv : Nvram) : UInt8 := counterAddr (nv Nvram.stateAddr ^^^ 1)

def slotWrites (addr : UInt8) (c : UInt64) : List Event :=
  (List.range 8).map fun i => .nvramWrite (i.toUInt8 + addr) ((counterData c).getD i 0)

theorem saveCounter_events (c : UInt64) (nv : Nvram) :
    (saveCounter c).events nv
      = slotWrites (freeSlot nv) c
        ++ [.nvramWrite Nvram.stateAddr (nv Nvram.stateAddr ^^^ 1)] := by
  simp only [saveCounter, nvramRead, nvramWrite, Traced.events_bind, Traced.events_read,
    Traced.events_emitAll, Traced.events_emit, Traced.final_read, Traced.value_read,
    List.nil_append]
  rfl

theorem length_slotWrites (addr : UInt8) (c : UInt64) : (slotWrites addr c).length = 8 := by
  simp [slotWrites]

theorem length_saveCounter (c : UInt64) (nv : Nvram) : ((saveCounter c).events nv).length = 9 := by
  rw [saveCounter_events, List.length_append, length_slotWrites]
  rfl

/-- Both slots lie below the check bytes and the state byte, and do not overlap. -/
theorem slot_disjoint {s : UInt8} (hs : s = 0 ∨ s = 1) {i j : Nat} (hi : i < 8) (hj : j < 8) :
    i.toUInt8 + counterAddr (s ^^^ 1) ≠ j.toUInt8 + counterAddr s ∧
      i.toUInt8 + counterAddr (s ^^^ 1) < Nvram.checkByte1Addr := by
  rcases hs with rfl | rfl <;> interval_cases i <;> interval_cases j <;> decide

/-- Any of the writes into the free slot may be missing: the store is as it was. -/
theorem slotWrites_keep_store {nv : Nvram} (hf : Formatted nv) (c : UInt64) (n : Nat) :
    let nv' := replay nv ((slotWrites (freeSlot nv) c).take n)
    Formatted nv' ∧ storedCounter nv' = storedCounter nv := by
  dsimp only
  -- The bytes outside the free slot.
  let K : UInt8 → Prop := fun addr => ∀ i < 8, addr ≠ i.toUInt8 + freeSlot nv
  have hkeep : ∀ addr, K addr →
      replay nv ((slotWrites (freeSlot nv) c).take n) addr = nv addr := by
    let I : List Event → Nvram → Prop := fun _ nv' => ∀ addr, K addr → nv' addr = nv addr
    have hstart : I [] nv := fun _ _ => rfl
    refine replay_take_of_keeps (fun e he _ nv' hnv' addr haddr => ?_) hstart n
    obtain ⟨i, hi, rfl⟩ := List.mem_map.mp he
    rw [act_nvramWrite, Function.update_of_ne (haddr i (List.mem_range.mp hi)), hnv' addr haddr]
  have hhigh : ∀ addr, Nvram.checkByte1Addr ≤ addr → K addr := by
    intro addr haddr i hi heq
    have hlt := (slot_disjoint hf.state hi hi).2
    change i.toUInt8 + freeSlot nv < _ at hlt
    rw [← heq] at hlt
    exact absurd (UInt8.lt_of_le_of_lt haddr hlt) (by decide)
  have hstate := hkeep Nvram.stateAddr (hhigh _ (by decide))
  constructor
  · refine ⟨?_, ?_, ?_⟩
    · rw [hkeep _ (hhigh _ (by decide))]
      exact hf.check1
    · rw [hkeep _ (hhigh _ (by decide))]
      exact hf.check2
    · rw [hstate]
      exact hf.state
  · unfold storedCounter slotData
    rw [hstate]
    congr 1
    refine List.map_congr_left fun j hj => hkeep _ fun i hi => ?_
    exact (slot_disjoint hf.state hi (List.mem_range.mp hj)).1.symm

/-- **A cut before the last write leaves the old counter.** -/
theorem saveCounter_cut {nv : Nvram} (hf : Formatted nv) (c : UInt64) {n : Nat} (hn : n ≤ 8) :
    Formatted ((saveCounter c).cut nv n) ∧
      storedCounter ((saveCounter c).cut nv n) = storedCounter nv := by
  have htake : ((saveCounter c).events nv).take n = (slotWrites (freeSlot nv) c).take n := by
    rw [saveCounter_events, List.take_append_of_le_length (by rw [length_slotWrites]; exact hn)]
  unfold Traced.cut
  rw [htake]
  exact slotWrites_keep_store hf c n

theorem slotData_slotWrites (nv : Nvram) (addr : UInt8) (haddr : addr = 0 ∨ addr = 8)
    (c : UInt64) : slotData addr (replay nv (slotWrites addr c)) = counterData c := by
  apply List.ext_getElem
  · simp [slotData, counterData]
  · intro i h1 h2
    have hi : i < 8 := by simpa [slotData] using h1
    rw [← List.getD_eq_getElem (counterData c) 0 h2]
    simp only [slotData, List.getElem_map, List.getElem_range]
    rcases haddr with rfl | rfl <;> interval_cases i <;> rfl

theorem freeSlot_eq (nv : Nvram) : freeSlot nv = 0 ∨ freeSlot nv = 8 := by
  unfold freeSlot counterAddr
  split
  · exact .inr rfl
  · exact .inl rfl

/-- **A completed save leaves the new counter**, and a good store good. -/
theorem saveCounter_final (c : UInt64) (nv : Nvram) :
    (Formatted nv → Formatted ((saveCounter c).final nv)) ∧
      storedCounter ((saveCounter c).final nv) = c := by
  have hfinal : (saveCounter c).final nv
      = Function.update (replay nv (slotWrites (freeSlot nv) c)) Nvram.stateAddr
          (nv Nvram.stateAddr ^^^ 1) := by
    unfold Traced.final
    rw [saveCounter_events, replay_append]
    rfl
  rw [hfinal]
  constructor
  · intro hf
    obtain ⟨hf8, -⟩ := slotWrites_keep_store hf c 8
    rw [List.take_of_length_le (by rw [length_slotWrites])] at hf8
    refine ⟨hf8.check1, hf8.check2, ?_⟩
    rw [Function.update_self]
    rcases hf.state with hs | hs <;> rw [hs] <;> decide
  · have hbytes : slotData (freeSlot nv)
        (Function.update (replay nv (slotWrites (freeSlot nv) c)) Nvram.stateAddr
          (nv Nvram.stateAddr ^^^ 1)) = counterData c := by
      rw [← slotData_slotWrites nv (freeSlot nv) (freeSlot_eq nv) c]
      refine List.map_congr_left fun i hi => Function.update_of_ne ?_ _ _
      have hi8 : i < 8 := List.mem_range.mp hi
      rcases freeSlot_eq nv with hs | hs <;> rw [hs] <;> interval_cases i <;> decide
    unfold storedCounter
    rw [Function.update_self]
    change counterOfData (slotData (freeSlot nv) _) = c
    rw [hbytes, counterOfData_counterData]

/-- **A save is all or nothing**, and so is a save with something after it that keeps the store:
    the ninth event is the one that counts. -/
theorem saveCounter_bind_cut {nv : Nvram} (hf : Formatted nv) (c : UInt64) {α : Type}
    {rest : Unit → Sketch α}
    (hrest : ∀ nv, Traced.Along (fun _ nv' => (Formatted nv → Formatted nv') ∧
      storedCounter nv' = storedCounter nv) (rest ()) nv) (n : Nat) :
    Formatted ((saveCounter c >>= rest).cut nv n) ∧
      storedCounter ((saveCounter c >>= rest).cut nv n)
        = if 9 ≤ n then c else storedCounter nv := by
  obtain ⟨hfinal, hstored⟩ := saveCounter_final c nv
  rw [Traced.cut_bind, length_saveCounter]
  rcases Nat.lt_trichotomy n 9 with hlt | rfl | hgt
  · rw [if_pos hlt.le, if_neg (Nat.not_le.mpr hlt)]
    exact saveCounter_cut hf c (Nat.le_of_lt_succ hlt)
  · rw [if_pos le_rfl, if_pos le_rfl, Traced.cut_of_length_le (length_saveCounter ..).le]
    exact ⟨hfinal hf, hstored⟩
  · rw [if_neg (Nat.not_le.mpr hgt), if_pos hgt.le]
    obtain ⟨hgood, hkept⟩ := hrest ((saveCounter c).final nv) (n - 9)
    exact ⟨hgood (hfinal hf), hkept.trans hstored⟩

/-- Along a save the store is always good, and holds the old counter or the new one. -/
theorem along_saveCounter {nv : Nvram} (hf : Formatted nv) (c : UInt64) :
    Traced.Along (fun _ nv' => Formatted nv' ∧
      (storedCounter nv' = storedCounter nv ∨ storedCounter nv' = c)) (saveCounter c) nv := by
  intro n
  by_cases hn : n ≤ 8
  · obtain ⟨h1, h2⟩ := saveCounter_cut hf c hn
    exact ⟨h1, .inl h2⟩
  · rw [Traced.cut_of_length_le (by rw [length_saveCounter]; exact Nat.lt_of_not_le hn)]
    obtain ⟨h1, h2⟩ := saveCounter_final c nv
    exact ⟨h1 hf, .inr h2⟩

end Mail
end CpeClock
