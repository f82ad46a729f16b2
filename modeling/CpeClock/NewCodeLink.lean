import CpeClock.EdgeTiming
import CpeClock.Tx433
import CpeClock.NcrsCorrect

/-!
# New codes over the radio

What the handler's state is after each edge of a transmission: `AtFirst` after the first edge of a
symbol, `AtSlot` after its second edge and after each of its bits. Every edge leads from one of
these to another and publishes nothing, until the edge that ends the last symbol.

The slots of a symbol are the multiples of `2 * NC_PULSE` from its second edge, 0 for that edge
itself, 1 to 5 for the bits and 6 for the first edge of the next symbol. The Home Easy decoder sees
the same edges, and an interval of six slots may look like its start code; `falseCodes` is all that
it can make of the edges after that. A false code never gets to its fifth bit.
-/

namespace CpeClock
namespace Rx433

open Lib Mealy Tx433

/-! ## What Home Easy makes of it -/

/-- What the Home Easy decoder may have taken for a code when it has heard the edge in a slot. -/
def falseCodes : Nat → List (HeState × UInt8)
  | 0 => [(.readyForBit, 2), (.receivedShort, 0)]
  | 1 => [(.receivedShort, 2)]
  | 3 => [(.receivedLong, 2), (.readyForBit, 1)]
  | 4 => [(.readyForBit, 3), (.receivedShort, 1)]
  | 5 => [(.receivedShort, 3)]
  | 6 => [(.receivedLong, 1), (.readyForBit, 0)]
  | _ => []

/-- No code, or a false one. -/
def NoCode (slot : Nat) (d : HeDecoder) : Prop :=
  d.state = .reset ∨ (d.state, d.bitCount) ∈ falseCodes slot

instance (slot : Nat) (d : HeDecoder) : Decidable (NoCode slot d) := by
  unfold NoCode
  infer_instance

/-- The pulses that may lead from one slot to the next edge's. -/
def pulsesBetween (slot slot' : Nat) : List HePulse :=
  if slot' = 0 then [.short, .other] else slotPulses (slot' - slot)

/-- A false code becomes another or none. -/
theorem falseCodes_closed : ∀ slot < 7, ∀ slot' < 7, (slot' = 0 ∧ slot = 6 ∨ slot < slot') →
    ∀ e ∈ falseCodes slot, ∀ pulse ∈ pulsesBetween slot slot',
      (homeEasy pulse ⟨e.1, e.2, 0⟩).2 = none ∧ NoCode slot' (homeEasy pulse ⟨e.1, e.2, 0⟩).1 := by
  decide

theorem noCode_closed : ∀ slot < 7, ∀ slot' < 7, (slot' = 0 ∧ slot = 6 ∨ slot < slot') →
    ∀ pulse ∈ pulsesBetween slot slot', pulse = .start → slot' = 6 := by
  decide

/-- What becomes of the state and the count does not depend on the data. -/
theorem homeEasy_data (pulse : HePulse) (d : HeDecoder) :
    let r := homeEasy pulse { d with bitData := 0 }
    (homeEasy pulse d).1.state = r.1.state ∧ (homeEasy pulse d).1.bitCount = r.1.bitCount ∧
      ((homeEasy pulse d).2 = none ↔ r.2 = none) := by
  obtain ⟨state, bitCount, bitData⟩ := d
  cases pulse <;> cases state <;> simp [homeEasy, HeDecoder.nextBit] <;> split <;> simp

/-- **No Home Easy code is heard in a new code.** -/
theorem homeEasy_noCode {slot slot' : Nat} (hslot : slot < 7) (hslot' : slot' < 7)
    (hnext : slot' = 0 ∧ slot = 6 ∨ slot < slot') {d : HeDecoder} (hd : NoCode slot d)
    {pulse : HePulse} (hpulse : pulse ∈ pulsesBetween slot slot') :
    NoCode slot' (homeEasy pulse d).1 ∧ (homeEasy pulse d).2 = none := by
  rcases hd with hreset | hfalse
  · by_cases hstart : pulse = .start
    · obtain rfl := noCode_closed slot hslot slot' hslot' hnext pulse hpulse hstart
      subst hstart
      exact ⟨.inr (by decide : (HeState.readyForBit, (0 : UInt8)) ∈ falseCodes 6), rfl⟩
    · obtain ⟨state, bitCount, bitData⟩ := d
      obtain rfl : state = .reset := hreset
      cases pulse <;> first | exact absurd rfl hstart | exact ⟨.inl rfl, rfl⟩
  · obtain ⟨hstate, hcount, hnone⟩ := homeEasy_data pulse d
    obtain ⟨hpub, hcode⟩ := falseCodes_closed slot hslot slot' hslot' hnext _ hfalse pulse hpulse
    refine ⟨?_, hnone.mpr hpub⟩
    unfold NoCode
    rw [hstate, hcount]
    exact hcode

/-! ## What is in the buffer -/

/-- A symbol of which the first `c` bits have been heard. -/
def received (symbol : UInt8) : Nat → UInt8
  | 0 => 0
  | c + 1 =>
    if bitSet symbol.toNat (c + 1) then received symbol c ||| bitValue (c + 1)
    else received symbol c

theorem received_five {symbol : UInt8} (h : symbol.toNat < 32) : received symbol 5 = symbol := by
  have hall : ∀ n < 32, received (UInt8.ofNat n) 5 = UInt8.ofNat n := by decide
  have hsymbol := hall symbol.toNat h
  rwa [UInt8.ofNat_toNat] at hsymbol

/-- The buffer when `k` symbols have been heard, and `c` bits of the next. -/
def partialWord (word : Nat → UInt8) (k c : Nat) : NcCode :=
  Vector.ofFn fun i =>
    if i.val < k then word i.val else if i.val = k then received (word k) c else 0

theorem partialWord_getElem (word : Nat → UInt8) (k c : Nat) {i : Nat} (hi : i < 31) :
    (partialWord word k c)[i]
      = if i < k then word i else if i = k then received (word k) c else 0 :=
  Vector.getElem_ofFn ..

theorem partialWord_zero (word : Nat → UInt8) : partialWord word 0 0 = emptyCode := by
  apply Vector.ext
  intro i hi
  rw [partialWord_getElem word 0 0 hi, emptyCode, Vector.getElem_replicate]
  split
  · omega
  · split <;> rfl

theorem partialWord_symbol {word : Nat → UInt8} {k : Nat} (h : (word k).toNat < 32) :
    partialWord word k 5 = partialWord word (k + 1) 0 := by
  apply Vector.ext
  intro i hi
  rw [partialWord_getElem word k 5 hi, partialWord_getElem word (k + 1) 0 hi]
  rcases Nat.lt_trichotomy i k with hlt | rfl | hgt
  · rw [if_pos hlt, if_pos (by omega)]
  · rw [if_neg (by omega), if_pos rfl, if_pos (by omega), received_five h]
  · rw [if_neg (by omega), if_neg (by omega), if_neg (by omega)]
    split <;> rfl

theorem partialWord_unset {word : Nat → UInt8} {k c : Nat}
    (h : ¬ bitSet (word k).toNat (c + 1) = true) :
    partialWord word k (c + 1) = partialWord word k c := by
  unfold partialWord
  rw [received, if_neg h]

theorem partialWord_set {word : Nat → UInt8} {k c : Nat} (hk : k < 31)
    (h : bitSet (word k).toNat (c + 1) = true) :
    orBit (partialWord word k c) k (c + 1) = partialWord word k (c + 1) := by
  have hsymbol : (partialWord word k c)[k]! = received (word k) c := by
    rw [getElem!_pos _ k hk, partialWord_getElem word k c hk, if_neg (Nat.lt_irrefl k), if_pos rfl]
  apply Vector.ext
  intro i hi
  rw [orBit, hsymbol, Vector.set!_eq_setIfInBounds, Vector.getElem_setIfInBounds,
    partialWord_getElem word k c hi, partialWord_getElem word k (c + 1) hi]
  by_cases hik : k = i
  · subst hik
    rw [if_pos rfl, if_neg (Nat.lt_irrefl k), if_pos rfl, received, if_pos h]
  · rw [if_neg hik]
    split
    · rfl
    · rw [if_neg (Ne.symm hik), if_neg (Ne.symm hik)]

/-! ## The handler's state during a transmission -/

section

variable (base : UInt32) (word : Nat → UInt8)

/-- The first edge of symbol `k`, due at `n`, was heard: `k` symbols are in the buffer. -/
structure AtFirst (k n : Nat) (s : Rx433) : Prop where
  edge : Heard base n s.oldTime
  noCode : NoCode 6 s.he
  idle : k = 0 → s.nc.count = noMessage
  during : 0 < k → ∃ m time, n = m + 3072 ∧ Heard base m time ∧
    s.nc = ⟨partialWord word k 0, time, UInt32.ofNat k⟩

/-- Slot `i` of symbol `k`, whose first edge was due at `n`, was heard, and there were no edges in
    the slots from there to `c`. -/
structure AtSlot (k n c i : Nat) (s : Rx433) : Prop where
  slot : i ≤ c
  edge : Heard base (n + 768 + 512 * i) s.oldTime
  noCode : NoCode i s.he
  during : ∃ time, Heard base (n + 768) time ∧ s.nc = ⟨partialWord word k c, time, UInt32.ofNat k⟩

end

/-- Rounds in which edges due at these times are heard and nothing is published. -/
def quietly (base : UInt32) (edges : List Nat) : List (Round UInt32 (List Publication)) :=
  edges.map fun n => (Heard base n, [])

variable {base : UInt32} {word : Nat → UInt8}

theorem count_toNat {k : Nat} (hk : k < 31) : (UInt32.ofNat k).toNat = k := by
  rw [UInt32.toNat_ofNat']
  omega

theorem count_lt {k : Nat} (hk : k < 31) : (UInt32.ofNat k).toNat < 31 := by rwa [count_toNat hk]

theorem count_succ (k : Nat) : UInt32.ofNat k + 1 = UInt32.ofNat (k + 1) :=
  (UInt32.ofNat_add k 1).symm

theorem Heard.sub_bounds {n n' : Nat} {time time' : UInt32} (h : Heard base n time)
    (h' : Heard base n' time') (hle : n + 94 ≤ n') (hlt : n' - n < 2 ^ 31) :
    n' - n ≤ (time' - time).toNat + 94 ∧ (time' - time).toNat ≤ n' - n + 94 := by
  obtain ⟨t, h1, h2, rfl⟩ := h
  obtain ⟨t', h1', h2', rfl⟩ := h'
  rw [clockAt_sub base (by omega) (by omega)]
  omega

theorem rx433Interrupt_quiet {newTime : UInt32} {s : Rx433} {nc : NcDecoder}
    (hhe : (homeEasy (hePulse (newTime - s.oldTime)) s.he).2 = none)
    (hnc : newCode newTime (newTime - s.oldTime) s.nc = (nc, none)) :
    rx433Interrupt newTime s
      = (⟨newTime, (homeEasy (hePulse (newTime - s.oldTime)) s.he).1, nc⟩, []) := by
  unfold rx433Interrupt
  dsimp only
  rw [hnc, hhe]
  rfl

theorem triple_second {k n : Nat} (hk : k < 31) :
    Triple rx433Interrupt (AtFirst base word k n) [(Heard base (n + 768), [])]
      (AtSlot base word k n 0 0) := by
  refine Triple.single fun s time hs htime => ?_
  obtain ⟨hlo, hhi⟩ := hs.edge.sub_bounds htime (by omega) (by omega)
  obtain ⟨hnoCode, hhe⟩ := @homeEasy_noCode 6 0 (by decide) (by decide)
    (.inl ⟨rfl, rfl⟩) s.he hs.noCode (hePulse (time - s.oldTime))
    (hePulse_startCode (by omega) (by omega))
  have hnc : newCode time (time - s.oldTime) s.nc
      = (⟨partialWord word k 0, time, UInt32.ofNat k⟩, none) := by
    rcases Nat.eq_zero_or_pos k with rfl | hpos
    · rw [newCode_begin (by omega) (by omega) (hs.idle rfl), partialWord_zero]
      rfl
    · obtain ⟨m, timebase, rfl, htimebase, hnc⟩ := hs.during hpos
      obtain ⟨hlo2, hhi2⟩ := htimebase.sub_bounds htime (by omega) (by omega)
      have hbase : s.nc.timebase = timebase := by rw [hnc]
      rw [newCode_continue (by omega) (by omega) (by rw [hnc]; exact count_lt hk)
        (by rw [hbase]; omega) (by rw [hbase]; omega), hnc]
  rw [rx433Interrupt_quiet hhe hnc]
  exact ⟨⟨Nat.le_refl 0, htime, hnoCode, time, htime, rfl⟩, rfl⟩

/-- How far an edge in slot `b` is from the edge before it, and from the symbol's second edge. -/
theorem AtSlot.intervals {k n c i b : Nat} {s : Rx433} (hs : AtSlot base word k n c i s)
    (hb : c < b) (hb' : b ≤ 6) {time : UInt32} (htime : Heard base (n + 768 + 512 * b) time) :
    (512 * (b - i) ≤ (time - s.oldTime).toNat + 94 ∧
        (time - s.oldTime).toNat ≤ 512 * (b - i) + 94) ∧
      512 * b ≤ (time - s.nc.timebase).toNat + 94 ∧
        (time - s.nc.timebase).toNat ≤ 512 * b + 94 := by
  have hib := Nat.lt_of_le_of_lt hs.slot hb
  obtain ⟨timebase, htimebase, hnc⟩ := hs.during
  obtain ⟨hlo, hhi⟩ := hs.edge.sub_bounds htime (by omega) (by omega)
  obtain ⟨hlo2, hhi2⟩ := htimebase.sub_bounds htime (by omega) (by omega)
  have hbase : s.nc.timebase = timebase := by rw [hnc]
  rw [hbase]
  omega

theorem AtSlot.hear {k n c i b : Nat} {s : Rx433} (hk : k < 31) (hs : AtSlot base word k n c i s)
    (hb : c < b) (hb' : b ≤ 6) {time : UInt32} (htime : Heard base (n + 768 + 512 * b) time) :
    (NoCode b (homeEasy (hePulse (time - s.oldTime)) s.he).1 ∧
        (homeEasy (hePulse (time - s.oldTime)) s.he).2 = none) ∧
      newCode time (time - s.oldTime) s.nc =
        if b < 6 then ({ s.nc with buffer := orBit s.nc.buffer k b }, none)
        else if s.nc.count + 1 = ncDataSize then
          ({ s.nc with count := noMessage }, some s.nc.buffer)
        else ({ s.nc with count := s.nc.count + 1 }, none) := by
  have hib := Nat.lt_of_le_of_lt hs.slot hb
  obtain ⟨⟨hlo, hhi⟩, hlo2, hhi2⟩ := hs.intervals hb hb' htime
  have hcount : s.nc.count.toNat = k := by
    obtain ⟨_, -, hnc⟩ := hs.during
    rw [hnc]
    exact count_toNat hk
  constructor
  · refine homeEasy_noCode (by omega) (by omega) (.inr hib) hs.noCode ?_
    rw [pulsesBetween, if_neg (by omega)]
    exact hePulse_slot (by omega) (by omega) hlo hhi
  · rw [newCode_slot (by omega) hb' (by omega) (by omega) hlo2 hhi2, hcount]

theorem triple_bit {k n c i : Nat} (hk : k < 31) (hc : c < 5)
    (hbit : bitSet (word k).toNat (c + 1) = true) :
    Triple rx433Interrupt (AtSlot base word k n c i)
      [(Heard base (n + 768 + 512 * (c + 1)), [])] (AtSlot base word k n (c + 1) (c + 1)) := by
  refine Triple.single fun s time hs htime => ?_
  obtain ⟨⟨hnoCode, hhe⟩, hnc⟩ := hs.hear hk (Nat.lt_succ_self c) (by omega) htime
  obtain ⟨timebase, htimebase, hdecoder⟩ := hs.during
  rw [if_pos (by omega), hdecoder] at hnc
  rw [rx433Interrupt_quiet hhe (by rw [hdecoder]; exact hnc)]
  refine ⟨⟨Nat.le_refl _, htime, hnoCode, timebase, htimebase, ?_⟩, rfl⟩
  dsimp only
  rw [partialWord_set hk hbit]

/-- A bit that is not: nothing is heard, and nothing changes. -/
theorem AtSlot.unset {k n c i : Nat} {s : Rx433} (hs : AtSlot base word k n c i s)
    (hbit : ¬ bitSet (word k).toNat (c + 1) = true) : AtSlot base word k n (c + 1) i s := by
  obtain ⟨timebase, htimebase, hnc⟩ := hs.during
  refine ⟨Nat.le_succ_of_le hs.slot, hs.edge, hs.noCode, timebase, htimebase, ?_⟩
  rw [partialWord_unset hbit]
  exact hnc

theorem triple_bits {k n : Nat} (hk : k < 31) (j : Nat) {c i : Nat} (hj : c + j = 5) :
    Triple rx433Interrupt (AtSlot base word k n c i)
      (quietly base (((List.range' (c + 1) j).filter (bitSet (word k).toNat)).map fun b =>
        n + 768 + 512 * b))
      (fun s => ∃ i, AtSlot base word k n 5 i s) := by
  induction j generalizing c i with
  | zero =>
    obtain rfl : c = 5 := hj
    exact Triple.nil fun s hs => ⟨i, hs⟩
  | succ j ih =>
    rw [List.range'_succ]
    by_cases hbit : bitSet (word k).toNat (c + 1) = true
    · rw [List.filter_cons_of_pos hbit]
      exact (triple_bit hk (by omega) hbit).cons (ih (by omega))
    · rw [List.filter_cons_of_neg hbit]
      exact (ih (by omega)).weaken (fun s hs => hs.unset hbit) fun s hs => hs

/-- **A symbol after its first edge.** -/
theorem triple_symbolRest (base : UInt32) (word : Nat → UInt8) {k n : Nat} (hk : k < 31) :
    Triple rx433Interrupt (AtFirst base word k n)
      (quietly base (symbolRest n (word k).toNat)) (fun s => ∃ i, AtSlot base word k n 5 i s) :=
  (triple_second hk).cons (triple_bits hk 5 rfl)

theorem triple_next {k n : Nat} (hk : k + 1 < 31) (hword : (word k).toNat < 32) :
    Triple rx433Interrupt (fun s => ∃ i, AtSlot base word k n 5 i s)
      [(Heard base (n + 3840), [])] (AtFirst base word (k + 1) (n + 3840)) := by
  refine Triple.single fun s time ⟨i, hs⟩ htime => ?_
  obtain ⟨⟨hnoCode, hhe⟩, hnc⟩ := hs.hear (b := 6) (by omega) (by decide) (by decide) htime
  obtain ⟨timebase, htimebase, hdecoder⟩ := hs.during
  have hmore : ¬ UInt32.ofNat k + 1 = ncDataSize := by
    rw [count_succ, ← UInt32.toNat_inj, count_toNat hk]
    exact Nat.ne_of_lt hk
  rw [if_neg (by decide), hdecoder] at hnc
  dsimp only at hnc
  rw [if_neg hmore] at hnc
  rw [rx433Interrupt_quiet hhe (by rw [hdecoder]; exact hnc)]
  refine ⟨⟨htime, hnoCode, fun h => absurd h (by omega), fun _ => ?_⟩, rfl⟩
  exact ⟨n + 768, timebase, by omega, htimebase, by rw [count_succ, partialWord_symbol hword]⟩

theorem triple_last (base : UInt32) (n : Nat) {word : Nat → UInt8} (hword : (word 30).toNat < 32) :
    Triple rx433Interrupt (fun s => ∃ i, AtSlot base word 30 n 5 i s)
      [(Heard base (n + 3840), [.newCode (partialWord word 31 0)])] (fun _ => True) := by
  refine Triple.single fun s time ⟨i, hs⟩ htime => ⟨trivial, ?_⟩
  obtain ⟨⟨-, hhe⟩, hnc⟩ := hs.hear (b := 6) (by decide) (by decide) (by decide) htime
  obtain ⟨timebase, -, hdecoder⟩ := hs.during
  rw [if_neg (by decide), hdecoder] at hnc
  dsimp only at hnc
  rw [if_pos (by decide)] at hnc
  unfold rx433Interrupt
  dsimp only
  rw [hhe, hdecoder, hnc, partialWord_symbol hword]
  rfl

/-- **Whole symbols**, each up to the first edge of the next. -/
theorem triple_symbols (base : UInt32) {word : Nat → UInt8} {count : Nat} (hcount : count < 31)
    (hword : ∀ k < count, (word k).toNat < 32) (n : Nat) :
    Triple rx433Interrupt (AtFirst base word 0 n)
      (quietly base ((List.range count).flatMap fun k =>
        symbolRest (n + 3840 * k) (word k).toNat ++ [n + 3840 * (k + 1)]))
      (AtFirst base word count (n + 3840 * count)) := by
  have hscript : quietly base ((List.range count).flatMap fun k =>
        symbolRest (n + 3840 * k) (word k).toNat ++ [n + 3840 * (k + 1)])
      = (List.range count).flatMap fun k =>
        quietly base (symbolRest (n + 3840 * k) (word k).toNat)
          ++ [(Heard base (n + 3840 * k + 3840), [])] := by
    unfold quietly
    rw [List.map_flatMap]
    simp only [List.map_append, List.map_cons, List.map_nil, Nat.mul_succ, Nat.add_assoc]
  rw [hscript]
  refine Triple.flatMap_range (P := fun k => AtFirst base word k (n + 3840 * k)) fun k hk => ?_
  refine (triple_symbolRest base word (by omega)).append ?_
  rw [Nat.mul_succ, ← Nat.add_assoc]
  exact triple_next (by omega) (hword k hk)

/-! ## The first edge -/

/-- The loop over skipped symbols ends: a message is left behind, or the time is near enough. -/
theorem skipSymbols_exits (newTime : UInt32) (turns : Nat) {count : UInt32}
    (timebase skip : UInt32)
    (hcount : count.toNat ≤ 31 ∨ count = noMessage) (hturns : 31 ≤ count.toNat + turns) :
    let r := skipSymbols newTime turns count timebase skip
    (r.1 = ncDataSize ∨ r.1 = noMessage) ∨
      r.1.toNat < 31 ∧ (newTime - r.2.1).toNat ≤ 5760 := by
  have h31 : ncDataSize.toNat = 31 := rfl
  have hone : (1 : UInt32).toNat = 1 := rfl
  have hstay : ¬ count < ncDataSize → count = ncDataSize ∨ count = noMessage := by
    intro h
    rw [UInt32.lt_iff_toNat_lt, h31] at h
    rcases hcount with hle | hnone
    · exact .inl (UInt32.toNat_inj.mp (by omega))
    · exact .inr hnone
  induction turns generalizing count timebase skip with
  | zero =>
    refine .inl (hstay ?_)
    rw [UInt32.lt_iff_toNat_lt, h31]
    omega
  | succ turns ih =>
    rw [skipSymbols]
    split
    · next hmore =>
      have hlt : count.toNat < 31 := UInt32.lt_iff_toNat_lt.mp hmore.1
      have hnext : (count + 1).toNat = count.toNat + 1 := by
        rw [UInt32.toNat_add, hone]
        omega
      refine ih _ _ (.inl (by omega)) (by omega) fun h => .inl ?_
      rw [UInt32.lt_iff_toNat_lt, h31, hnext] at h
      rw [← UInt32.toNat_inj, h31, hnext]
      omega
    · next hdone =>
      by_cases hlt : count < ncDataSize
      · refine .inr ⟨UInt32.lt_iff_toNat_lt.mp hlt, ?_⟩
        have h5760 : (ncSymbolTime * 3 / 2).toNat = 5760 := rfl
        have hnear := fun h => hdone ⟨hlt, h⟩
        rw [gt_iff_lt, UInt32.lt_iff_toNat_lt, h5760] at hnear
        exact Nat.not_lt.mp hnear
      · exact .inl (hstay hlt)

/-- Between messages, or within a symbol and a half of the last edge that counted. -/
def NcInv (now : UInt32) (d : NcDecoder) : Prop :=
  d.count = noMessage ∨ d.count.toNat < 31 ∧ (now - d.timebase).toNat ≤ 5760

def Inv (s : Rx433) : Prop := NcInv s.oldTime s.nc

theorem ncInv_startCode {newTime : UInt32} {d : NcDecoder}
    (hcount : d.count.toNat ≤ 31 ∨ d.count = noMessage) :
    NcInv newTime (startCode newTime d).1 := by
  have hzero : (newTime - newTime).toNat ≤ 5760 := by
    rw [UInt32.sub_self]
    exact Nat.zero_le _
  have hexit := skipSymbols_exits newTime 31 d.timebase 0 hcount (by omega)
  unfold startCode
  generalize skipSymbols newTime 31 d.count d.timebase 0 = r at hexit
  obtain ⟨count, timebase, skip⟩ := r
  dsimp only at hexit ⊢
  split
  · exact .inr ⟨(by decide : (0 : UInt32).toNat < 31), hzero⟩
  · next hsmall =>
    have hrest : count.toNat < 31 ∧ (newTime - timebase).toNat ≤ 5760 := by
      rcases hexit with (rfl | rfl) | h
      · exact absurd (by decide) hsmall
      · exact absurd (by decide) hsmall
      · exact h
    split
    · exact .inr ⟨hrest.1, hzero⟩
    · exact .inr hrest

theorem ncInv_symbolBit {newTime : UInt32} {d : NcDecoder} (hcount : d.count.toNat < 31)
    (hnear : (newTime - d.timebase).toNat ≤ 5760) :
    NcInv newTime (symbolBit (newTime - d.timebase) d).1 := by
  unfold symbolBit
  dsimp only
  split
  · exact .inr ⟨hcount, hnear⟩
  split
  · split
    · exact .inr ⟨hcount, hnear⟩
    split
    · exact .inl rfl
    · next hmore => exact .inr ⟨(count_add_one hcount hmore).2, hnear⟩
  · exact .inr ⟨hcount, hnear⟩

theorem inv_interrupt (newTime : UInt32) (s : Rx433) (hs : Inv s) :
    Inv (rx433Interrupt newTime s).1 := by
  show NcInv newTime (newCode newTime (newTime - s.oldTime) s.nc).1
  unfold newCode
  dsimp only
  split
  · exact ncInv_startCode (hs.symm.imp_left fun h => Nat.le_of_lt h.1)
  split
  · next hlt =>
    split
    · next hnear =>
      have hnear' := (lt_symbolTime_iff _).mp hnear
      exact ncInv_symbolBit (UInt32.lt_iff_toNat_lt.mp hlt) (by omega)
    · exact .inl rfl
  · next hlt =>
    rcases hs with hnone | hsmall
    · exact .inl hnone
    · exact absurd (UInt32.lt_iff_toNat_lt.mpr hsmall.1) hlt

theorem Reachable.inv {s : Rx433} (hs : Reachable s) : Inv s := by
  obtain ⟨times, rfl⟩ := hs
  exact run_inv inv_interrupt times (.inl rfl)

/-- What an edge after a gap publishes: an older message of which at most five symbols are
    missing. -/
def flush (d : NcDecoder) : List Publication :=
  if 26 ≤ d.count.toNat ∧ d.count.toNat < 31 then [.newCode d.buffer] else []

/-- **An edge after a gap**: both decoders give up what they were at. -/
theorem interrupt_gap {s : Rx433} (hs : Inv s) {time : UInt32}
    (hlo : 4096 ≤ (time - s.oldTime).toNat) (hhi : (time - s.oldTime).toNat < 2 ^ 31) :
    rx433Interrupt time s
      = (⟨time, { s.he with state := .reset }, { s.nc with count := noMessage }⟩, flush s.nc) := by
  have hpulse : hePulse (time - s.oldTime) = .other := hePulse_of_le (by omega)
  have hhe : homeEasy .other s.he = ({ s.he with state := .reset }, none) := rfl
  have hnc : newCode time (time - s.oldTime) s.nc = ({ s.nc with count := noMessage },
      if 26 ≤ s.nc.count.toNat ∧ s.nc.count.toNat < 31 then some s.nc.buffer else none) := by
    rcases hs with hnone | ⟨hlt, hnear⟩
    · rw [newCode_idle (by omega) hnone, hnone, if_neg (by decide), ← hnone]
    · have hlate : 3936 ≤ (time - s.nc.timebase).toNat := by
        have htime := time.toNat_lt
        have hold := s.oldTime.toNat_lt
        have hbase := s.nc.timebase.toNat_lt
        rw [UInt32.toNat_sub] at hlo hhi hnear ⊢
        omega
      rw [newCode_late (by omega) hlt hlate]
      simp only [hlt, and_true]
  unfold rx433Interrupt flush
  dsimp only
  rw [hpulse, hhe, hnc]
  split <;> rfl

theorem interrupt_first (word : Nat → UInt8) {s : Rx433} (hs : Inv s) {time : UInt32}
    (hlo : 4096 ≤ (time - s.oldTime).toNat) (hhi : (time - s.oldTime).toNat < 2 ^ 31)
    {n : Nat} (htime : Heard base n time) :
    (rx433Interrupt time s).2 = flush s.nc ∧
      AtFirst base word 0 n (rx433Interrupt time s).1 := by
  rw [interrupt_gap hs hlo hhi]
  exact ⟨rfl, htime, .inl rfl, fun _ => rfl, fun h => absurd h (Nat.lt_irrefl 0)⟩

/-! ## The whole transmission -/

def symbolAt (message : NcCode) (k : Nat) : UInt8 := message.toList.getD k 0

theorem symbolAt_eq (message : NcCode) {k : Nat} (hk : k < 31) :
    symbolAt message k = message[k] := by
  rw [symbolAt, List.getD_eq_getElem?_getD,
    List.getElem?_eq_getElem (by rw [Vector.length_toList]; exact hk), Option.getD_some,
    Vector.getElem_toList]

theorem symbolAt_lt {message : NcCode} (h : Ncrs.FiveBit message) (k : Nat) :
    (symbolAt message k).toNat < 32 := by
  by_cases hk : k < 31
  · rw [symbolAt_eq message hk]
    exact UInt8.lt_iff_toNat_lt.mp (h ⟨k, hk⟩)
  · rw [symbolAt, List.getD_eq_getElem?_getD,
      List.getElem?_eq_none (by rw [Vector.length_toList]; omega), Option.getD_none]
    decide

theorem partialWord_symbolAt (message : NcCode) :
    partialWord (symbolAt message) 31 0 = message := by
  apply Vector.ext
  intro i hi
  rw [partialWord_getElem _ 31 0 hi, if_pos hi, symbolAt_eq message hi]

theorem hears_quietly (base : UInt32) (edges : List Nat) :
    (quietly base edges).map Prod.fst = edges.map (Heard base) := by
  unfold quietly
  rw [List.map_map]
  rfl

theorem length_quietly (base : UInt32) (edges : List Nat) :
    (quietly base edges).map Prod.snd = List.replicate edges.length [] := by
  unfold quietly
  rw [List.map_map]
  exact List.map_const'

def innerEdges (n : Nat) (word : Nat → UInt8) : List Nat :=
  (List.range 30).flatMap (fun k =>
      symbolRest (n + 3840 * k) (word k).toNat ++ [n + 3840 * (k + 1)])
    ++ symbolRest (n + 3840 * 30) (word 30).toNat

theorem risingEdges_inner (n : Nat) (message : NcCode) :
    risingEdges n false (writeNc message)
      = n :: (innerEdges n (symbolAt message) ++ [n + 3840 * 31]) := by
  have hregroup := flatMap_regroup (fun k => n + 3840 * k)
    (fun k => symbolRest (n + 3840 * k) (symbolAt message k).toNat) 31
  rw [List.range_succ, List.flatMap_append, List.flatMap_singleton, List.flatMap_append,
    List.flatMap_singleton, ← List.append_assoc] at hregroup
  rw [risingEdges_writeNc, List.range_succ, List.flatMap_append, List.flatMap_singleton]
  exact hregroup

/-- **The rounds of a transmission after its first edge.** -/
theorem triple_message {message : NcCode} (hfive : Ncrs.FiveBit message) (n : Nat) :
    Triple rx433Interrupt (AtFirst base (symbolAt message) 0 n)
      (quietly base (innerEdges n (symbolAt message))
        ++ [(Heard base (n + 3840 * 31), [.newCode message])]) (fun _ => True) := by
  have hsymbols := triple_symbols base (by decide : 30 < 31) (fun k _ => symbolAt_lt hfive k) n
  have hrest := triple_symbolRest base (symbolAt message) (k := 30) (n := n + 3840 * 30)
    (by decide)
  have hlast := triple_last base (n + 3840 * 30) (symbolAt_lt hfive 30)
  have htime : n + 3840 * 30 + 3840 = n + 3840 * 31 := by omega
  rw [partialWord_symbolAt, htime] at hlast
  have h := (hsymbols.append hrest).append hlast
  unfold quietly at h ⊢
  rwa [← List.map_append] at h

/-- **All that is said** while a new code is received, edge by edge. -/
theorem hear_message {message : NcCode} (hfive : Ncrs.FiveBit message) {s : Rx433} (hs : Inv s)
    {start first : UInt32} {times : List UInt32}
    (hedges : List.Forall₂ (fun n time => Jittered (start + UInt32.ofNat n) time)
      (risingEdges 0 false (writeNc message)) (first :: times))
    (hlo : 4096 ≤ (first - s.oldTime).toNat) (hhi : (first - s.oldTime).toNat < 2 ^ 31) :
    (hear (first :: times) s).2
      = flush s.nc :: (List.replicate (times.length - 1) [] ++ [[.newCode message]]) := by
  have hheard : List.Forall₂ (Heard (start - 47)) (risingEdges 0 false (writeNc message))
      (first :: times) := hedges.imp fun _ _ h => h.heard
  rw [risingEdges_inner] at hheard
  obtain ⟨hfirst, hrest⟩ := List.forall₂_cons.mp hheard
  obtain ⟨hflush, hat⟩ := interrupt_first (symbolAt message) hs hlo hhi hfirst
  have hfollows : Follows (quietly (start - 47) (innerEdges 0 (symbolAt message))
      ++ [(Heard (start - 47) (0 + 3840 * 31), [Publication.newCode message])]) times := by
    refine Follows.of_hears ?_ hrest
    rw [List.map_append, hears_quietly, List.map_append]
    rfl
  have hcount : (innerEdges 0 (symbolAt message)).length = times.length - 1 := by
    rw [← hrest.length_eq, List.length_append]
    rfl
  rw [hear, run_cons, hflush, (triple_message hfive 0 _ _ hat hfollows).2, List.map_append,
    length_quietly, hcount]
  rfl

theorem publish_flush (d : NcDecoder) (mailbox : Mailbox) :
    ((flush d).foldl Mailbox.publish mailbox).homeEasy = mailbox.homeEasy := by
  unfold flush
  split <;> rfl

/-- **New codes are received.** From every state the handler can be in, the edges of a new code
    publish it with the last of them, and nothing at any other; only the first edge may publish an
    older message that was not finished. -/
theorem newCode_received {message : NcCode} (hfive : Ncrs.FiveBit message) {s : Rx433}
    (hs : Reachable s) {start first : UInt32} {times : List UInt32}
    (hedges : List.Forall₂ (fun n time => Jittered (start + UInt32.ofNat n) time)
      (risingEdges 0 false (writeNc message)) (first :: times))
    (hlo : 4096 ≤ (first - s.oldTime).toNat) (hhi : (first - s.oldTime).toNat < 2 ^ 31) :
    (hear (first :: times) s).2
        = flush s.nc :: (List.replicate (times.length - 1) [] ++ [[.newCode message]]) ∧
      ∀ mailbox : Mailbox,
        let mailbox' := (hear (first :: times) s).2.flatten.foldl Mailbox.publish mailbox
        mailbox'.newCode = message ∧ mailbox'.newCodeReady = true ∧
          mailbox'.homeEasy = mailbox.homeEasy := by
  have hsaid := hear_message hfive hs.inv hedges hlo hhi
  refine ⟨hsaid, fun mailbox => ?_⟩
  have hflat : (hear (first :: times) s).2.flatten = flush s.nc ++ [.newCode message] := by
    rw [hsaid, List.flatten_cons, List.flatten_append, List.flatten_replicate_nil,
      List.nil_append]
    rfl
  dsimp only
  rw [hflat, List.foldl_append]
  exact ⟨rfl, rfl, publish_flush s.nc mailbox⟩

def sampleCode : NcCode := Vector.ofFn fun i => UInt8.ofNat i.val

/-- They are received by a handler that has heard nothing before. -/
theorem newCode_received_sample :
    (hear ((risingEdges 0 false (writeNc sampleCode)).map fun n => 5000 + UInt32.ofNat n)
      initial).2.getLast? = some [.newCode sampleCode] := by
  have hedges := jittered_exact 5000 (risingEdges 0 false (writeNc sampleCode))
  generalize htimes : (risingEdges 0 false (writeNc sampleCode)).map
    (fun n => 5000 + UInt32.ofNat n) = times at hedges ⊢
  rw [risingEdges_inner, List.map_cons] at htimes
  subst htimes
  obtain ⟨hsaid, -⟩ := @newCode_received sampleCode (by decide) initial ⟨[], rfl⟩ 5000 _ _ hedges
    (by decide) (by decide)
  rw [hsaid, ← List.cons_append]
  exact List.getLast?_concat

end Rx433
end CpeClock
