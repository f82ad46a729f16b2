import CpeClock.NewCodeLink

/-!
# Which symbol an edge is counted to

`nc_timebase` is set by start codes and `nc_count` by stop edges, each for itself: only the loop
"Skipped any symbols?" moves both at once. Between two start codes `nc_count` advances by the number
of edges that fall into a stop window (`count_between`), and nothing makes that number one. An edge
that is early or late by more than `EPSILON` is not counted, and two in the window are counted
twice.
-/

namespace CpeClock
namespace Rx433

open Lib Mealy

/-! ## Start codes -/

/-- The branch for a start code is taken and sets `nc_timebase`: a new message, or "Message
    continues". -/
def SetsTimebase (newTime : UInt32) (s : Rx433) : Prop :=
  isClose (newTime - s.oldTime) (ncPulse * 3) epsilon = true ∧
    ((skipSymbols newTime 31 s.nc.count s.nc.timebase 0).1 ≥ ncDataSize ∨
      isClose (newTime - (skipSymbols newTime 31 s.nc.count s.nc.timebase 0).2.1) ncSymbolTime
        epsilon = true)

/-- The branch is taken, and its loop "Skipped any symbols?" runs. -/
def SkipsSymbols (newTime : UInt32) (s : Rx433) : Prop :=
  isClose (newTime - s.oldTime) (ncPulse * 3) epsilon = true ∧
    s.nc.count < ncDataSize ∧ newTime - s.nc.timebase > ncSymbolTime * 3 / 2

/-- "Message continues", without the loop. -/
def ContinuesMessage (newTime : UInt32) (s : Rx433) : Prop :=
  SetsTimebase newTime s ∧ ¬ SkipsSymbols newTime s ∧
    (skipSymbols newTime 31 s.nc.count s.nc.timebase 0).1 < ncDataSize

instance (newTime : UInt32) (s : Rx433) : Decidable (SetsTimebase newTime s) := by
  unfold SetsTimebase
  infer_instance

instance (newTime : UInt32) (s : Rx433) : Decidable (SkipsSymbols newTime s) := by
  unfold SkipsSymbols
  infer_instance

instance (newTime : UInt32) (s : Rx433) : Decidable (ContinuesMessage newTime s) := by
  unfold ContinuesMessage
  infer_instance

/-- No edge of a list sets `nc_timebase` or runs the loop. -/
def Undisturbed : List UInt32 → Rx433 → Prop
  | [], _ => True
  | t :: ts, s =>
    ¬ SetsTimebase t s ∧ ¬ SkipsSymbols t s ∧ Undisturbed ts (rx433Interrupt t s).1

instance : ∀ ts s, Decidable (Undisturbed ts s)
  | [], _ => .isTrue trivial
  | t :: ts, s => by
    have := instDecidableUndisturbed ts (rx433Interrupt t s).1
    unfold Undisturbed
    infer_instance

/-! ## Stop edges -/

/-- Where an edge is counted as the end of a symbol, in microseconds after its start code: within
    `EPSILON` of slot 6, or of the slot after it. -/
def StopWindow (delta2 : Nat) : Prop :=
  2976 < delta2 ∧ delta2 ≤ 3168 ∨ 3488 < delta2 ∧ delta2 ≤ 3680

instance (delta2 : Nat) : Decidable (StopWindow delta2) := by
  unfold StopWindow
  infer_instance

/-- How many of the edges after a start code end a symbol: those in the window that do not look like
    a start code themselves. -/
def stopEdges (start : UInt32) : UInt32 → List UInt32 → Nat
  | _, [] => 0
  | previous, t :: ts =>
    (if isClose (t - previous) (ncPulse * 3) epsilon = false ∧ StopWindow (t - start).toNat then 1
      else 0) + stopEdges start t ts

/-- **A bit within a symbol**: `nc_count` advances in the stop window, and there alone. -/
theorem symbolBit_count {delta2 : UInt32} {d : NcDecoder} (hcount : d.count.toNat < 31)
    (hnear : delta2.toNat < 3936) :
    (symbolBit delta2 d).1.timebase = d.timebase ∧
      ((symbolBit delta2 d).1.count = noMessage ∨
        (symbolBit delta2 d).1.count.toNat < 31 ∧
          (symbolBit delta2 d).1.count.toNat
            = d.count.toNat + if StopWindow delta2.toNat then 1 else 0) := by
  have hpulse : ncPulse.toNat = 256 := rfl
  have htwice : (ncPulse * 2).toNat = 512 := rfl
  have hsix : (symbolSize + 1).toNat = 6 := rfl
  have hbit : ((delta2 + ncPulse) / (ncPulse * 2)).toNat = (delta2.toNat + 256) / 512 := by
    rw [UInt32.toNat_div, UInt32.toNat_add, hpulse, htwice]
    omega
  unfold symbolBit
  dsimp only
  generalize (delta2 + ncPulse) / (ncPulse * 2) = bit at hbit
  have hexpect : (ncPulse * 2 * bit).toNat = 512 * bit.toNat := by
    rw [UInt32.toNat_mul, htwice]
    omega
  have hwindow : StopWindow delta2.toNat ↔ 6 ≤ bit.toNat ∧
      delta2.toNat ≤ 512 * bit.toNat + 96 ∧ 512 * bit.toNat < delta2.toNat + 96 := by
    unfold StopWindow
    omega
  split
  · next hzero =>
    have hsmall : bit.toNat = 0 := by
      rw [hzero]
      rfl
    rw [if_neg fun h => absurd (hwindow.mp h).1 (by omega)]
    exact ⟨rfl, .inr ⟨hcount, rfl⟩⟩
  · next hzero =>
    have hpos : bit.toNat ≠ 0 := fun h => hzero (UInt32.toNat_inj.mp h)
    have hclose := isClose_iff (ncPulse * 2 * bit) delta2 (by omega) (by omega)
    rw [hexpect] at hclose
    have hdata : bit < symbolSize + 1 ↔ bit.toNat < 6 := by
      rw [UInt32.lt_iff_toNat_lt, hsix]
    split
    · next hnearExpect =>
      split
      · next hlt =>
        rw [if_neg fun h => absurd (hwindow.mp h).1 (Nat.not_le.mpr (hdata.mp hlt))]
        exact ⟨rfl, .inr ⟨hcount, rfl⟩⟩
      · next hge =>
        rw [if_pos (hwindow.mpr ⟨Nat.not_lt.mp fun h => hge (hdata.mpr h), hclose.mp hnearExpect⟩)]
        split
        · exact ⟨rfl, .inl rfl⟩
        · next hmore => exact ⟨rfl, .inr (count_add_one hcount hmore).symm⟩
    · next hfar =>
      rw [if_neg fun h => hfar (hclose.mpr (hwindow.mp h).2)]
      exact ⟨rfl, .inr ⟨hcount, rfl⟩⟩

/-! ## Between two start codes -/

/-- The message that a start code belongs to is given up or ended, or `ends` symbols were counted
    since. -/
def CountedFrom (start : UInt32) (n ends : Nat) (d : NcDecoder) : Prop :=
  d.count = noMessage ∨ d.timebase = start ∧ d.count.toNat < 31 ∧ d.count.toNat = n + ends

theorem countedFrom_interrupt {start t : UInt32} {n ends : Nat} {s : Rx433}
    (hs : CountedFrom start n ends s.nc) (htimebase : ¬ SetsTimebase t s)
    (hskip : ¬ SkipsSymbols t s) :
    CountedFrom start n
      (ends + if isClose (t - s.oldTime) (ncPulse * 3) epsilon = false ∧
        StopWindow (t - start).toNat then 1 else 0) (rx433Interrupt t s).1.nc := by
  show CountedFrom start n _ (newCode t (t - s.oldTime) s.nc).1
  by_cases hclose : isClose (t - s.oldTime) (ncPulse * 3) epsilon = true
  · -- An edge like a start code that is not taken for one.
    rw [if_neg fun h => absurd hclose (by rw [h.1]; decide)]
    have hstay := skipSymbols_of_not 31 fun h => hskip ⟨hclose, h⟩
    have hnot := fun h => htimebase ⟨hclose, h⟩
    rw [hstay] at hnot
    have hnc : newCode t (t - s.oldTime) s.nc = (s.nc, none) := by
      rw [newCode_startCode hclose, startCode, hstay]
      dsimp only
      rw [if_neg fun h => hnot (.inl h), if_neg fun h => hnot (.inr h)]
    rw [hnc]
    exact hs
  · have hfar : ¬ (672 ≤ (t - s.oldTime).toNat ∧ (t - s.oldTime).toNat < 864) :=
      fun h => hclose ((isClose_startCode _).mpr h)
    rw [Bool.not_eq_true] at hclose
    have hwindow : (isClose (t - s.oldTime) (ncPulse * 3) epsilon = false ∧
        StopWindow (t - start).toNat) ↔ StopWindow (t - start).toNat := and_iff_right hclose
    simp only [hwindow]
    rcases hs with hnone | ⟨hbase, hlt, hcount⟩
    · rw [newCode_idle hfar hnone]
      exact .inl hnone
    · by_cases hnear : (t - s.nc.timebase).toNat < 3936
      · obtain ⟨hbase', hcount'⟩ := symbolBit_count hlt hnear
        rw [newCode_within hfar hlt hnear]
        rw [hbase] at hbase' hcount' ⊢
        refine hcount'.imp_right fun h => ⟨hbase', h.1, ?_⟩
        rw [h.2, hcount, Nat.add_assoc]
      · rw [newCode_late hfar hlt (Nat.not_lt.mp hnear)]
        exact .inl rfl

/-- **Between two start codes** `nc_count` advances by the number of stop edges. -/
theorem countedFrom_hear {start : UInt32} {n ends : Nat} {between : List UInt32} {s : Rx433}
    (hs : CountedFrom start n ends s.nc) (hbetween : Undisturbed between s) :
    CountedFrom start n (ends + stopEdges start s.oldTime between) (hear between s).1.nc := by
  induction between generalizing s ends with
  | nil => exact hs
  | cons t ts ih =>
    obtain ⟨htimebase, hskip, hrest⟩ := hbetween
    have h := ih (countedFrom_interrupt hs htimebase hskip) hrest
    rw [Nat.add_assoc] at h
    exact h

theorem countedFrom_start {start : UInt32} {s : Rx433} (h : SetsTimebase start s) :
    CountedFrom start (rx433Interrupt start s).1.nc.count.toNat 0 (rx433Interrupt start s).1.nc ∧
      (rx433Interrupt start s).1.nc.count.toNat < 31 := by
  obtain ⟨hclose, hset⟩ := h
  have hnc : (rx433Interrupt start s).1.nc = (startCode start s.nc).1 := by
    show (newCode start (start - s.oldTime) s.nc).1 = _
    rw [newCode_startCode hclose]
  rw [hnc]
  unfold startCode
  generalize skipSymbols start 31 s.nc.count s.nc.timebase 0 = r at hset
  obtain ⟨count, timebase, skip⟩ := r
  dsimp only at hset ⊢
  split
  · have hzero : (0 : UInt32).toNat < 31 := by decide
    exact ⟨.inr ⟨rfl, hzero, rfl⟩, hzero⟩
  · next hsmall =>
    rw [if_pos (hset.resolve_left hsmall)]
    have hlt : count.toNat < 31 := by
      rw [ge_iff_le, UInt32.not_le] at hsmall
      exact UInt32.lt_iff_toNat_lt.mp hsmall
    exact ⟨.inr ⟨rfl, hlt, rfl⟩, hlt⟩

/-- The start code at which the message continues leaves `nc_count` alone. -/
theorem ContinuesMessage.count_eq {next : UInt32} {s : Rx433} (h : ContinuesMessage next s) :
    s.nc.count < ncDataSize ∧ (rx433Interrupt next s).1.nc.count = s.nc.count := by
  obtain ⟨⟨hclose, hset⟩, hskip, hlt⟩ := h
  have hstay := skipSymbols_of_not 31 fun h => hskip ⟨hclose, h⟩
  rw [hstay] at hset hlt
  refine ⟨hlt, ?_⟩
  have hsmall : ¬ s.nc.count ≥ ncDataSize := UInt32.not_le.mpr hlt
  show (newCode next (next - s.oldTime) s.nc).1.count = _
  rw [newCode_startCode hclose, startCode, hstay]
  dsimp only
  rw [if_neg hsmall, if_pos (hset.resolve_left hsmall)]

/-- **Symbol index and symbol clock.** Between a start code that sets `nc_timebase` and the next at
    which the message continues `nc_count` advances by exactly one if and only if exactly one edge
    falls into a stop window. -/
theorem symbol_index_iff (before between : List UInt32) (start next : UInt32)
    (hstart : SetsTimebase start (hear before initial).1)
    (hbetween : Undisturbed between (rx433Interrupt start (hear before initial).1).1)
    (hnext : ContinuesMessage next
      (hear between (rx433Interrupt start (hear before initial).1).1).1) :
    (rx433Interrupt next
          (hear between (rx433Interrupt start (hear before initial).1).1).1).1.nc.count
        = (rx433Interrupt start (hear before initial).1).1.nc.count + 1
      ↔ stopEdges start start between = 1 := by
  obtain ⟨hfrom, hn⟩ := countedFrom_start hstart
  obtain ⟨hlt, hcount⟩ := hnext.count_eq
  rw [hcount]
  have hone : (1 : UInt32).toNat = 1 := rfl
  rcases countedFrom_hear hfrom hbetween with hnone | ⟨-, -, hends⟩
  · rw [hnone] at hlt
    exact absurd hlt (by decide)
  · have hold : (rx433Interrupt start (hear before initial).1).1.oldTime = start := rfl
    rw [hold, Nat.zero_add] at hends
    rw [← UInt32.toNat_inj, hends, UInt32.toNat_add, hone]
    omega

/-- Two symbols of a message, heard on time: symbol 0, and then symbol 1. -/
theorem symbol_index_sample :
    stopEdges 1768 1768 [4840] = 1 ∧
      (rx433Interrupt 1768 (hear [1000] initial).1).1.nc.count = 0 ∧
      (rx433Interrupt 5608
        (hear [4840] (rx433Interrupt 1768 (hear [1000] initial).1).1).1).1.nc.count = 1 := by
  have hedges : stopEdges 1768 1768 [4840] = 1 := by decide
  have hfirst : (rx433Interrupt 1768 (hear [1000] initial).1).1.nc.count = 0 := by decide
  have hnext := (symbol_index_iff [1000] [4840] 1768 5608 (by decide) (by decide)
    (by decide)).mpr hedges
  rw [hfirst] at hnext
  exact ⟨hedges, hfirst, hnext⟩

/-- Two edges in the stop window of symbol 0 move the next symbol to index 2. -/
theorem symbol_index_moved :
    ¬ ∀ (before between : List UInt32) (start next : UInt32),
      SetsTimebase start (hear before initial).1 →
      Undisturbed between (rx433Interrupt start (hear before initial).1).1 →
      ContinuesMessage next
        (hear between (rx433Interrupt start (hear before initial).1).1).1 →
      (rx433Interrupt next
            (hear between (rx433Interrupt start (hear before initial).1).1).1).1.nc.count
          = (rx433Interrupt start (hear before initial).1).1.nc.count + 1 := by
  intro h
  have hmoved := h [1000] [4758, 4868] 1768 5636 (by decide) (by decide) (by decide)
  exact absurd hmoved (by decide)

end Rx433
end CpeClock
