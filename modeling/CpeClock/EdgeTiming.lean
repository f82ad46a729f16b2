import CpeClock.Rx433
import Mathlib.Tactic.IntervalCases

/-!
# When the handler is called

The times of a transmission's edges are known up to a jitter of 47 microseconds either way, on a
clock that wraps. On a clock that runs 47 microseconds late an edge due at `n` is heard at some `t`
from `n` to `n + 94` (`Heard`), and every difference of two times that the handler computes is the
difference of two such numbers (`clockAt_sub`). Two edges that are due `d` apart are so heard from
`d - 94` to `d + 94` apart, and 94 is less than `EPSILON`.

What the decoders make of a difference in such a range is stated here, range by range.
-/

namespace CpeClock
namespace Rx433

/-! ## Times -/

/-- Off by at most 47 microseconds either way. -/
def Jittered (nominal time : UInt32) : Prop := (time - nominal + 47).toNat ≤ 94

/-- What `micros()` returns `t` microseconds after it returned `base`. -/
def clockAt (base : UInt32) (t : Nat) : UInt32 := base + UInt32.ofNat t

/-- An edge due at `n` and up to 94 microseconds late. -/
def Heard (base : UInt32) (n : Nat) (time : UInt32) : Prop :=
  ∃ t, n ≤ t ∧ t ≤ n + 94 ∧ time = clockAt base t

theorem clockAt_sub (base : UInt32) {t t' : Nat} (h : t ≤ t') (hlt : t' - t < 2 ^ 32) :
    (clockAt base t' - clockAt base t).toNat = t' - t := by
  have hbase := base.toNat_lt
  simp only [clockAt, UInt32.toNat_sub, UInt32.toNat_add, UInt32.toNat_ofNat']
  omega

theorem Jittered.heard {start time : UInt32} {n : Nat}
    (h : Jittered (start + UInt32.ofNat n) time) : Heard (start - 47) n time := by
  refine ⟨n + (time - (start + UInt32.ofNat n) + 47).toNat, by omega, Nat.add_le_add_left h n, ?_⟩
  have hstart := start.toNat_lt
  have htime := time.toNat_lt
  have h47 : (47 : UInt32).toNat = 47 := rfl
  rw [← UInt32.toNat_inj]
  simp only [clockAt, UInt32.toNat_sub, UInt32.toNat_add, UInt32.toNat_ofNat', h47]
  omega

theorem jittered_exact (start : UInt32) (edges : List Nat) :
    List.Forall₂ (fun n time => Jittered (start + UInt32.ofNat n) time) edges
      (edges.map fun n => start + UInt32.ofNat n) := by
  rw [List.forall₂_map_right_iff, List.forall₂_same]
  intro n _
  rw [Jittered, UInt32.sub_self]
  decide

/-! ## Home Easy -/

theorem hePulse_eq (delta : UInt32) : hePulse delta = .ofBin (delta.toNat / 128) :=
  congrArg HePulse.ofBin (UInt32.toNat_div delta 128)

theorem hePulse_of_le {delta : UInt32} (h : 3072 ≤ delta.toNat) : hePulse delta = .other := by
  obtain ⟨q, hq⟩ : ∃ q, delta.toNat / 128 = q + 24 := ⟨delta.toNat / 128 - 24, by omega⟩
  rw [hePulse_eq, hq]
  rfl

/-- The pulses that edges due `512 * d` apart may look like, for `d` from 1 to 6. -/
def slotPulses : Nat → List HePulse
  | 1 => [.short]
  | 3 => [.long]
  | 6 => [.start, .other]
  | _ => [.other]

theorem hePulse_slot {delta : UInt32} {d : Nat} (hd : 1 ≤ d) (hd' : d ≤ 6)
    (hlo : 512 * d ≤ delta.toNat + 94) (hhi : delta.toNat ≤ 512 * d + 94) :
    hePulse delta ∈ slotPulses d := by
  have hbin : delta.toNat / 128 = 4 * d - 1 ∨ delta.toNat / 128 = 4 * d := by omega
  rw [hePulse_eq]
  generalize delta.toNat / 128 = q at hbin
  interval_cases d <;> rcases hbin with rfl | rfl <;> decide

/-- The pulses that the two edges of a start code may look like. -/
theorem hePulse_startCode {delta : UInt32} (hlo : 674 ≤ delta.toNat) (hhi : delta.toNat ≤ 862) :
    hePulse delta ∈ [HePulse.short, .other] := by
  have hbin : delta.toNat / 128 = 5 ∨ delta.toNat / 128 = 6 := by omega
  rw [hePulse_eq]
  generalize delta.toNat / 128 = q at hbin
  rcases hbin with rfl | rfl <;> decide

/-! ## New codes -/

theorem isClose_iff (delta centre : UInt32) (hlo : 96 ≤ centre.toNat)
    (hhi : centre.toNat + 96 < 2 ^ 32) :
    isClose delta centre epsilon = true
      ↔ centre.toNat ≤ delta.toNat + 96 ∧ delta.toNat < centre.toNat + 96 := by
  have hdelta := delta.toNat_lt
  have hepsilon : epsilon.toNat = 96 := rfl
  have htwice : (epsilon * 2).toNat = 192 := rfl
  rw [isClose, decide_eq_true_eq, UInt32.lt_iff_toNat_lt, htwice, UInt32.toNat_sub,
    UInt32.toNat_add, hepsilon]
  omega

/-- The two edges of a start code, and no others, are about `NC_PULSE * 3` apart. -/
theorem isClose_startCode (delta : UInt32) :
    isClose delta (ncPulse * 3) epsilon = true ↔ 672 ≤ delta.toNat ∧ delta.toNat < 864 := by
  have hcentre : (ncPulse * 3).toNat = 768 := rfl
  rw [isClose_iff delta _ (by rw [hcentre]; decide) (by rw [hcentre]; decide), hcentre]
  omega

theorem lt_symbolTime_iff (delta2 : UInt32) :
    delta2 < ncSymbolTime + epsilon ↔ delta2.toNat < 3936 := by
  have h3936 : (ncSymbolTime + epsilon).toNat = 3936 := rfl
  rw [UInt32.lt_iff_toNat_lt, h3936]

theorem skipSymbols_of_not {newTime count timebase : UInt32} (turns : Nat)
    (h : ¬ (count < ncDataSize ∧ newTime - timebase > ncSymbolTime * 3 / 2)) :
    skipSymbols newTime turns count timebase 0 = (count, timebase, 0) := by
  cases turns with
  | zero => rfl
  | succ turns => exact if_neg h

theorem count_add_one {count : UInt32} (hcount : count.toNat < 31)
    (hmore : count + 1 ≠ ncDataSize) :
    (count + 1).toNat = count.toNat + 1 ∧ (count + 1).toNat < 31 := by
  have hne : (count + 1).toNat ≠ 31 := fun h => hmore (UInt32.toNat_inj.mp h)
  have hone : (1 : UInt32).toNat = 1 := rfl
  rw [UInt32.toNat_add, hone] at hne ⊢
  omega

theorem newCode_startCode {newTime delta : UInt32} {d : NcDecoder}
    (hclose : isClose delta (ncPulse * 3) epsilon = true) :
    newCode newTime delta d = startCode newTime d := by
  unfold newCode
  dsimp only
  rw [if_pos hclose]

theorem newCode_begin {newTime delta : UInt32} {d : NcDecoder} (hlo : 672 ≤ delta.toNat)
    (hhi : delta.toNat < 864) (hcount : d.count = noMessage) :
    newCode newTime delta d
      = ({ buffer := emptyCode, timebase := newTime, count := 0 }, none) := by
  have hskip : skipSymbols newTime 31 noMessage d.timebase 0 = (noMessage, d.timebase, 0) :=
    skipSymbols_of_not 31 fun h => absurd h.1 (by decide)
  rw [newCode_startCode ((isClose_startCode delta).mpr ⟨hlo, hhi⟩), startCode, hcount, hskip]
  dsimp only
  rw [if_pos (by decide), if_neg fun h => absurd h.1 (by decide)]

theorem newCode_continue {newTime delta : UInt32} {d : NcDecoder} (hlo : 672 ≤ delta.toNat)
    (hhi : delta.toNat < 864) (hcount : d.count.toNat < 31)
    (hlo2 : 3744 ≤ (newTime - d.timebase).toNat) (hhi2 : (newTime - d.timebase).toNat < 3936) :
    newCode newTime delta d = ({ d with timebase := newTime }, none) := by
  have hlate : ¬ (newTime - d.timebase > ncSymbolTime * 3 / 2) := by
    have h5760 : (ncSymbolTime * 3 / 2).toNat = 5760 := rfl
    rw [gt_iff_lt, UInt32.lt_iff_toNat_lt, h5760]
    omega
  have hskip : skipSymbols newTime 31 d.count d.timebase 0 = (d.count, d.timebase, 0) :=
    skipSymbols_of_not 31 fun h => hlate h.2
  have hsmall : ¬ d.count ≥ ncDataSize := by
    rw [ge_iff_le, UInt32.le_iff_toNat_le]
    exact Nat.not_le.mpr hcount
  have hsymbol : ncSymbolTime.toNat = 3840 := rfl
  have hclose : isClose (newTime - d.timebase) ncSymbolTime epsilon = true := by
    rw [isClose_iff _ _ (by rw [hsymbol]; decide) (by rw [hsymbol]; decide), hsymbol]
    omega
  rw [newCode_startCode ((isClose_startCode delta).mpr ⟨hlo, hhi⟩), startCode, hskip]
  dsimp only
  rw [if_neg hsmall, if_pos hclose]

theorem newCode_within {newTime delta : UInt32} {d : NcDecoder}
    (hfar : ¬ (672 ≤ delta.toNat ∧ delta.toNat < 864)) (hcount : d.count.toNat < 31)
    (hnear : (newTime - d.timebase).toNat < 3936) :
    newCode newTime delta d = symbolBit (newTime - d.timebase) d := by
  have hsmall : d.count < ncDataSize := UInt32.lt_iff_toNat_lt.mpr hcount
  unfold newCode
  dsimp only
  rw [if_neg fun h => hfar ((isClose_startCode delta).mp h), if_pos hsmall,
    if_pos ((lt_symbolTime_iff _).mpr hnear)]

/-- The value that a data bit adds to a symbol. -/
def bitValue (b : Nat) : UInt8 := ((1 <<< symbolSize) >>> UInt32.ofNat b).toUInt8

def orBit (buffer : NcCode) (k b : Nat) : NcCode := buffer.set! k (buffer[k]! ||| bitValue b)

/-- A slot of a symbol is told from the others, up to the stop bit in slot 6. -/
theorem newCode_slot {newTime delta : UInt32} {d : NcDecoder} {b : Nat} (hb : 1 ≤ b) (hb' : b ≤ 6)
    (hfar : ¬ (672 ≤ delta.toNat ∧ delta.toNat < 864)) (hcount : d.count.toNat < 31)
    (hlo : 512 * b ≤ (newTime - d.timebase).toNat + 94)
    (hhi : (newTime - d.timebase).toNat ≤ 512 * b + 94) :
    newCode newTime delta d =
      if b < 6 then
        ({ d with buffer := orBit d.buffer d.count.toNat b }, none)
      else if d.count + 1 = ncDataSize then ({ d with count := noMessage }, some d.buffer)
      else ({ d with count := d.count + 1 }, none) := by
  have hpulse : ncPulse.toNat = 256 := rfl
  have htwice : (ncPulse * 2).toNat = 512 := rfl
  have hsix : (symbolSize + 1).toNat = 6 := rfl
  have hofNat : (UInt32.ofNat b).toNat = b := by
    rw [UInt32.toNat_ofNat']
    omega
  have hbit : (newTime - d.timebase + ncPulse) / (ncPulse * 2) = UInt32.ofNat b := by
    rw [← UInt32.toNat_inj, UInt32.toNat_div, UInt32.toNat_add, hpulse, htwice, hofNat]
    omega
  have hexpect : (ncPulse * 2 * UInt32.ofNat b).toNat = 512 * b := by
    rw [UInt32.toNat_mul, htwice, hofNat]
    omega
  have hclose : isClose (ncPulse * 2 * UInt32.ofNat b) (newTime - d.timebase) epsilon = true := by
    rw [isClose_iff _ _ (by omega) (by omega), hexpect]
    omega
  have hnonzero : UInt32.ofNat b ≠ 0 := by
    rw [ne_eq, ← UInt32.toNat_inj, hofNat]
    exact Nat.ne_of_gt hb
  have hdata : UInt32.ofNat b < symbolSize + 1 ↔ b < 6 := by
    rw [UInt32.lt_iff_toNat_lt, hofNat, hsix]
  rw [newCode_within hfar hcount (by omega), symbolBit, hbit]
  dsimp only
  rw [if_neg hnonzero, if_pos hclose]
  simp only [hdata, orBit, bitValue]

/-- An edge that is too late for the symbol ends the message, or gives it up. -/
theorem newCode_late {newTime delta : UInt32} {d : NcDecoder}
    (hfar : ¬ (672 ≤ delta.toNat ∧ delta.toNat < 864)) (hcount : d.count.toNat < 31)
    (hlate : 3936 ≤ (newTime - d.timebase).toNat) :
    newCode newTime delta d = ({ d with count := noMessage },
      if 26 ≤ d.count.toNat then some d.buffer else none) := by
  have hsmall : d.count < ncDataSize := UInt32.lt_iff_toNat_lt.mpr hcount
  have hnear : ¬ newTime - d.timebase < ncSymbolTime + epsilon := by
    rw [lt_symbolTime_iff]
    exact Nat.not_lt.mpr hlate
  have hfive : maxIncompleteSkip.toNat = 5 := rfl
  have hmost : d.count + maxIncompleteSkip ≥ ncDataSize ↔ 26 ≤ d.count.toNat := by
    have h31 : ncDataSize.toNat = 31 := rfl
    rw [ge_iff_le, UInt32.le_iff_toNat_le, UInt32.toNat_add, hfive, h31]
    omega
  unfold newCode
  dsimp only
  rw [if_neg fun h => hfar ((isClose_startCode delta).mp h), if_pos hsmall, if_neg hnear]
  simp only [hmost]

/-- Between messages only a start code is of interest. -/
theorem newCode_idle {newTime delta : UInt32} {d : NcDecoder}
    (hfar : ¬ (672 ≤ delta.toNat ∧ delta.toNat < 864)) (hcount : d.count = noMessage) :
    newCode newTime delta d = (d, none) := by
  unfold newCode
  dsimp only
  rw [if_neg fun h => hfar ((isClose_startCode delta).mp h), hcount, if_neg (by decide)]

end Rx433
end CpeClock
