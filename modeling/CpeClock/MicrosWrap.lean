import CpeClock.Rx433

/-!
# When `micros()` wraps

The decoders compare intervals, never times: all that enters a comparison is the difference of two
times, and a difference modulo `2 ^ 32` does not change when both are moved. So a clock that is `d`
microseconds ahead, wrapped or not, decodes the same.
-/

namespace CpeClock
namespace Rx433

open Lib Mealy

/-- The same decoder on a clock that is `d` ahead. -/
def NcDecoder.shift (d : UInt32) (nc : NcDecoder) : NcDecoder :=
  { nc with timebase := nc.timebase + d }

def shift (d : UInt32) (s : Rx433) : Rx433 :=
  { s with oldTime := s.oldTime + d, nc := s.nc.shift d }

theorem sub_shift (a b d : UInt32) : (a + d) - (b + d) = a - b := by grind

theorem add_shift (timebase symbol d : UInt32) :
    timebase + d + symbol = timebase + symbol + d := by grind

/-- The loop moves `nc_timebase` by symbols, whatever it started from. -/
theorem skipSymbols_shift (d newTime : UInt32) (turns : Nat) (count timebase skip : UInt32) :
    skipSymbols (newTime + d) turns count (timebase + d) skip
      = ((skipSymbols newTime turns count timebase skip).1,
          (skipSymbols newTime turns count timebase skip).2.1 + d,
          (skipSymbols newTime turns count timebase skip).2.2) := by
  induction turns generalizing count timebase skip with
  | zero => rfl
  | succ turns ih =>
    rw [skipSymbols, skipSymbols, sub_shift]
    split
    · rw [add_shift]
      exact ih (count + 1) (timebase + ncSymbolTime) (skip + 1)
    · rfl

theorem startCode_shift (d newTime : UInt32) (nc : NcDecoder) :
    startCode (newTime + d) (nc.shift d)
      = ((startCode newTime nc).1.shift d, (startCode newTime nc).2) := by
  have hskip := skipSymbols_shift d newTime 31 nc.count nc.timebase 0
  unfold startCode NcDecoder.shift
  dsimp only
  rw [hskip, sub_shift]
  generalize skipSymbols newTime 31 nc.count nc.timebase 0 = skipped
  obtain ⟨count, timebase, skip⟩ := skipped
  dsimp only
  split
  · rfl
  · split <;> rfl

theorem symbolBit_shift (d delta2 : UInt32) (nc : NcDecoder) :
    symbolBit delta2 (nc.shift d) = ((symbolBit delta2 nc).1.shift d, (symbolBit delta2 nc).2) := by
  unfold symbolBit NcDecoder.shift
  dsimp only
  split
  · rfl
  · split
    · split
      · rfl
      · split <;> rfl
    · rfl

theorem newCode_shift (d newTime delta : UInt32) (nc : NcDecoder) :
    newCode (newTime + d) delta (nc.shift d)
      = ((newCode newTime delta nc).1.shift d, (newCode newTime delta nc).2) := by
  have hdelta2 : newTime + d - (nc.shift d).timebase = newTime - nc.timebase := sub_shift ..
  have hcount : (nc.shift d).count = nc.count := rfl
  unfold newCode
  dsimp only
  rw [hdelta2, hcount]
  split
  · exact startCode_shift d newTime nc
  · split
    · split
      · exact symbolBit_shift d _ nc
      · rfl
    · rfl

theorem rx433Interrupt_shift (d newTime : UInt32) (s : Rx433) :
    rx433Interrupt (newTime + d) (s.shift d)
      = ((rx433Interrupt newTime s).1.shift d, (rx433Interrupt newTime s).2) := by
  have hdelta : newTime + d - (s.shift d).oldTime = newTime - s.oldTime := sub_shift ..
  have hnc := newCode_shift d newTime (newTime - s.oldTime) s.nc
  unfold rx433Interrupt
  rw [hdelta]
  dsimp only [shift] at hnc ⊢
  rw [hnc]

/-- **The decoder does not see `micros()` wrap.** Moved by any `d`, modulo `2 ^ 32`, the same edges
    publish the same at each edge, and leave the same state but for `old_time` and `nc_timebase`,
    which are moved by `d`. -/
theorem hear_shift (d : UInt32) (times : List UInt32) (s : Rx433) :
    hear (times.map (· + d)) (s.shift d) = ((hear times s).1.shift d, (hear times s).2) :=
  run_map (rx433Interrupt_shift d) times s

end Rx433
end CpeClock
