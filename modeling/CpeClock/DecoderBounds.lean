import CpeClock.HomeEasyGrammar

/-!
# What noise can do to the decoders

Between messages `nc_count` is all ones, and otherwise it is at most 30 (`Inv`): it gets to 31 only
inside a call. While it is not all ones, the buffer is what the edges since the last "New message"
have written into an empty one (`Collected`), and it is published from there alone. The shifts are
bounded by what the Home Easy decoder has heard (`Tracks`).
-/

namespace CpeClock
namespace Rx433

open Lib Mealy

/-! ## What an edge does -/

/-- The branch "New message" is taken. -/
def Begins (newTime : UInt32) (s : Rx433) : Prop :=
  isClose (newTime - s.oldTime) (ncPulse * 3) epsilon = true ∧
    (skipSymbols newTime 31 s.nc.count s.nc.timebase 0).1 ≥ ncDataSize

instance (newTime : UInt32) (s : Rx433) : Decidable (Begins newTime s) := by
  unfold Begins
  infer_instance

/-- The data bit that `symbolBit` sets: the index into `nc_buffer`, and which bit of the symbol. -/
def dataBit (delta2 : UInt32) (d : NcDecoder) : Option (Nat × Nat) :=
  let bit := (delta2 + ncPulse) / (ncPulse * 2)
  if bit = 0 then none
  else if isClose (ncPulse * 2 * bit) delta2 epsilon then
    if bit < symbolSize + 1 then some (d.count.toNat, bit.toNat) else none
  else none

/-- The data bit that is set at an edge. -/
def bitWritten (newTime : UInt32) (s : Rx433) : Option (Nat × Nat) :=
  if isClose (newTime - s.oldTime) (ncPulse * 3) epsilon then none
  else if s.nc.count < ncDataSize then
    if newTime - s.nc.timebase < ncSymbolTime + epsilon then
      dataBit (newTime - s.nc.timebase) s.nc
    else none
  else none

/-- The amount by which `he_bit_count` shifts at an edge, if it does. -/
def shiftAmount (newTime : UInt32) (s : Rx433) : Option UInt8 :=
  if hePulse (newTime - s.oldTime) = .short ∧ s.he.state = .receivedLong then some s.he.bitCount
  else none

/-- The bits that a list of edges sets, from some state. -/
def bitsWritten : List UInt32 → Rx433 → List (Nat × Nat)
  | [], _ => []
  | t :: ts, s => (bitWritten t s).toList ++ bitsWritten ts (rx433Interrupt t s).1

/-- Bits set in a code, one after another. -/
def setBits (code : NcCode) (bits : List (Nat × Nat)) : NcCode :=
  bits.foldl (fun code w => orBit code w.1 w.2) code

/-- None of these edges begins a message. -/
def BeginsNone : List UInt32 → Rx433 → Prop
  | [], _ => True
  | t :: ts, s => ¬ Begins t s ∧ BeginsNone ts (rx433Interrupt t s).1

theorem bitsWritten_append (ts ts' : List UInt32) (s : Rx433) :
    bitsWritten (ts ++ ts') s = bitsWritten ts s ++ bitsWritten ts' (hear ts s).1 := by
  induction ts generalizing s with
  | nil => rfl
  | cons t ts ih => rw [List.cons_append, bitsWritten, ih, bitsWritten, List.append_assoc]; rfl

theorem beginsNone_append {ts ts' : List UInt32} {s : Rx433} (h : BeginsNone ts s)
    (h' : BeginsNone ts' (hear ts s).1) : BeginsNone (ts ++ ts') s := by
  induction ts generalizing s with
  | nil => exact h'
  | cons t ts ih => exact ⟨h.1, ih h.2 h'⟩

theorem dataBit_bounds {delta2 : UInt32} {d : NcDecoder} {i b : Nat}
    (h : dataBit delta2 d = some (i, b)) : i = d.count.toNat ∧ 1 ≤ b ∧ b ≤ 5 := by
  have hsix : (symbolSize + 1).toNat = 6 := rfl
  unfold dataBit at h
  dsimp only at h
  generalize (delta2 + ncPulse) / (ncPulse * 2) = bit at h
  split at h
  · cases h
  · next hne =>
    split at h
    · split at h
      · next hlt =>
        obtain ⟨rfl, rfl⟩ := Prod.mk.inj (Option.some.inj h)
        have hpos : bit.toNat ≠ 0 := fun hzero => hne (UInt32.toNat_inj.mp hzero)
        rw [UInt32.lt_iff_toNat_lt, hsix] at hlt
        exact ⟨rfl, by omega, by omega⟩
      · cases h
    · cases h

/-- **No write goes past the end of `nc_buffer`.** -/
theorem bitWritten_bounds {newTime : UInt32} {s : Rx433} {i b : Nat}
    (h : bitWritten newTime s = some (i, b)) : i < 31 ∧ 1 ≤ b ∧ b ≤ 5 := by
  unfold bitWritten at h
  split at h
  · cases h
  · split at h
    · next hcount =>
      split at h
      · obtain ⟨rfl, hb⟩ := dataBit_bounds h
        exact ⟨UInt32.lt_iff_toNat_lt.mp hcount, hb⟩
      · cases h
    · cases h

theorem symbolBit_buffer (delta2 : UInt32) (d : NcDecoder) :
    (symbolBit delta2 d).1.buffer = setBits d.buffer (dataBit delta2 d).toList := by
  unfold symbolBit dataBit
  dsimp only
  generalize (delta2 + ncPulse) / (ncPulse * 2) = bit
  by_cases hzero : bit = 0
  · rw [if_pos hzero, if_pos hzero]
    rfl
  · rw [if_neg hzero, if_neg hzero]
    by_cases hclose : isClose (ncPulse * 2 * bit) delta2 epsilon = true
    · rw [if_pos hclose, if_pos hclose]
      by_cases hdata : bit < symbolSize + 1
      · rw [if_pos hdata, if_pos hdata]
        show _ = orBit d.buffer d.count.toNat bit.toNat
        rw [orBit, bitValue, UInt32.ofNat_toNat]
      · rw [if_neg hdata, if_neg hdata]
        split <;> rfl
    · rw [if_neg hclose, if_neg hclose]
      rfl

/-- **What an edge does to the buffer.** -/
theorem buffer_interrupt (newTime : UInt32) (s : Rx433) :
    (rx433Interrupt newTime s).1.nc.buffer
      = if Begins newTime s then emptyCode
        else setBits s.nc.buffer (bitWritten newTime s).toList := by
  show (newCode newTime (newTime - s.oldTime) s.nc).1.buffer = _
  by_cases hclose : isClose (newTime - s.oldTime) (ncPulse * 3) epsilon = true
  · have hbegins : Begins newTime s
        ↔ (skipSymbols newTime 31 s.nc.count s.nc.timebase 0).1 ≥ ncDataSize := and_iff_right hclose
    rw [newCode_startCode hclose, bitWritten, if_pos hclose]
    simp only [hbegins]
    unfold startCode
    generalize skipSymbols newTime 31 s.nc.count s.nc.timebase 0 = r
    obtain ⟨count, timebase, skip⟩ := r
    dsimp only
    split
    · rfl
    · split <;> rfl
  · rw [if_neg fun h : Begins newTime s => hclose h.1, bitWritten, if_neg hclose]
    unfold newCode
    dsimp only
    rw [if_neg hclose]
    split
    · split
      · exact symbolBit_buffer _ s.nc
      · rfl
    · rfl

/-- **What an edge does to `he_bit_data`.** -/
theorem bitData_interrupt (newTime : UInt32) (s : Rx433) :
    (rx433Interrupt newTime s).1.he.bitData
      = if hePulse (newTime - s.oldTime) = .start then 0
        else match shiftAmount newTime s with
          | some k => s.he.bitData ||| ((1 : UInt32) <<< 31) >>> k.toUInt32
          | none => s.he.bitData := by
  show (homeEasy (hePulse (newTime - s.oldTime)) s.he).1.bitData = _
  unfold shiftAmount
  obtain ⟨state, bitCount, bitData⟩ := s.he
  cases hePulse (newTime - s.oldTime) <;> cases state <;>
    simp [homeEasy, HeDecoder.nextBit] <;> split <;> rfl

/-! ## When a code is published -/

/-- The loop counts as many symbols as it skips. -/
theorem skipSymbols_count (newTime : UInt32) (turns : Nat) (count timebase skip : UInt32) :
    (skipSymbols newTime turns count timebase skip).1 + skip
      = count + (skipSymbols newTime turns count timebase skip).2.2 := by
  induction turns generalizing count timebase skip with
  | zero => rfl
  | succ turns ih =>
    rw [skipSymbols]
    split
    · have h := ih (count + 1) (timebase + ncSymbolTime) (skip + 1)
      grind
    · rfl

theorem startCode_publishes {newTime : UInt32} {d : NcDecoder} {code : NcCode}
    (h : (startCode newTime d).2 = some code) : code = d.buffer ∧ 26 ≤ d.count.toNat ∧
      d.count.toNat ≤ 31 := by
  have hcount := skipSymbols_count newTime 31 d.count d.timebase 0
  unfold startCode at h
  generalize skipSymbols newTime 31 d.count d.timebase 0 = r at h hcount
  obtain ⟨count, timebase, skip⟩ := r
  dsimp only at h hcount
  split at h
  · split at h
    · next hend =>
      obtain ⟨rfl, hskip⟩ := hend
      have hfive : maxIncompleteSkip.toNat = 5 := rfl
      have h31 : ncDataSize.toNat = 31 := rfl
      have hzero : (0 : UInt32).toNat = 0 := rfl
      rw [UInt32.le_iff_toNat_le, hfive] at hskip
      rw [← UInt32.toNat_inj, UInt32.toNat_add, UInt32.toNat_add, h31, hzero] at hcount
      have hlt := d.count.toNat_lt
      exact ⟨(Option.some.inj h).symm, by omega, by omega⟩
    · cases h
  · split at h <;> cases h

theorem symbolBit_publishes {delta2 : UInt32} {d : NcDecoder} {code : NcCode}
    (h : (symbolBit delta2 d).2 = some code) : code = d.buffer ∧ d.count + 1 = ncDataSize := by
  unfold symbolBit at h
  dsimp only at h
  split at h
  · cases h
  · split at h
    · split at h
      · cases h
      · split at h
        · next hlast => exact ⟨(Option.some.inj h).symm, hlast⟩
        · cases h
    · cases h

/-- **What is published is the buffer, with 26 symbols counted or more.** -/
theorem newCode_publishes {newTime delta : UInt32} {d : NcDecoder} {code : NcCode}
    (h : (newCode newTime delta d).2 = some code) : code = d.buffer ∧ 26 ≤ d.count.toNat ∧
      d.count.toNat ≤ 31 := by
  unfold newCode at h
  dsimp only at h
  split at h
  · exact startCode_publishes h
  · split at h
    · next hcount =>
      have hlt : d.count.toNat < 31 := UInt32.lt_iff_toNat_lt.mp hcount
      split at h
      · obtain ⟨rfl, hlast⟩ := symbolBit_publishes h
        have hone : (1 : UInt32).toNat = 1 := rfl
        have h31 : ncDataSize.toNat = 31 := rfl
        rw [← UInt32.toNat_inj, UInt32.toNat_add, hone, h31] at hlast
        exact ⟨rfl, by omega, by omega⟩
      · split at h
        · next hend =>
          have hfive : maxIncompleteSkip.toNat = 5 := rfl
          have h31 : ncDataSize.toNat = 31 := rfl
          rw [ge_iff_le, UInt32.le_iff_toNat_le, UInt32.toNat_add, hfive, h31] at hend
          exact ⟨(Option.some.inj h).symm, by omega, by omega⟩
        · cases h
    · cases h

/-! ## The bits in the buffer -/

/-- Five-bit symbols, all of them. -/
theorem orBit_lt {code : NcCode} (hcode : ∀ (i : Nat) (hi : i < 31), code[i].toNat < 32) {k b : Nat}
    (hk : k < 31) (hb : 1 ≤ b) (hb' : b ≤ 5) (i : Nat) (hi : i < 31) :
    (orBit code k b)[i].toNat < 32 := by
  have hvalue : (bitValue b).toNat < 32 := by
    have hall : ∀ b ≤ 5, 1 ≤ b → (bitValue b).toNat < 32 := by decide
    exact hall b hb' hb
  rw [orBit, Vector.set!_eq_setIfInBounds, Vector.getElem_setIfInBounds]
  split
  · rw [getElem!_pos code k hk, UInt8.toNat_or]
    exact Nat.or_lt_two_pow (n := 5) (hcode k hk) hvalue
  · exact hcode i hi

theorem setBits_lt {code : NcCode} (hcode : ∀ (i : Nat) (hi : i < 31), code[i].toNat < 32)
    {bits : List (Nat × Nat)} (hbits : ∀ w ∈ bits, w.1 < 31 ∧ 1 ≤ w.2 ∧ w.2 ≤ 5) (i : Nat)
    (hi : i < 31) : (setBits code bits)[i].toNat < 32 := by
  induction bits generalizing code with
  | nil => exact hcode i hi
  | cons w ws ih =>
    obtain ⟨hk, hb, hb'⟩ := hbits w List.mem_cons_self
    exact ih (fun i hi => orBit_lt hcode hk hb hb' i hi)
      fun w' hw' => hbits w' (List.mem_cons_of_mem _ hw')

theorem bitsWritten_bounds (ts : List UInt32) (s : Rx433) :
    ∀ w ∈ bitsWritten ts s, w.1 < 31 ∧ 1 ≤ w.2 ∧ w.2 ≤ 5 := by
  induction ts generalizing s with
  | nil =>
    intro w hw
    exact absurd hw List.not_mem_nil
  | cons t ts ih =>
    intro w hw
    rcases List.mem_append.mp hw with hw | hw
    · exact bitWritten_bounds (Option.mem_toList.mp hw)
    · exact ih _ w hw

/-- Since the start code that began the message, its edges have written the buffer. -/
def Collected (times : List UInt32) (buffer : NcCode) : Prop :=
  ∃ before start since, times = before ++ start :: since ∧
    Begins start (hear before initial).1 ∧
    BeginsNone since (rx433Interrupt start (hear before initial).1).1 ∧
    buffer = setBits emptyCode (bitsWritten since (rx433Interrupt start (hear before initial).1).1)

theorem setBits_append (code : NcCode) (bits bits' : List (Nat × Nat)) :
    setBits code (bits ++ bits') = setBits (setBits code bits) bits' := List.foldl_append

/-- Between messages it takes a "New message" to change that. -/
theorem noMessage_interrupt {newTime : UInt32} {s : Rx433} (hcount : s.nc.count = noMessage)
    (hbegins : ¬ Begins newTime s) : (rx433Interrupt newTime s).1.nc.count = noMessage := by
  have hskip : skipSymbols newTime 31 s.nc.count s.nc.timebase 0
      = (s.nc.count, s.nc.timebase, 0) :=
    skipSymbols_of_not 31 fun h => absurd h.1 (by rw [hcount]; decide)
  have hfar : ¬ (672 ≤ (newTime - s.oldTime).toNat ∧ (newTime - s.oldTime).toNat < 864) := by
    intro h
    refine hbegins ⟨(isClose_startCode _).mpr h, ?_⟩
    rw [hskip, hcount]
    exact (by decide : noMessage ≥ ncDataSize)
  show (newCode newTime (newTime - s.oldTime) s.nc).1.count = noMessage
  rw [newCode_idle hfar hcount]
  exact hcount

/-- **The buffer of a message** is what its own edges have written. -/
theorem collected_hear (times : List UInt32) :
    (hear times initial).1.nc.count = noMessage ∨
      Collected times (hear times initial).1.nc.buffer := by
  induction times using List.reverseRecOn with
  | nil => exact .inl rfl
  | append_singleton times t ih =>
    have hlast : (hear (times ++ [t]) initial).1 = (rx433Interrupt t (hear times initial).1).1 := by
      rw [hear, run_append]
      rfl
    rw [hlast]
    by_cases hbegins : Begins t (hear times initial).1
    · refine .inr ⟨times, t, [], rfl, hbegins, trivial, ?_⟩
      rw [buffer_interrupt, if_pos hbegins]
      rfl
    · by_cases hnone : (hear times initial).1.nc.count = noMessage
      · exact .inl (noMessage_interrupt hnone hbegins)
      · obtain ⟨before, start, since, rfl, hstart, hsince, hbuffer⟩ := ih.resolve_left hnone
        have hstate : (hear (before ++ start :: since) initial).1
            = (hear since (rx433Interrupt start (hear before initial).1).1).1 := by
          rw [hear, run_append, run_cons]
        rw [hstate] at hbegins hbuffer ⊢
        refine .inr ⟨before, start, since ++ [t], by simp, hstart,
          beginsNone_append hsince ⟨hbegins, trivial⟩, ?_⟩
        rw [buffer_interrupt, if_neg hbegins, hbuffer, ← setBits_append, bitsWritten_append,
          bitsWritten, bitsWritten, List.append_nil]

/-! ## Bounds -/

theorem Inv.count_le {s : Rx433} (hs : Inv s) :
    s.nc.count.toNat ≤ 30 ∨ s.nc.count = noMessage := by
  rcases hs with hnone | ⟨hlt, -⟩
  · exact .inr hnone
  · exact .inl (by omega)

theorem mem_publications_newCode {newTime : UInt32} {s : Rx433} {code : NcCode} :
    .newCode code ∈ (rx433Interrupt newTime s).2
      ↔ (newCode newTime (newTime - s.oldTime) s.nc).2 = some code := by
  simp [rx433Interrupt]

theorem shiftAmount_le (times : List UInt32) {t : UInt32} {k : UInt8}
    (h : shiftAmount t (hear times initial).1 = some k) : k ≤ 31 := by
  have htracks := tracks_run (pulses 0 times) (d := initial.he) rfl
  unfold shiftAmount at h
  split at h
  · next hshift =>
    obtain rfl := Option.some.inj h
    have hstate := hshift.2
    rw [hear_he] at hstate ⊢
    have hsecond : (run homeEasy (pulses initial.oldTime times) initial.he).1.state
        = halfState true := hstate
    obtain ⟨bits, hlt, hheard, -⟩ := htracks.half hsecond
    have hcount : (run homeEasy (pulses initial.oldTime times) initial.he).1.bitCount
        = UInt8.ofNat bits.length := congrArg HeDecoder.bitCount hheard
    have hlength : (UInt8.ofNat bits.length).toNat = bits.length :=
      UInt8.toNat_ofNat_of_lt' (Nat.lt_trans hlt (by decide))
    rw [hcount, UInt8.le_iff_toNat_le, hlength]
    exact Nat.le_of_lt_succ hlt
  · cases h

/-- The call at `t` keeps to its bounds, in the state that these edges have left. -/
structure InBounds (times : List UInt32) (t : UInt32) (s : Rx433) : Prop where
  count : (rx433Interrupt t s).1.nc.count.toNat ≤ 30 ∨ (rx433Interrupt t s).1.nc.count = noMessage
  buffer : (rx433Interrupt t s).1.nc.buffer
    = if Begins t s then emptyCode else setBits s.nc.buffer (bitWritten t s).toList
  index : ∀ i b, bitWritten t s = some (i, b) → i < 31
  bitData : (rx433Interrupt t s).1.he.bitData
    = if hePulse (t - s.oldTime) = .start then 0
      else match shiftAmount t s with
        | some k => s.he.bitData ||| ((1 : UInt32) <<< 31) >>> k.toUInt32
        | none => s.he.bitData
  shift : ∀ k, shiftAmount t s = some k → k ≤ 31
  symbols : ∀ code, .newCode code ∈ (rx433Interrupt t s).2 →
    ∀ (i : Nat) (hi : i < 31), code[i].toNat < 32
  collected : ∀ code, .newCode code ∈ (rx433Interrupt t s).2 → Collected times code
  published : ∀ code, .newCode code ∈ (rx433Interrupt t s).2 →
    26 ≤ s.nc.count.toNat ∧ s.nc.count.toNat ≤ 30

theorem Collected.symbols {times : List UInt32} {code : NcCode} (h : Collected times code) (i : Nat)
    (hi : i < 31) : code[i].toNat < 32 := by
  obtain ⟨before, start, since, -, -, -, rfl⟩ := h
  have hempty : ∀ (i : Nat) (hi : i < 31), emptyCode[i].toNat < 32 := by
    intro i hi
    rw [emptyCode, Vector.getElem_replicate]
    decide
  exact setBits_lt hempty (bitsWritten_bounds since _) i hi

/-- A published code is the buffer of a message. -/
theorem published_collected (times : List UInt32) {t : UInt32} {code : NcCode}
    (h : .newCode code ∈ (rx433Interrupt t (hear times initial).1).2) :
    Collected times code ∧ 26 ≤ (hear times initial).1.nc.count.toNat ∧
      (hear times initial).1.nc.count.toNat ≤ 30 := by
  have hs : Inv (hear times initial).1 := Reachable.inv ⟨times, rfl⟩
  obtain ⟨rfl, hlo, hhi⟩ := newCode_publishes (mem_publications_newCode.mp h)
  have hmessage : (hear times initial).1.nc.count ≠ noMessage := by
    intro hnone
    rw [hnone] at hhi
    exact absurd hhi (by decide)
  exact ⟨(collected_hear times).resolve_left hmessage, hlo, hs.count_le.resolve_right hmessage⟩

/-- **The decoders stay in bounds under any noise.** For every list of edges from power-on and the
    call at the next one, `t`. -/
theorem interrupt_in_bounds (times : List UInt32) (t : UInt32) :
    InBounds times t (hear times initial).1 where
  count := (inv_interrupt t _ (Reachable.inv ⟨times, rfl⟩)).count_le
  buffer := buffer_interrupt t _
  index _ _ h := (bitWritten_bounds h).1
  bitData := bitData_interrupt t _
  shift _ h := shiftAmount_le times h
  symbols _ h := (published_collected times h).1.symbols
  collected _ h := (published_collected times h).1
  published _ h := (published_collected times h).2

end Rx433
end CpeClock
