import CpeClock.NewCodeLink

/-!
# Home Easy codes over the radio

Each bit of a code is two halves, long then short for a 1 and short then long for a 0, and each
half is heard at the edge that ends it. Between two edges of a bit the decoder has the bits so far
(`AtBit`). No interval of a Home Easy code is near that of a new code's start code, so the other
decoder sleeps.
-/

namespace CpeClock
namespace Rx433

open Lib Mealy Tx433

/-! ## The bits so far -/

/-- The data when `i` bits of a code have been heard. -/
def heardBits (code : UInt32) : Nat → UInt32
  | 0 => 0
  | i + 1 =>
    if code.toNat.testBit (31 - i) then
      heardBits code i ||| ((1 : UInt32) <<< 31) >>> UInt32.ofNat i
    else heardBits code i

theorem highBit_toNat {i : Nat} (hi : i < 32) :
    (((1 : UInt32) <<< 31) >>> UInt32.ofNat i).toNat = 2 ^ (31 - i) := by
  have hall : ∀ i < 32, (((1 : UInt32) <<< 31) >>> UInt32.ofNat i).toNat = 2 ^ (31 - i) := by
    decide
  exact hall i hi

theorem heardBits_testBit (code : UInt32) {i : Nat} (hi : i ≤ 32) (b : Nat) :
    (heardBits code i).toNat.testBit b
      = (decide (32 - i ≤ b ∧ b < 32) && code.toNat.testBit b) := by
  induction i with
  | zero =>
    have hnone : ¬ (32 - 0 ≤ b ∧ b < 32) := by omega
    rw [decide_eq_false hnone, Bool.false_and]
    exact Nat.zero_testBit b
  | succ i ih =>
    have ih' := ih (by omega)
    rw [heardBits]
    by_cases hb : b = 31 - i
    · -- The bit that is heard now.
      have hnow : 32 - (i + 1) ≤ b ∧ b < 32 := by omega
      have hbefore : ¬ (32 - i ≤ b ∧ b < 32) := by omega
      rw [decide_eq_false hbefore, Bool.false_and] at ih'
      rw [decide_eq_true hnow, Bool.true_and, ← hb]
      split
      · next hset =>
        rw [UInt32.toNat_or, Nat.testBit_or, ih', highBit_toNat (by omega), ← hb,
          Nat.testBit_two_pow_self, hset, Bool.false_or]
      · next hunset => exact ih'.trans (Bool.eq_false_iff.mpr hunset).symm
    · have hsame : (32 - (i + 1) ≤ b ∧ b < 32) ↔ (32 - i ≤ b ∧ b < 32) := by omega
      rw [decide_eq_decide.mpr hsame, ← ih']
      split
      · rw [UInt32.toNat_or, Nat.testBit_or, highBit_toNat (by omega),
          Nat.testBit_two_pow_of_ne (Ne.symm hb), Bool.or_false]
      · rfl

theorem heardBits_all (code : UInt32) : heardBits code 32 = code := by
  rw [← UInt32.toNat_inj]
  apply Nat.eq_of_testBit_eq
  intro b
  rw [heardBits_testBit code (Nat.le_refl 32)]
  by_cases hb : b < 32
  · rw [decide_eq_true ⟨by omega, hb⟩, Bool.true_and]
  · have hhigh : code.toNat.testBit b = false :=
      Nat.testBit_lt_two_pow (Nat.lt_of_lt_of_le code.toNat_lt
        (Nat.pow_le_pow_right (by decide) (Nat.not_lt.mp hb)))
    rw [hhigh, Bool.and_false]

theorem firstHalf_eq (code : UInt32) (j : Nat) :
    firstHalf code j = if code.toNat.testBit j then 1550 else 540 := by
  have hbit : (code.toNat >>> j) &&& 1 ≠ 0 ↔ code.toNat.testBit j = true := by
    rw [Nat.testBit, Nat.and_comm, bne_iff_ne]
  unfold firstHalf
  simp only [hbit]

/-! ## The handler's state during a transmission -/

/-- Between codes: the last edge was due at `n`. -/
structure BetweenCodes (base : UInt32) (n : Nat) (s : Rx433) : Prop where
  edge : Heard base n s.oldTime
  reset : s.he.state = .reset
  idle : s.nc.count = noMessage

/-- `i` bits of the code were heard, the last at the edge due at `n`. -/
structure AtBit (base : UInt32) (code : UInt32) (i n : Nat) (s : Rx433) : Prop where
  edge : Heard base n s.oldTime
  bits : s.he = ⟨.readyForBit, UInt8.ofNat i, heardBits code i⟩
  idle : s.nc.count = noMessage

/-- The first half of bit `i` was heard as well. -/
structure AtHalf (base : UInt32) (code : UInt32) (i n : Nat) (s : Rx433) : Prop where
  edge : Heard base n s.oldTime
  bits : s.he = ⟨if code.toNat.testBit (31 - i) then .receivedLong else .receivedShort,
    UInt8.ofNat i, heardBits code i⟩
  idle : s.nc.count = noMessage

variable {base : UInt32} {code : UInt32}

/-- An edge that only the Home Easy decoder cares about. -/
theorem rx433Interrupt_he {newTime : UInt32} {s : Rx433} (hidle : s.nc.count = noMessage)
    (hfar : ¬ (672 ≤ (newTime - s.oldTime).toNat ∧ (newTime - s.oldTime).toNat < 864)) :
    rx433Interrupt newTime s
      = (⟨newTime, (homeEasy (hePulse (newTime - s.oldTime)) s.he).1, s.nc⟩,
          ((homeEasy (hePulse (newTime - s.oldTime)) s.he).2.map Publication.homeEasy).toList) := by
  unfold rx433Interrupt
  dsimp only
  rw [newCode_idle hfar hidle]
  exact congrArg (_, ·) (List.append_nil _)

theorem hePulse_start {delta : UInt32} (hlo : 2826 ≤ delta.toNat) (hhi : delta.toNat ≤ 3014) :
    hePulse delta = .start := by
  have hbin : delta.toNat / 128 = 22 ∨ delta.toNat / 128 = 23 := by omega
  rw [hePulse_eq]
  rcases hbin with h | h <;> rw [h] <;> rfl

theorem hePulse_short {delta : UInt32} (hlo : 446 ≤ delta.toNat) (hhi : delta.toNat ≤ 634) :
    hePulse delta = .short := by
  have hbin : delta.toNat / 128 = 3 ∨ delta.toNat / 128 = 4 := by omega
  rw [hePulse_eq]
  rcases hbin with h | h <;> rw [h] <;> rfl

theorem hePulse_long {delta : UInt32} (hlo : 1456 ≤ delta.toNat) (hhi : delta.toNat ≤ 1644) :
    hePulse delta = .long := by
  have hbin : delta.toNat / 128 = 11 ∨ delta.toNat / 128 = 12 := by omega
  rw [hePulse_eq]
  rcases hbin with h | h <;> rw [h] <;> rfl

theorem triple_start (n : Nat) :
    Triple rx433Interrupt (BetweenCodes base n) [(Heard base (n + 2920), [])]
      (AtBit base code 0 (n + 2920)) := by
  refine Triple.single fun s time hs htime => ?_
  obtain ⟨hlo, hhi⟩ := hs.edge.sub_bounds htime (by omega) (by omega)
  rw [rx433Interrupt_he hs.idle (by omega), hePulse_start (by omega) (by omega)]
  exact ⟨⟨htime, rfl, hs.idle⟩, rfl⟩

theorem triple_firstHalf (i n : Nat) :
    Triple rx433Interrupt (AtBit base code i n)
      [(Heard base (n + firstHalf code (31 - i)), [])]
      (AtHalf base code i (n + firstHalf code (31 - i))) := by
  refine Triple.single fun s time hs htime => ?_
  have hhalf := firstHalf_eq code (31 - i)
  obtain ⟨hlo, hhi⟩ := hs.edge.sub_bounds htime (by split at hhalf <;> omega)
    (by split at hhalf <;> omega)
  by_cases hbit : code.toNat.testBit (31 - i) = true
  · rw [if_pos hbit] at hhalf
    rw [rx433Interrupt_he hs.idle (by omega), hePulse_long (by omega) (by omega), hs.bits]
    exact ⟨⟨htime, by rw [if_pos hbit]; rfl, hs.idle⟩, rfl⟩
  · rw [if_neg hbit] at hhalf
    rw [rx433Interrupt_he hs.idle (by omega), hePulse_short (by omega) (by omega), hs.bits]
    exact ⟨⟨htime, by rw [if_neg hbit]; rfl, hs.idle⟩, rfl⟩

theorem homeEasy_secondHalf {i n : Nat} (hi : i < 32) {s : Rx433}
    (hs : AtHalf base code i (n + firstHalf code (31 - i)) s) {time : UInt32}
    (htime : Heard base (n + 2090) time) :
    rx433Interrupt time s
      = (⟨time, ((⟨.readyForBit, UInt8.ofNat i, heardBits code i⟩ : HeDecoder).nextBit
            (heardBits code (i + 1))).1, s.nc⟩,
          (((⟨.readyForBit, UInt8.ofNat i, heardBits code i⟩ : HeDecoder).nextBit
            (heardBits code (i + 1))).2.map Publication.homeEasy).toList) := by
  have hhalf := firstHalf_eq code (31 - i)
  obtain ⟨hlo, hhi⟩ := hs.edge.sub_bounds htime (by split at hhalf <;> omega)
    (by split at hhalf <;> omega)
  have hcount : (UInt8.ofNat i).toUInt32 = UInt32.ofNat i := by
    have hall : ∀ i < 32, (UInt8.ofNat i).toUInt32 = UInt32.ofNat i := by decide
    exact hall i hi
  by_cases hbit : code.toNat.testBit (31 - i) = true
  · rw [if_pos hbit] at hhalf
    have hbits := hs.bits
    rw [if_pos hbit] at hbits
    rw [rx433Interrupt_he hs.idle (by omega), hePulse_short (by omega) (by omega), hbits,
      heardBits, if_pos hbit, ← hcount]
    rfl
  · rw [if_neg hbit] at hhalf
    have hbits := hs.bits
    rw [if_neg hbit] at hbits
    rw [rx433Interrupt_he hs.idle (by omega), hePulse_long (by omega) (by omega), hbits,
      heardBits, if_neg hbit]
    rfl

theorem nextBit_eq (i : Nat) (hi : i < 32) (data data' : UInt32) :
    (⟨.readyForBit, UInt8.ofNat i, data⟩ : HeDecoder).nextBit data'
      = if i = 31 then (⟨.reset, UInt8.ofNat (i + 1), data'⟩, some data')
        else (⟨.readyForBit, UInt8.ofNat (i + 1), data'⟩, none) := by
  have hsucc : UInt8.ofNat i + 1 = UInt8.ofNat (i + 1) := (UInt8.ofNat_add i 1).symm
  have hfull : UInt8.ofNat (i + 1) ≥ 32 ↔ i = 31 := by
    have hall : ∀ i < 32, UInt8.ofNat (i + 1) ≥ 32 ↔ i = 31 := by decide
    exact hall i hi
  unfold HeDecoder.nextBit
  dsimp only
  rw [hsucc]
  simp only [hfull]

/-- **A bit**, but for the last. -/
theorem triple_heBit {i : Nat} (hi : i < 31) (n : Nat) :
    Triple rx433Interrupt (AtBit base code i n)
      [(Heard base (n + firstHalf code (31 - i)), []), (Heard base (n + 2090), [])]
      (AtBit base code (i + 1) (n + 2090)) := by
  refine (triple_firstHalf i n).cons (Triple.single fun s time hs htime => ?_)
  rw [homeEasy_secondHalf (by omega) hs htime, nextBit_eq i (by omega), if_neg (by omega)]
  exact ⟨⟨htime, rfl, hs.idle⟩, rfl⟩

/-- **The last bit**: the code is published. -/
theorem triple_heLast (base code : UInt32) (n : Nat) :
    Triple rx433Interrupt (AtBit base code 31 n)
      [(Heard base (n + firstHalf code 0), []), (Heard base (n + 2090), [.homeEasy code])]
      (BetweenCodes base (n + 2090)) := by
  refine (triple_firstHalf 31 n).cons (Triple.single fun s time hs htime => ?_)
  rw [homeEasy_secondHalf (by decide) hs htime, nextBit_eq 31 (by decide), if_pos rfl,
    heardBits_all]
  exact ⟨⟨htime, rfl, hs.idle⟩, rfl⟩

/-! ## The whole transmission -/

/-- The edges of an attempt between its first and its last. -/
def heInner (n : Nat) (code : UInt32) : List Nat :=
  (n + 2920) :: ((List.range 31).flatMap fun i =>
      [n + 2920 + 2090 * i + firstHalf code (31 - i), n + 2920 + 2090 * (i + 1)])
    ++ [n + 2920 + 2090 * 31 + firstHalf code 0]

theorem length_heInner (n : Nat) (code : UInt32) : (heInner n code).length = 64 := by
  simp [heInner, List.length_flatMap]

theorem heEdges_inner (n : Nat) (code : UInt32) :
    heEdges n code = n :: (heInner n code ++ [n + 2920 + 2090 * 32]) := by
  have hregroup := flatMap_regroup (fun i => n + 2920 + 2090 * i)
    (fun i => [n + 2920 + 2090 * i + firstHalf code (31 - i)]) 32
  rw [Nat.mul_zero, Nat.add_zero] at hregroup
  rw [heEdges, List.cons_append, hregroup, heInner, List.range_succ, List.flatMap_append,
    List.flatMap_singleton, Nat.sub_self]
  simp only [List.cons_append, List.nil_append, List.append_assoc]

def attemptRounds (base : UInt32) (n : Nat) (code : UInt32) :
    List (Round UInt32 (List Publication)) :=
  quietly base (heInner n code) ++ [(Heard base (n + 2920 + 2090 * 32), [.homeEasy code])]

/-- **An attempt.** -/
theorem triple_attempt (base code : UInt32) (n : Nat) :
    Triple rx433Interrupt (BetweenCodes base n) (attemptRounds base n code)
      (BetweenCodes base (n + 2920 + 2090 * 32)) := by
  have hbits : Triple rx433Interrupt (AtBit base code 0 (n + 2920 + 2090 * 0))
      ((List.range 31).flatMap fun i =>
        [(Heard base (n + 2920 + 2090 * i + firstHalf code (31 - i)), []),
          (Heard base (n + 2920 + 2090 * (i + 1)), [])])
      (AtBit base code 31 (n + 2920 + 2090 * 31)) := by
    refine Triple.flatMap_range (P := fun i => AtBit base code i (n + 2920 + 2090 * i))
      fun i hi => ?_
    rw [Nat.mul_succ, ← Nat.add_assoc]
    exact triple_heBit hi (n + 2920 + 2090 * i)
  rw [Nat.mul_zero, Nat.add_zero] at hbits
  have hlast := triple_heLast base code (n + 2920 + 2090 * 31)
  have htime : n + 2920 + 2090 * 31 + 2090 = n + 2920 + 2090 * 32 := Nat.add_assoc ..
  rw [htime] at hlast
  have h := (triple_start n).cons (hbits.append hlast)
  have hscript : attemptRounds base n code = (Heard base (n + 2920), [])
      :: (((List.range 31).flatMap fun i =>
        [(Heard base (n + 2920 + 2090 * i + firstHalf code (31 - i)), []),
          (Heard base (n + 2920 + 2090 * (i + 1)), [])])
        ++ [(Heard base (n + 2920 + 2090 * 31 + firstHalf code 0), []),
          (Heard base (n + 2920 + 2090 * 32), [Publication.homeEasy code])]) := by
    unfold attemptRounds heInner quietly
    rw [List.cons_append, List.map_cons, List.map_append, List.map_flatMap, List.cons_append,
      List.append_assoc]
    rfl
  rw [hscript]
  exact h

theorem triple_nextAttempt (n : Nat) :
    Triple rx433Interrupt (BetweenCodes base (n + 2920 + 2090 * 32)) [(Heard base (n + 80290), [])]
      (BetweenCodes base (n + 80290)) := by
  refine Triple.single fun s time hs htime => ?_
  obtain ⟨hlo, hhi⟩ := hs.edge.sub_bounds htime (by omega) (by omega)
  rw [interrupt_gap (.inl hs.idle) (by omega) (by omega)]
  refine ⟨⟨htime, rfl, rfl⟩, ?_⟩
  rw [flush, hs.idle, if_neg (by decide)]

def attemptSays (code : UInt32) : List (List Publication) :=
  List.replicate 65 [] ++ [[.homeEasy code]]

theorem attemptRounds_says (base : UInt32) (n : Nat) :
    [] :: (attemptRounds base n code).map Prod.snd = attemptSays code := by
  rw [attemptRounds, List.map_append, length_quietly, length_heInner]
  rfl

def moreRounds (base : UInt32) (code : UInt32) (more : Nat) :
    List (Round UInt32 (List Publication)) :=
  (List.range more).flatMap fun a =>
    (Heard base (80290 * (a + 1)), []) :: attemptRounds base (80290 * (a + 1)) code

theorem triple_more (base code : UInt32) (more : Nat) :
    Triple rx433Interrupt (BetweenCodes base (80290 * 0 + 2920 + 2090 * 32))
      (moreRounds base code more) (BetweenCodes base (80290 * more + 2920 + 2090 * 32)) := by
  refine Triple.flatMap_range (P := fun a => BetweenCodes base (80290 * a + 2920 + 2090 * 32))
    fun a _ => ?_
  rw [Nat.mul_succ]
  exact (triple_nextAttempt (80290 * a)).cons (triple_attempt base code (80290 * a + 80290))

theorem moreRounds_says (more : Nat) :
    (moreRounds base code more).map Prod.snd
      = (List.replicate more (attemptSays code)).flatten := by
  unfold moreRounds
  rw [List.map_flatMap]
  simp only [List.map_cons, attemptRounds_says]
  rw [List.flatMap_def, List.map_const', List.length_range]

theorem attemptRounds_hears (n : Nat) :
    (attemptRounds base n code).map Prod.fst
      = (heInner n code ++ [n + 2920 + 2090 * 32]).map (Heard base) := by
  rw [attemptRounds, List.map_append, hears_quietly, List.map_append]
  rfl

theorem moreRounds_hears (more : Nat) :
    (moreRounds base code more).map Prod.fst
      = ((List.range more).flatMap fun a => heEdges (80290 * (a + 1)) code).map (Heard base) := by
  unfold moreRounds
  rw [List.map_flatMap, List.map_flatMap]
  simp only [List.map_cons, attemptRounds_hears, heEdges_inner]

/-- **Home Easy codes are received.** From every state the handler can be in, each attempt of a
    transmission publishes the code once, with its last edge, and nothing else is published; only
    the first edge may publish an older message that was not finished. -/
theorem homeEasy_received (code : UInt32) {attempts : Nat} (hattempts : 1 ≤ attempts) {s : Rx433}
    (hs : Reachable s) {start first : UInt32} {times : List UInt32}
    (hedges : List.Forall₂ (fun n time => Jittered (start + UInt32.ofNat n) time)
      (risingEdges 0 false (writeHe code attempts)) (first :: times))
    (hlo : 4096 ≤ (first - s.oldTime).toNat) (hhi : (first - s.oldTime).toNat < 2 ^ 31) :
    (hear (first :: times) s).2
      = flush s.nc :: (List.replicate attempts
          (List.replicate 65 [] ++ [[Publication.homeEasy code]])).flatten.tail := by
  obtain ⟨more, rfl⟩ : ∃ more, attempts = more + 1 := ⟨attempts - 1, by omega⟩
  have hheard : List.Forall₂ (Heard (start - 47)) (risingEdges 0 false (writeHe code (more + 1)))
      (first :: times) := hedges.imp fun _ _ h => h.heard
  rw [risingEdges_writeHe, List.range_succ_eq_map, List.flatMap_cons, List.flatMap_map,
    Nat.mul_zero, heEdges_inner, List.cons_append] at hheard
  obtain ⟨hfirst, hrest⟩ := List.forall₂_cons.mp hheard
  have hgap := interrupt_gap hs.inv hlo hhi
  have hbetween : BetweenCodes (start - 47) 0 (rx433Interrupt first s).1 := by
    rw [hgap]
    exact ⟨hfirst, rfl, rfl⟩
  have hscript := (triple_attempt (start - 47) code 0).append (triple_more (start - 47) code more)
  have hfollows : Follows (attemptRounds (start - 47) 0 code ++ moreRounds (start - 47) code more)
      times := by
    refine Follows.of_hears ?_ hrest
    rw [List.map_append, List.map_append, attemptRounds_hears, moreRounds_hears]
  have hsaid := (hscript _ _ hbetween hfollows).2
  have htail : (List.replicate (more + 1) (attemptSays code)).flatten.tail
      = (attemptRounds (start - 47) 0 code ++ moreRounds (start - 47) code more).map Prod.snd := by
    rw [List.replicate_succ, List.flatten_cons, ← attemptRounds_says (start - 47) 0,
      List.map_append, moreRounds_says, attemptRounds_says]
    rfl
  rw [hear, run_cons, hsaid, hgap]
  exact congrArg _ htail.symm

/-- One attempt, heard by a handler that has heard nothing before. -/
theorem homeEasy_received_sample :
    (hear ((risingEdges 0 false (writeHe 0x04022b83 1)).map fun n => 5000 + UInt32.ofNat n)
      initial).2 = List.replicate 65 [] ++ [[.homeEasy 0x04022b83]] := by
  have hedges := jittered_exact 5000 (risingEdges 0 false (writeHe 0x04022b83 1))
  generalize htimes : (risingEdges 0 false (writeHe 0x04022b83 1)).map
    (fun n => 5000 + UInt32.ofNat n) = times at hedges ⊢
  have hshape : risingEdges 0 false (writeHe 0x04022b83 1) = heEdges 0 0x04022b83 := by
    rw [risingEdges_writeHe]
    exact List.append_nil _
  rw [hshape, heEdges_inner, List.map_cons] at htimes
  subst htimes
  exact homeEasy_received 0x04022b83 (Nat.le_refl 1) (s := initial) ⟨[], rfl⟩ hedges
    (by decide) (by decide)

end Rx433
end CpeClock
