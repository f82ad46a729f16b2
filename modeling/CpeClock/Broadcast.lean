import CpeClock.DeviceSend

/-!
# What the clock makes of a broadcast

Commands are broadcast one after another, with a gap before each, and the handler hears the edges of
all of them. What it publishes of one does not depend on the others: a new code once, a Home Easy
code once for each attempt, an Energenie code never. The handler is `Settled` between two of them,
with no message that the next edge could end.

An interval of an Energenie code may be taken for a start code, so the new code decoder may count
symbols that are none. An edge adds at most one to the count (`count_period`), an attempt has 25
edges, and a message is not given out before 26 symbols.
-/

namespace CpeClock
namespace Rx433

open Lib Mealy Tx433

/-! ## Between broadcasts -/

/-- No message is left over for the next edge to end. -/
structure Settled (s : Rx433) : Prop where
  inv : Inv s
  flushed : flush s.nc = []

theorem settled_initial : Settled initial := ⟨.inl rfl, rfl⟩

theorem flush_of_idle {d : NcDecoder} (h : d.count = noMessage) : flush d = [] := by
  rw [flush, h]
  rfl

theorem flush_of_lt {d : NcDecoder} (h : d.count.toNat < 26) : flush d = [] :=
  if_neg fun hboth => absurd hboth.1 (Nat.not_le.mpr h)

theorem startCode_published {newTime : UInt32} {d : NcDecoder} {code : NcCode}
    (h : (startCode newTime d).2 = some code) : (startCode newTime d).1.count = 0 := by
  unfold startCode at h ⊢
  dsimp only at h ⊢
  split at h
  · next hmessage => rw [if_pos hmessage]
  · split at h <;> cases h

theorem symbolBit_published {delta2 : UInt32} {d : NcDecoder} {code : NcCode}
    (h : (symbolBit delta2 d).2 = some code) : (symbolBit delta2 d).1.count = noMessage := by
  unfold symbolBit at h ⊢
  dsimp only at h ⊢
  split_ifs at h ⊢
  rfl

/-- **A message that was given out is not given out again**: the next begins from nothing. -/
theorem newCode_published {newTime delta : UInt32} {d : NcDecoder} {code : NcCode}
    (h : (newCode newTime delta d).2 = some code) : flush (newCode newTime delta d).1 = [] := by
  by_cases hclose : isClose delta (ncPulse * 3) epsilon = true
  · rw [newCode_startCode hclose] at h ⊢
    exact flush_of_lt (by rw [startCode_published h]; decide)
  · unfold newCode at h ⊢
    dsimp only at h ⊢
    rw [if_neg hclose] at h ⊢
    split_ifs at h ⊢
    · exact flush_of_idle (symbolBit_published h)
    · exact flush_of_idle rfl

theorem interrupt_published {newTime : UInt32} {s : Rx433} {code : NcCode}
    (h : .newCode code ∈ (rx433Interrupt newTime s).2) :
    flush (rx433Interrupt newTime s).1.nc = [] := by
  have hcode : (newCode newTime (newTime - s.oldTime) s.nc).2 = some code := by
    simpa [rx433Interrupt] using h
  exact newCode_published hcode

theorem oldTime_hear (times : List UInt32) (s : Rx433) :
    (hear times s).1.oldTime = times.getLastD s.oldTime := by
  induction times generalizing s with
  | nil => rfl
  | cons t ts ih =>
    rw [List.getLastD_cons]
    exact ih (rx433Interrupt t s).1

theorem inv_hear (times : List UInt32) {s : Rx433} (hs : Inv s) : Inv (hear times s).1 :=
  run_inv inv_interrupt times hs

/-! ## New codes -/

/-- **A new code, from one broadcast to the next**: the last edge publishes it, and no other edge
    publishes anything. -/
theorem hear_newCode (message : NcCode) {s : Rx433} (hs : Settled s) {start first last : UInt32}
    {times before : List UInt32}
    (hedges : List.Forall₂ (fun n time => Jittered (start + UInt32.ofNat n) time)
      (risingEdges 0 false (writeNc message)) (first :: times))
    (hlast : first :: times = before ++ [last])
    (hlo : 4096 ≤ (first - s.oldTime).toNat) (hhi : (first - s.oldTime).toNat < 2 ^ 31) :
    (hear before s).2.flatten = [] ∧
      (rx433Interrupt last (hear before s).1).2 = [.newCode (message.map fiveBits)] ∧
      Settled (hear (first :: times) s).1 := by
  rw [← risingEdges_writeNc_fiveBits] at hedges
  have hsaid := hear_message (fiveBit_map message) hs.inv hedges hlo hhi
  rw [hs.flushed, ← List.cons_append] at hsaid
  have hinv := inv_hear (first :: times) hs.inv
  rw [hlast, hear, run_append, run_cons, run_nil] at hsaid hinv ⊢
  obtain ⟨hbefore, hpublished⟩ := List.append_inj' hsaid rfl
  have hnow := List.singleton_inj.mp hpublished
  refine ⟨?_, hnow, hinv, @interrupt_published _ _ (message.map fiveBits) ?_⟩
  · show (run rx433Interrupt before s).2.flatten = []
    rw [hbefore, List.flatten_cons, List.flatten_replicate_nil]
    rfl
  · rw [hnow]
    exact List.mem_cons_self

/-! ## Home Easy codes -/

/-- **A Home Easy code, from one broadcast to the next.** -/
theorem hear_homeEasy (code : UInt32) (more : Nat) {s : Rx433} (hs : Settled s)
    {start first : UInt32} {times : List UInt32}
    (hedges : List.Forall₂ (fun n time => Jittered (start + UInt32.ofNat n) time)
      (risingEdges 0 false (writeHe code (more + 1))) (first :: times))
    (hlo : 4096 ≤ (first - s.oldTime).toNat) (hhi : (first - s.oldTime).toNat < 2 ^ 31) :
    (hear (first :: times) s).2.flatten = List.replicate (more + 1) (.homeEasy code) ∧
      Settled (hear (first :: times) s).1 := by
  have hheard : List.Forall₂ (Heard (start - 47)) (risingEdges 0 false (writeHe code (more + 1)))
      (first :: times) := hedges.imp fun _ _ h => h.heard
  rw [risingEdges_writeHe, List.range_succ_eq_map, List.flatMap_cons, List.flatMap_map,
    Nat.mul_zero, heEdges_inner, List.cons_append] at hheard
  obtain ⟨hfirst, hrest⟩ := List.forall₂_cons.mp hheard
  have hgap := interrupt_gap hs.inv hlo hhi
  have hbetween : BetweenCodes (start - 47) 0 (rx433Interrupt first s).1 := by
    rw [hgap]
    exact ⟨hfirst, rfl, rfl⟩
  have hfollows : Follows (attemptRounds (start - 47) 0 code ++ moreRounds (start - 47) code more)
      times := by
    refine Follows.of_hears ?_ hrest
    rw [List.map_append, List.map_append, attemptRounds_hears, moreRounds_hears]
  obtain ⟨hat, hsaid⟩ := ((triple_attempt (start - 47) code 0).append
    (triple_more (start - 47) code more)) _ _ hbetween hfollows
  have hattempt : (attemptSays code).flatten = [Publication.homeEasy code] := by
    rw [attemptSays, List.flatten_append, List.flatten_replicate_nil]
    rfl
  have hfirstAttempt : ((attemptRounds (start - 47) 0 code).map Prod.snd).flatten
      = [Publication.homeEasy code] := by
    rw [← hattempt, ← attemptRounds_says (start - 47) 0, List.flatten_cons, List.nil_append]
  have hmore : ((moreRounds (start - 47) code more).map Prod.snd).flatten
      = List.replicate more (Publication.homeEasy code) := by
    refine (congrArg List.flatten <| moreRounds_says more).trans ?_
    induction more with
    | zero => rfl
    | succ more _ =>
      generalize more + 1 = k
      induction k with
      | zero => rfl
      | succ k ih =>
        rw [List.replicate_succ, List.flatten_cons, List.flatten_append, ih, hattempt]
        rfl
  rw [hear, run_cons]
  refine ⟨?_, inv_hear (first :: times) hs.inv, flush_of_idle hat.idle⟩
  rw [hsaid, hgap, hs.flushed, List.flatten_cons, List.map_append, List.flatten_append,
    hfirstAttempt, hmore]
  rfl

/-! ## Energenie codes -/

/-- At most one symbol is skipped if the last one that counted is not long past. -/
theorem skipSymbols_near {newTime count timebase : UInt32}
    (hnear : (newTime - timebase).toNat ≤ 9600) :
    (skipSymbols newTime 31 count timebase 0).1 = count ∨
      (skipSymbols newTime 31 count timebase 0).1 = count + 1 := by
  have h5760 : (ncSymbolTime * 3 / 2).toNat = 5760 := rfl
  have h3840 : ncSymbolTime.toNat = 3840 := rfl
  by_cases hskip : count < ncDataSize ∧ newTime - timebase > ncSymbolTime * 3 / 2
  · right
    have hlate := UInt32.lt_iff_toNat_lt.mp hskip.2
    have hnow : ¬ newTime - (timebase + ncSymbolTime) > ncSymbolTime * 3 / 2 := by
      intro hagain
      have hbase := timebase.toNat_lt
      have hagain' := UInt32.lt_iff_toNat_lt.mp hagain
      rw [UInt32.toNat_sub, h5760] at hlate hagain'
      rw [UInt32.toNat_sub] at hnear
      rw [UInt32.toNat_add, h3840] at hagain'
      omega
    rw [skipSymbols, if_pos hskip, skipSymbols, if_neg fun h => hnow h.2]
  · left
    rw [skipSymbols_of_not 31 hskip]

/-- No message, or one with at most so many symbols. -/
def CountsTo (m : Nat) (d : NcDecoder) : Prop := d.count = noMessage ∨ d.count.toNat ≤ m

theorem CountsTo.flush {m : Nat} (hm : m < 26) {d : NcDecoder} (h : CountsTo m d) :
    flush d = [] := by
  rcases h with hidle | hle
  · exact flush_of_idle hidle
  · exact flush_of_lt (by omega)

theorem countsTo_startCode {m : Nat} (hm : m < 25) {newTime : UInt32} {d : NcDecoder}
    (h : CountsTo m d) (hnear : d.count ≠ noMessage → (newTime - d.timebase).toNat ≤ 9600) :
    CountsTo (m + 1) (startCode newTime d).1 ∧ (startCode newTime d).2 = none := by
  have h31 : ncDataSize.toNat = 31 := rfl
  have hone : (1 : UInt32).toNat = 1 := rfl
  by_cases hidle : d.count = noMessage
  · have hskip : skipSymbols newTime 31 noMessage d.timebase 0 = (noMessage, d.timebase, 0) :=
      skipSymbols_of_not 31 fun h => absurd h.1 (by decide)
    unfold startCode
    rw [hidle, hskip]
    dsimp only
    rw [if_pos (by decide), if_neg fun h => absurd h.1 (by decide)]
    exact ⟨.inr (Nat.zero_le _), rfl⟩
  · have hle := h.resolve_left hidle
    have hskip := @skipSymbols_near _ d.count _ (hnear hidle)
    unfold startCode
    generalize skipSymbols newTime 31 d.count d.timebase 0 = r at hskip
    obtain ⟨count, timebase, skip⟩ := r
    dsimp only at hskip
    have hcount : count.toNat ≤ m + 1 := by
      rcases hskip with hsame | hnext
      · rw [hsame]
        omega
      · rw [hnext, UInt32.toNat_add, hone]
        omega
    have hsmall : ¬ count ≥ ncDataSize := by
      rw [ge_iff_le, UInt32.le_iff_toNat_le, h31]
      omega
    dsimp only
    rw [if_neg hsmall]
    split <;> exact ⟨.inr hcount, rfl⟩

theorem countsTo_symbolBit {m : Nat} (hm : m < 25) {delta2 : UInt32} {d : NcDecoder}
    (h : d.count.toNat ≤ m) :
    CountsTo (m + 1) (symbolBit delta2 d).1 ∧ (symbolBit delta2 d).2 = none := by
  have h31 : ncDataSize.toNat = 31 := rfl
  have hone : (1 : UInt32).toNat = 1 := rfl
  have hnext : (d.count + 1).toNat = d.count.toNat + 1 := by
    rw [UInt32.toNat_add, hone]
    omega
  have hmore : d.count + 1 ≠ ncDataSize := by
    rw [ne_eq, ← UInt32.toNat_inj, hnext, h31]
    omega
  have hsame : CountsTo (m + 1) d := .inr (Nat.le_succ_of_le h)
  unfold symbolBit
  dsimp only
  rw [if_neg hmore]
  split_ifs
  · exact ⟨hsame, rfl⟩
  · exact ⟨hsame, rfl⟩
  · refine ⟨.inr ?_, rfl⟩
    dsimp only
    omega
  · exact ⟨hsame, rfl⟩

/-- **An edge adds at most one to the count**, if the last edge was not long ago. -/
theorem count_period {m : Nat} (hm : m < 25) {s : Rx433} (hs : Inv s) (h : CountsTo m s.nc)
    {time : UInt32} (hnear : (time - s.oldTime).toNat ≤ 3840) :
    CountsTo (m + 1) (newCode time (time - s.oldTime) s.nc).1 ∧
      (newCode time (time - s.oldTime) s.nc).2 = none := by
  have hbase : s.nc.count ≠ noMessage → (time - s.nc.timebase).toNat ≤ 9600 := by
    intro hidle
    obtain ⟨-, hinv⟩ := hs.resolve_left hidle
    have htime := time.toNat_lt
    have hold := s.oldTime.toNat_lt
    have htimebase := s.nc.timebase.toNat_lt
    rw [UInt32.toNat_sub] at hnear hinv ⊢
    omega
  by_cases hclose : isClose (time - s.oldTime) (ncPulse * 3) epsilon = true
  · rw [newCode_startCode hclose]
    exact countsTo_startCode hm h hbase
  · have hfar := fun hboth => hclose ((isClose_startCode _).mpr hboth)
    by_cases hidle : s.nc.count = noMessage
    · rw [newCode_idle hfar hidle]
      exact ⟨.inl hidle, rfl⟩
    · have hle := h.resolve_left hidle
      by_cases hlate : 3936 ≤ (time - s.nc.timebase).toNat
      · rw [newCode_late hfar (by omega) hlate, if_neg (by omega)]
        exact ⟨.inl rfl, rfl⟩
      · rw [newCode_within hfar (by omega) (by omega)]
        exact countsTo_symbolBit hm hle

/-- So many edges of an Energenie code were heard since the last gap, the last due at `n`. -/
structure AtEnergenie (base : UInt32) (n j : Nat) (s : Rx433) : Prop where
  edge : Heard base n s.oldTime
  inv : Inv s
  reset : s.he.state = .reset
  counts : CountsTo j s.nc

variable {base : UInt32}

theorem hePulse_energenie {delta : UInt32} (hlo : 756 ≤ delta.toNat) (hhi : delta.toNat ≤ 944) :
    hePulse delta ∈ [HePulse.short, .other] := by
  have hbin : delta.toNat / 128 = 5 ∨ delta.toNat / 128 = 6 ∨ delta.toNat / 128 = 7 := by omega
  rw [hePulse_eq]
  generalize delta.toNat / 128 = q at hbin
  rcases hbin with rfl | rfl | rfl <;> decide

theorem homeEasy_reset {pulse : HePulse} (hpulse : pulse ∈ [HePulse.short, .other]) {d : HeDecoder}
    (hd : d.state = .reset) : homeEasy pulse d = (d, none) := by
  obtain ⟨state, bitCount, bitData⟩ := d
  obtain rfl : state = .reset := hd
  rcases List.mem_pair.mp hpulse with rfl | rfl <;> rfl

theorem triple_period {n j : Nat} (hj : j < 25) :
    Triple rx433Interrupt (AtEnergenie base n j) [(Heard base (n + 850), [])]
      (AtEnergenie base (n + 850) (j + 1)) := by
  refine Triple.single fun s time hs htime => ?_
  obtain ⟨hlo, hhi⟩ := hs.edge.sub_bounds htime (by omega) (by omega)
  have hhe := homeEasy_reset (@hePulse_energenie (time - s.oldTime) (by omega) (by omega)) hs.reset
  obtain ⟨hcounts, hnone⟩ := count_period hj hs.inv hs.counts
    (show (time - s.oldTime).toNat ≤ 3840 by omega)
  have hquiet := @rx433Interrupt_quiet time s (newCode time (time - s.oldTime) s.nc).1
    (by rw [hhe]) (Prod.ext rfl hnone)
  have hinv := inv_interrupt time s hs.inv
  rw [hquiet] at hinv ⊢
  refine ⟨⟨htime, hinv, ?_, hcounts⟩, rfl⟩
  rw [hhe]
  exact hs.reset

theorem triple_energenieGap {n : Nat} :
    Triple rx433Interrupt (AtEnergenie base n 24) [(Heard base (n + 6800), [])]
      (AtEnergenie base (n + 6800) 0) := by
  refine Triple.single fun s time hs htime => ?_
  obtain ⟨hlo, hhi⟩ := hs.edge.sub_bounds htime (by omega) (by omega)
  have hgap := @interrupt_gap s hs.inv time (by omega) (by omega)
  have hinv := inv_interrupt time s hs.inv
  rw [hs.counts.flush (by decide)] at hgap
  rw [hgap] at hinv ⊢
  exact ⟨⟨htime, hinv, rfl, .inl rfl⟩, rfl⟩

/-- The edges of an attempt after its first. -/
def energenieInner (n : Nat) : List Nat := (List.range 24).map fun j => n + 850 * (j + 1)

theorem energenieEdges_inner (n : Nat) : energenieEdges n = n :: energenieInner n := rfl

theorem quietly_flatMap (edges : Nat → List Nat) (count : Nat) :
    quietly base ((List.range count).flatMap edges)
      = (List.range count).flatMap fun i => quietly base (edges i) := List.map_flatMap ..

theorem triple_energenieAttempt (base : UInt32) (n : Nat) :
    Triple rx433Interrupt (AtEnergenie base n 0) (quietly base (energenieInner n))
      (AtEnergenie base (n + 20400) 24) := by
  have hscript : quietly base (energenieInner n)
      = (List.range 24).flatMap fun j => [(Heard base (n + 850 * j + 850), [])] := rfl
  rw [hscript]
  refine Triple.flatMap_range (P := fun j => AtEnergenie base (n + 850 * j) j) fun j hj => ?_
  rw [Nat.mul_succ, ← Nat.add_assoc]
  exact triple_period (by omega)

theorem triple_energenieMore (base : UInt32) (more : Nat) :
    Triple rx433Interrupt (AtEnergenie base (27200 * 0 + 20400) 24)
      (quietly base ((List.range more).flatMap fun a => energenieEdges (27200 * (a + 1))))
      (AtEnergenie base (27200 * more + 20400) 24) := by
  rw [quietly_flatMap]
  refine Triple.flatMap_range (P := fun a => AtEnergenie base (27200 * a + 20400) 24)
    fun a _ => ?_
  rw [Nat.mul_succ, energenieEdges_inner]
  exact (triple_energenieGap (n := 27200 * a + 20400)).cons
    (triple_energenieAttempt base (27200 * a + 27200))

/-- **An Energenie code, from one broadcast to the next**: nothing is made of it. -/
theorem hear_energenie (txCode more : Nat) {s : Rx433} (hs : Settled s) {start first : UInt32}
    {times : List UInt32}
    (hedges : List.Forall₂ (fun n time => Jittered (start + UInt32.ofNat n) time)
      (risingEdges 0 false (writeEnergenie txCode (more + 1))) (first :: times))
    (hlo : 4096 ≤ (first - s.oldTime).toNat) (hhi : (first - s.oldTime).toNat < 2 ^ 31) :
    (hear (first :: times) s).2.flatten = [] ∧ Settled (hear (first :: times) s).1 := by
  have hheard : List.Forall₂ (Heard (start - 47))
      (risingEdges 0 false (writeEnergenie txCode (more + 1))) (first :: times) :=
    hedges.imp fun _ _ h => h.heard
  rw [risingEdges_writeEnergenie, List.range_succ_eq_map, List.flatMap_cons, List.flatMap_map,
    Nat.mul_zero, energenieEdges_inner, List.cons_append] at hheard
  obtain ⟨hfirst, hrest⟩ := List.forall₂_cons.mp hheard
  have hgap := interrupt_gap hs.inv hlo hhi
  have hinv := inv_interrupt first s hs.inv
  have hbefore : AtEnergenie (start - 47) 0 0 (rx433Interrupt first s).1 := by
    rw [hgap] at hinv ⊢
    exact ⟨hfirst, hinv, rfl, .inl rfl⟩
  have hfollows : Follows (quietly (start - 47) (energenieInner 0)
      ++ quietly (start - 47) ((List.range more).flatMap fun a => energenieEdges (27200 * (a + 1))))
      times := by
    refine Follows.of_hears ?_ hrest
    rw [List.map_append, hears_quietly, hears_quietly, List.map_append]
  obtain ⟨hat, hsaid⟩ := ((triple_energenieAttempt (start - 47) 0).append
    (triple_energenieMore (start - 47) more)) _ _ hbefore hfollows
  rw [hear, run_cons]
  refine ⟨?_, inv_hear (first :: times) hs.inv, hat.counts.flush (by decide)⟩
  rw [hsaid, hgap, hs.flushed, List.map_append, length_quietly, length_quietly,
    List.flatten_cons, List.flatten_append, List.flatten_replicate_nil, List.flatten_replicate_nil]
  rfl

/-! ## One broadcast after another -/

/-- What the clock makes of a command. -/
def publications : AbstractData → List Publication
  | .ncData msg => [.newCode ((AbstractData.symbols msg).map fiveBits)]
  | .heData number =>
    if IsEnergenie number then [] else List.replicate 10 (.homeEasy (UInt32.ofNat number))

/-- The edges of commands that are broadcast one after another, the last edge before them having
    been heard at `before`. -/
inductive OnAir : UInt32 → List AbstractData → List UInt32 → Prop
  | nil (before : UInt32) : OnAir before [] []
  | cons {before start first : UInt32} {data : AbstractData} {sent : List AbstractData}
      {times later : List UInt32}
      (hedges : List.Forall₂ (fun n time => Jittered (start + UInt32.ofNat n) time)
        (risingEdges 0 false data.deviceSend) (first :: times))
      (hlo : 4096 ≤ (first - before).toNat) (hhi : (first - before).toNat < 2 ^ 31)
      (hlater : OnAir ((first :: times).getLastD before) sent later) :
      OnAir before (data :: sent) (first :: times ++ later)

theorem hear_data (data : AbstractData) {s : Rx433} (hs : Settled s) {start first : UInt32}
    {times : List UInt32}
    (hedges : List.Forall₂ (fun n time => Jittered (start + UInt32.ofNat n) time)
      (risingEdges 0 false data.deviceSend) (first :: times))
    (hlo : 4096 ≤ (first - s.oldTime).toNat) (hhi : (first - s.oldTime).toNat < 2 ^ 31) :
    (hear (first :: times) s).2.flatten = publications data ∧
      Settled (hear (first :: times) s).1 := by
  cases data with
  | ncData msg =>
    obtain ⟨before, last, hlast⟩ : ∃ before last, first :: times = before ++ [last] :=
      (List.eq_nil_or_concat' _).resolve_left (List.cons_ne_nil first times)
    obtain ⟨hquiet, hnow, hsettled⟩ :=
      hear_newCode (AbstractData.symbols msg) hs hedges hlast hlo hhi
    refine ⟨?_, hsettled⟩
    rw [hlast, hear, run_append, run_cons, run_nil, List.flatten_append]
    exact congrArg₂ (· ++ ·) hquiet (congrArg (fun said => [said].flatten) hnow)
  | heData number =>
    rw [AbstractData.deviceSend] at hedges
    rw [publications]
    split
    · next henergenie =>
      rw [if_pos henergenie] at hedges
      exact hear_energenie _ 9 hs hedges hlo hhi
    · next henergenie =>
      rw [if_neg henergenie] at hedges
      exact hear_homeEasy _ 9 hs hedges hlo hhi

/-- **The air is transparent.** Of commands that are broadcast one after another the handler
    publishes what it would publish of each alone. -/
theorem hear_onAir {before : UInt32} {sent : List AbstractData} {times : List UInt32}
    (hair : OnAir before sent times) {s : Rx433} (hs : Settled s) (hbefore : s.oldTime = before) :
    (hear times s).2.flatten = sent.flatMap publications ∧ Settled (hear times s).1 := by
  induction hair generalizing s with
  | nil => exact ⟨rfl, hs⟩
  | @cons before start first data sent times later hedges hlo hhi _ ih =>
    subst hbefore
    obtain ⟨hsaid, hsettled⟩ := hear_data data hs hedges hlo hhi
    obtain ⟨hsaid', hsettled'⟩ := ih hsettled (oldTime_hear (first :: times) s)
    rw [hear, run_append, List.flatten_append, List.flatMap_cons]
    exact ⟨congrArg₂ (· ++ ·) hsaid hsaid', hsettled'⟩

/-- An Energenie code and a Home Easy code, 35 milliseconds apart. -/
theorem hear_onAir_sample :
    (hear ((risingEdges 0 false (AbstractData.heData 0xf000001f).deviceSend).map
          (fun n => 5000 + UInt32.ofNat n)
        ++ (risingEdges 0 false (AbstractData.heData 0x04022b83).deviceSend).map
          (fun n => 305000 + UInt32.ofNat n)) initial).2.flatten
      = List.replicate 10 (.homeEasy 0x04022b83) := by
  have hair : OnAir 0 [.heData 0xf000001f, .heData 0x04022b83]
      ((risingEdges 0 false (AbstractData.heData 0xf000001f).deviceSend).map
          (fun n => 5000 + UInt32.ofNat n)
        ++ (risingEdges 0 false (AbstractData.heData 0x04022b83).deviceSend).map
          (fun n => 305000 + UInt32.ofNat n)) := by
    have hfirst := jittered_exact 5000
      (risingEdges 0 false (AbstractData.heData 0xf000001f).deviceSend)
    have hsecond := jittered_exact 305000
      (risingEdges 0 false (AbstractData.heData 0x04022b83).deviceSend)
    have henergenie : risingEdges 0 false (AbstractData.heData 0xf000001f).deviceSend
        = (List.range 10).flatMap fun a => energenieEdges (27200 * a) :=
      risingEdges_writeEnergenie _ 10
    have hhomeEasy : risingEdges 0 false (AbstractData.heData 0x04022b83).deviceSend
        = (List.range 10).flatMap fun a => heEdges (80290 * a) 0x04022b83 :=
      risingEdges_writeHe _ 10
    obtain ⟨times, htimes, hlast⟩ : ∃ times,
        (risingEdges 0 false (AbstractData.heData 0xf000001f).deviceSend).map
          (fun n => 5000 + UInt32.ofNat n) = 5000 :: times ∧
        (5000 :: times).getLastD 0 = 270200 := by
      rw [henergenie]
      exact ⟨_, rfl, by decide +kernel⟩
    obtain ⟨times', htimes'⟩ : ∃ times',
        (risingEdges 0 false (AbstractData.heData 0x04022b83).deviceSend).map
          (fun n => 305000 + UInt32.ofNat n) = 305000 :: times' := by
      rw [hhomeEasy]
      exact ⟨_, rfl⟩
    rw [htimes] at hfirst ⊢
    rw [htimes'] at hsecond ⊢
    rw [← List.append_nil (305000 :: times')]
    refine .cons hfirst (by decide) (by decide) ?_
    rw [hlast]
    exact .cons hsecond (by decide) (by decide) (.nil _)
  exact (hear_onAir hair settled_initial rfl).1

/-! ## New codes among the rest -/

def Publication.newCode? : Publication → Option NcCode
  | .newCode code => some code
  | .homeEasy _ => none

def Publication.homeEasy? : Publication → Option UInt32
  | .homeEasy code => some code
  | .newCode _ => none

/-- The new code that a command is, if it is one. -/
def newCodeOf : AbstractData → Option NcCode
  | .ncData msg => some ((AbstractData.symbols msg).map fiveBits)
  | .heData _ => none

theorem publications_newCode (data : AbstractData) :
    (publications data).filterMap Publication.newCode? = (newCodeOf data).toList := by
  cases data with
  | ncData msg => rfl
  | heData number =>
    rw [publications]
    split <;> rfl

/-- **A new code is published with the last edge of a broadcast**, if at all. -/
theorem newCodes_last (data : AbstractData) {s : Rx433} (hs : Settled s)
    {start first last : UInt32} {times before : List UInt32}
    (hedges : List.Forall₂ (fun n time => Jittered (start + UInt32.ofNat n) time)
      (risingEdges 0 false data.deviceSend) (first :: times))
    (hlast : first :: times = before ++ [last])
    (hlo : 4096 ≤ (first - s.oldTime).toNat) (hhi : (first - s.oldTime).toNat < 2 ^ 31) :
    (hear before s).2.flatten.filterMap Publication.newCode? = [] ∧
      (rx433Interrupt last (hear before s).1).2.filterMap Publication.newCode?
        = (newCodeOf data).toList := by
  cases data with
  | ncData msg =>
    obtain ⟨hquiet, hnow, -⟩ := hear_newCode (AbstractData.symbols msg) hs hedges hlast hlo hhi
    rw [hquiet, hnow]
    exact ⟨rfl, rfl⟩
  | heData number =>
    obtain ⟨hsaid, -⟩ := hear_data (.heData number) hs hedges hlo hhi
    have hnone := publications_newCode (.heData number)
    rw [← hsaid, hlast, hear, run_append, run_cons, run_nil, List.flatten_append,
      List.filterMap_append] at hnone
    obtain ⟨hbefore, hnow⟩ := List.append_eq_nil_iff.mp hnone
    refine ⟨hbefore, ?_⟩
    rwa [List.flatten_cons, List.flatten_nil, List.append_nil] at hnow

end Rx433
end CpeClock
