import CpeClock.LostSymbols

/-!
# Symbols lost at the ends of a new code

Symbols lost at the beginning are not missed: the first symbol that is heard is taken for symbol 0.
Symbols lost at the end leave the message unfinished, and the next edge after a gap ends it, since
`MAX_INCOMPLETE_SKIP` allows for five symbols. Where the last stop edge was lost as well the last
symbol is not counted, so that four symbols may be lost in all (`flush_kept`).
-/

namespace CpeClock
namespace Rx433

open Lib Mealy Tx433

/-! ## What is heard -/

/-- The edges that are left when those of the first `a` symbols and of the last `b` are missing,
    with the stop edge before the latter and everything after it. -/
def withoutEnds (a b : Nat) (edges : List Nat) : List Nat :=
  edges.filter fun t => 3840 * a ≤ t ∧ (b = 0 ∨ t < 3840 * (31 - b))

def keptSymbol (message : NcCode) (a i : Nat) : UInt8 := symbolAt message (a + i)

/-- The edges of `count + 1` symbols after the first of them, which is due at `n`, without the last
    stop edge. -/
def edgesUpTo (n : Nat) (word : Nat → UInt8) (count : Nat) : List Nat :=
  (List.range count).flatMap (fun i =>
      symbolRest (n + 3840 * i) (word i).toNat ++ [n + 3840 * (i + 1)])
    ++ symbolRest (n + 3840 * count) (word count).toNat

def keptRest (message : NcCode) (a b : Nat) : List Nat :=
  if b = 0 then edgesAfter (symbolAt message) a
  else edgesUpTo (3840 * a) (keptSymbol message a) (30 - a - b)

/-- **The edges that are heard** are those of the symbols kept. -/
theorem withoutEnds_writeNc {a b : Nat} (hab : a + b ≤ 4) (message : NcCode) :
    withoutEnds a b (risingEdges 0 false (writeNc message))
      = 3840 * a :: keptRest message a b := by
  have hkept : (List.range 31).filter (fun i => a ≤ i ∧ i < 31 - b)
      = List.range' a (31 - a - b) := by
    have hall : ∀ a < 5, ∀ b < 5, (List.range 31).filter (fun i => a ≤ i ∧ i < 31 - b)
        = List.range' a (31 - a - b) := by decide
    exact hall a (by omega) b (by omega)
  have hsymbols : withoutEnds a b ((List.range 31).flatMap
        fun i => symbolEdges (3840 * i) (symbolAt message i).toNat)
      = (List.range' a (31 - a - b)).flatMap
        fun i => symbolEdges (3840 * i) (symbolAt message i).toNat := by
    rw [← hkept]
    refine filter_symbolEdges (fun i => (symbolAt message i).toNat) fun i hi t hlo hhi => ?_
    have hi31 := List.mem_range.mp hi
    rw [decide_eq_decide]
    omega
  have hend : withoutEnds a b [3840 * 31] = if b = 0 then [3840 * 31] else [] := by
    unfold withoutEnds
    split
    · exact List.filter_eq_self.mpr fun t ht => by
        rw [List.mem_singleton.mp ht, decide_eq_true_eq]
        omega
    · refine List.filter_eq_nil_iff.mpr fun t ht => ?_
      rw [List.mem_singleton.mp ht, decide_eq_true_eq]
      omega
  rw [risingEdges_symbolEdges, withoutEnds, List.filter_append, ← withoutEnds, ← withoutEnds,
    hsymbols, hend]
  unfold keptRest
  split
  · next hb =>
    subst hb
    exact edges_from message (by omega)
  · next hb =>
    have hregroup := flatMap_regroup (fun i => 3840 * a + 3840 * i)
      (fun i => symbolRest (3840 * a + 3840 * i) (keptSymbol message a i).toNat) (30 - a - b)
    have hcount : 31 - a - b = 30 - a - b + 1 := by omega
    rw [Nat.mul_zero, Nat.add_zero] at hregroup
    rw [List.append_nil, edgesUpTo, ← List.cons_append, ← hregroup, hcount,
      List.range'_eq_map_range, List.flatMap_map, List.range_succ, List.flatMap_append,
      List.flatMap_singleton, List.append_assoc]
    simp only [Nat.mul_add]
    rfl

/-! ## What is published -/

/-- The word that should be published: the symbols kept, and zeros for those that were lost. -/
def keptWord (message : NcCode) (a b : Nat) : NcCode :=
  Vector.ofFn fun i => if i.val < 31 - a - b then keptSymbol message a i else 0

theorem partialWord_keptSymbol (message : NcCode) (a b : Nat) :
    partialWord (keptSymbol message a) (31 - a - b) 0 = keptWord message a b := by
  apply Vector.ext
  intro i hi
  rw [partialWord_getElem _ _ 0 hi, keptWord, Vector.getElem_ofFn]
  split
  · rfl
  · split <;> rfl

variable {base : UInt32}

/-- A message of which the symbols kept are in the buffer is ended by the next edge after a gap. -/
theorem flush_kept {message : NcCode} (a b : Nat) {s : Rx433} {time : UInt32} {count : Nat}
    (hlo : 26 ≤ count) (hhi : count < 31)
    (hnc : s.nc = ⟨partialWord (keptSymbol message a) (31 - a - b) 0, time, UInt32.ofNat count⟩) :
    flush s.nc = [.newCode (keptWord message a b)] := by
  rw [flush, hnc]
  dsimp only
  rw [count_toNat hhi, if_pos ⟨hlo, hhi⟩, partialWord_keptSymbol]

/-- **The rounds of a transmission with its ends missing**, after its first edge. -/
theorem triple_kept {message : NcCode} (hfive : Ncrs.FiveBit message) {a b : Nat}
    (hab : 1 ≤ a + b) (hab4 : a + b ≤ 4) :
    Triple rx433Interrupt (AtFirst base (keptSymbol message a) 0 (3840 * a))
      (quietly base (keptRest message a b))
      (fun s => flush s.nc = [.newCode (keptWord message a b)]) := by
  have hsymbol : ∀ i, (keptSymbol message a i).toNat < 32 := fun i => symbolAt_lt hfive (a + i)
  unfold keptRest
  split
  · -- The last stop edge was heard: all symbols are counted.
    next hb =>
    subst hb
    have hcount : 31 - a < 31 := by omega
    refine (triple_symbols base hcount (fun i _ => hsymbol i) (3840 * a)).weaken
      (fun _ hs => hs) fun s hs => ?_
    obtain ⟨m, time, -, -, hnc⟩ := hs.during (by omega)
    exact flush_kept a 0 (by omega) hcount hnc
  · -- It was not: the last symbol is in the buffer, but is not counted.
    next hb =>
    have hcount : 30 - a - b < 31 := by omega
    have hsymbols := triple_symbols base hcount (fun i _ => hsymbol i) (3840 * a)
    have hrest := triple_symbolRest base (keptSymbol message a)
      (n := 3840 * a + 3840 * (30 - a - b)) hcount
    have h := hsymbols.append hrest
    unfold quietly at h
    rw [← List.map_append] at h
    refine h.weaken (fun _ hs => hs) fun s ⟨i, hs⟩ => ?_
    obtain ⟨time, -, hnc⟩ := hs.during
    rw [partialWord_symbol (hsymbol _), show 30 - a - b + 1 = 31 - a - b by omega] at hnc
    exact flush_kept a b (by omega) hcount hnc

/-- **Loss at either end.** Nothing is published while what is left of the transmission is heard;
    the next edge after a gap publishes the symbols kept, with zeros for those lost; and if a
    complete transmission begins with that edge, it is received as well. -/
theorem ends_lost_received {message : NcCode} (hfive : Ncrs.FiveBit message) {a b : Nat}
    (hab : 1 ≤ a + b) (hab4 : a + b ≤ 4) {s : Rx433} (hidle : s.nc.count = noMessage)
    {start first : UInt32} {times : List UInt32}
    (hedges : List.Forall₂ (fun n time => Jittered (start + UInt32.ofNat n) time)
      (withoutEnds a b (risingEdges 0 false (writeNc message))) (first :: times))
    (hlo : 4096 ≤ (first - s.oldTime).toNat) (hhi : (first - s.oldTime).toNat < 2 ^ 31) :
    (hear (first :: times) s).2 = List.replicate (times.length + 1) [] ∧
      ∀ next : UInt32,
        4096 ≤ (next - (hear (first :: times) s).1.oldTime).toNat →
        (next - (hear (first :: times) s).1.oldTime).toNat < 2 ^ 31 →
        (rx433Interrupt next (hear (first :: times) s).1).2 = [.newCode (keptWord message a b)] ∧
          ∀ (message' : NcCode) (start' : UInt32) (times' : List UInt32),
            Ncrs.FiveBit message' →
            List.Forall₂ (fun n time => Jittered (start' + UInt32.ofNat n) time)
              (risingEdges 0 false (writeNc message')) (next :: times') →
            (hear (next :: times') (hear (first :: times) s).1).2
              = [.newCode (keptWord message a b)]
                :: (List.replicate (times'.length - 1) [] ++ [[.newCode message']]) := by
  have hheard : List.Forall₂ (Heard (start - 47)) (3840 * a :: keptRest message a b)
      (first :: times) := by
    rw [← withoutEnds_writeNc hab4]
    exact hedges.imp fun _ _ h => h.heard
  obtain ⟨hfirst, hrest⟩ := List.forall₂_cons.mp hheard
  have hinv : Inv s := .inl hidle
  have hquiet : flush s.nc = [] := by
    rw [flush, hidle, if_neg (by decide)]
  obtain ⟨hflush, hat⟩ := interrupt_first (keptSymbol message a) hinv hlo hhi hfirst
  have hfollows : Follows (quietly (start - 47) (keptRest message a b)) times :=
    Follows.of_hears (hears_quietly _ _) hrest
  obtain ⟨hkept, hsaid⟩ := triple_kept hfive hab hab4 _ _ hat hfollows
  have hlength : (keptRest message a b).length = times.length := hrest.length_eq
  rw [length_quietly, hlength] at hsaid
  have hend : flush (hear (first :: times) s).1.nc = [.newCode (keptWord message a b)] := hkept
  have hinv' : Inv (hear (first :: times) s).1 := run_inv inv_interrupt _ hinv
  refine ⟨?_, fun next hlo' hhi' => ⟨?_, fun message' start' times' hfive' hedges' => ?_⟩⟩
  · rw [hear, run_cons, hflush, hquiet, hsaid]
    rfl
  · rw [interrupt_gap hinv' hlo' hhi']
    exact hend
  · rw [hear_message hfive' hinv' hedges' hlo' hhi', hend]

/-- The symbols 1 to 28 of the sample are published when symbol 0 and the last two are lost. -/
theorem ends_lost_received_sample :
    ∃ first times, (withoutEnds 1 2 (risingEdges 0 false (writeNc sampleCode))).map
        (fun n => 5000 + UInt32.ofNat n) = first :: times ∧
      (hear (first :: times) initial).2 = List.replicate (times.length + 1) [] ∧
      (rx433Interrupt ((hear (first :: times) initial).1.oldTime + 5000)
        (hear (first :: times) initial).1).2 = [.newCode (keptWord sampleCode 1 2)] := by
  have hedges := jittered_exact 5000 (withoutEnds 1 2 (risingEdges 0 false (writeNc sampleCode)))
  generalize htimes : (withoutEnds 1 2 (risingEdges 0 false (writeNc sampleCode))).map
    (fun n => 5000 + UInt32.ofNat n) = times at hedges ⊢
  rw [withoutEnds_writeNc (by decide), List.map_cons] at htimes
  subst htimes
  obtain ⟨hquiet, hnext⟩ := @ends_lost_received sampleCode (by decide) 1 2 (by decide) (by decide)
    initial rfl 5000 _ _ hedges (by decide) (by decide)
  have hgap : ∀ t : UInt32, t + 5000 - t = 5000 := fun t => by
    rw [UInt32.add_comm, UInt32.add_sub_cancel]
  refine ⟨_, _, rfl, hquiet, (hnext _ ?_ ?_).1⟩
  · rw [hgap]
    decide
  · rw [hgap]
    decide

end Rx433
end CpeClock
