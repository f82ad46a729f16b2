import CpeClock.NewCodeLink

/-!
# Lost symbols in the middle of a new code

After a block of lost symbols the first edge that is heard is the first of a symbol, and its
distance from the last edge is not that of a start code. So it never gets to the loop "Skipped any
symbols?": it takes the branch for an edge that is too late for its symbol, which ends the message
if at most five symbols are missing and gives it up otherwise. The second edge then begins a new
message with what is left, which is too short to be published.
-/

namespace CpeClock
namespace Rx433

open Lib Mealy Tx433

/-! ## What is heard -/

/-- The edges that are left when those of symbols `p` to `q - 1` are missing. -/
def withoutSymbols (p q : Nat) (edges : List Nat) : List Nat :=
  edges.filter fun t => t < 3840 * p ∨ 3840 * q ≤ t

theorem withoutSymbols_append (p q : Nat) (edges edges' : List Nat) :
    withoutSymbols p q (edges ++ edges')
      = withoutSymbols p q edges ++ withoutSymbols p q edges' := List.filter_append ..

theorem symbolEdges_bounds {n symbol t : Nat} (h : t ∈ symbolEdges n symbol) :
    n ≤ t ∧ t < n + 3840 := by
  rcases List.mem_cons.mp h with rfl | h
  · omega
  rcases List.mem_cons.mp h with rfl | h
  · omega
  · obtain ⟨b, hb, rfl⟩ := List.mem_map.mp h
    have hrange := List.mem_range'_1.mp (List.mem_filter.mp hb).1
    omega

/-- A symbol is heard whole or not at all, if the times are told apart only by their symbol. -/
theorem filter_symbolEdges {heard : Nat → Bool} {keep : Nat → Bool} (symbols : Nat → Nat)
    {is : List Nat}
    (h : ∀ i ∈ is, ∀ t, 3840 * i ≤ t → t < 3840 * i + 3840 → heard t = keep i) :
    (is.flatMap fun i => symbolEdges (3840 * i) (symbols i)).filter heard
      = (is.filter keep).flatMap fun i => symbolEdges (3840 * i) (symbols i) := by
  induction is with
  | nil => rfl
  | cons i is ih =>
    have hsymbol : ∀ t ∈ symbolEdges (3840 * i) (symbols i), heard t = keep i := fun t ht =>
      h i List.mem_cons_self t (symbolEdges_bounds ht).1 (symbolEdges_bounds ht).2
    rw [List.flatMap_cons, List.filter_append, ih fun j hj => h j (List.mem_cons_of_mem i hj)]
    by_cases hkeep : keep i = true
    · rw [List.filter_cons_of_pos hkeep, List.flatMap_cons,
        List.filter_eq_self.mpr fun t ht => (hsymbol t ht).trans hkeep]
    · rw [List.filter_cons_of_neg hkeep,
        List.filter_eq_nil_iff.mpr fun t ht => (hsymbol t ht).symm ▸ hkeep, List.nil_append]

theorem withoutSymbols_symbols (p q : Nat) (symbols : Nat → Nat) (is : List Nat) :
    withoutSymbols p q (is.flatMap fun i => symbolEdges (3840 * i) (symbols i))
      = (is.filter fun i => i < p ∨ q ≤ i).flatMap fun i => symbolEdges (3840 * i) (symbols i) := by
  refine filter_symbolEdges symbols fun i _ t hlo hhi => ?_
  rw [decide_eq_decide]
  omega

def edgesBefore (word : Nat → UInt8) (k : Nat) : List Nat :=
  (List.range k).flatMap (fun i =>
      symbolRest (0 + 3840 * i) (word i).toNat ++ [0 + 3840 * (i + 1)])
    ++ symbolRest (0 + 3840 * k) (word k).toNat

def edgesAfter (word : Nat → UInt8) (q : Nat) : List Nat :=
  (List.range (31 - q)).flatMap fun i =>
    symbolRest (3840 * q + 3840 * i) (word (q + i)).toNat ++ [3840 * q + 3840 * (i + 1)]

theorem edges_from (message : NcCode) {q : Nat} (hq : q ≤ 31) :
    (List.range' q (31 - q)).flatMap
        (fun i => symbolEdges (3840 * i) (symbolAt message i).toNat) ++ [3840 * 31]
      = 3840 * q :: edgesAfter (symbolAt message) q := by
  have hregroup := flatMap_regroup (fun i => 3840 * q + 3840 * i)
    (fun i => symbolRest (3840 * q + 3840 * i) (symbolAt message (q + i)).toNat) (31 - q)
  have htime : 3840 * q + 3840 * (31 - q) = 3840 * 31 := by omega
  rw [htime, Nat.mul_zero, Nat.add_zero] at hregroup
  rw [edgesAfter, ← hregroup, List.range'_eq_map_range, List.flatMap_map]
  simp only [Nat.mul_add]
  rfl

theorem risingEdges_symbolEdges (message : NcCode) :
    risingEdges 0 false (writeNc message)
      = (List.range 31).flatMap (fun i => symbolEdges (3840 * i) (symbolAt message i).toNat)
        ++ [3840 * 31] := by
  have h := risingEdges_writeNc 0 message
  simp only [Nat.zero_add] at h
  exact h

/-- **The edges that are heard**: those of the symbols before the block, and those after. -/
theorem withoutSymbols_writeNc {k q : Nat} (hkq : k + 1 < q) (hq : q ≤ 30) (message : NcCode) :
    withoutSymbols (k + 1) q (risingEdges 0 false (writeNc message))
      = 0 :: (edgesBefore (symbolAt message) k
          ++ (3840 * q :: edgesAfter (symbolAt message) q)) := by
  -- The symbols before the block and after it.
  have hsplit : (List.range 31).filter (fun i => i < k + 1 ∨ q ≤ i)
      = List.range (k + 1) ++ List.range' q (31 - q) := by
    have hrange : List.range 31 = List.range (k + 1)
        ++ (List.range' (k + 1) (q - (k + 1)) ++ List.range' q (31 - q)) := by
      have hafter := List.range'_append_1 (s := k + 1) (m := q - (k + 1)) (n := 31 - q)
      have hall := List.range'_append_1 (s := 0) (m := k + 1) (n := 31 - (k + 1))
      rw [show k + 1 + (q - (k + 1)) = q by omega,
        show q - (k + 1) + (31 - q) = 31 - (k + 1) by omega] at hafter
      rw [Nat.zero_add, show k + 1 + (31 - (k + 1)) = 31 by omega] at hall
      rw [hafter, List.range_eq_range', List.range_eq_range', hall]
    rw [hrange, List.filter_append, List.filter_append, List.filter_eq_self.mpr,
      List.filter_eq_nil_iff.mpr, List.filter_eq_self.mpr, List.nil_append]
    · intro i hi
      have hmem := List.mem_range'_1.mp hi
      exact decide_eq_true (.inr hmem.1)
    · intro i hi
      have hmem := List.mem_range'_1.mp hi
      rw [decide_eq_true_eq]
      omega
    · intro i hi
      exact decide_eq_true (.inl (List.mem_range.mp hi))
  have hend : withoutSymbols (k + 1) q [3840 * 31] = [3840 * 31] :=
    List.filter_eq_self.mpr fun t ht => by
      rw [List.mem_singleton.mp ht, decide_eq_true_eq]
      omega
  have hfirst : (List.range (k + 1)).flatMap
        (fun i => symbolEdges (3840 * i) (symbolAt message i).toNat)
      = 0 :: edgesBefore (symbolAt message) k := by
    have hregroup := flatMap_regroup (fun i => 0 + 3840 * i)
      (fun i => symbolRest (0 + 3840 * i) (symbolAt message i).toNat) k
    rw [edgesBefore, ← List.cons_append]
    simp only [Nat.zero_add, Nat.mul_zero] at hregroup ⊢
    rw [← hregroup, List.range_succ, List.flatMap_append, List.flatMap_singleton,
      List.append_assoc]
    rfl
  rw [risingEdges_symbolEdges, withoutSymbols_append, withoutSymbols_symbols, hsplit, hend,
    List.flatMap_append, List.append_assoc, edges_from message (by omega), hfirst]
  rfl

/-! ## What is published -/

variable {base : UInt32} {word word' : Nat → UInt8}

/-- What the first edge after the block publishes, when `k` symbols and the bits of one more were
    heard before it. -/
def gapSays (word : Nat → UInt8) (k : Nat) : List Publication :=
  if 26 ≤ k then [.newCode (partialWord word k 5)] else []

/-- **The first edge after the block**: the message is ended or given up. -/
theorem triple_gap (base : UInt32) (word word' : Nat → UInt8) {k n m : Nat} (hk : k < 31)
    (hlo : n + 7680 ≤ m) (hhi : m < n + 2 ^ 30) :
    Triple rx433Interrupt (fun s => (∃ i, AtSlot base word k n 5 i s) ∧ Inv s)
      [(Heard base m, gapSays word k)] (AtFirst base word' 0 m) := by
  refine Triple.single fun s time ⟨⟨i, hs⟩, hinv⟩ htime => ?_
  have hi := hs.slot
  obtain ⟨hlo', hhi'⟩ := hs.edge.sub_bounds htime (by omega) (by omega)
  obtain ⟨timebase, -, hnc⟩ := hs.during
  have hcount : s.nc.count.toNat = k := by
    rw [hnc]
    exact count_toNat hk
  rw [interrupt_gap hinv (by omega) (by omega)]
  refine ⟨⟨htime, .inl rfl, fun _ => rfl, fun h => absurd h (Nat.lt_irrefl 0)⟩, ?_⟩
  unfold flush gapSays
  rw [hcount, hnc]
  simp only [hk, and_true]

/-- **The rounds of a transmission with a block missing**, after its first edge. -/
theorem triple_lost {message : NcCode} (hfive : Ncrs.FiveBit message) {k q : Nat} (hkq : k + 1 < q)
    (hq : q ≤ 30) :
    Triple rx433Interrupt (fun s => AtFirst base (symbolAt message) 0 0 s ∧ Inv s)
      (quietly base (edgesBefore (symbolAt message) k)
        ++ ((Heard base (3840 * q), gapSays (symbolAt message) k)
          :: quietly base (edgesAfter (symbolAt message) q))) (fun _ => True) := by
  have hk : k < 31 := by omega
  have hrest31 : 31 - q < 31 := by omega
  have hsymbols := triple_symbols base hk (fun i _ => symbolAt_lt hfive i) 0
  have hrest := triple_symbolRest base (symbolAt message) (n := 0 + 3840 * k) hk
  have hbefore := (hsymbols.append hrest).and_inv inv_interrupt
  have hgap := triple_gap base (symbolAt message) (fun i => symbolAt message (q + i))
    (n := 0 + 3840 * k) (m := 3840 * q) hk (by omega) (by omega)
  have hafter := triple_symbols base hrest31 (fun i _ => symbolAt_lt hfive (q + i)) (3840 * q)
  have h := hbefore.append (hgap.cons hafter)
  unfold quietly at h ⊢
  rw [← List.map_append] at h
  exact h.weaken (fun _ hs => hs) fun _ _ => trivial

/-- The word that should be published: zeros where symbols were lost. -/
def lostWord (message : NcCode) (p q : Nat) : NcCode :=
  Vector.ofFn fun i => if p ≤ i.val ∧ i.val < q then 0 else symbolAt message i

theorem partialWord_eq_lostWord_iff {message : NcCode} {p q : Nat} (hpq : p < q) :
    partialWord (symbolAt message) p 0 = lostWord message p q
      ↔ ∀ i : Fin 31, q ≤ i.val → message[i] = 0 := by
  have hlost : ∀ i : Fin 31, (lostWord message p q)[i.val]
      = if p ≤ i.val ∧ i.val < q then 0 else message[i] := by
    intro i
    have hsymbol : symbolAt message i = message[i] := symbolAt_eq message i.isLt
    rw [← hsymbol]
    exact Vector.getElem_ofFn ..
  constructor
  · intro h i hi
    have hi' : (partialWord (symbolAt message) p 0)[i.val] = (lostWord message p q)[i.val] :=
      congrArg (fun code : NcCode => code[i.val]) h
    rw [partialWord_getElem _ p 0 i.isLt, hlost, if_neg (by omega), if_neg (by omega),
      if_neg (by omega)] at hi'
    exact hi'.symm
  · intro h
    apply Vector.ext
    intro i hi
    rw [partialWord_getElem _ p 0 hi, hlost ⟨i, hi⟩]
    dsimp only
    by_cases hip : i < p
    · rw [if_pos hip, if_neg (by omega), symbolAt_eq message hi]
      rfl
    · rw [if_neg hip]
      have hzero : (if i = p then received (symbolAt message p) 0 else 0) = 0 := by
        split <;> rfl
      rw [hzero]
      split
      · rfl
      · exact (h ⟨i, hi⟩ (by dsimp only; omega)).symm

/-- **All that is said** when a block is missing, edge by edge. -/
theorem hear_lost {message : NcCode} (hfive : Ncrs.FiveBit message) {k q : Nat}
    (hkq : k + 1 < q) (hq : q ≤ 30) {s : Rx433} (hidle : s.nc.count = noMessage)
    {start first : UInt32} {times : List UInt32}
    (hedges : (withoutSymbols (k + 1) q (risingEdges 0 false (writeNc message))).map
      (fun n => start + UInt32.ofNat n) = first :: times)
    (hlo : 4096 ≤ (first - s.oldTime).toNat) (hhi : (first - s.oldTime).toNat < 2 ^ 31) :
    (hear (first :: times) s).2
      = [] :: (List.replicate (edgesBefore (symbolAt message) k).length []
          ++ (gapSays (symbolAt message) k
            :: List.replicate (edgesAfter (symbolAt message) q).length [])) := by
  have hexact := jittered_exact start
    (withoutSymbols (k + 1) q (risingEdges 0 false (writeNc message)))
  rw [hedges, withoutSymbols_writeNc hkq hq] at hexact
  obtain ⟨hfirst, hrest⟩ := List.forall₂_cons.mp (hexact.imp fun _ _ h => h.heard)
  have hinv : Inv s := .inl hidle
  obtain ⟨hflush, hat⟩ := interrupt_first (symbolAt message) hinv hlo hhi hfirst
  have hfollows : Follows (quietly (start - 47) (edgesBefore (symbolAt message) k)
      ++ ((Heard (start - 47) (3840 * q), gapSays (symbolAt message) k)
        :: quietly (start - 47) (edgesAfter (symbolAt message) q))) times := by
    refine Follows.of_hears ?_ hrest
    rw [List.map_append, List.map_cons, hears_quietly, hears_quietly, List.map_append,
      List.map_cons]
  have hsaid := (triple_lost hfive hkq hq _ _ ⟨hat, inv_interrupt first s hinv⟩ hfollows).2
  have hquiet : flush s.nc = [] := by
    rw [flush, hidle, if_neg (by decide)]
  rw [hear, run_cons, hflush, hsaid, hquiet, List.map_append, List.map_cons, length_quietly,
    length_quietly]

/-- **Lost symbols in the middle.** The word with zeros for the lost symbols is published if and
    only if the block begins so late that the message counts as complete when it is missed, and what
    comes after it is zero as well. -/
theorem lost_symbols_published_iff {message : NcCode} (hfive : Ncrs.FiveBit message) {p q : Nat}
    (hp : 1 ≤ p) (hpq : p < q) (hq : q ≤ 30) {s : Rx433} (hidle : s.nc.count = noMessage)
    {start first : UInt32} {times : List UInt32}
    (hedges : (withoutSymbols p q (risingEdges 0 false (writeNc message))).map
      (fun n => start + UInt32.ofNat n) = first :: times)
    (hlo : 4096 ≤ (first - s.oldTime).toNat) (hhi : (first - s.oldTime).toNat < 2 ^ 31) :
    (∃ published ∈ (hear (first :: times) s).2,
        Publication.newCode (lostWord message p q) ∈ published)
      ↔ 27 ≤ p ∧ ∀ i : Fin 31, q ≤ i.val → message[i] = 0 := by
  obtain ⟨k, rfl⟩ : ∃ k, p = k + 1 := ⟨p - 1, by omega⟩
  have hgap : Publication.newCode (lostWord message (k + 1) q) ∈ gapSays (symbolAt message) k
      ↔ 27 ≤ k + 1 ∧ ∀ i : Fin 31, q ≤ i.val → message[i] = 0 := by
    rw [← partialWord_eq_lostWord_iff hpq, gapSays, partialWord_symbol (symbolAt_lt hfive k)]
    by_cases hk : 26 ≤ k
    · rw [if_pos hk, List.mem_singleton, Publication.newCode.injEq]
      exact ⟨fun h => ⟨by omega, h.symm⟩, fun h => h.2.symm⟩
    · rw [if_neg hk]
      exact ⟨fun h => absurd h List.not_mem_nil, fun h => absurd h.1 (by omega)⟩
  rw [hear_lost hfive hpq hq hidle hedges hlo hhi, ← hgap]
  constructor
  · rintro ⟨published, hmem, hcode⟩
    rcases List.mem_cons.mp hmem with rfl | hmem
    · exact absurd hcode List.not_mem_nil
    rcases List.mem_append.mp hmem with hmem | hmem
    · rw [List.eq_of_mem_replicate hmem] at hcode
      exact absurd hcode List.not_mem_nil
    rcases List.mem_cons.mp hmem with rfl | hmem
    · exact hcode
    · rw [List.eq_of_mem_replicate hmem] at hcode
      exact absurd hcode List.not_mem_nil
  · intro hcode
    exact ⟨_, List.mem_cons_of_mem _ (List.mem_append_right _ List.mem_cons_self), hcode⟩

def shortCode : NcCode := Vector.ofFn fun i => if i.val < 28 then UInt8.ofNat (i.val + 1) else 0

/-- It survives the loss of its symbols 27 and 28. -/
theorem lost_symbols_published_sample :
    ∃ published ∈ (hear ((withoutSymbols 27 29 (risingEdges 0 false (writeNc shortCode))).map
        fun n => 5000 + UInt32.ofNat n) initial).2,
      Publication.newCode (lostWord shortCode 27 29) ∈ published := by
  generalize htimes : (withoutSymbols 27 29 (risingEdges 0 false (writeNc shortCode))).map
    (fun n => 5000 + UInt32.ofNat n) = times
  have hshape := htimes
  rw [withoutSymbols_writeNc (by decide) (by decide), List.map_cons] at hshape
  subst hshape
  exact (lost_symbols_published_iff (by decide) (by decide) (by decide) (by decide) rfl htimes
    (by decide) (by decide)).mpr ⟨by decide, by decide⟩

/-- Symbols 10 and 11 of another are lost, and nothing at all is published. -/
theorem lost_symbols_not_published :
    Ncrs.FiveBit sampleCode ∧ initial.nc.count = noMessage ∧
      4096 ≤ ((5000 : UInt32) - initial.oldTime).toNat ∧
      ¬ ∃ published ∈ (hear ((withoutSymbols 10 12 (risingEdges 0 false (writeNc sampleCode))).map
          fun n => 5000 + UInt32.ofNat n) initial).2,
        Publication.newCode (lostWord sampleCode 10 12) ∈ published := by
  refine ⟨by decide, rfl, by decide, ?_⟩
  decide +kernel

end Rx433
end CpeClock
