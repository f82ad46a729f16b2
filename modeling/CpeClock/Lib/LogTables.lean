import Mathlib.Data.Finset.Card
import Mathlib.Dynamics.PeriodicPts.Lemmas

/-!
# Tables of powers and of logarithms

The two tables that are filled together while a map is applied again and again: the values in the
order in which they come, and for each value when it came. A value that comes twice has its last
place in the second table. So each table undoes the other exactly if the values are all different,
and where they have come back to the first one that says that they did not do so before
(`index_alpha_iff`).
-/

namespace CpeClock
namespace Lib
namespace LogTables

open Function

/-- One turn: the value, the values so far, and where they are. -/
def fillStep (next : Nat → Nat) (st : Nat × List Nat × List Nat) (i : Nat) :
    Nat × List Nat × List Nat :=
  (next st.1, st.2.1.set i st.1, st.2.2.set st.1 i)

/-- So many turns, from a value and two tables. -/
def fill (next : Nat → Nat) (n x : Nat) (alphaTo indexOf : List Nat) : Nat × List Nat × List Nat :=
  (List.range n).foldl (fillStep next) (x, alphaTo, indexOf)

variable {next : Nat → Nat} {n x m : Nat} {alphaTo indexOf : List Nat}

theorem fill_succ : fill next (n + 1) x alphaTo indexOf
    = fillStep next (fill next n x alphaTo indexOf) n := by
  rw [fill, List.range_succ, List.foldl_append]
  rfl

theorem fill_value : (fill next n x alphaTo indexOf).1 = next^[n] x := by
  induction n with
  | zero => rfl
  | succ n ih => rw [fill_succ, fillStep, ih, iterate_succ_apply']

theorem length_fill : (fill next n x alphaTo indexOf).2.1.length = alphaTo.length ∧
    (fill next n x alphaTo indexOf).2.2.length = indexOf.length := by
  induction n with
  | zero => exact ⟨rfl, rfl⟩
  | succ n ih => rw [fill_succ, fillStep, List.length_set, List.length_set, ih.1, ih.2]; simp

/-- The first table has the values in order. -/
theorem getD_alphaTo (hn : n ≤ alphaTo.length) {i : Nat} (hi : i < n) :
    (fill next n x alphaTo indexOf).2.1.getD i 0 = next^[i] x := by
  induction n with
  | zero => exact absurd hi (Nat.not_lt_zero i)
  | succ n ih =>
    have hlength : n < (fill next n x alphaTo indexOf).2.1.length := by
      rw [length_fill.1]
      exact hn
    rw [fill_succ, fillStep, List.getD_eq_getElem?_getD, fill_value]
    rcases Nat.lt_succ_iff_lt_or_eq.mp hi with hlt | rfl
    · rw [List.getElem?_set_ne (Nat.ne_of_gt hlt), ← List.getD_eq_getElem?_getD]
      exact ih (Nat.le_of_succ_le hn) hlt
    · rw [List.getElem?_set_self hlength]
      rfl

/-- The second table has a place of each value. -/
theorem getD_indexOf (hx : ∀ i, next^[i] x < indexOf.length) {i : Nat} (hi : i < n) :
    ∃ j < n, next^[j] x = next^[i] x ∧
      (fill next n x alphaTo indexOf).2.2.getD (next^[i] x) 0 = j := by
  induction n with
  | zero => exact absurd hi (Nat.not_lt_zero i)
  | succ n ih =>
    have hlength : next^[n] x < (fill next n x alphaTo indexOf).2.2.length := by
      rw [length_fill.2]
      exact hx n
    rw [fill_succ, fillStep, List.getD_eq_getElem?_getD, fill_value]
    by_cases hsame : next^[n] x = next^[i] x
    · refine ⟨n, Nat.lt_succ_self n, hsame, ?_⟩
      rw [hsame, List.getElem?_set_self (hsame ▸ hlength)]
      rfl
    · have hlt : i < n := by
        rcases Nat.lt_succ_iff_lt_or_eq.mp hi with hlt | rfl
        · exact hlt
        · exact absurd rfl hsame
      obtain ⟨j, hj, hvalue, hplace⟩ := ih hlt
      refine ⟨j, Nat.lt_succ_of_lt hj, hvalue, ?_⟩
      rw [List.getElem?_set_ne hsame, ← List.getD_eq_getElem?_getD]
      exact hplace

/-- Each value is where the second table says, exactly if they are all different. -/
theorem index_alpha_iff_injOn (hn : n ≤ alphaTo.length) (hx : ∀ i, next^[i] x < indexOf.length) :
    (∀ i < n, (fill next n x alphaTo indexOf).2.2.getD
        ((fill next n x alphaTo indexOf).2.1.getD i 0) 0 = i)
      ↔ (Set.Iio n).InjOn (next^[·] x) := by
  constructor
  · intro h i hi j hj hsame
    have hi' := h i hi
    have hj' := h j hj
    rw [getD_alphaTo hn hi] at hi'
    rw [getD_alphaTo hn hj] at hj'
    have hsame : next^[i] x = next^[j] x := hsame
    rw [hsame] at hi'
    exact hi'.symm.trans hj'
  · intro hinj i hi
    obtain ⟨j, hj, hsame, hplace⟩ := @getD_indexOf _ n _ alphaTo _ hx i hi
    rw [getD_alphaTo hn hi, hplace]
    exact hinj hj hi hsame

/-- **The tables and the period**: where the values have come back to the first one, each is where
    the second table says exactly if they did not come back before. -/
theorem index_alpha_iff (hpos : 0 < n) (hn : n ≤ alphaTo.length)
    (hx : ∀ i, next^[i] x < indexOf.length) (hback : next^[n] x = x) :
    (∀ i < n, (fill next n x alphaTo indexOf).2.2.getD
        ((fill next n x alphaTo indexOf).2.1.getD i 0) 0 = i)
      ↔ minimalPeriod next x = n := by
  rw [index_alpha_iff_injOn hn hx]
  have hdvd : minimalPeriod next x ∣ n := IsPeriodicPt.minimalPeriod_dvd hback
  have hperiod : 0 < minimalPeriod next x := Nat.pos_of_dvd_of_pos hdvd hpos
  constructor
  · intro hinj
    by_contra hne
    have hlt : minimalPeriod next x < n :=
      Nat.lt_of_le_of_ne (Nat.le_of_dvd hpos hdvd) hne
    have hzero : minimalPeriod next x = 0 := hinj hlt hpos iterate_minimalPeriod
    exact Nat.ne_of_gt hperiod hzero
  · intro h
    rw [← h]
    exact iterate_injOn_Iio_minimalPeriod

/-- As many different values as there is room for are all of them. -/
theorem exists_iterate_eq (hvalues : ∀ i < n, next^[i] x ∈ Finset.Icc 1 n)
    (hinj : (Set.Iio n).InjOn (next^[·] x)) {v : Nat} (hv : v ∈ Finset.Icc 1 n) :
    ∃ i < n, next^[i] x = v := by
  have hsubset : (Finset.range n).image (next^[·] x) ⊆ Finset.Icc 1 n := by
    intro w hw
    obtain ⟨i, hi, rfl⟩ := Finset.mem_image.mp hw
    exact hvalues i (Finset.mem_range.mp hi)
  have hinj' : Set.InjOn (next^[·] x) (Finset.range n : Set Nat) := by
    rw [Finset.coe_range]
    exact hinj
  have hcard : (Finset.Icc 1 n).card ≤ ((Finset.range n).image (next^[·] x)).card := by
    rw [Finset.card_image_of_injOn hinj', Finset.card_range, Nat.card_Icc, Nat.add_sub_cancel]
  rw [← Finset.eq_of_subset_of_card_le hsubset hcard] at hv
  obtain ⟨i, hi, hvalue⟩ := Finset.mem_image.mp hv
  exact ⟨i, Finset.mem_range.mp hi, hvalue⟩

end LogTables
end Lib
end CpeClock
