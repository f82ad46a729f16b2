import CpeClock.Rs.Gf32
import Mathlib.Algebra.BigOperators.Fin
import Mathlib.Algebra.BigOperators.Intervals

/-!
# Polynomial form and index form

The two ways `reed_solomon.c` keeps a list of field elements: as symbols (`vals`) and as
logarithms (`logs`, with `nn` for zero). Each loop of the codec adds up products read off one
of the two, guarded by a test for zero, and the lemmas here say once that such a guarded sum
is the sum in the field.
-/

namespace CpeClock
namespace Rs

/-- Elements in polynomial form. -/
def vals (es : List Gf32) : List Nat := es.map (fun a => a.val.val)

/-- Elements in index form. -/
def logs (es : List Gf32) : List Nat := es.map log

/-- The symbols of `y` at `n` consecutive positions from `a` on. -/
def seg (y : Nat → Gf32) (a n : Nat) : List Gf32 := (List.range' a n).map y

@[simp]
theorem length_vals (es : List Gf32) : (vals es).length = es.length := List.length_map _

@[simp]
theorem length_logs (es : List Gf32) : (logs es).length = es.length := List.length_map _

@[simp]
theorem length_seg (y : Nat → Gf32) (a n : Nat) : (seg y a n).length = n := by simp [seg]

theorem map_index_vals (es : List Gf32) : (vals es).map rs32.index = logs es := by
  simp [vals, logs, log]

theorem vals_append (es fs : List Gf32) : vals (es ++ fs) = vals es ++ vals fs :=
  List.map_append

theorem seg_succ (y : Nat → Gf32) (a n : Nat) : seg y a (n + 1) = y a :: seg y (a + 1) n := by
  simp [seg, List.range'_succ]

theorem seg_append (y : Nat → Gf32) (a m n : Nat) :
    seg y a m ++ seg y (a + m) n = seg y a (m + n) := by
  rw [seg, seg, ← List.map_append]
  rw [List.range'_append_1, seg]

theorem seg_succ_right (y : Nat → Gf32) (a n : Nat) :
    seg y a (n + 1) = seg y a n ++ [y (a + n)] := by
  rw [← seg_append]; rfl

theorem seg_congr {y z : Nat → Gf32} {a n : Nat} (h : ∀ i, a ≤ i → i < a + n → y i = z i) :
    seg y a n = seg z a n := by
  unfold seg
  refine List.map_congr_left fun i hi => ?_
  obtain ⟨h1, h2⟩ := List.mem_range'_1.mp hi
  exact h i h1 h2

theorem seg_getElem? {y : Nat → Gf32} {n i : Nat} (hi : i < n) : (seg y 0 n)[i]? = some (y i) := by
  simp [seg, hi]

theorem vals_getD {y : Nat → Gf32} {n i : Nat} (hi : i < n) (d : Nat) :
    (vals (seg y 0 n)).getD i d = (y i).val.val := by
  simp [vals, List.getD_eq_getElem?_getD, seg_getElem? hi]

theorem logs_getD {y : Nat → Gf32} {n i : Nat} (hi : i < n) (d : Nat) :
    (logs (seg y 0 n)).getD i d = log (y i) := by
  simp [logs, List.getD_eq_getElem?_getD, seg_getElem? hi]

/-- A list made by a loop over `0 .. n-1` is in index form when each entry is. -/
theorem map_range_eq_logs {f : Nat → Nat} {y : Nat → Gf32} {n : Nat}
    (h : ∀ i < n, f i = log (y i)) : (List.range n).map f = logs (seg y 0 n) := by
  rw [logs, seg, List.map_map, ← List.range_eq_range']
  exact List.map_congr_left fun i hi => h i (List.mem_range.mp hi)

theorem map_range_eq_vals {f : Nat → Nat} {y : Nat → Gf32} {a n : Nat}
    (h : ∀ i < n, f i = (y (a + i)).val.val) : (List.range n).map f = vals (seg y a n) := by
  rw [vals, seg, List.map_map, List.range'_eq_map_range, List.map_map]
  exact List.map_congr_left fun i hi => h i (List.mem_range.mp hi)

theorem mapIdx_vals {f : Nat → Nat → Nat} {y z : Nat → Gf32} {n : Nat}
    (h : ∀ i < n, f i (y i).val.val = (z i).val.val) :
    (vals (seg y 0 n)).mapIdx f = vals (seg z 0 n) := by
  apply List.ext_getElem
  · simp
  · intro i h1 h2
    have hi : i < n := by simpa using h2
    simpa [vals, seg] using h i hi

theorem mapIdx_logs {f : Nat → Nat → Nat} {y z : Nat → Gf32} {n : Nat}
    (h : ∀ i < n, f i (log (y i)) = log (z i)) :
    (logs (seg y 0 n)).mapIdx f = logs (seg z 0 n) := by
  apply List.ext_getElem
  · simp
  · intro i h1 h2
    have hi : i < n := by simpa using h2
    simpa [logs, seg] using h i hi

/-! ## Zero tests and single products -/

theorem val_eq_zero_iff {a : Gf32} : a.val.val = 0 ↔ a = 0 :=
  ⟨fun h => Gf32.ext_val h, fun h => by rw [h]; rfl⟩

theorem if_log_zero {α : Sort*} (u v : α) : (if log 0 ≠ rs32.nn then u else v) = v :=
  if_neg (fun h => h log_zero)

theorem if_log_ne {α : Sort*} {a : Gf32} (ha : a ≠ 0) (u v : α) :
    (if log a ≠ rs32.nn then u else v) = u :=
  if_pos (log_ne_31 ha)

theorem guarded_mul (q : Nat) (a b : Gf32) :
    (if log a ≠ 31 ∧ log b ≠ 31 then q ^^^ rs32.alpha ((log a + log b) % 31) else q)
      = q ^^^ (a * b).val.val := by
  by_cases ha : a = 0
  · rw [if_neg (fun h => h.1 (log_eq_31_iff.mpr ha)), ha, zero_mul]
    exact (Nat.xor_zero q).symm
  · by_cases hb : b = 0
    · rw [if_neg (fun h => h.2 (log_eq_31_iff.mpr hb)), hb, mul_zero]
      exact (Nat.xor_zero q).symm
    · rw [if_pos ⟨log_ne_31 ha, log_ne_31 hb⟩,
        alpha_log_add ha hb]

theorem guarded_mul_pow (q : Nat) (a : Gf32) (n : Nat) :
    (if log a ≠ 31 then q ^^^ rs32.alpha ((log a + n) % 31) else q)
      = q ^^^ (a * Gf32.x ^ n).val.val := by
  by_cases ha : a = 0
  · rw [if_neg (not_not_intro (log_eq_31_iff.mpr ha)), ha, zero_mul]
    exact (Nat.xor_zero q).symm
  · rw [if_pos (log_ne_31 ha), alpha_mod, pow_add, x_pow_log ha]

/-! ## Sums -/

theorem foldl_xor {f : Nat → Nat → Nat} {g : Nat → Gf32} :
    ∀ {n : Nat}, (∀ i < n, ∀ q, f q i = q ^^^ (g i).val.val) →
      (List.range n).foldl f 0 = (∑ i ∈ Finset.range n, g i).val.val
  | 0, _ => rfl
  | n + 1, h => by
    rw [List.range_succ, List.foldl_append, foldl_xor (fun i hi => h i (Nat.lt_succ_of_lt hi)),
      Finset.sum_range_succ, Gf32.val_add]
    exact h n (Nat.lt_succ_self n) _

theorem foldr_xor {f : Nat → Nat → Nat} {g : Nat → Gf32} {q : Gf32} :
    ∀ {a n : Nat}, (∀ i, a ≤ i → i < a + n → ∀ q, f i q = q ^^^ (g i).val.val) →
      (List.range' a n).foldr f q.val.val = (q + ∑ i ∈ Finset.range n, g (a + i)).val.val
  | a, 0, _ => by simp
  | a, n + 1, h => by
    rw [List.range'_succ, List.foldr_cons,
      foldr_xor (fun i h1 h2 => h i (by omega) (by omega)), h a (Nat.le_refl a) (by omega),
      ← Gf32.val_add, Finset.sum_range_succ', Nat.add_zero, add_assoc]
    congr 4
    refine Finset.sum_congr rfl fun i _ => ?_
    congr 1
    omega

theorem foldr_xor_range {f : Nat → Nat → Nat} {g : Nat → Gf32} {n : Nat}
    (h : ∀ i < n, ∀ q, f i q = q ^^^ (g i).val.val) :
    (List.range n).foldr f 0 = (∑ i ∈ Finset.range n, g i).val.val := by
  have hr := foldr_xor (f := f) (g := g) (q := 0) (a := 0) (n := n)
    (fun i _ hi => h i (by omega))
  simp only [zero_add] at hr
  rw [List.range_eq_range']
  exact hr

end Rs
end CpeClock
