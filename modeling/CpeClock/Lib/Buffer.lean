import Mathlib.Data.List.Basic
import Mathlib.Data.Vector.Defs

/-!
# Buffers of fixed length

An array that is written in order, with an index that says how far. What counts is the part before
the index (`take_set`); what stood in the array before is behind it and gone when the index reaches
the end.
-/

namespace CpeClock
namespace Lib
namespace Buffer

variable {α : Type*} {size : Nat}

theorem take_set (buffer : Vector α size) {i : Nat} (hi : i < size) (a : α) :
    (buffer.set! i a).toList.take (i + 1) = buffer.toList.take i ++ [a] := by
  have hlength : i < buffer.toList.length := by
    rw [Vector.length_toList]
    exact hi
  rw [Vector.toList_set!, List.take_add_one, List.take_set_of_le (Nat.le_refl i),
    List.getElem?_set_self hlength]
  rfl

theorem take_set_of_le (buffer : Vector α size) {i k : Nat} (hk : k ≤ i) (a : α) :
    (buffer.set! i a).toList.take k = buffer.toList.take k := by
  rw [Vector.toList_set!, List.take_set_of_le hk]

theorem drop_set (buffer : Vector α size) {i : Nat} (hi : i < size) (a : α) :
    (buffer.set! i a).toList.drop i = a :: buffer.toList.drop (i + 1) := by
  have hlength : i < (buffer.toList.set i a).length := by
    rw [List.length_set, Vector.length_toList]
    exact hi
  rw [Vector.toList_set!, List.drop_eq_getElem_cons hlength, List.getElem_set_self,
    List.drop_set_of_lt (Nat.lt_succ_self i)]

/-- A loop that writes `a` from the index on, up to `bound`. -/
def fill (a : α) (bound : Nat) : Nat → Vector α size → Nat → Vector α size
  | 0, buffer, _ => buffer
  | turns + 1, buffer, i =>
    if i < bound then fill a bound turns (buffer.set! i a) (i + 1) else buffer

theorem take_fill (a : α) {bound : Nat} (hbound : bound ≤ size) (turns : Nat)
    (buffer : Vector α size) {i : Nat} (hi : i ≤ bound) (hturns : bound ≤ i + turns) :
    (fill a bound turns buffer i).toList.take bound
      = buffer.toList.take i ++ List.replicate (bound - i) a := by
  induction turns generalizing buffer i with
  | zero =>
    obtain rfl : i = bound := Nat.le_antisymm hi hturns
    rw [fill, Nat.sub_self]
    exact (List.append_nil _).symm
  | succ turns ih =>
    rw [fill]
    split
    · next hroom =>
      have hleft : bound - i = bound - (i + 1) + 1 := by omega
      rw [ih (buffer.set! i a) hroom (by omega), take_set buffer (Nat.lt_of_lt_of_le hroom hbound),
        hleft, List.replicate_succ, List.append_assoc]
      rfl
    · next hdone =>
      obtain rfl : i = bound := Nat.le_antisymm hi (Nat.not_lt.mp hdone)
      rw [Nat.sub_self]
      exact (List.append_nil _).symm

/-- A loop that writes downwards from the end. -/
def storeDown (f : Nat → α) (count : Nat) (buffer : Vector α size) : Vector α size :=
  (List.range count).foldl (fun buffer j => buffer.set! (size - 1 - j) (f j)) buffer

theorem storeDown_toList (f : Nat → α) {count : Nat} (hcount : count ≤ size)
    (buffer : Vector α size) :
    (storeDown f count buffer).toList
      = buffer.toList.take (size - count) ++ ((List.range count).map f).reverse := by
  have hparts : (storeDown f count buffer).toList.take (size - count)
        = buffer.toList.take (size - count) ∧
      (storeDown f count buffer).toList.drop (size - count)
        = ((List.range count).map f).reverse := by
    induction count with
    | zero =>
      refine ⟨rfl, List.drop_of_length_le ?_⟩
      rw [Vector.length_toList]
      exact Nat.le_refl size
    | succ count ih =>
      obtain ⟨htake, hdrop⟩ := ih (Nat.le_of_succ_le hcount)
      have hlast : storeDown f (count + 1) buffer
          = (storeDown f count buffer).set! (size - (count + 1)) (f count) := by
        unfold storeDown
        rw [List.range_succ, List.foldl_append, Nat.sub_add_eq, Nat.sub_right_comm]
        rfl
      have hnext : size - (count + 1) + 1 = size - count := by omega
      rw [hlast, take_set_of_le _ (Nat.le_refl _), drop_set _ (by omega), hnext, hdrop,
        List.range_succ, List.map_append, List.reverse_append]
      refine ⟨?_, rfl⟩
      have hle : size - (count + 1) ≤ size - count := by omega
      rw [← Nat.min_eq_left hle, ← List.take_take, htake, List.take_take]
  rw [← hparts.1, ← hparts.2, List.take_append_drop]

end Buffer
end Lib
end CpeClock
