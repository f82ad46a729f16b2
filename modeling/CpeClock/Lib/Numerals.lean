import Mathlib.Algebra.Group.Nat.Defs

/-!
# Numbers written in digits, and read back

`Nat.toDigits` writes a number in some base. A reader goes from the first digit to the last with
the value so far; what it takes for a digit is a parameter, since no two programs agree on that.
Leading zeros change nothing, and the first digit of a number that is not zero is no zero
(`head_toDigits`).
-/

namespace CpeClock
namespace Lib
namespace Numerals

/-- The value of the digits of a text, in a base. -/
def value (digit : Char → Option Nat) (base : Nat) (text : List Char) : Nat :=
  (text.filterMap digit).foldl (fun n d => n * base + d) 0

/-- A reader that knows the digits of a base. -/
def Reads (digit : Char → Option Nat) (base : Nat) : Prop :=
  ∀ d < base, digit d.digitChar = some d

instance (digit : Char → Option Nat) (base : Nat) : Decidable (Reads digit base) :=
  inferInstanceAs (Decidable (∀ d < base, digit d.digitChar = some d))

variable {digit : Char → Option Nat} {base : Nat}

theorem mem_toDigits (hbase : 1 < base) (n : Nat) :
    ∀ c ∈ Nat.toDigits base n, ∃ d < base, c = d.digitChar := by
  induction n using Nat.strongRecOn with
  | ind n ih =>
    intro c hc
    rw [Nat.toDigits_eq_if hbase] at hc
    split at hc
    · next hlt => exact ⟨n, hlt, List.mem_singleton.mp hc⟩
    · next hge =>
      have hless : n / base < n := Nat.div_lt_self (by omega) hbase
      rcases List.mem_append.mp hc with hc | hc
      · exact ih _ hless c hc
      · exact ⟨n % base, Nat.mod_lt n (by omega), List.mem_singleton.mp hc⟩

/-- **What is written is read back.** -/
theorem value_toDigits (hreads : Reads digit base) (hbase : 1 < base) (n : Nat) :
    value digit base (Nat.toDigits base n) = n := by
  unfold value
  induction n using Nat.strongRecOn with
  | ind n ih =>
    rw [Nat.toDigits_eq_if hbase]
    split
    · next hlt =>
      rw [List.filterMap_cons_some (hreads n hlt)]
      show 0 * base + n = n
      rw [Nat.zero_mul, Nat.zero_add]
    · next hge =>
      have hless : n / base < n := Nat.div_lt_self (by omega) hbase
      have hdigit := hreads (n % base) (Nat.mod_lt n (by omega))
      rw [List.filterMap_append, List.foldl_append, ih _ hless, List.filterMap_cons_some hdigit]
      exact Nat.div_add_mod' n base

/-- **Leading zeros change nothing.** -/
theorem value_zeros (hzero : digit '0' = some 0) (count : Nat) (text : List Char) :
    value digit base (List.replicate count '0' ++ text) = value digit base text := by
  unfold value
  induction count with
  | zero => rfl
  | succ count ih =>
    rw [List.replicate_succ, List.cons_append, List.filterMap_cons_some hzero, List.foldl_cons,
      Nat.zero_mul]
    exact ih

theorem le_foldl_value (n : Nat) (digits : List Nat) :
    n * base ^ digits.length ≤ digits.foldl (fun n d => n * base + d) n := by
  induction digits generalizing n with
  | nil => rw [List.length_nil, Nat.pow_zero, Nat.mul_one]; exact Nat.le_refl n
  | cons d digits ih =>
    rw [List.length_cons, Nat.pow_succ', ← Nat.mul_assoc, List.foldl_cons]
    exact Nat.le_trans (Nat.mul_le_mul_right _ (Nat.le_add_right _ d)) (ih _)

/-- **The first digit counts for its place.** -/
theorem le_value (hreads : Reads digit base) {d : Nat} (hd : d < base) {rest : List Char}
    (hrest : ∀ c ∈ rest, (digit c).isSome = true) :
    d * base ^ rest.length ≤ value digit base (d.digitChar :: rest) := by
  have hlength : (rest.filterMap digit).length = rest.length :=
    List.filterMap_length_eq_length.mpr hrest
  have hle := @le_foldl_value base (0 * base + d) (rest.filterMap digit)
  rw [Nat.zero_mul, Nat.zero_add, hlength] at hle
  unfold value
  rw [List.filterMap_cons_some (hreads d hd), List.foldl_cons, Nat.zero_mul, Nat.zero_add]
  exact hle

/-- The first digit of a number that is not zero is no zero. -/
theorem head_toDigits (hbase : 1 < base) {n : Nat} (hn : 0 < n) :
    ∃ d, 0 < d ∧ d < base ∧ (Nat.toDigits base n).head? = some d.digitChar := by
  induction n using Nat.strongRecOn with
  | ind n ih =>
    rw [Nat.toDigits_eq_if hbase]
    split
    · next hlt => exact ⟨n, hn, hlt, rfl⟩
    · next hge =>
      have hless : n / base < n := Nat.div_lt_self hn hbase
      have hpos : 0 < n / base := Nat.div_pos (Nat.not_lt.mp hge) (by omega)
      obtain ⟨d, hd, hd', hhead⟩ := ih _ hless hpos
      refine ⟨d, hd, hd', ?_⟩
      rw [List.head?_append, hhead]
      rfl

end Numerals
end Lib
end CpeClock
