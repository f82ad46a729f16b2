import CpeClock.Rs.Control
import Mathlib.Algebra.Field.MinimalAxioms
import Mathlib.Algebra.Field.Basic
import Mathlib.Tactic.Ring
import Mathlib.Tactic.LinearCombination

/-!
# GF(32), and the tables of the control structure as its logarithms

`Gf32` is the field the codec works in, defined from the polynomial and not from the tables:
an element is a symbol, addition is XOR, and multiplication is Horner's rule with
`mulX` — shift, and reduce by `0x25` when bit 5 comes out. The second half says that
`alpha_to` and `index_of`, as `init_rs` computes them, are the powers of `x` and their
logarithms, with `nn = 31` standing for the logarithm of zero.

Associativity is not a search over 32768 triples. Every non-zero element is an iterate of
`mulX` at `1`, and multiplying by it *is* the iterate (`mul_ofLog`), so the law is one about
iterating a function.
-/

namespace CpeClock
namespace Rs

/-- A symbol, as an element of the field with 32 elements. -/
structure Gf32 where
  val : Fin 32
deriving DecidableEq, Repr

namespace Gf32

instance : Zero Gf32 := ⟨⟨0⟩⟩
instance : One Gf32 := ⟨⟨1⟩⟩
instance : Add Gf32 := ⟨fun a b => ⟨a.val ^^^ b.val⟩⟩
instance : Neg Gf32 := ⟨fun a => a⟩

/-- Multiplication by `x`, reduced by `x^5 + x^2 + 1`. -/
def mulX (a : Gf32) : Gf32 :=
  if a.val < 16 then ⟨a.val + a.val⟩ else ⟨(a.val + a.val) ^^^ 5⟩

/-- Horner's rule over the bits of `a`, the highest first. -/
def mul (a b : Gf32) : Gf32 :=
  [4, 3, 2, 1, 0].foldl
    (fun acc i => if a.val.val.testBit i then acc.mulX + b else acc.mulX) 0

instance : Mul Gf32 := ⟨mul⟩

def ofLog (i : Nat) : Gf32 := mulX^[i] 1

/-- The inverse: `a ^ 30`, as a product of squares. -/
def inv (a : Gf32) : Gf32 :=
  let a2 := a * a
  let a4 := a2 * a2
  let a8 := a4 * a4
  a2 * a4 * (a8 * (a8 * a8))

instance : Inv Gf32 := ⟨inv⟩

/-! ## The field laws -/

theorem forall_iff {p : Gf32 → Prop} : (∀ a, p a) ↔ ∀ v : Fin 32, p ⟨v⟩ :=
  ⟨fun h v => h ⟨v⟩, fun h a => h a.val⟩

instance {p : Gf32 → Prop} [DecidablePred p] : Decidable (∀ a, p a) :=
  decidable_of_iff _ forall_iff.symm

theorem ext_val {a b : Gf32} (h : a.val.val = b.val.val) : a = b := by
  cases a; cases b
  simp only [mk.injEq]
  exact Fin.ext h

theorem val_lt (a : Gf32) : a.val.val < 32 := a.val.isLt

theorem val_add (a b : Gf32) : (a + b).val.val = a.val.val ^^^ b.val.val := by
  show (a.val.val ^^^ b.val.val) % 32 = _
  exact Nat.mod_eq_of_lt (Nat.xor_lt_two_pow (n := 5) a.val_lt b.val_lt)

protected theorem add_assoc (a b c : Gf32) : a + b + c = a + (b + c) :=
  ext_val (by simp only [val_add, Nat.xor_assoc])

protected theorem zero_add (a : Gf32) : 0 + a = a :=
  ext_val (by rw [val_add]; exact Nat.zero_xor _)

theorem add_self (a : Gf32) : a + a = 0 :=
  ext_val (by rw [val_add]; exact Nat.xor_self _)

theorem mulX_add : ∀ a b : Gf32, mulX (a + b) = mulX a + mulX b := by decide +kernel

protected theorem mul_comm : ∀ a b : Gf32, a * b = b * a := by decide +kernel

protected theorem one_mul : ∀ a : Gf32, 1 * a = a := by decide +kernel

theorem mulX_mul : ∀ a b : Gf32, mulX a * b = mulX (a * b) := by decide +kernel

protected theorem zero_mul : ∀ a : Gf32, 0 * a = 0 := by decide +kernel

protected theorem mul_inv_cancel : ∀ a : Gf32, a ≠ 0 → a * a⁻¹ = 1 := by decide +kernel

theorem exists_ofLog : ∀ a : Gf32, a ≠ 0 → ∃ i : Fin 31, a = ofLog i := by decide +kernel

theorem mulX_iterate_add (i : Nat) (a b : Gf32) :
    mulX^[i] (a + b) = mulX^[i] a + mulX^[i] b := by
  induction i generalizing a b with
  | zero => rfl
  | succ i ih => simp only [Function.iterate_succ, Function.comp_apply, mulX_add, ih]

theorem mulX_iterate_mul (i : Nat) (a b : Gf32) : mulX^[i] a * b = mulX^[i] (a * b) := by
  induction i generalizing a with
  | zero => rfl
  | succ i ih => simp only [Function.iterate_succ, Function.comp_apply, ih, mulX_mul]

/-- **Multiplying by a power of `x` iterates `mulX`.** -/
theorem mul_ofLog (i : Nat) (b : Gf32) : ofLog i * b = mulX^[i] b := by
  rw [ofLog, mulX_iterate_mul, Gf32.one_mul]

protected theorem mul_assoc (a b c : Gf32) : a * b * c = a * (b * c) := by
  by_cases ha : a = 0
  · simp only [ha, Gf32.zero_mul]
  · obtain ⟨i, rfl⟩ := exists_ofLog a ha
    rw [mul_ofLog, mul_ofLog, mulX_iterate_mul]

protected theorem left_distrib (a b c : Gf32) : a * (b + c) = a * b + a * c := by
  by_cases ha : a = 0
  · simp only [ha, Gf32.zero_mul, add_self]
  · obtain ⟨i, rfl⟩ := exists_ofLog a ha
    simp only [mul_ofLog, mulX_iterate_add]

instance : Field Gf32 :=
  Field.ofMinimalAxioms Gf32 Gf32.add_assoc Gf32.zero_add add_self Gf32.mul_assoc Gf32.mul_comm
    Gf32.one_mul Gf32.mul_inv_cancel (by decide +kernel) Gf32.left_distrib
    ⟨0, 1, by decide +kernel⟩

theorem neg_eq (a : Gf32) : -a = a := rfl

theorem sub_eq (a b : Gf32) : a - b = a + b := by rw [sub_eq_add_neg, neg_eq]

def x : Gf32 := ⟨2⟩

theorem x_mul : ∀ a : Gf32, x * a = mulX a := by decide +kernel

theorem x_pow (i : Nat) : x ^ i = ofLog i := by
  induction i with
  | zero => rfl
  | succ i ih =>
    rw [pow_succ', ih, x_mul, ofLog, ofLog, Function.iterate_succ_apply']

theorem x_ne_zero : x ≠ 0 := by decide

theorem x_pow_31 : x ^ 31 = 1 := by rw [x_pow]; decide +kernel

theorem x_pow_mod (i : Nat) : x ^ (i % 31) = x ^ i := by
  conv_rhs => rw [← Nat.div_add_mod i 31, pow_add, pow_mul, x_pow_31, one_pow, one_mul]

end Gf32

/-! ## The tables -/

/-- What `init_rs(5, 0x25, 1, 1, 10)` returns (`initRs_eq_rs32`). -/
def rs32 : RsControl :=
  { mm := 5
    nn := 31
    alphaTo := [1, 2, 4, 8, 16, 5, 10, 20, 13, 26, 17, 7, 14, 28, 29, 31, 27, 19, 3, 6, 12, 24,
      21, 15, 30, 25, 23, 11, 22, 9, 18, 0]
    indexOf := [31, 0, 1, 18, 2, 5, 19, 11, 3, 29, 6, 27, 20, 8, 12, 23, 4, 10, 30, 17, 7, 22,
      28, 26, 21, 25, 9, 16, 13, 14, 24, 15]
    genpoly := [24, 0, 2, 16, 21, 9, 10, 25, 0, 18, 0]
    nroots := 10
    fcr := 1
    prim := 1
    iprim := 1
    gfpoly := 37 }

theorem initRs_eq_rs32 : initRs 5 0x25 1 1 10 = some rs32 := by decide +kernel

@[simp]
theorem rs32_nn : rs32.nn = 31 := rfl

@[simp]
theorem rsModnn_rs32 (n : Nat) : rsModnn rs32 n = n % 31 :=
  rsModnn_eq_mod (by decide) rfl n

/-- `index_of` at an element: its logarithm, `31` for zero. -/
def log (a : Gf32) : Nat := rs32.index a.val.val

theorem log_eq_31_iff : ∀ {a : Gf32}, log a = 31 ↔ a = 0 := by
  intro a
  revert a
  decide +kernel

theorem log_ne_31 {a : Gf32} (ha : a ≠ 0) : log a ≠ 31 := fun h => ha (log_eq_31_iff.mp h)

theorem log_zero : log 0 = 31 := rfl

theorem log_one : log 1 = 0 := rfl

theorem log_le : ∀ a : Gf32, log a ≤ 31 := by decide +kernel

theorem log_lt {a : Gf32} (ha : a ≠ 0) : log a < 31 :=
  lt_of_le_of_ne (log_le a) (log_ne_31 ha)

/-- `alpha_to` undoes `index_of`, zero included. -/
theorem alpha_log : ∀ a : Gf32, rs32.alpha (log a) = a.val.val := by decide +kernel

theorem x_pow_log {a : Gf32} (ha : a ≠ 0) : Gf32.x ^ log a = a := by
  have h : ∀ a : Gf32, a ≠ 0 → Gf32.ofLog (log a) = a := by decide +kernel
  rw [Gf32.x_pow, h a ha]

theorem log_x_pow (i : Nat) : log (Gf32.x ^ i) = i % 31 := by
  have h : ∀ i : Fin 31, log (Gf32.ofLog i) = i := by decide +kernel
  rw [← Gf32.x_pow_mod, Gf32.x_pow]
  exact h ⟨i % 31, Nat.mod_lt i (by decide)⟩

theorem alpha_mod (i : Nat) : rs32.alpha (i % 31) = (Gf32.x ^ i).val.val := by
  rw [← log_x_pow, alpha_log]

theorem log_mul_x_pow {a : Gf32} (ha : a ≠ 0) (i : Nat) :
    log (a * Gf32.x ^ i) = (log a + i) % 31 := by
  rw [← log_x_pow, pow_add, x_pow_log ha]

theorem alpha_log_add {a b : Gf32} (ha : a ≠ 0) (hb : b ≠ 0) :
    rs32.alpha ((log a + log b) % 31) = (a * b).val.val := by
  rw [alpha_mod, pow_add, x_pow_log ha, x_pow_log hb]

/-- A difference of logarithms, with `nn` added so that it stays positive, is the logarithm
    of the quotient. -/
theorem log_div {a b : Gf32} (ha : a ≠ 0) (hb : b ≠ 0) :
    (log a + 31 - log b) % 31 = log (a / b) := by
  have hle := log_le b
  rw [← log_x_pow]
  congr 1
  rw [eq_div_iff hb]
  calc Gf32.x ^ (log a + 31 - log b) * b
      = Gf32.x ^ (log a + 31 - log b) * Gf32.x ^ log b := by rw [x_pow_log hb]
    _ = Gf32.x ^ (log a + 31) := by rw [← pow_add]; congr 1; omega
    _ = a := by rw [pow_add, x_pow_log ha, Gf32.x_pow_31, mul_one]

theorem x_pow_injOn {i j : Nat} (hi : i < 31) (hj : j < 31) (h : Gf32.x ^ i = Gf32.x ^ j) :
    i = j := by
  have := congrArg log h
  rwa [log_x_pow, log_x_pow, Nat.mod_eq_of_lt hi, Nat.mod_eq_of_lt hj] at this

end Rs
end CpeClock
