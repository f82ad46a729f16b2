import Mathlib.Algebra.Group.Nat.Defs
import Mathlib.Data.List.Basic

/-!
# `reed_solomon.c` — the control structure

`init_rs` and what it builds: the two lookup tables of the Galois field and the generator
polynomial. Arrays of `uint16_t` are lists of `Nat`, cut to 16 bits where something larger could be
stored; the fields of type `int` are `Nat` once the sanity checks have seen that they are not
negative. `iprim` can be too large for an `int`, and is compared with `intMax`; `root` cannot, nor
what is added to it (`root_le_intMax`).

Symbols have up to 15 bits (`rslib.h`), and the field polynomial is not zero: with zero `rs_init`
would call `gffunc`, which `init_rs` gives as `NULL`. Beyond that C says nothing of what is done,
and neither does this model.

What is left out: the list of structures `init_rs_internal` keeps so that a second call with
equal parameters returns the first result (it has equal contents), its `users` count, and
the allocation failures of `rs_init`.
-/

namespace CpeClock
namespace Rs

/-- `struct rs_control`. Each field has the source's name. -/
structure RsControl where
  mm : Nat
  nn : Nat
  alphaTo : List Nat
  indexOf : List Nat
  genpoly : List Nat
  nroots : Nat
  fcr : Nat
  prim : Nat
  iprim : Nat
  gfpoly : Int
deriving DecidableEq, Repr

namespace RsControl

/-- `rs->alpha_to[i]`. -/
def alpha (rs : RsControl) (i : Nat) : Nat := rs.alphaTo.getD i 0

/-- `rs->index_of[v]`. -/
def index (rs : RsControl) (v : Nat) : Nat := rs.indexOf.getD v 0

end RsControl

/-- The loop of `rs_modnn`, for at most `fuel` turns. -/
def rsModnnLoop (mm nn : Nat) : Nat → Nat → Nat
  | 0, x => x
  | fuel + 1, x =>
    if nn ≤ x then rsModnnLoop mm nn fuel (((x - nn) >>> mm) + ((x - nn) &&& nn)) else x

/-- `rs_modnn`. With `nn = 2 ^ mm - 1` positive every turn makes `x` smaller, so `x` turns
    are enough (`rsModnn_eq_mod`). -/
def rsModnn (rs : RsControl) (x : Nat) : Nat := rsModnnLoop rs.mm rs.nn x x

/-- What is left of a value in a `uint16_t`. -/
def toUint16 (n : Nat) : Nat := n % 65536

/-- The largest `int`. -/
def intMax : Nat := 2147483647

/-- The bits of an `int`. -/
def intBits (n : Int) : Nat := (n % 4294967296).toNat

/-- One turn of the loop that fills the lookup tables, in `rs_init`: `sr` is the current
    power of the primitive element. -/
def gfTablesStep (symsize : Nat) (gfpoly : Int) (st : Nat × List Nat × List Nat) (i : Nat) :
    Nat × List Nat × List Nat :=
  let (sr, alphaTo, indexOf) := st
  let indexOf := indexOf.set sr (toUint16 i)
  let alphaTo := alphaTo.set i (toUint16 sr)
  let sr := sr <<< 1
  let sr := if sr &&& (1 <<< symsize) ≠ 0 then sr ^^^ intBits gfpoly else sr
  (sr &&& ((1 <<< symsize) - 1), alphaTo, indexOf)

/-- The lookup tables and the last value of `sr`. -/
def gfTables (symsize : Nat) (gfpoly : Int) : Nat × List Nat × List Nat :=
  let nn := (1 <<< symsize) - 1
  let alphaTo := (List.replicate (nn + 1) 0).set nn 0
  let indexOf := (List.replicate (nn + 1) 0).set 0 (toUint16 nn)
  (List.range nn).foldl (gfTablesStep symsize gfpoly) (1, alphaTo, indexOf)

/-- `for(iprim = 1; (iprim % prim) != 0; iprim += rs->nn);`, for at most `fuel` turns: `none` if
    the next turn would take `iprim` out of the range of `int`. -/
def findIprim (nn prim : Nat) : Nat → Nat → Option Nat
  | 0, _ => none
  | fuel + 1, iprim =>
    if iprim % prim ≠ 0 then
      if iprim + nn ≤ intMax then findIprim nn prim fuel (iprim + nn) else none
    else some iprim

/-- The inner loop of the generator polynomial, `j = i` down to `1`, and its last line:
    multiply the first `i` coefficients by `x + @**root`. -/
def genpolyStep (rs : RsControl) (genpoly : List Nat) (i : Nat) : List Nat :=
  let root := (rs.fcr + i) * rs.prim
  let genpoly := genpoly.set (i + 1) 1
  let genpoly := (List.range i).foldl (fun genpoly n =>
    let j := i - n
    if genpoly.getD j 0 ≠ 0 then
      genpoly.set j (genpoly.getD (j - 1) 0 ^^^
        rs.alpha (rsModnn rs (rs.index (genpoly.getD j 0) + root)))
    else genpoly.set j (genpoly.getD (j - 1) 0)) genpoly
  genpoly.set 0 (rs.alpha (rsModnn rs (rs.index (genpoly.getD 0 0) + root)))

/-- The generator polynomial in index form. -/
def genpolyOf (rs : RsControl) : List Nat :=
  let genpoly := (List.replicate (rs.nroots + 1) 0).set 0 1
  ((List.range rs.nroots).foldl (genpolyStep rs) genpoly).map rs.index

/-- `rs_init`, for a field polynomial (`gffunc` is only used by `init_rs_non_canonical`). There is
    no structure either if `iprim` overflows, where C does not say what happens. Every turn of its
    loop adds `nn`, so that `intMax` turns are enough. -/
def rsInit (symsize : Nat) (gfpoly : Int) (fcr prim nroots : Nat) : Option RsControl :=
  let (sr, alphaTo, indexOf) := gfTables symsize gfpoly
  let nn := (1 <<< symsize) - 1
  -- "If it's not primitive, exit"
  if sr ≠ alphaTo.getD 0 0 then none
  else
    (findIprim nn prim intMax 1).map fun iprim =>
      let rs : RsControl :=
        { mm := symsize
          nn := nn
          alphaTo := alphaTo
          indexOf := indexOf
          genpoly := []
          nroots := nroots
          fcr := fcr
          prim := prim
          iprim := iprim / prim
          gfpoly := gfpoly }
      { rs with genpoly := genpolyOf rs }

/-- `init_rs`: the sanity checks of `init_rs_internal`, then `rs_init`. -/
def initRs (symsize gfpoly fcr prim nroots : Int) : Option RsControl :=
  if symsize < 1 then none
  else if fcr < 0 ∨ fcr ≥ 1 <<< symsize.toNat then none
  else if prim ≤ 0 ∨ prim ≥ 1 <<< symsize.toNat then none
  else if nroots < 0 ∨ nroots ≥ 1 <<< symsize.toNat then none
  else rsInit symsize.toNat gfpoly fcr.toNat prim.toNat nroots.toNat

/-- The roots of the generator polynomial, and the logarithms added to them, are in the range of
    `int`. -/
theorem root_le_intMax {fcr i prim v : Nat} (hfcr : fcr < 2 ^ 15) (hi : i < 2 ^ 15)
    (hprim : prim < 2 ^ 15) (hv : v < 2 ^ 15) : v + (fcr + i) * prim ≤ intMax := by
  have hroot : (fcr + i) * prim ≤ (2 ^ 15 - 1 + (2 ^ 15 - 1)) * (2 ^ 15 - 1) :=
    Nat.mul_le_mul (by omega) (by omega)
  unfold intMax
  omega

/-! ## `rs_modnn` is the remainder -/

theorem rsModnn_shrink (mm x : Nat) :
    (x >>> mm) + (x &&& (2 ^ mm - 1)) ≤ x ∧
      ((x >>> mm) + (x &&& (2 ^ mm - 1))) % (2 ^ mm - 1) = x % (2 ^ mm - 1) := by
  rw [Nat.shiftRight_eq_div_pow, Nat.and_two_pow_sub_one_eq_mod]
  have hsplit := Nat.div_add_mod x (2 ^ mm)
  have hpos : 0 < 2 ^ mm := Nat.two_pow_pos mm
  obtain ⟨n, hn⟩ : ∃ n, 2 ^ mm = n + 1 := ⟨2 ^ mm - 1, by omega⟩
  rw [hn] at hsplit ⊢
  have hmul : (n + 1) * (x / (n + 1)) = n * (x / (n + 1)) + x / (n + 1) := by
    rw [Nat.add_mul, Nat.one_mul]
  refine ⟨by omega, ?_⟩
  have hx : x = (x / (n + 1) + x % (n + 1)) + n * (x / (n + 1)) := by omega
  rw [Nat.add_sub_cancel]
  conv_rhs => rw [hx]
  rw [Nat.add_mul_mod_self_left]

theorem rsModnnLoop_eq_mod {mm : Nat} (hmm : 0 < mm) :
    ∀ {fuel x : Nat}, x ≤ fuel → rsModnnLoop mm (2 ^ mm - 1) fuel x = x % (2 ^ mm - 1)
  | 0, x, hx => by
    have : x = 0 := Nat.le_zero.mp hx
    simp [rsModnnLoop, this]
  | fuel + 1, x, hx => by
    have hnn : 0 < 2 ^ mm - 1 := by
      have := Nat.one_lt_two_pow (Nat.pos_iff_ne_zero.mp hmm)
      omega
    rw [rsModnnLoop]
    split
    · rename_i hle
      obtain ⟨hshrink, hmod⟩ := rsModnn_shrink mm (x - (2 ^ mm - 1))
      rw [rsModnnLoop_eq_mod hmm (by omega), hmod, ← Nat.mod_eq_sub_mod hle]
    · rename_i hlt
      exact (Nat.mod_eq_of_lt (by omega)).symm

/-- `rs_modnn` returns, and returns the remainder: `x` turns of its loop are enough. -/
theorem rsModnn_eq_mod {rs : RsControl} (hmm : 0 < rs.mm) (hnn : rs.nn = 2 ^ rs.mm - 1)
    (x : Nat) : rsModnn rs x = x % rs.nn := by
  unfold rsModnn
  rw [hnn]
  exact rsModnnLoop_eq_mod hmm (Nat.le_refl x)

end Rs
end CpeClock
