import CpeClock.Rs.Control

/-!
# `encode_rs.h` and `decode_rs.h`

The two bodies that `encode_rs8` and `decode_rs8` include, loop by loop. The decoder is
specialised to the one call there is, in `ncrs_decode`: `s = NULL`, `no_eras = 0`,
`eras_pos = NULL`, `invmsk = 0`, `corr = NULL`. So there is no erasure branch here, the
syndrome is always computed, and corrections always go to `data`.

An `int` that is negative only as the failure code is a `none`: `decodeRs8` answers
`some (count, data)` where the source returns `count ≥ 0` having corrected `data`, and
`none` where it returns `-74`, which it does before it touches `data`.
-/

namespace CpeClock
namespace Rs

/-! ## `encode_rs8` -/

/-- One turn of the encoder's loop: feed one data symbol to the shift register `par`. -/
def encodeStep (rs : RsControl) (par : List Nat) (d : Nat) : List Nat :=
  let fb := rs.index ((d &&& rs.nn) ^^^ par.getD 0 0)
  -- feedback term is non-zero
  let par := if fb ≠ rs.nn then
      par.mapIdx fun j p => if 1 ≤ j ∧ j < rs.nroots then
        p ^^^ rs.alpha (rsModnn rs (fb + rs.genpoly.getD (rs.nroots - j) 0)) else p
    else par
  -- Shift
  par.tail ++ [if fb ≠ rs.nn then rs.alpha (rsModnn rs (fb + rs.genpoly.getD 0 0)) else 0]

/-- `encode_rs8`, with `par` cleared by the caller: the parity of `data`. Its length check
    (`pad`) never fails for the caller's lengths and is not modelled. -/
def encodeRs8 (rs : RsControl) (data par : List Nat) : List Nat :=
  data.foldl (encodeStep rs) par

/-! ## `decode_rs8` — the syndromes -/

/-- The body of both syndrome loops, for the `i`th syndrome. -/
def synStep (rs : RsControl) (i syn d : Nat) : Nat :=
  if syn = 0 then d &&& rs.nn
  else (d &&& rs.nn) ^^^ rs.alpha (rsModnn rs (rs.index syn + (rs.fcr + i) * rs.prim))

/-- "form the syndromes; i.e., evaluate data(x) at roots of g(x)". -/
def syndromes (rs : RsControl) (data par : List Nat) : List Nat :=
  let syn := List.replicate rs.nroots (data.getD 0 0 &&& rs.nn)
  let syn := data.tail.foldl (fun syn d => syn.mapIdx fun i s => synStep rs i s d) syn
  par.foldl (fun syn d => syn.mapIdx fun i s => synStep rs i s d) syn

/-! ## `decode_rs8` — Berlekamp–Massey -/

/-- The variables of the loop: `lambda` in polynomial form, `b` in index form. -/
structure BmState where
  lambda : List Nat
  b : List Nat
  el : Nat
deriving DecidableEq, Repr

/-- "Compute discrepancy at the r-th step in poly-form". -/
def discrepancy (rs : RsControl) (s lambda : List Nat) (r : Nat) : Nat :=
  (List.range r).foldl (fun discr i =>
    if lambda.getD i 0 ≠ 0 ∧ s.getD (r - i - 1) 0 ≠ rs.nn then
      discr ^^^ rs.alpha (rsModnn rs (rs.index (lambda.getD i 0) + s.getD (r - i - 1) 0))
    else discr) 0

/-- "T(x) <-- lambda(x)-discr_r*x*b(x)". -/
def bmUpdate (rs : RsControl) (st : BmState) (discr : Nat) : List Nat :=
  st.lambda.getD 0 0 :: (List.range rs.nroots).map fun i =>
    if st.b.getD i 0 ≠ rs.nn then
      st.lambda.getD (i + 1) 0 ^^^ rs.alpha (rsModnn rs (discr + st.b.getD i 0))
    else st.lambda.getD (i + 1) 0

/-- "B(x) <-- x*B(x)", a `memmove` by one place. -/
def bmShift (rs : RsControl) (b : List Nat) : List Nat := rs.nn :: b.take rs.nroots

/-- "B(x) <-- inv(discr_r) * lambda(x)". -/
def bmScale (rs : RsControl) (lambda : List Nat) (discr : Nat) : List Nat :=
  (List.range (rs.nroots + 1)).map fun i =>
    if lambda.getD i 0 = 0 then rs.nn
    else rsModnn rs (rs.index (lambda.getD i 0) + rs.nn - discr)

/-- One turn of the loop, at step number `r` (counted from one). -/
def bmStep (rs : RsControl) (s : List Nat) (st : BmState) (r : Nat) : BmState :=
  let discr := rs.index (discrepancy rs s st.lambda r)
  if discr = rs.nn then { st with b := bmShift rs st.b }
  else if 2 * st.el ≤ r - 1 then
    { lambda := bmUpdate rs st discr
      b := bmScale rs st.lambda discr
      el := r - st.el }
  else
    { st with
      lambda := bmUpdate rs st discr
      b := bmShift rs st.b }

/-- The loop `while (++r <= nroots)`, from `lambda = 1`. -/
def berlekampMassey (rs : RsControl) (s : List Nat) : BmState :=
  let lambda := 1 :: List.replicate rs.nroots 0
  (List.range' 1 rs.nroots).foldl (bmStep rs s)
    { lambda := lambda, b := lambda.map rs.index, el := 0 }

/-! ## `decode_rs8` — Chien search -/

/-- "compute deg(lambda(x))", of `lambda` in index form. -/
def degLambda (rs : RsControl) (lambda : List Nat) : Nat :=
  (List.range (rs.nroots + 1)).foldl
    (fun deg i => if lambda.getD i 0 ≠ rs.nn then i else deg) 0

/-- What one turn of the search does to the registers. -/
def chienReg (rs : RsControl) (deg : Nat) (reg : List Nat) : List Nat :=
  reg.mapIdx fun j v =>
    if 1 ≤ j ∧ j ≤ deg ∧ v ≠ rs.nn then rsModnn rs (v + j) else v

/-- The sum of the registers, and one: zero exactly at a root. -/
def chienSum (rs : RsControl) (deg : Nat) (reg : List Nat) : Nat :=
  (List.range' 1 deg).foldr
    (fun j q => if reg.getD j 0 ≠ rs.nn then q ^^^ rs.alpha (reg.getD j 0) else q) 1

/-- The search itself, over the exponents `i` still to try; `k` is the error location that
    goes with the first of them. Stops as soon as `deg` roots are found. -/
def chienSearch (rs : RsControl) (deg : Nat) :
    List Nat → Nat → List Nat → List (Nat × Nat) → List (Nat × Nat)
  | [], _, _, found => found
  | i :: is, k, reg, found =>
    let reg := chienReg rs deg reg
    if chienSum rs deg reg ≠ 0 then
      chienSearch rs deg is (rsModnn rs (k + rs.iprim)) reg found
    else
      -- store root (index-form) and error location number
      let found := found ++ [(i, k)]
      if found.length = deg then found
      else chienSearch rs deg is (rsModnn rs (k + rs.iprim)) reg found

/-! ## `decode_rs8` — the error values -/

/-- "err+eras evaluator poly omega(x) = s(x)*lambda(x) (modulo x**nroots). in index form". -/
def omegaOf (rs : RsControl) (s lambda : List Nat) (deg : Nat) : List Nat :=
  (List.range deg).map fun i =>
    rs.index ((List.range (i + 1)).foldr (fun j tmp =>
      if s.getD (i - j) 0 ≠ rs.nn ∧ lambda.getD j 0 ≠ rs.nn then
        tmp ^^^ rs.alpha (rsModnn rs (s.getD (i - j) 0 + lambda.getD j 0))
      else tmp) 0)

/-- `num1`, the evaluator at a root. -/
def forneyNum (rs : RsControl) (omega : List Nat) (root : Nat) : Nat :=
  (List.range omega.length).foldr (fun i num =>
    if omega.getD i 0 ≠ rs.nn then
      num ^^^ rs.alpha (rsModnn rs (omega.getD i 0 + i * root))
    else num) 0

/-- `den`, the formal derivative of `lambda` at a root: `i` runs over the even numbers from
    `min(deg_lambda, nroots - 1) & ~1` down to zero. -/
def forneyDen (rs : RsControl) (lambda : List Nat) (deg root : Nat) : Nat :=
  (List.range (min deg (rs.nroots - 1) / 2 + 1)).foldr (fun h den =>
    let i := 2 * h
    if lambda.getD (i + 1) 0 ≠ rs.nn then
      den ^^^ rs.alpha (rsModnn rs (lambda.getD (i + 1) 0 + i * root))
    else den) 0

/-- "Apply error to data", for one root and its location. -/
def applyError (rs : RsControl) (lambda omega : List Nat) (deg pad : Nat)
    (data : List Nat) (rl : Nat × Nat) : List Nat :=
  let (root, loc) := rl
  let num1 := forneyNum rs omega root
  let num2 := rs.alpha (rsModnn rs (root * (rs.fcr - 1) + rs.nn))
  let den := forneyDen rs lambda deg root
  if num1 ≠ 0 ∧ pad ≤ loc then
    let cor := rs.alpha (rsModnn rs (rs.index num1 + rs.index num2 + rs.nn - rs.index den))
    if loc < rs.nn - rs.nroots then data.modify (loc - pad) (· ^^^ cor) else data
  else data

def decodeRs8 (rs : RsControl) (data par : List Nat) : Option (Nat × List Nat) :=
  let pad := rs.nn - rs.nroots - data.length
  let syn := syndromes rs data par
  let s := syn.map rs.index
  -- "if syndrome is zero, data[] is a codeword and there are no errors to correct"
  if syn.foldl (· ||| ·) 0 = 0 then some (0, data)
  else
    let lambda := (berlekampMassey rs s).lambda.map rs.index
    let deg := degLambda rs lambda
    let found := chienSearch rs deg (List.range' 1 rs.nn) (rs.iprim - 1) lambda []
    -- "deg(lambda) unequal to number of roots => uncorrectable error detected"
    if deg ≠ found.length then none
    else
      let omega := omegaOf rs s lambda deg
      some (found.length, found.reverse.foldl (applyError rs lambda omega deg pad) data)

end Rs
end CpeClock
