import CpeClock.Lib.LogTables
import CpeClock.Rs.Control
import Mathlib.Data.Int.GCD
import Mathlib.Data.Nat.Bitwise
import Mathlib.Data.Nat.Prime.Basic

/-!
# `reed_solomon.c` — what `init_rs` makes of its parameters

`rs_init` takes any field polynomial, fills the two tables with the powers of the element `x`, and
refuses the polynomial if the last power does not come back to the first: "If it's not primitive,
exit". Then it looks for the `prim`-th root of 1, in a loop that ends within the range of `int`
exactly if `prim` has no divisor in common with the number of powers (`findIprim_isSome_iff`). What
is returned is right exactly if the powers do not come back earlier as well (`initRs_right_iff`).

Where the number of powers is a prime, as it is for symbols of five bits, whatever is returned is
right (`initRs_isSome_iff_of_prime`). Otherwise polynomials are accepted that are not primitive, and
for symbols of more than one bit the sanity checks always let a `prim` through for which the loop
overflows.
-/

namespace CpeClock
namespace Rs

open Lib Function

/-- Parameters of `init_rs` for which C says what is done, unless `iprim` overflows. -/
structure Params where
  symsize : Int
  gfpoly : Int
  fcr : Int
  prim : Int
  nroots : Int
  symsize_le : symsize ≤ 15
  gfpoly_ne : gfpoly ≠ 0
  deriving DecidableEq

namespace Params

def initRs (p : Params) : Option RsControl :=
  Rs.initRs p.symsize p.gfpoly p.fcr p.prim p.nroots

/-- The bits of a symbol. -/
abbrev bits (p : Params) : Nat := p.symsize.toNat

/-- What the sanity checks ask for. -/
structure Sane (p : Params) : Prop where
  symsize : 1 ≤ p.symsize
  fcr : 0 ≤ p.fcr ∧ p.fcr < 2 ^ p.bits
  prim : 0 < p.prim ∧ p.prim < 2 ^ p.bits
  nroots : 0 ≤ p.nroots ∧ p.nroots < 2 ^ p.bits

theorem Sane.bits_pos {p : Params} (h : p.Sane) : 0 < p.bits := by
  have hsymsize := h.symsize
  unfold bits
  omega

theorem bits_le (p : Params) : p.bits ≤ 15 := by
  have hle := p.symsize_le
  unfold bits
  omega

theorem Sane.prim_pos {p : Params} (h : p.Sane) : 0 < p.prim.toNat := by
  have hprim := h.prim
  omega

theorem Sane.prim_lt {p : Params} (h : p.Sane) : p.prim.toNat < 2 ^ p.bits := by
  have hprim := h.prim
  rw [Int.toNat_lt (Int.le_of_lt hprim.1), Nat.cast_pow]
  exact hprim.2

theorem initRs_of_sane {p : Params} (h : p.Sane) :
    p.initRs = rsInit p.bits p.gfpoly p.fcr.toNat p.prim.toNat p.nroots.toNat := by
  obtain ⟨hsymsize, hfcr, hprim, hnroots⟩ := h
  have hshift : ((1 <<< p.symsize.toNat : Nat) : Int) = 2 ^ p.bits := by
    rw [Nat.one_shiftLeft, Nat.cast_pow, Nat.cast_ofNat]
  unfold initRs Rs.initRs
  rw [hshift, if_neg (by omega), if_neg (by omega), if_neg (by omega), if_neg (by omega)]

theorem initRs_of_not_sane {p : Params} (h : ¬ p.Sane) : p.initRs = none := by
  have hshift : ((1 <<< p.symsize.toNat : Nat) : Int) = 2 ^ p.bits := by
    rw [Nat.one_shiftLeft, Nat.cast_pow, Nat.cast_ofNat]
  unfold initRs Rs.initRs
  rw [hshift]
  split_ifs with hsymsize hfcr hprim hnroots
  · rfl
  · rfl
  · rfl
  · rfl
  · exact absurd ⟨by omega, by omega, by omega, by omega⟩ h

end Params

/-! ## The powers -/

/-- The next power, in `rs_init`. -/
def nextPower (symsize : Nat) (gfpoly : Int) (sr : Nat) : Nat :=
  let sr := sr <<< 1
  let sr := if sr &&& (1 <<< symsize) ≠ 0 then sr ^^^ intBits gfpoly else sr
  sr &&& ((1 <<< symsize) - 1)

theorem nextPower_lt (symsize : Nat) (gfpoly : Int) (sr : Nat) :
    nextPower symsize gfpoly sr < 2 ^ symsize := by
  unfold nextPower
  dsimp only
  rw [Nat.one_shiftLeft, Nat.and_two_pow_sub_one_eq_mod]
  exact Nat.mod_lt _ (Nat.two_pow_pos symsize)

theorem nextPower_zero (symsize : Nat) (gfpoly : Int) : nextPower symsize gfpoly 0 = 0 := by
  simp [nextPower]

/-- With more than one bit, the second power is not the first. -/
theorem nextPower_one {symsize : Nat} (h : 2 ≤ symsize) (gfpoly : Int) :
    nextPower symsize gfpoly 1 = 2 := by
  have hlt : 2 < 2 ^ symsize := by
    have hle := Nat.pow_le_pow_right (show 0 < 2 by decide) h
    omega
  have hbit : 2 &&& 2 ^ symsize = 0 := by
    rw [Nat.and_two_pow, Nat.testBit_lt_two_pow hlt, Bool.toNat_false, Nat.zero_mul]
  have hshift : 1 <<< 1 = 2 := rfl
  unfold nextPower
  dsimp only
  rw [hshift, Nat.one_shiftLeft, Nat.and_two_pow_sub_one_eq_mod, hbit, if_neg (not_not.mpr rfl),
    Nat.mod_eq_of_lt hlt]

theorem iterate_nextPower_lt {symsize : Nat} (h : 0 < symsize) (gfpoly : Int) (i : Nat) :
    (nextPower symsize gfpoly)^[i] 1 < 2 ^ symsize := by
  cases i with
  | zero => exact Nat.one_lt_two_pow (Nat.pos_iff_ne_zero.mp h)
  | succ i =>
    rw [iterate_succ_apply']
    exact nextPower_lt symsize gfpoly _

/-- If a later power is 1, no power before is zero. -/
theorem iterate_nextPower_pos {symsize n : Nat} {gfpoly : Int}
    (h : (nextPower symsize gfpoly)^[n] 1 = 1) {i : Nat} (hi : i < n) :
    0 < (nextPower symsize gfpoly)^[i] 1 := by
  by_contra hzero
  have hzero : (nextPower symsize gfpoly)^[i] 1 = 0 := Nat.eq_zero_of_not_pos hzero
  have hstays (k : Nat) : (nextPower symsize gfpoly)^[k] 0 = 0 :=
    iterate_fixed (nextPower_zero symsize gfpoly) k
  have hsplit : n = (n - i) + i := (Nat.sub_add_cancel (Nat.le_of_lt hi)).symm
  rw [hsplit, iterate_add_apply, hzero, hstays] at h
  exact absurd h (by decide)

/-! ## The tables -/

/-- Each table undoes the other. -/
structure RightTables (rs : RsControl) : Prop where
  index_alpha : ∀ i < rs.nn, rs.index (rs.alpha i) = i
  alpha_index : ∀ v, 0 < v → v ≤ rs.nn → rs.alpha (rs.index v) = v

section

variable {symsize : Nat} {gfpoly : Int} {fcr prim nroots : Nat}

/-- `nn` is positive. -/
theorem two_pow_sub_one_pos (hm : 0 < symsize) : 0 < 2 ^ symsize - 1 :=
  Nat.sub_pos_of_lt (Nat.one_lt_two_pow (Nat.pos_iff_ne_zero.mp hm))

/-- Up to 16 bits, what is stored in a table is what was to be stored. -/
theorem toUint16_eq {n : Nat} (hle : symsize ≤ 15) (hn : n < 2 ^ symsize) : toUint16 n = n := by
  have hpow : 2 ^ symsize ≤ 2 ^ 15 := Nat.pow_le_pow_right (by decide) hle
  exact Nat.mod_eq_of_lt (by omega)

/-- The tables are those of the powers and of their logarithms. -/
theorem gfTables_eq (hm : 0 < symsize) (hle : symsize ≤ 15) (gfpoly : Int) :
    gfTables symsize gfpoly = LogTables.fill (nextPower symsize gfpoly) (2 ^ symsize - 1) 1
      ((List.replicate (2 ^ symsize - 1 + 1) 0).set (2 ^ symsize - 1) 0)
      ((List.replicate (2 ^ symsize - 1 + 1) 0).set 0 (2 ^ symsize - 1)) := by
  have hpos := Nat.two_pow_pos symsize
  have hturns (alphaTo indexOf : List Nat) (n : Nat) (hn : n ≤ 2 ^ symsize - 1) :
      (List.range n).foldl (gfTablesStep symsize gfpoly) (1, alphaTo, indexOf)
        = LogTables.fill (nextPower symsize gfpoly) n 1 alphaTo indexOf := by
    induction n with
    | zero => rfl
    | succ n ih =>
      have hvalue : (LogTables.fill (nextPower symsize gfpoly) n 1 alphaTo indexOf).1
          < 2 ^ symsize := by
        rw [LogTables.fill_value]
        exact iterate_nextPower_lt hm gfpoly n
      rw [List.range_succ, List.foldl_append, ih (Nat.le_of_succ_le hn), List.foldl_cons,
        List.foldl_nil, LogTables.fill_succ]
      unfold gfTablesStep
      dsimp only
      rw [toUint16_eq hle hvalue, toUint16_eq hle (by omega)]
      rfl
  unfold gfTables
  rw [Nat.one_shiftLeft]
  dsimp only
  rw [toUint16_eq hle (by omega)]
  exact hturns _ _ _ (Nat.le_refl _)

/-- **When `rs_init` accepts a polynomial**: the last power comes back to the first. -/
theorem rsInit_eq (hm : 0 < symsize) (hle : symsize ≤ 15) :
    (nextPower symsize gfpoly)^[2 ^ symsize - 1] 1 ≠ 1 ∧
        rsInit symsize gfpoly fcr prim nroots = none ∨
      (nextPower symsize gfpoly)^[2 ^ symsize - 1] 1 = 1 ∧
        rsInit symsize gfpoly fcr prim nroots
          = (findIprim (2 ^ symsize - 1) prim intMax 1).map fun iprim =>
            let rs : RsControl :=
              { mm := symsize
                nn := 2 ^ symsize - 1
                alphaTo := (gfTables symsize gfpoly).2.1
                indexOf := (gfTables symsize gfpoly).2.2
                genpoly := []
                nroots := nroots
                fcr := fcr
                prim := prim
                iprim := iprim / prim
                gfpoly := gfpoly }
            { rs with genpoly := genpolyOf rs } := by
  have hfirst : (gfTables symsize gfpoly).2.1.getD 0 0 = 1 := by
    rw [gfTables_eq hm hle]
    exact LogTables.getD_alphaTo (by simp) (two_pow_sub_one_pos hm)
  have hlast : (gfTables symsize gfpoly).1
      = (nextPower symsize gfpoly)^[2 ^ symsize - 1] 1 := by
    rw [gfTables_eq hm hle, LogTables.fill_value]
  unfold rsInit
  dsimp only
  rw [hfirst, hlast, Nat.one_shiftLeft]
  by_cases hback : (nextPower symsize gfpoly)^[2 ^ symsize - 1] 1 = 1
  · exact .inr ⟨hback, if_neg (not_not.mpr hback)⟩
  · exact .inl ⟨hback, if_pos hback⟩

/-- What is in the structure. -/
theorem rsInit_fields (hm : 0 < symsize) (hle : symsize ≤ 15) {rs : RsControl}
    (h : rsInit symsize gfpoly fcr prim nroots = some rs) :
    (nextPower symsize gfpoly)^[2 ^ symsize - 1] 1 = 1 ∧ rs.nn = 2 ^ symsize - 1 ∧
      rs.alphaTo = (gfTables symsize gfpoly).2.1 ∧ rs.indexOf = (gfTables symsize gfpoly).2.2 ∧
      rs.prim = prim ∧
      ∃ iprim, findIprim (2 ^ symsize - 1) prim intMax 1 = some iprim ∧
        rs.iprim = iprim / prim := by
  rcases @rsInit_eq symsize gfpoly fcr prim nroots hm hle with ⟨-, hnone⟩ | ⟨hback, hsome⟩
  · rw [hnone] at h
    cases h
  · rw [hsome] at h
    obtain ⟨iprim, hiprim, rfl⟩ := Option.map_eq_some_iff.mp h
    exact ⟨hback, rfl, rfl, rfl, rfl, iprim, hiprim, rfl⟩

/-- The logarithms are right exactly if the powers do not come back before the last one. -/
theorem index_alpha_iff (hm : 0 < symsize) (hle : symsize ≤ 15) {rs : RsControl}
    (h : rsInit symsize gfpoly fcr prim nroots = some rs) :
    (∀ i < rs.nn, rs.index (rs.alpha i) = i)
      ↔ minimalPeriod (nextPower symsize gfpoly) 1 = 2 ^ symsize - 1 := by
  obtain ⟨hback, hnn, halpha, hindex, -⟩ := rsInit_fields hm hle h
  unfold RsControl.index RsControl.alpha
  rw [hnn, halpha, hindex, gfTables_eq hm hle]
  refine LogTables.index_alpha_iff (two_pow_sub_one_pos hm) (by simp) (fun i => ?_) hback
  rw [List.length_set, List.length_replicate, Nat.sub_add_cancel (Nat.two_pow_pos symsize)]
  exact iterate_nextPower_lt hm gfpoly i

theorem rightTables_iff (hm : 0 < symsize) (hle : symsize ≤ 15) {rs : RsControl}
    (h : rsInit symsize gfpoly fcr prim nroots = some rs) :
    RightTables rs ↔ minimalPeriod (nextPower symsize gfpoly) 1 = 2 ^ symsize - 1 := by
  rw [← index_alpha_iff hm hle h]
  refine ⟨fun hright => hright.index_alpha, fun hindex => ⟨hindex, fun v hpos hlast => ?_⟩⟩
  obtain ⟨hback, hnn, halpha, -⟩ := rsInit_fields hm hle h
  have hperiod := (index_alpha_iff hm hle h).mp hindex
  have hvalues : ∀ i < 2 ^ symsize - 1,
      (nextPower symsize gfpoly)^[i] 1 ∈ Finset.Icc 1 (2 ^ symsize - 1) := fun i hi =>
    Finset.mem_Icc.mpr ⟨iterate_nextPower_pos hback hi,
      Nat.le_sub_one_of_lt (iterate_nextPower_lt hm gfpoly i)⟩
  have hinj : (Set.Iio (2 ^ symsize - 1)).InjOn ((nextPower symsize gfpoly)^[·] 1) := by
    rw [← hperiod]
    exact iterate_injOn_Iio_minimalPeriod
  rw [hnn] at hlast
  obtain ⟨i, hi, rfl⟩ :=
    LogTables.exists_iterate_eq hvalues hinj (Finset.mem_Icc.mpr ⟨hpos, hlast⟩)
  have hpower : rs.alpha i = (nextPower symsize gfpoly)^[i] 1 := by
    unfold RsControl.alpha
    rw [halpha, gfTables_eq hm hle]
    exact LogTables.getD_alphaTo (by simp) hi
  rw [← hpower, hindex i (hnn ▸ hi)]

end

/-! ## The `prim`-th root of 1 -/

/-- What the loop "Find prim-th root of 1" finds. -/
theorem findIprim_eq_some {nn prim : Nat} : ∀ {fuel iprim found : Nat},
    findIprim nn prim fuel iprim = some found →
      found % prim = 0 ∧ ∃ turns, found = iprim + turns * nn
  | 0, _, _, h => by cases h
  | fuel + 1, iprim, found, h => by
    rw [findIprim] at h
    split_ifs at h with hne hle
    · obtain ⟨hzero, turns, rfl⟩ := findIprim_eq_some h
      exact ⟨hzero, turns + 1, by rw [Nat.succ_mul]; omega⟩
    · obtain rfl := Option.some.inj h
      exact ⟨not_not.mp hne, 0, by rw [Nat.zero_mul, Nat.add_zero]⟩

/-- It finds something that is there, in the range of `int`. -/
theorem findIprim_isSome {nn prim : Nat} : ∀ {fuel iprim turns : Nat}, turns < fuel →
    iprim + turns * nn ≤ intMax → (iprim + turns * nn) % prim = 0 →
      (findIprim nn prim fuel iprim).isSome
  | 0, _, _, hlt, _, _ => absurd hlt (Nat.not_lt_zero _)
  | fuel + 1, iprim, turns, hlt, hle, hfound => by
    rw [findIprim]
    split_ifs with hne hnext
    · cases turns with
      | zero =>
        rw [Nat.zero_mul, Nat.add_zero] at hfound
        exact absurd hfound hne
      | succ turns =>
        have hsum : iprim + (turns + 1) * nn = iprim + nn + turns * nn := by
          rw [Nat.succ_mul]
          omega
        rw [hsum] at hle hfound
        exact findIprim_isSome (Nat.lt_of_succ_lt_succ hlt) hle hfound
    · cases turns with
      | zero =>
        rw [Nat.zero_mul, Nat.add_zero] at hfound
        exact absurd hfound hne
      | succ turns =>
        rw [Nat.succ_mul] at hle
        omega
    · rfl

/-- **When the last loop ends** within the range of `int`. -/
theorem findIprim_isSome_iff {symsize prim : Nat} (hle : symsize ≤ 15) (hpos : 0 < prim)
    (hlt : prim < 2 ^ symsize) :
    (findIprim (2 ^ symsize - 1) prim intMax 1).isSome ↔ Nat.Coprime prim (2 ^ symsize - 1) := by
  constructor
  · intro hsome
    obtain ⟨found, hfound⟩ := Option.isSome_iff_exists.mp hsome
    obtain ⟨hzero, turns, rfl⟩ := findIprim_eq_some hfound
    have hdvd : prim.gcd (2 ^ symsize - 1) ∣ 1 + turns * (2 ^ symsize - 1) :=
      (Nat.gcd_dvd_left prim _).trans (Nat.dvd_of_mod_eq_zero hzero)
    exact Nat.dvd_one.mp
      ((Nat.dvd_add_left (Dvd.dvd.mul_left (Nat.gcd_dvd_right prim _) turns)).mp hdvd)
  · intro hcoprime
    -- It is there after fewer than `prim` turns.
    obtain ⟨turns, hturns, hfound⟩ := Nat.exists_mul_mod_eq_of_coprime (prim - 1) hcoprime.symm
      (Nat.pos_iff_ne_zero.mp hpos)
    have hpow : 2 ^ symsize ≤ 2 ^ 15 := Nat.pow_le_pow_right (by decide) hle
    have hmul : turns * (2 ^ symsize - 1) ≤ 2 ^ 15 * 2 ^ 15 :=
      Nat.mul_le_mul (by omega) (by omega)
    refine @findIprim_isSome _ _ _ _ turns ?_ ?_ ?_
    · unfold intMax
      omega
    · unfold intMax
      omega
    · rw [Nat.mul_comm, Nat.add_mod, hfound, ← Nat.add_mod, Nat.add_sub_cancel' hpos,
        Nat.mod_self]

/-- What it finds is the inverse of `prim`. -/
theorem findIprim_inverse {nn prim found : Nat} (h : findIprim nn prim intMax 1 = some found) :
    prim * (found / prim) % nn = 1 % nn := by
  obtain ⟨hzero, turns, rfl⟩ := findIprim_eq_some h
  rw [Nat.mul_div_cancel' (Nat.dvd_of_mod_eq_zero hzero), Nat.add_mul_mod_self_right]

/-! ## What is returned -/

/-- The tables are right, and `iprim` is the inverse of `prim`. -/
structure Right (rs : RsControl) : Prop extends RightTables rs where
  iprim : rs.prim * rs.iprim % rs.nn = 1 % rs.nn

namespace Params

/-- The powers of the element `x` do not come back before the last one. -/
def Primitive (p : Params) : Prop := minimalPeriod (nextPower p.bits p.gfpoly) 1 = 2 ^ p.bits - 1

variable {p : Params}

/-- **When there is a structure**: the last power comes back, and the last loop ends. -/
theorem initRs_isSome_iff : p.initRs.isSome ↔
    p.Sane ∧ (nextPower p.bits p.gfpoly)^[2 ^ p.bits - 1] 1 = 1 ∧
      Nat.Coprime p.prim.toNat (2 ^ p.bits - 1) := by
  by_cases hsane : p.Sane
  · rw [initRs_of_sane hsane, ← findIprim_isSome_iff p.bits_le hsane.prim_pos hsane.prim_lt]
    rcases @rsInit_eq p.bits p.gfpoly p.fcr.toNat p.prim.toNat p.nroots.toNat hsane.bits_pos
      p.bits_le with ⟨hback, hnone⟩ | ⟨hback, hsome⟩
    · rw [hnone]
      exact iff_of_false Bool.false_ne_true fun h => hback h.2.1
    · rw [hsome, Option.isSome_map]
      exact ⟨fun h => ⟨hsane, hback, h⟩, fun h => h.2.2⟩
  · rw [initRs_of_not_sane hsane]
    exact iff_of_false Bool.false_ne_true fun h => hsane h.1

theorem right_iff (hsane : p.Sane) {rs : RsControl} (h : p.initRs = some rs) :
    Right rs ↔ p.Primitive := by
  rw [initRs_of_sane hsane] at h
  obtain ⟨-, hnn, -, -, hprim, iprim, hfound, hiprim⟩ := rsInit_fields hsane.bits_pos p.bits_le h
  rw [Primitive, ← rightTables_iff hsane.bits_pos p.bits_le h]
  refine ⟨fun hright => hright.toRightTables, fun htables => ⟨htables, ?_⟩⟩
  rw [hnn, hprim, hiprim]
  exact findIprim_inverse hfound

/-- **What is returned is right**, for any field polynomial, exactly if its element `x` is
    primitive; and it is returned exactly if the parameters pass the sanity checks and `prim` has no
    divisor in common with the number of powers as well. -/
theorem initRs_right_iff (p : Params) :
    (∃ rs, p.initRs = some rs ∧ Right rs)
      ↔ p.Sane ∧ p.Primitive ∧ Nat.Coprime p.prim.toNat (2 ^ p.bits - 1) := by
  constructor
  · rintro ⟨rs, h, hright⟩
    obtain ⟨hsane, -, hcoprime⟩ := initRs_isSome_iff.mp (by rw [h]; rfl)
    exact ⟨hsane, (right_iff hsane h).mp hright, hcoprime⟩
  · rintro ⟨hsane, hprimitive, hcoprime⟩
    have hback : (nextPower p.bits p.gfpoly)^[2 ^ p.bits - 1] 1 = 1 := by
      rw [← hprimitive]
      exact iterate_minimalPeriod
    obtain ⟨rs, h⟩ := Option.isSome_iff_exists.mp (initRs_isSome_iff.mpr ⟨hsane, hback, hcoprime⟩)
    exact ⟨rs, h, (right_iff hsane h).mpr hprimitive⟩

/-- Four bits: a polynomial that is primitive, and one whose powers come back after five. -/
example : (∃ rs, initRs ⟨4, 0x13, 1, 1, 4, by decide, by decide⟩ = some rs ∧
      rs.index (rs.alpha 5) = 5) ∧
    ∃ rs, initRs ⟨4, 0x1f, 1, 1, 4, by decide, by decide⟩ = some rs ∧
      rs.index (rs.alpha 0) = 10 :=
  ⟨⟨_, rfl, by decide⟩, ⟨_, rfl, by decide⟩⟩

/-- **Where the number of powers is a prime**, whatever is returned is right; the one `prim` for
    which nothing is returned is that number, which the sanity checks let through: then `iprim`
    leaves the range of `int`. -/
theorem initRs_isSome_iff_of_prime (hsane : p.Sane) (hprime : (2 ^ p.bits - 1).Prime) :
    (∀ rs, p.initRs = some rs → Right rs) ∧
      (p.initRs.isSome ↔ p.Primitive ∧ p.prim.toNat ≠ 2 ^ p.bits - 1) ∧
      (findIprim (2 ^ p.bits - 1) p.prim.toNat intMax 1 = none
        ↔ p.prim.toNat = 2 ^ p.bits - 1) := by
  have hbits : 2 ≤ p.bits := by
    by_contra hlt
    have hone := hprime.one_lt
    have hpow : 2 ^ p.bits ≤ 2 ^ 1 := Nat.pow_le_pow_right (by decide) (by omega)
    omega
  have hcoprime : Nat.Coprime p.prim.toNat (2 ^ p.bits - 1)
      ↔ p.prim.toNat ≠ 2 ^ p.bits - 1 := by
    constructor
    · intro hcoprime heq
      rw [heq, Nat.coprime_self] at hcoprime
      exact hprime.one_lt.ne' hcoprime
    · intro hne
      have hlt := hsane.prim_lt
      exact (Nat.coprime_of_lt_prime (Nat.pos_iff_ne_zero.mp hsane.prim_pos)
        (by omega) hprime).symm
  have hprimitive : (nextPower p.bits p.gfpoly)^[2 ^ p.bits - 1] 1 = 1 ↔ p.Primitive := by
    constructor
    · intro hback
      have hmoves : ¬ IsFixedPt (nextPower p.bits p.gfpoly) 1 := by
        intro hfixed
        have hone := hfixed.eq
        rw [nextPower_one hbits] at hone
        exact absurd hone (by decide)
      have hfact : Fact (2 ^ p.bits - 1).Prime := ⟨hprime⟩
      exact minimalPeriod_eq_prime hback hmoves
    · intro hprimitive
      rw [← hprimitive]
      exact iterate_minimalPeriod
  refine ⟨fun rs h => ?_, ?_, ?_⟩
  · obtain ⟨-, hback, -⟩ := initRs_isSome_iff.mp (by rw [h]; rfl)
    exact (right_iff hsane h).mpr (hprimitive.mp hback)
  · rw [initRs_isSome_iff, hprimitive, hcoprime]
    exact ⟨fun h => h.2, fun h => ⟨hsane, h⟩⟩
  · rw [← Option.not_isSome_iff_eq_none,
      findIprim_isSome_iff p.bits_le hsane.prim_pos hsane.prim_lt, hcoprime, not_not]

/-- Five bits: another polynomial than that of the clock, and a `prim` that should have been
    refused. -/
def sampleFive (prim : Int) : Params := ⟨5, 0x3d, 1, prim, 10, by decide, by decide⟩

theorem initRs_isSome_iff_of_prime_sample :
    (∃ rs, (sampleFive 3).initRs = some rs ∧ Right rs) ∧
      findIprim 31 (sampleFive 31).prim.toNat intMax 1 = none := by
  have hsane (prim : Int) (h : 0 < prim ∧ prim < 32) : (sampleFive prim).Sane :=
    ⟨(by decide : (1 : Int) ≤ 5), (by decide : (0 : Int) ≤ 1 ∧ (1 : Int) < 2 ^ 5), h,
      (by decide : (0 : Int) ≤ 10 ∧ (10 : Int) < 2 ^ 5)⟩
  obtain ⟨hright, -, -⟩ :=
    initRs_isSome_iff_of_prime (hsane 3 (by decide)) (by decide : (31).Prime)
  obtain ⟨-, -, hoverflow⟩ :=
    initRs_isSome_iff_of_prime (hsane 31 (by decide)) (by decide : (31).Prime)
  have hsome : (sampleFive 3).initRs.isSome := by decide +kernel
  obtain ⟨rs, hrs⟩ := Option.isSome_iff_exists.mp hsome
  exact ⟨⟨rs, hrs, hright rs hrs⟩, hoverflow.mpr rfl⟩

end Params
end Rs
end CpeClock
