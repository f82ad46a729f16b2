import Mathlib.Data.List.ReduceOption

/-!
# A slot that keeps the latest value

One side puts values into a slot whenever it has one, the other takes what is there whenever it
comes by. A value that is put on another replaces it. `takes_sublist` is what always holds, in
every order of the two: nothing is taken twice, and nothing out of order. What may happen is that a
value is replaced before it is taken, and `KeepsUp` is exactly when it does not
(`takes_complete_iff`).
-/

namespace CpeClock
namespace Lib
namespace LatestValue

variable {α : Type*}

/-- What either side does. -/
inductive Op (α : Type*) where
  | put (a : α)
  | take

/-- What the slot keeps after some operations. -/
def kept : List (Op α) → Option α → Option α
  | [], slot => slot
  | .put a :: ops, _ => kept ops (some a)
  | .take :: ops, _ => kept ops none

/-- What is taken, each time. -/
def takes : List (Op α) → Option α → List (Option α)
  | [], _ => []
  | .put a :: ops, _ => takes ops (some a)
  | .take :: ops, slot => slot :: takes ops none

def puts : List (Op α) → List α
  | [] => []
  | .put a :: ops => a :: puts ops
  | .take :: ops => puts ops

/-- No value is put on another. -/
def KeepsUp : List (Op α) → Option α → Prop
  | [], _ => True
  | .put a :: ops, slot => slot = none ∧ KeepsUp ops (some a)
  | .take :: ops, _ => KeepsUp ops none

theorem kept_append (ops ops' : List (Op α)) (slot : Option α) :
    kept (ops ++ ops') slot = kept ops' (kept ops slot) := by
  induction ops generalizing slot with
  | nil => rfl
  | cons op ops ih => cases op <;> exact ih _

theorem takes_append (ops ops' : List (Op α)) (slot : Option α) :
    takes (ops ++ ops') slot = takes ops slot ++ takes ops' (kept ops slot) := by
  induction ops generalizing slot with
  | nil => rfl
  | cons op ops ih =>
    cases op with
    | put a => exact ih (some a)
    | take => exact congrArg (slot :: ·) (ih none)

theorem puts_append (ops ops' : List (Op α)) : puts (ops ++ ops') = puts ops ++ puts ops' := by
  induction ops with
  | nil => rfl
  | cons op ops ih =>
    cases op with
    | put a => exact congrArg (a :: ·) ih
    | take => exact ih

/-! ## Values put between two takes -/

theorem takes_puts (as : List α) (slot : Option α) : takes (as.map Op.put) slot = [] := by
  induction as generalizing slot with
  | nil => rfl
  | cons a as ih => exact ih (some a)

theorem puts_puts (as : List α) : puts (as.map Op.put) = as := by
  induction as with
  | nil => rfl
  | cons a as ih => exact congrArg (a :: ·) ih

/-! ## All along -/

/-- **Nothing is taken twice, or out of order.** What is in the slot at last comes after what was
    taken. -/
theorem takes_sublist (ops : List (Op α)) (slot : Option α) :
    ((takes ops slot).reduceOption ++ (kept ops slot).toList).Sublist
      (slot.toList ++ puts ops) := by
  induction ops generalizing slot with
  | nil =>
    rw [puts, List.append_nil]
    exact List.Sublist.refl _
  | cons op ops ih =>
    cases op with
    | put a => exact (ih (some a)).trans (List.sublist_append_right slot.toList (a :: puts ops))
    | take =>
      cases slot with
      | none => exact ih none
      | some a => exact (ih none).cons_cons a

theorem KeepsUp.takes_complete {ops : List (Op α)} {slot : Option α} (h : KeepsUp ops slot) :
    (takes ops slot).reduceOption ++ (kept ops slot).toList = slot.toList ++ puts ops := by
  induction ops generalizing slot with
  | nil => exact (List.append_nil _).symm
  | cons op ops ih =>
    cases op with
    | put a =>
      obtain ⟨rfl, hops⟩ := h
      exact ih hops
    | take =>
      cases slot with
      | none => exact ih h
      | some a => exact congrArg (a :: ·) (ih h)

/-- **Everything is taken if and only if no value is put on another.** -/
theorem takes_complete_iff (ops : List (Op α)) (slot : Option α) :
    (takes ops slot).reduceOption ++ (kept ops slot).toList = slot.toList ++ puts ops
      ↔ KeepsUp ops slot := by
  refine ⟨fun h => ?_, KeepsUp.takes_complete⟩
  induction ops generalizing slot with
  | nil => trivial
  | cons op ops ih =>
    cases op with
    | put a =>
      cases slot with
      | none => exact ⟨rfl, ih (some a) h⟩
      | some b =>
        -- The value that was there is not among what is taken from now on.
        have hlength := congrArg List.length h
        have hle := (takes_sublist ops (some a)).length_le
        simp only [takes, kept, puts, List.length_append, List.length_cons,
          Option.toList_some, List.length_nil] at hlength hle
        omega
    | take =>
      cases slot with
      | none => exact ih none h
      | some b => exact ih none (List.cons.inj h).2

/-! ## Stretches in which nothing is put -/

theorem keepsUp_append (ops ops' : List (Op α)) (slot : Option α) :
    KeepsUp (ops ++ ops') slot ↔ KeepsUp ops slot ∧ KeepsUp ops' (kept ops slot) := by
  induction ops generalizing slot with
  | nil => exact (iff_of_eq (true_and _)).symm
  | cons op ops ih =>
    cases op with
    | put a => exact (and_congr_right fun _ => ih (some a)).trans and_assoc.symm
    | take => exact ih none

theorem keepsUp_of_quiet {ops : List (Op α)} (h : puts ops = []) (slot : Option α) :
    KeepsUp ops slot := by
  induction ops generalizing slot with
  | nil => trivial
  | cons op ops ih =>
    cases op with
    | put a => cases h
    | take => exact ih h none

theorem kept_of_quiet {ops : List (Op α)} (h : puts ops = []) (htake : Op.take ∈ ops)
    (slot : Option α) : kept ops slot = none := by
  induction ops generalizing slot with
  | nil => cases htake
  | cons op ops ih =>
    cases op with
    | put a => cases h
    | take =>
      show kept ops none = none
      by_cases hmore : Op.take ∈ ops
      · exact ih h hmore none
      · cases ops with
        | nil => rfl
        | cons op ops =>
          cases op with
          | put a => cases h
          | take => exact absurd List.mem_cons_self hmore

/-- **A take between any two puts is enough.** -/
theorem keepsUp_quiet_put {ops ops' : List (Op α)} (h : puts ops = []) (htake : Op.take ∈ ops)
    {as : List α} (has : as.length ≤ 1) (hlater : ∀ slot, KeepsUp ops' slot) (slot : Option α) :
    KeepsUp (ops ++ (as.map Op.put ++ ops')) slot := by
  rw [keepsUp_append, kept_of_quiet h htake]
  refine ⟨keepsUp_of_quiet h slot, ?_⟩
  cases as with
  | nil => exact hlater none
  | cons a as =>
    have hnone : as.length ≤ 0 := Nat.le_of_succ_le_succ has
    obtain rfl : as = [] := List.eq_nil_of_length_eq_zero (Nat.le_zero.mp hnone)
    exact ⟨rfl, hlater (some a)⟩

end LatestValue
end Lib
end CpeClock
