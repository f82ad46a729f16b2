import Mathlib.Data.List.Basic
import Mathlib.Data.List.Flatten

/-!
# Numbered messages and a window

A receiver keeps the least number that it still takes. It takes a message whose number is not below
that and is in the window, or is allowed to leap, and moves on past it. Nothing that it hears is
lost if and only if each message is in the window that the one before left (`flatMap_taken_eq_iff`).
-/

namespace CpeClock
namespace Lib
namespace ReplayWindow

/-- A message with a number, which may be allowed to leap out of the window. -/
structure Numbered (α : Type*) where
  number : ℕ
  leaps : Bool
  content : α

variable {α : Type*} {window : ℕ}

def Takes (window next : ℕ) (m : Numbered α) : Prop :=
  next ≤ m.number ∧ (m.leaps = true ∨ m.number < next + window)

instance (window next : ℕ) (m : Numbered α) : Decidable (Takes window next m) :=
  inferInstanceAs (Decidable (_ ∧ (_ ∨ _)))

/-- What the receiver takes of the messages that it hears. -/
def taken (window : ℕ) : ℕ → List (Numbered α) → List (Numbered α)
  | _, [] => []
  | next, m :: heard =>
    if Takes window next m then m :: taken window (m.number + 1) heard else taken window next heard

/-- The least number that it takes afterwards. -/
def nextAfter (window : ℕ) : ℕ → List (Numbered α) → ℕ
  | next, [] => next
  | next, m :: heard =>
    if Takes window next m then nextAfter window (m.number + 1) heard
    else nextAfter window next heard

/-- Each message is in the window that the one before left. -/
def InWindow (window : ℕ) : ℕ → List (Numbered α) → Prop
  | _, [] => True
  | next, m :: heard => Takes window next m ∧ InWindow window (m.number + 1) heard

theorem taken_cons_of_takes {next : ℕ} {m : Numbered α} (h : Takes window next m)
    (heard : List (Numbered α)) :
    taken window next (m :: heard) = m :: taken window (m.number + 1) heard :=
  if_pos h

theorem taken_cons_of_not_takes {next : ℕ} {m : Numbered α} (h : ¬ Takes window next m)
    (heard : List (Numbered α)) :
    taken window next (m :: heard) = taken window next heard :=
  if_neg h

/-- A message is not taken again. -/
theorem not_takes_self (m : Numbered α) : ¬ Takes window (m.number + 1) m :=
  fun h => Nat.not_succ_le_self _ h.1

theorem taken_sublist (next : ℕ) (heard : List (Numbered α)) :
    (taken window next heard).Sublist heard := by
  induction heard generalizing next with
  | nil => exact List.Sublist.refl _
  | cons m heard ih =>
    by_cases h : Takes window next m
    · rw [taken_cons_of_takes h]
      exact (ih _).cons_cons m
    · rw [taken_cons_of_not_takes h]
      exact (ih _).cons m

/-- **Nothing is lost** if and only if each message is in the window. What a message comes to is
    `f`. -/
theorem flatMap_taken_eq_iff {β : Type*} {f : Numbered α → List β} {heard : List (Numbered α)}
    (hf : ∀ m ∈ heard, f m ≠ []) (next : ℕ) :
    (taken window next heard).flatMap f = heard.flatMap f ↔ InWindow window next heard := by
  induction heard generalizing next with
  | nil => exact iff_of_true rfl trivial
  | cons m heard ih =>
    have hlater : ∀ m ∈ heard, f m ≠ [] := fun m hm => hf m (List.mem_cons_of_mem _ hm)
    by_cases h : Takes window next m
    · rw [taken_cons_of_takes h, List.flatMap_cons, List.flatMap_cons, List.append_cancel_left_eq,
        ih hlater]
      exact (and_iff_right h).symm
    · rw [taken_cons_of_not_takes h]
      refine iff_of_false (fun hall => ?_) fun hin => h hin.1
      -- What this message comes to is missing.
      have hle := ((@taken_sublist α window next heard).flatMap f).length_le
      have hpos := List.length_pos_of_ne_nil (hf m List.mem_cons_self)
      have hlength := congrArg List.length hall
      rw [List.flatMap_cons, List.length_append] at hlength
      omega

end ReplayWindow
end Lib
end CpeClock
