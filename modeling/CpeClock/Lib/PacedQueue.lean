import CpeClock.Lib.Mealy
import Mathlib.Algebra.Order.Monoid.Defs

/-!
# Queues that let one item go at a time

Items wait in a queue, and one may go at most every so often: a release at time `t` hands over the
first of them if the queue is open by then, and closes it for `interval`. Nothing is said of when
releases are attempted, and clocks may do what they like; that nothing is lost, overtaken or sent
twice (`run_fifo`) and that two items never go too close together (`run_spaced`) does not depend
on it.
-/

namespace CpeClock
namespace Lib

/-- The items that wait, and the time from which one may go. -/
structure PacedQueue (α τ : Type*) where
  waiting : List α
  openAt : τ

namespace PacedQueue

inductive Action (α τ : Type*) where
  | accept (item : α)
  | release (t : τ)

variable {α τ : Type*}

def Action.item : Action α τ → Option α
  | accept item => some item
  | release _ => none

section Step

variable [Add τ] [LE τ] [DecidableLE τ]

/-- One action, and what it hands over, with the time. -/
def step (interval : τ) : Action α τ → PacedQueue α τ → PacedQueue α τ × List (τ × α)
  | .accept item, q => ({ q with waiting := q.waiting ++ [item] }, [])
  | .release t, q =>
    match q.waiting with
    | [] => (q, [])
    | item :: rest =>
      if q.openAt ≤ t then (⟨rest, t + interval⟩, [(t, item)]) else (q, [])

variable {interval : τ}

theorem step_fifo (a : Action α τ) (q : PacedQueue α τ) :
    (step interval a q).2.map Prod.snd ++ (step interval a q).1.waiting
      = q.waiting ++ a.item.toList := by
  cases a with
  | accept item => rfl
  | release t =>
    obtain ⟨waiting, openAt⟩ := q
    cases waiting with
    | nil => rfl
    | cons item rest =>
      simp only [step]
      split <;> exact (List.append_nil (item :: rest)).symm

/-- **First in, first out.** What was handed over and what still waits is what waited at first and
    what came in since, in order. -/
theorem run_fifo (interval : τ) (as : List (Action α τ)) (q : PacedQueue α τ) :
    (Mealy.run (step interval) as q).2.flatten.map Prod.snd
        ++ (Mealy.run (step interval) as q).1.waiting
      = q.waiting ++ as.filterMap Action.item := by
  induction as generalizing q with
  | nil => exact (List.append_nil q.waiting).symm
  | cons a as ih =>
    rw [Mealy.run_cons, List.flatten_cons, List.map_append, List.append_assoc, ih,
      ← List.append_assoc, step_fifo, List.append_assoc, List.filterMap_cons]
    cases a.item <;> rfl

end Step

section Spacing

variable [AddCommMonoid τ] [LinearOrder τ] [IsOrderedAddMonoid τ] {interval : τ}

/-- What goes goes when the queue is open, and closes it. -/
theorem step_spaced (hinterval : 0 ≤ interval) (a : Action α τ) (q : PacedQueue α τ) :
    q.openAt ≤ (step interval a q).1.openAt ∧
      ((step interval a q).2 = [] ∨
        ∃ p, (step interval a q).2 = [p] ∧ q.openAt ≤ p.1 ∧
          (step interval a q).1.openAt = p.1 + interval) := by
  cases a with
  | accept item => exact ⟨le_rfl, .inl rfl⟩
  | release t =>
    obtain ⟨waiting, openAt⟩ := q
    cases waiting with
    | nil => exact ⟨le_rfl, .inl rfl⟩
    | cons item rest =>
      simp only [step]
      split
      · next hopen =>
        exact ⟨le_add_of_le_of_nonneg hopen hinterval, .inr ⟨(t, item), rfl, hopen, rfl⟩⟩
      · exact ⟨le_rfl, .inl rfl⟩

/-- **Spacing.** All that goes goes from the opening time on, and any two at least an interval
    apart. -/
theorem run_spaced (hinterval : 0 ≤ interval) (as : List (Action α τ)) (q : PacedQueue α τ) :
    (∀ p ∈ (Mealy.run (step interval) as q).2.flatten, q.openAt ≤ p.1) ∧
      (Mealy.run (step interval) as q).2.flatten.Pairwise fun p p' => p.1 + interval ≤ p'.1 := by
  induction as generalizing q with
  | nil => exact ⟨fun p hp => absurd hp List.not_mem_nil, .nil⟩
  | cons a as ih =>
    obtain ⟨hfrom, hspaced⟩ := ih (step interval a q).1
    obtain ⟨hmono, hnone | ⟨p, hone, hopen, hclosed⟩⟩ := step_spaced hinterval a q
    · rw [Mealy.run_cons, List.flatten_cons, hnone, List.nil_append]
      exact ⟨fun p hp => hmono.trans (hfrom p hp), hspaced⟩
    · rw [Mealy.run_cons, List.flatten_cons, hone, List.singleton_append]
      refine ⟨fun p' hp' => ?_, List.pairwise_cons.mpr ⟨fun p' hp' => ?_, hspaced⟩⟩
      · rcases List.mem_cons.mp hp' with rfl | hlater
        · exact hopen
        · exact hmono.trans (hfrom p' hlater)
      · exact hclosed ▸ hfrom p' hp'

end Spacing

end PacedQueue
end Lib
end CpeClock
