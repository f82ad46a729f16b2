import CpeClock.Lib.Mealy

/-!
# One machine seen through another

A machine with a store, buffers and restarts is to behave as a plain one. Each step of the first
comes to some inputs of the second (`view`), none of them where nothing should be noticed, and what
is said is the same. `Simulates` asks it of one step, and `Simulates.run` is what carries over to
runs.
-/

namespace CpeClock
namespace Lib
namespace Mealy

variable {ι σ ω ι' σ' : Type*}

/-- What a list of inputs comes to for the second machine. -/
def seen (step : ι → σ → σ × List ω) (view : ι → σ → List ι') : List ι → σ → List ι'
  | [], _ => []
  | i :: is, s => view i s ++ seen step view is (step i s).1

/-- Each step is matched by the second machine on what the step comes to, if that is allowed. -/
def Simulates (step : ι → σ → σ × List ω) (step' : ι' → σ' → σ' × List ω)
    (view : ι → σ → List ι') (allowed : ι' → Prop) (R : σ → σ' → Prop) : Prop :=
  ∀ i s s', R s s' → (∀ j ∈ view i s, allowed j) →
    R (step i s).1 (run step' (view i s) s').1 ∧
      (step i s).2 = (run step' (view i s) s').2.flatten

variable {step : ι → σ → σ × List ω} {step' : ι' → σ' → σ' × List ω} {view : ι → σ → List ι'}
  {allowed : ι' → Prop} {R : σ → σ' → Prop}

/-- **Runs are matched by runs**, and say the same. -/
theorem Simulates.run (h : Simulates step step' view allowed R) (is : List ι) {s : σ} {s' : σ'}
    (hs : R s s') (hallowed : ∀ j ∈ seen step view is s, allowed j) :
    R (run step is s).1 (run step' (seen step view is s) s').1 ∧
      (run step is s).2.flatten = (run step' (seen step view is s) s').2.flatten := by
  induction is generalizing s s' with
  | nil => exact ⟨hs, rfl⟩
  | cons i is ih =>
    have hfirst : ∀ j ∈ view i s, allowed j := fun j hj => hallowed j (List.mem_append_left _ hj)
    have hlater : ∀ j ∈ seen step view is (step i s).1, allowed j :=
      fun j hj => hallowed j (List.mem_append_right _ hj)
    obtain ⟨hstep, hsays⟩ := h i s s' hs hfirst
    obtain ⟨hrun, hrest⟩ := ih hstep hlater
    rw [run_cons, seen, run_append]
    refine ⟨hrun, ?_⟩
    rw [List.flatten_cons, List.flatten_append, hsays, hrest]

end Mealy
end Lib
end CpeClock
