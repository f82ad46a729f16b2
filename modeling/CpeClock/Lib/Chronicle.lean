import CpeClock.Lib.Mealy

/-!
# What is said, and what was said before

A machine says things, one after another, and what it may say depends on all that was said before:
`Accounts P past said` asks `P` of each thing said, with what came before it. The state is no more
than what must be remembered for it (`R`). `Accountable` is the triple for such a machine: it
composes along a program (`Accountable.append`) and along a run (`accountable_run`).
-/

namespace CpeClock
namespace Lib
namespace Chronicle

variable {ι σ ω : Type*}

/-- Each of the things said is accounted for by what was said before it. -/
def Accounts (P : List ω → ω → Prop) : List ω → List ω → Prop
  | _, [] => True
  | past, o :: said => P past o ∧ Accounts P (past ++ [o]) said

variable {P : List ω → ω → Prop}

theorem accounts_append {past said said' : List ω} :
    Accounts P past (said ++ said') ↔ Accounts P past said ∧ Accounts P (past ++ said) said' := by
  induction said generalizing past with
  | nil => simp [Accounts]
  | cons o said ih =>
    rw [List.cons_append, Accounts, Accounts, ih, List.append_cons past o said, and_assoc]

/-- Whatever came before, if `s` remembers it then `s'` remembers what was said since as well, and
    all of that is accounted for. -/
def Accountable (R : List ω → σ → Prop) (P : List ω → ω → Prop) (s s' : σ) (said : List ω) : Prop :=
  ∀ past, R past s → R (past ++ said) s' ∧ Accounts P past said

variable {R : List ω → σ → Prop}

theorem accountable_nil {s s' : σ} (h : ∀ past, R past s → R past s') :
    Accountable R P s s' [] :=
  fun past hs => ⟨(List.append_nil past).symm ▸ h past hs, trivial⟩

theorem accountable_single {s s' : σ} {o : ω} (h : ∀ past, R past s → R (past ++ [o]) s')
    (ho : ∀ past, R past s → P past o) : Accountable R P s s' [o] :=
  fun past hs => ⟨h past hs, ho past hs, trivial⟩

theorem Accountable.append {s s' s'' : σ} {said said' : List ω}
    (h : Accountable R P s s' said) (h' : Accountable R P s' s'' said') :
    Accountable R P s s'' (said ++ said') := by
  intro past hs
  obtain ⟨hs', haccounts⟩ := h past hs
  obtain ⟨hs'', haccounts'⟩ := h' _ hs'
  rw [List.append_assoc] at hs''
  exact ⟨hs'', accounts_append.mpr ⟨haccounts, haccounts'⟩⟩

/-- **A run is accountable** if every step is. -/
theorem accountable_run {step : ι → σ → σ × List ω}
    (hstep : ∀ i s, Accountable R P s (step i s).1 (step i s).2) (is : List ι) (s : σ) :
    Accountable R P s (Mealy.run step is s).1 (Mealy.run step is s).2.flatten := by
  induction is generalizing s with
  | nil => exact accountable_nil fun _ hs => hs
  | cons i is ih => exact (hstep i s).append (ih _)

end Chronicle
end Lib
end CpeClock
