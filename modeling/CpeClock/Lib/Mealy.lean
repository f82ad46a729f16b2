import Mathlib.Data.List.Forall2

/-!
# Machines that answer each input

A handler that is called with one input at a time, changes its state and says something: `run` is
what it does on a list of inputs. `Triple` is the partial-correctness triple for such a machine,
with a *script* between its two assertions: for each input, what it may be and what must be said to
it. Scripts compose by `Triple.append`, and that is how a proof about a long exchange is put
together from its rounds.
-/

namespace CpeClock
namespace Lib
namespace Mealy

variable {ι σ ω : Type*}

/-- The state after a list of inputs, and what was said to each. -/
def run (step : ι → σ → σ × ω) : List ι → σ → σ × List ω
  | [], s => (s, [])
  | i :: is, s =>
    let (s', o) := step i s
    let (s'', os) := run step is s'
    (s'', o :: os)

variable {step : ι → σ → σ × ω}

@[simp]
theorem run_nil (s : σ) : run step [] s = (s, []) := rfl

theorem run_cons (i : ι) (is : List ι) (s : σ) :
    run step (i :: is) s
      = ((run step is (step i s).1).1, (step i s).2 :: (run step is (step i s).1).2) := rfl

theorem run_append (is js : List ι) (s : σ) :
    run step (is ++ js) s
      = ((run step js (run step is s).1).1,
          (run step is s).2 ++ (run step js (run step is s).1).2) := by
  induction is generalizing s with
  | nil => rfl
  | cons i is ih => rw [List.cons_append, run_cons, run_cons, ih, List.cons_append]

theorem run_inv {I : σ → Prop} (hstep : ∀ i s, I s → I (step i s).1) (is : List ι) {s : σ}
    (hs : I s) : I (run step is s).1 := by
  induction is generalizing s with
  | nil => exact hs
  | cons i is ih => exact ih (hstep i s hs)

/-- Two runs side by side: what relates the inputs and the states at every step relates them all
    along, and the answers are the same. -/
theorem run_map {f : σ → σ} {g : ι → ι}
    (hstep : ∀ i s, step (g i) (f s) = (f (step i s).1, (step i s).2)) (is : List ι) (s : σ) :
    run step (is.map g) (f s) = (f (run step is s).1, (run step is s).2) := by
  induction is generalizing s with
  | nil => rfl
  | cons i is ih => rw [List.map_cons, run_cons, hstep, ih, run_cons]

/-! ## Triples -/

/-- One round of a script: what the input may be, and what is said to it. -/
abbrev Round (ι ω : Type*) := (ι → Prop) × ω

/-- Inputs that follow a script. -/
def Follows (script : List (Round ι ω)) (is : List ι) : Prop :=
  List.Forall₂ (fun r i => r.1 i) script is

theorem follows_nil_iff {is : List ι} : Follows ([] : List (Round ι ω)) is ↔ is = [] :=
  List.forall₂_nil_left_iff

theorem Follows.append_inv {script script' : List (Round ι ω)} {is : List ι}
    (h : Follows (script ++ script') is) :
    ∃ js ks, is = js ++ ks ∧ Follows script js ∧ Follows script' ks := by
  induction script generalizing is with
  | nil => exact ⟨[], is, rfl, .nil, h⟩
  | cons r script ih =>
    cases h with
    | cons hi h =>
      obtain ⟨js, ks, rfl, hjs, hks⟩ := ih h
      exact ⟨_ :: js, ks, rfl, .cons hi hjs, hks⟩

/-- Whether inputs follow a script is a matter of what it hears alone. -/
theorem Follows.of_hears {script : List (Round ι ω)} {α : Type*} {Hears : α → ι → Prop}
    {as : List α} (h : script.map Prod.fst = as.map Hears) {is : List ι}
    (his : List.Forall₂ Hears as is) : Follows script is := by
  have hmap : List.Forall₂ (fun (P : ι → Prop) i => P i) (as.map Hears) is :=
    List.forall₂_map_left_iff.mpr his
  rw [← h, List.forall₂_map_left_iff] at hmap
  exact hmap

/-- From a state in `P`, any inputs that follow the script are answered as it says, and lead to a
    state in `Q`. -/
def Triple (step : ι → σ → σ × ω) (P : σ → Prop) (script : List (Round ι ω)) (Q : σ → Prop) :
    Prop :=
  ∀ s is, P s → Follows script is →
    Q (run step is s).1 ∧ (run step is s).2 = script.map Prod.snd

theorem Triple.nil {P Q : σ → Prop} (h : ∀ s, P s → Q s) : Triple step P [] Q := by
  intro s is hs his
  obtain rfl := follows_nil_iff.mp his
  exact ⟨h s hs, rfl⟩

theorem Triple.single {P Q : σ → Prop} {hears : ι → Prop} {o : ω}
    (h : ∀ s i, P s → hears i → Q (step i s).1 ∧ (step i s).2 = o) :
    Triple step P [(hears, o)] Q := by
  intro s is hs his
  cases his with
  | cons hi hrest =>
    obtain rfl := follows_nil_iff.mp hrest
    obtain ⟨hq, ho⟩ := h s _ hs hi
    exact ⟨hq, congrArg (fun o => [o]) ho⟩

theorem Triple.append {P Q R : σ → Prop} {script script' : List (Round ι ω)}
    (h : Triple step P script Q) (h' : Triple step Q script' R) :
    Triple step P (script ++ script') R := by
  intro s is hs his
  obtain ⟨js, ks, rfl, hjs, hks⟩ := his.append_inv
  obtain ⟨hq, hos⟩ := h s js hs hjs
  obtain ⟨hr, hos'⟩ := h' _ ks hq hks
  rw [run_append]
  refine ⟨hr, ?_⟩
  rw [hos, hos', List.map_append]

theorem Triple.cons {P Q R : σ → Prop} {r : Round ι ω} {script : List (Round ι ω)}
    (h : Triple step P [r] Q) (h' : Triple step Q script R) : Triple step P (r :: script) R :=
  h.append h'

theorem Triple.weaken {P P' Q Q' : σ → Prop} {script : List (Round ι ω)}
    (h : Triple step P script Q) (hP : ∀ s, P' s → P s) (hQ : ∀ s, Q s → Q' s) :
    Triple step P' script Q' := by
  intro s is hs his
  obtain ⟨hq, hos⟩ := h s is (hP s hs) his
  exact ⟨hQ _ hq, hos⟩

/-- What every step keeps may be assumed all along. -/
theorem Triple.and_inv {P Q I : σ → Prop} {script : List (Round ι ω)}
    (h : Triple step P script Q) (hstep : ∀ i s, I s → I (step i s).1) :
    Triple step (fun s => P s ∧ I s) script (fun s => Q s ∧ I s) := by
  intro s is ⟨hp, hi⟩ his
  obtain ⟨hq, hos⟩ := h s is hp his
  exact ⟨⟨hq, run_inv hstep is hi⟩, hos⟩

/-- A script that is repeated, with an assertion for each repetition. -/
theorem Triple.flatMap_range {P : Nat → σ → Prop} {script : Nat → List (Round ι ω)} {n : Nat}
    (h : ∀ k < n, Triple step (P k) (script k) (P (k + 1))) :
    Triple step (P 0) ((List.range n).flatMap script) (P n) := by
  induction n with
  | zero => exact Triple.nil fun _ hs => hs
  | succ n ih =>
    rw [List.range_succ, List.flatMap_append, List.flatMap_singleton]
    exact (ih fun k hk => h k (Nat.lt_succ_of_lt hk)).append (h n (Nat.lt_succ_self n))

end Mealy
end Lib
end CpeClock
