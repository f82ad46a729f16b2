import Mathlib.Data.List.Basic

/-!
# Programs on a persistent store, and what a power cut leaves of them

A program here reads a store and performs events one after another; some events change the
store. Cutting the power during a run keeps the events performed so far and loses everything
else, so the stores a cut can leave are those after a prefix of the run's events.

What carries the proofs is that `Along I p s` (the property `I` holds of the store at every
point of the run) has one rule for each way of building a program, as a Hoare logic has: a
property that must survive a power cut is proved by walking along the program once.
-/

namespace CpeClock.Lib

variable {ε σ α β : Type}

/-- Events that act on a store. -/
class Acts (ε σ : Type) where
  act : ε → σ → σ

/-- The store after some events. -/
def replay [Acts ε σ] (s : σ) (es : List ε) : σ := es.foldl (fun s e => Acts.act e s) s

section Replay

variable [Acts ε σ]

@[simp]
theorem replay_nil (s : σ) : replay s ([] : List ε) = s := rfl

@[simp]
theorem replay_cons (s : σ) (e : ε) (es : List ε) :
    replay s (e :: es) = replay (Acts.act e s) es := rfl

@[simp]
theorem replay_append (s : σ) (es fs : List ε) :
    replay s (es ++ fs) = replay (replay s es) fs :=
  List.foldl_append

/-- A property of the events so far and the store, kept by each of some events, holds after any
    prefix of them. -/
theorem replay_take_of_keeps {I : List ε → σ → Prop} {es : List ε}
    (hkeeps : ∀ e ∈ es, ∀ log s, I log s → I (log ++ [e]) (Acts.act e s))
    {log : List ε} {s : σ} (hs : I log s) (n : Nat) :
    I (log ++ es.take n) (replay s (es.take n)) := by
  induction es generalizing log s n with
  | nil => simpa using hs
  | cons e es ih =>
    cases n with
    | zero => simpa using hs
    | succ n =>
      have hstep := ih (fun e' he' => hkeeps e' (List.mem_cons_of_mem e he'))
        (hkeeps e List.mem_cons_self log s hs) n
      rwa [List.append_assoc] at hstep

end Replay

/-- A program: from the store it starts in, its result and the events it performs. -/
def Traced (ε σ α : Type) : Type := σ → α × List ε

namespace Traced

def value (p : Traced ε σ α) (s : σ) : α := (p s).1

def events (p : Traced ε σ α) (s : σ) : List ε := (p s).2

def emit (e : ε) : Traced ε σ Unit := fun _ => ((), [e])

/-- One event for each member of a list: a loop whose body reads nothing. -/
def emitAll (es : List ε) : Traced ε σ Unit := fun _ => ((), es)

def read (f : σ → α) : Traced ε σ α := fun s => (f s, [])

section

variable {p q : Traced ε σ α} {s : σ}

@[simp] theorem value_emit (e : ε) : (emit e : Traced ε σ Unit).value s = () := rfl
@[simp] theorem events_emit (e : ε) : (emit e : Traced ε σ Unit).events s = [e] := rfl
@[simp] theorem value_emitAll (es : List ε) : (emitAll es : Traced ε σ Unit).value s = () := rfl
@[simp] theorem events_emitAll (es : List ε) : (emitAll es : Traced ε σ Unit).events s = es := rfl
@[simp] theorem value_read (g : σ → α) : (read g : Traced ε σ α).value s = g s := rfl
@[simp] theorem events_read (g : σ → α) : (read g : Traced ε σ α).events s = [] := rfl

@[simp]
theorem value_ite {c : Prop} [Decidable c] :
    (if c then p else q).value s = if c then p.value s else q.value s := by
  split <;> rfl

@[simp]
theorem events_ite {c : Prop} [Decidable c] :
    (if c then p else q).events s = if c then p.events s else q.events s := by
  split <;> rfl

end

/-- Every event of every run is one of `P`. -/
def Emits (P : ε → Prop) (p : Traced ε σ α) : Prop := ∀ s, ∀ e ∈ p.events s, P e

section

variable {P Q : ε → Prop} {p q : Traced ε σ α}

theorem Emits.mono (h : Emits P p) (hPQ : ∀ e, P e → Q e) : Emits Q p :=
  fun s e he => hPQ e (h s e he)

theorem emits_emit {e : ε} (h : P e) : Emits P (emit e : Traced ε σ Unit) :=
  fun _ _ he => List.mem_singleton.mp he ▸ h

theorem emits_emitAll {es : List ε} (h : ∀ e ∈ es, P e) :
    Emits P (emitAll es : Traced ε σ Unit) :=
  fun _ => h

theorem emits_read (g : σ → α) : Emits P (read g : Traced ε σ α) :=
  fun _ _ he => absurd he List.not_mem_nil

theorem emits_ite {c : Prop} [Decidable c] (hp : Emits P p) (hq : Emits P q) :
    Emits P (if c then p else q) := by
  split
  · exact hp
  · exact hq

end

variable [Acts ε σ]

/-- The store after a run. -/
def final (p : Traced ε σ α) (s : σ) : σ := replay s (p.events s)

/-- The store if the power is cut after `n` events. -/
def cut (p : Traced ε σ α) (s : σ) (n : Nat) : σ := replay s ((p.events s).take n)

protected def pure (a : α) : Traced ε σ α := fun _ => (a, [])

protected def bind (p : Traced ε σ α) (f : α → Traced ε σ β) : Traced ε σ β := fun s =>
  let b := f (p.value s) (p.final s)
  (b.1, p.events s ++ b.2)

instance : Monad (Traced ε σ) where
  pure := Traced.pure
  bind := Traced.bind

section Rules

variable {p : Traced ε σ α} {f : α → Traced ε σ β} {s : σ}

@[simp] theorem value_pure (a : α) : value (pure a : Traced ε σ α) s = a := rfl
@[simp] theorem events_pure (a : α) : events (pure a : Traced ε σ α) s = [] := rfl

@[simp]
theorem value_bind : (p >>= f).value s = (f (p.value s)).value (p.final s) := rfl

@[simp]
theorem events_bind :
    (p >>= f).events s = p.events s ++ (f (p.value s)).events (p.final s) := rfl

@[simp]
theorem final_pure (a : α) : final (pure a : Traced ε σ α) s = s := rfl

@[simp]
theorem final_read (g : σ → α) : (read g : Traced ε σ α).final s = s := rfl

@[simp]
theorem final_emit (e : ε) : (emit e : Traced ε σ Unit).final s = Acts.act e s := rfl

@[simp]
theorem final_emitAll (es : List ε) : (emitAll es : Traced ε σ Unit).final s = replay s es := rfl

@[simp]
theorem final_bind : (p >>= f).final s = (f (p.value s)).final (p.final s) :=
  replay_append ..

@[simp]
theorem final_ite {c : Prop} [Decidable c] {q : Traced ε σ α} :
    (if c then p else q).final s = if c then p.final s else q.final s := by
  split <;> rfl

theorem cut_of_length_le {n : Nat} (h : (p.events s).length ≤ n) : p.cut s n = p.final s := by
  rw [cut, List.take_of_length_le h]
  rfl

theorem cut_pure (a : α) (n : Nat) : cut (pure a : Traced ε σ α) s n = s := by
  rw [cut, events_pure, List.take_nil]
  rfl

/-- A cut of a sequence falls in its first part or in its second. -/
theorem cut_bind (n : Nat) :
    (p >>= f).cut s n
      = if n ≤ (p.events s).length then p.cut s n
        else (f (p.value s)).cut (p.final s) (n - (p.events s).length) := by
  unfold cut
  rw [events_bind, List.take_append]
  split
  · next h => rw [Nat.sub_eq_zero_of_le h, List.take_zero, List.append_nil]
  · next h =>
    rw [List.take_of_length_le (Nat.le_of_not_le h), replay_append]
    rfl

/-- What a program returns plays no part in a cut. -/
theorem cut_bind_pure (g : α → β) (n : Nat) :
    (p >>= fun a => (pure (g a) : Traced ε σ β)).cut s n = p.cut s n := by
  rw [cut_bind]
  split
  · rfl
  · next h => rw [cut_pure, cut_of_length_le (Nat.le_of_not_le h)]

end Rules

/-! ## What holds along a run -/

/-- `I` holds of the events so far and the store at every point of the run: a power cut leaves a
    store with `I`. -/
def Along (I : List ε → σ → Prop) (p : Traced ε σ α) (s : σ) : Prop :=
  ∀ n, I ((p.events s).take n) (p.cut s n)

section Along

variable {I J : List ε → σ → Prop} {p : Traced ε σ α} {f : α → Traced ε σ β} {s : σ}

theorem Along.last (h : Along I p s) : I (p.events s) (p.final s) := by
  have hlen := h (p.events s).length
  rwa [List.take_length, cut_of_length_le (Nat.le_refl _)] at hlen

theorem Along.mono (hIJ : ∀ es s, I es s → J es s) (h : Along I p s) : Along J p s :=
  fun n => hIJ _ _ (h n)

theorem along_pure (a : α) (hs : I [] s) : Along I (pure a : Traced ε σ α) s := by
  intro n
  rw [cut_pure, events_pure, List.take_nil]
  exact hs

theorem along_emit {e : ε} (hs : I [] s) (he : I [e] (Acts.act e s)) :
    Along I (emit e : Traced ε σ Unit) s := by
  rintro (- | n)
  · exact hs
  · rw [cut, events_emit, List.take_succ_cons, List.take_nil]
    exact he

theorem along_bind (hp : Along I p s)
    (hf : Along (fun es => I (p.events s ++ es)) (f (p.value s)) (p.final s)) :
    Along I (p >>= f) s := by
  intro n
  rw [cut_bind, events_bind, List.take_append]
  split
  · next h =>
    rw [Nat.sub_eq_zero_of_le h, List.take_zero, List.append_nil]
    exact hp n
  · next h =>
    rw [List.take_of_length_le (Nat.le_of_not_le h)]
    exact hf _

theorem along_ite {c : Prop} [Decidable c] {q : Traced ε σ α} (hp : c → Along I p s)
    (hq : ¬ c → Along I q s) : Along I (if c then p else q) s := by
  split
  · exact hp ‹_›
  · exact hq ‹_›

end Along

/-! ## Which events a program performs -/

section Emits

variable {P : ε → Prop} {p : Traced ε σ α} {f : α → Traced ε σ β}

theorem emits_pure (a : α) : Emits P (pure a : Traced ε σ α) :=
  fun _ _ he => absurd he List.not_mem_nil

theorem emits_bind (hp : Emits P p) (hf : ∀ a, Emits P (f a)) : Emits P (p >>= f) := by
  intro s e he
  rcases List.mem_append.mp he with he | he
  · exact hp s e he
  · exact hf _ _ e he

theorem emits_read_bind {g : σ → α} (hf : ∀ a, Emits P (f a)) : Emits P (read g >>= f) :=
  emits_bind (emits_read g) hf

/-- A program whose events all keep a property keeps it along the way, whatever it reads. -/
theorem Emits.along {I : List ε → σ → Prop} (h : Emits P p)
    (hkeeps : ∀ e, P e → ∀ log s, I log s → I (log ++ [e]) (Acts.act e s)) {s : σ}
    (hs : I [] s) : Along I p s :=
  fun n => replay_take_of_keeps (fun e he => hkeeps e (h s e he)) hs n

end Emits

/-! ## Programs that differ in some events only -/

/-- From the same store, two programs return the same and leave the same, and perform the same of
    the events that are looked at. -/
structure SameSeen (seen : ε → Bool) (p q : Traced ε σ α) (s : σ) : Prop where
  value : p.value s = q.value s
  final : p.final s = q.final s
  events : (p.events s).filter seen = (q.events s).filter seen

theorem SameSeen.refl (seen : ε → Bool) (p : Traced ε σ α) (s : σ) : SameSeen seen p p s :=
  ⟨rfl, rfl, rfl⟩

theorem SameSeen.bind {seen : ε → Bool} {p q : Traced ε σ α} {f g : α → Traced ε σ β} {s : σ}
    (h : SameSeen seen p q s) (hfg : SameSeen seen (f (q.value s)) (g (q.value s)) (q.final s)) :
    SameSeen seen (p >>= f) (q >>= g) s := by
  refine ⟨?_, ?_, ?_⟩
  · rw [value_bind, value_bind, h.value, h.final]
    exact hfg.value
  · rw [final_bind, final_bind, h.value, h.final]
    exact hfg.final
  · rw [events_bind, events_bind, List.filter_append, List.filter_append, h.events, h.value,
      h.final, hfg.events]

end Traced
end CpeClock.Lib
