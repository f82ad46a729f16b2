import CpeClock.Lib.SharedStore
import CpeClock.Rs.Tables

/-!
# `reed_solomon.c` — the list of control structures

`init_rs` keeps the control structures that are in use in a list, and gives the same one to all who
ask for the same parameters; `free_rs` frees it with its last user. This is a `SharedStore`, once
the sanity checks are seen to come to the same as refusing to make a structure (`rsStep_eq`): what
does not pass them is not in the list.

The parameters are such that C says what is done with them (`PoolParams`): then there is no
structure only where `rs_init` returns `NULL` (`initRs_eq_none_iff`).

What `malloc` answers is part of a call. The failures of `rs_init`'s four allocations are one, as
they all end in the same way. `users` counts without an end, so there are fewer than `2 ^ 31`
holders. `init_rs_non_canonical` is left out, so that all have the same `gffunc`.
-/

namespace CpeClock
namespace Rs

open Lib SharedStore Function

/-- Parameters of `init_rs` for which C says what is done: `iprim` does not overflow. -/
structure PoolParams extends Params where
  coprime : 0 < prim → Nat.Coprime prim.toNat (2 ^ symsize.toNat - 1)
  deriving DecidableEq

namespace PoolParams

def initRs (p : PoolParams) : Option RsControl := p.toParams.initRs

/-- `rs_init`, once the sanity checks have been passed. -/
def rsInit (p : PoolParams) : Option RsControl :=
  Rs.rsInit p.symsize.toNat p.gfpoly p.fcr.toNat p.prim.toNat p.nroots.toNat

/-- No structure is made where the sanity checks refuse the parameters or `rs_init` the polynomial,
    and only there. -/
theorem initRs_eq_none_iff (p : PoolParams) :
    p.initRs = none ↔
      ¬ p.Sane ∨ (nextPower p.bits p.gfpoly)^[2 ^ p.bits - 1] 1 ≠ 1 := by
  unfold initRs
  rw [← Option.not_isSome_iff_eq_none, Params.initRs_isSome_iff, not_and_or, not_and_or]
  refine or_congr_right' fun hsane => or_iff_left fun hcommon => hcommon ?_
  exact p.coprime (not_not.mp hsane).prim.1

end PoolParams

abbrev RsList := List (Entry PoolParams RsControl)

/-- `init_rs_internal`. -/
def initRsInternal (p : PoolParams) (alloc : Option Nat) (rslist : RsList) : RsList × Option Nat :=
  if p.symsize < 1 then (rslist, none)
  else if p.fcr < 0 ∨ p.fcr ≥ 1 <<< p.symsize.toNat then (rslist, none)
  else if p.prim ≤ 0 ∨ p.prim ≥ 1 <<< p.symsize.toNat then (rslist, none)
  else if p.nroots < 0 ∨ p.nroots ≥ 1 <<< p.symsize.toNat then (rslist, none)
  else
    -- Walk through the list and look for a matching entry
    match useIn p rslist with
    | some (addr, rslist) => (rslist, some addr) -- We have a matching one already
    | none =>
      -- Create a new one
      match alloc, p.rsInit with
      | some addr, some rs => (⟨addr, p, rs, 1⟩ :: rslist, some addr)
      | _, _ => (rslist, none)

def freeRs (addr : Nat) (rslist : RsList) : RsList := releaseIn addr rslist

/-- A call of one of the two, with who holds what. -/
def rsStep (call : Call PoolParams) (s : State PoolParams RsControl) :
    State PoolParams RsControl × Option Nat :=
  match call with
  | .acquire p alloc =>
    let (rslist, answer) := initRsInternal p alloc s.entries
    (⟨rslist, answer.toList ++ s.held⟩, answer)
  | .release addr => (⟨freeRs addr s.entries, s.held.erase addr⟩, none)

/-! ## The list is a shared store -/

variable {s : State PoolParams RsControl}

theorem initRsInternal_eq (h : Inv PoolParams.initRs s) (p : PoolParams) (alloc : Option Nat) :
    initRsInternal p alloc s.entries = acquire PoolParams.initRs p alloc s.entries := by
  have hrefused (hnone : p.initRs = none) :
      acquire PoolParams.initRs p alloc s.entries = (s.entries, none) := by
    unfold acquire
    cases hfound : useIn p s.entries with
    | none =>
      cases alloc with
      | none => rfl
      | some addr =>
        dsimp only
        rw [hnone]
    | some found =>
      obtain ⟨before, e, after, hes, rfl, -, -⟩ := useIn_eq_some hfound
      have hmade := h.made e (hes ▸ List.mem_append_right _ List.mem_cons_self)
      rw [hnone] at hmade
      cases hmade
  have hinit : p.initRs = if p.symsize < 1 then none
      else if p.fcr < 0 ∨ p.fcr ≥ 1 <<< p.symsize.toNat then none
      else if p.prim ≤ 0 ∨ p.prim ≥ 1 <<< p.symsize.toNat then none
      else if p.nroots < 0 ∨ p.nroots ≥ 1 <<< p.symsize.toNat then none
      else p.rsInit := rfl
  unfold initRsInternal
  split_ifs at hinit ⊢
  · exact (hrefused hinit).symm
  · exact (hrefused hinit).symm
  · exact (hrefused hinit).symm
  · exact (hrefused hinit).symm
  · unfold acquire
    rw [hinit]
    cases useIn p s.entries with
    | some found => rfl
    | none => cases alloc <;> cases p.rsInit <;> rfl

/-- **The two functions are those of a shared store.** -/
theorem rsStep_eq (h : Inv PoolParams.initRs s) (call : Call PoolParams) :
    rsStep call s = step PoolParams.initRs call s := by
  cases call with
  | release addr => rfl
  | acquire p alloc =>
    unfold rsStep step
    dsimp only
    rw [initRsInternal_eq h]

theorem run_rsStep {calls : List (Call PoolParams)} (h : Inv PoolParams.initRs s)
    (hcalls : Disciplined rsStep calls s) :
    Disciplined (step PoolParams.initRs) calls s ∧
      Mealy.run rsStep calls s = Mealy.run (step PoolParams.initRs) calls s := by
  induction calls generalizing s with
  | nil => exact ⟨trivial, rfl⟩
  | cons call calls ih =>
    have hstep := rsStep_eq h call
    obtain ⟨hallowed, hrest⟩ := hcalls
    rw [hstep] at hrest
    obtain ⟨hdisciplined, hrun⟩ := ih (inv_step h hallowed) hrest
    refine ⟨⟨hallowed, hdisciplined⟩, ?_⟩
    rw [Mealy.run_cons, Mealy.run_cons, hstep, hrun]

/-! ## What the list is for -/

/-- Nothing is in use yet. -/
def unused : State PoolParams RsControl := ⟨[], []⟩

theorem inv_unused : Inv PoolParams.initRs unused := inv_empty

def after (calls : List (Call PoolParams)) : State PoolParams RsControl :=
  (Mealy.run rsStep calls unused).1

/-- **What is in the list** after any calls: one structure for each of the parameters that are in
    use, as `rs_init` makes it, counted; and none that nobody holds. -/
theorem rslist_run {calls : List (Call PoolParams)} (h : Disciplined rsStep calls unused) :
    ((after calls).entries.map Entry.key).Nodup ∧
      (∀ addr ∈ (after calls).held, ∃ e ∈ (after calls).entries, e.addr = addr ∧
        e.key.initRs = some e.value ∧ e.users = (after calls).held.count addr) ∧
      ∀ e ∈ (after calls).entries, e.addr ∈ (after calls).held := by
  obtain ⟨hdisciplined, hrun⟩ := run_rsStep inv_unused h
  have hinv := inv_run inv_unused hdisciplined
  rw [← hrun] at hinv
  exact ⟨hinv.keys, fun addr haddr => hinv.exists_entry haddr, fun e he => hinv.mem_held he⟩

/-- **What `init_rs` returns stays**: after any calls, it is the structure for the parameters that
    were asked for, and no calls change or free it as long as it is held. -/
theorem rslist_stays {calls later : List (Call PoolParams)} {p : PoolParams} {alloc : Option Nat}
    {addr : Nat} (h : Disciplined rsStep (calls ++ .acquire p alloc :: later) unused)
    (hreturned : (rsStep (.acquire p alloc) (after calls)).2 = some addr)
    (hheld : ∀ n, addr ∈ (after (calls ++ .acquire p alloc :: later.take n)).held) :
    ∃ e ∈ (after (calls ++ .acquire p alloc :: later)).entries,
      e.addr = addr ∧ e.key = p ∧ p.initRs = some e.value := by
  obtain ⟨hcalls, hallowed, hlater⟩ := disciplined_append.mp h
  obtain ⟨hcalls', hrun⟩ := run_rsStep inv_unused hcalls
  have hinv := inv_run inv_unused hcalls'
  rw [← hrun] at hinv
  change Inv PoolParams.initRs (after calls) at hinv
  change Disciplined rsStep later (rsStep (.acquire p alloc) (after calls)).1 at hlater
  have hfinal (ls : List (Call PoolParams)) : after (calls ++ .acquire p alloc :: ls)
      = (Mealy.run rsStep ls (rsStep (.acquire p alloc) (after calls)).1).1 := by
    unfold after
    rw [Mealy.run_append, Mealy.run_cons]
  rw [rsStep_eq hinv] at hreturned hlater
  have hinv' := inv_step hinv hallowed
  obtain ⟨e, he, rfl, rfl⟩ := acquire_answer hreturned
  have hlater' (n : Nat) : Disciplined rsStep (later.take n)
      (step PoolParams.initRs (.acquire e.key alloc) (after calls)).1 := by
    rw [← List.take_append_drop n later] at hlater
    exact (disciplined_append.mp hlater).1
  obtain ⟨e', he', hsame⟩ := stays_run hinv' (run_rsStep hinv' hlater).1 he fun n => by
    rw [← (run_rsStep hinv' (hlater' n)).2, ← rsStep_eq hinv, ← hfinal]
    exact hheld n
  rw [← (run_rsStep hinv' hlater).2, ← rsStep_eq hinv, ← hfinal] at he'
  exact ⟨e', he', hsame.addr, hsame.key, hsame.value ▸ hinv'.made e he⟩

/-! ## Two users -/

def sampleParams : PoolParams where
  symsize := 2
  gfpoly := 7
  fcr := 1
  prim := 1
  nroots := 1
  symsize_le := by decide
  gfpoly_ne := by decide
  coprime _ := by decide

def otherParams : PoolParams where
  symsize := 3
  gfpoly := 11
  fcr := 1
  prim := 2
  nroots := 4
  symsize_le := by decide
  gfpoly_ne := by decide
  coprime _ := by decide

/-- For another structure there is no memory at first; the second user of the first one needs none,
    and keeps it when the first user is done. -/
def sampleLater : List (Call PoolParams) :=
  [.acquire otherParams none, .acquire sampleParams none, .acquire otherParams (some 200),
    .release 100]

def sampleCalls : List (Call PoolParams) := .acquire sampleParams (some 100) :: sampleLater

theorem disciplined_sample : Disciplined rsStep sampleCalls unused := by
  have hnone (s : State PoolParams RsControl) (p : PoolParams) :
      Allowed (.acquire p none) s := fun addr haddr => absurd haddr (Option.not_mem_none _)
  refine ⟨?_, hnone _ _, hnone _ _, ?_, ?_, trivial⟩
  · exact fun addr haddr hmem => absurd hmem List.not_mem_nil
  · intro addr haddr
    obtain rfl := Option.mem_some.mp haddr
    decide
  · show 100 ∈ State.held _
    decide

theorem rslist_run_sample :
    (after sampleCalls).held = [200, 100] ∧
      ∀ addr ∈ (after sampleCalls).held, ∃ e ∈ (after sampleCalls).entries,
        e.addr = addr ∧ e.key.initRs = some e.value ∧ e.users = 1 := by
  have hheld : (after sampleCalls).held = [200, 100] := by decide
  obtain ⟨-, hentries, -⟩ := rslist_run disciplined_sample
  refine ⟨hheld, fun addr haddr => ?_⟩
  obtain ⟨e, he, rfl, hmade, husers⟩ := hentries addr haddr
  refine ⟨e, he, rfl, hmade, ?_⟩
  rw [husers]
  rw [hheld] at haddr ⊢
  rcases List.mem_pair.mp haddr with haddr | haddr <;> rw [haddr] <;> rfl

theorem rslist_stays_sample :
    ∃ e ∈ (after ([] ++ .acquire sampleParams (some 100) :: sampleLater)).entries,
      e.addr = 100 ∧ e.key = sampleParams ∧ sampleParams.initRs = some e.value := by
  refine rslist_stays disciplined_sample (by decide) fun n => ?_
  rcases n with _ | _ | _ | _ | n
  · decide
  · decide
  · decide
  · decide
  · have hall : sampleLater.take (n + 4) = sampleLater :=
      List.take_of_length_le (Nat.le_add_left 4 n)
    rw [hall]
    decide

end Rs
end CpeClock
