import CpeClock.Lib.Mealy
import Mathlib.Data.List.Nodup
import Mathlib.Data.List.Count

/-!
# A store of shared structures

A structure that is costly to make is made once for each key, and given to all who ask for that key:
a list of those that are in use, each with the number of its users. It goes back to the allocator
with its last user. Who holds what is not in the store; `State.held` records it for the proofs, and
`Inv` says that the store is what those who hold something need, no less and no more.

The allocator may fail, and it may give out any address that is not in use. The users are to
release what they hold, and nothing else (`Allowed`).
-/

namespace CpeClock
namespace Lib
namespace SharedStore

/-- A structure at its address, with the number of its users. -/
structure Entry (κ ν : Type*) where
  addr : Nat
  key : κ
  value : ν
  users : Nat

/-- A call, with what the allocator answers. -/
inductive Call (κ : Type*) where
  | acquire (key : κ) (alloc : Option Nat)
  | release (addr : Nat)

/-- The list, and the addresses that are held, once for each user. -/
structure State (κ ν : Type*) where
  entries : List (Entry κ ν)
  held : List Nat

variable {κ ν : Type*}

/-! ## The walks along the list -/

/-- The first entry with the key gets one more user. -/
def useIn [DecidableEq κ] (key : κ) : List (Entry κ ν) → Option (Nat × List (Entry κ ν))
  | [] => none
  | e :: es =>
    if e.key = key then some (e.addr, { e with users := e.users + 1 } :: es)
    else (useIn key es).map fun found => (found.1, e :: found.2)

/-- The entry at the address loses a user, and goes with the last one. -/
def releaseIn (addr : Nat) : List (Entry κ ν) → List (Entry κ ν)
  | [] => []
  | e :: es =>
    if e.addr = addr then
      if e.users - 1 = 0 then es else { e with users := e.users - 1 } :: es
    else e :: releaseIn addr es

section

variable [DecidableEq κ] {es es' : List (Entry κ ν)} {key : κ} {addr : Nat}

theorem useIn_eq_none (h : useIn key es = none) : ∀ e ∈ es, e.key ≠ key := by
  induction es with
  | nil => exact fun e he => absurd he List.not_mem_nil
  | cons e es ih =>
    unfold useIn at h
    split at h
    · cases h
    · rename_i hne
      intro e' he'
      rcases List.mem_cons.mp he' with rfl | he'
      · exact hne
      · exact ih (Option.map_eq_none_iff.mp h) e' he'

theorem useIn_eq_some (h : useIn key es = some (addr, es')) :
    ∃ before e after, es = before ++ e :: after ∧ e.key = key ∧ e.addr = addr ∧
      es' = before ++ { e with users := e.users + 1 } :: after := by
  induction es generalizing es' with
  | nil => cases h
  | cons e es ih =>
    unfold useIn at h
    split at h
    · rename_i hkey
      obtain ⟨rfl, rfl⟩ := Prod.mk.inj (Option.some.inj h)
      exact ⟨[], e, es, rfl, hkey, rfl, rfl⟩
    · obtain ⟨⟨addr', es''⟩, hfound, heq⟩ := Option.map_eq_some_iff.mp h
      obtain ⟨rfl, rfl⟩ := Prod.mk.inj heq
      obtain ⟨before, e', after, rfl, hkey, haddr, rfl⟩ := ih hfound
      exact ⟨e :: before, e', after, rfl, hkey, haddr, rfl⟩

omit [DecidableEq κ] in
theorem releaseIn_eq (h : addr ∈ es.map Entry.addr) :
    ∃ before e after, es = before ++ e :: after ∧ e.addr = addr ∧
      releaseIn addr es
        = before ++ (if e.users - 1 = 0 then after
            else { e with users := e.users - 1 } :: after) := by
  induction es with
  | nil => exact absurd h List.not_mem_nil
  | cons e es ih =>
    unfold releaseIn
    by_cases heq : e.addr = addr
    · rw [if_pos heq]
      exact ⟨[], e, es, rfl, heq, rfl⟩
    · rw [if_neg heq]
      have hrest : addr ∈ es.map Entry.addr := by
        rcases List.mem_cons.mp h with hhead | hrest
        · exact absurd hhead.symm heq
        · exact hrest
      obtain ⟨before, e', after, rfl, haddr, hrelease⟩ := ih hrest
      exact ⟨e :: before, e', after, rfl, haddr, by rw [hrelease]; rfl⟩

end

/-! ## The store -/

section

variable [DecidableEq κ] (create : κ → Option ν)

/-- Find a matching entry, or make a new one. -/
def acquire (key : κ) (alloc : Option Nat) (es : List (Entry κ ν)) :
    List (Entry κ ν) × Option Nat :=
  match useIn key es with
  | some (addr, es') => (es', some addr)
  | none =>
    match alloc, create key with
    | some addr, some value => (⟨addr, key, value, 1⟩ :: es, some addr)
    | _, _ => (es, none)

def step (call : Call κ) (s : State κ ν) : State κ ν × Option Nat :=
  match call with
  | .acquire key alloc =>
    let (es, answer) := acquire create key alloc s.entries
    (⟨es, answer.toList ++ s.held⟩, answer)
  | .release addr => (⟨releaseIn addr s.entries, s.held.erase addr⟩, none)

/-- The allocator gives out what is not in use, and only what is held is released. -/
def Allowed (call : Call κ) (s : State κ ν) : Prop :=
  match call with
  | .acquire _ alloc => ∀ addr ∈ alloc, addr ∉ s.entries.map Entry.addr
  | .release addr => addr ∈ s.held

/-- Every call of a run is allowed. -/
def Disciplined (step : Call κ → State κ ν → State κ ν × Option Nat) :
    List (Call κ) → State κ ν → Prop
  | [], _ => True
  | call :: calls, s => Allowed call s ∧ Disciplined step calls (step call s).1

/-- **What the store is**: one entry for each key in use, as it was made, and its users are those
    who hold it. -/
structure Inv (s : State κ ν) : Prop where
  keys : (s.entries.map Entry.key).Nodup
  addrs : (s.entries.map Entry.addr).Nodup
  made : ∀ e ∈ s.entries, create e.key = some e.value
  users : ∀ e ∈ s.entries, e.users = s.held.count e.addr ∧ 0 < e.users
  held : ∀ addr ∈ s.held, addr ∈ s.entries.map Entry.addr

end

/-! ## Lists of entries -/

section

variable {before after : List (Entry κ ν)} {e e' : Entry κ ν}

theorem map_update {α : Type*} (f : Entry κ ν → α) (n : Nat)
    (hf : f { e with users := n } = f e) :
    (before ++ { e with users := n } :: after).map f = (before ++ e :: after).map f := by
  rw [List.map_append, List.map_append, List.map_cons, List.map_cons, hf]

/-- The others are at other addresses. -/
theorem addr_ne (h : ((before ++ e :: after).map Entry.addr).Nodup)
    (he' : e' ∈ before ∨ e' ∈ after) : e'.addr ≠ e.addr := by
  rw [List.map_append, List.map_cons] at h
  have hnot := (List.nodup_middle.mp h).notMem
  intro heq
  rw [← heq, List.mem_append] at hnot
  rcases he' with he' | he'
  · exact hnot (.inl (List.mem_map_of_mem he'))
  · exact hnot (.inr (List.mem_map_of_mem he'))

theorem mem_others (h : e' ∈ before ∨ e' ∈ after) : e' ∈ before ++ e :: after := by
  rcases h with h | h
  · exact List.mem_append_left _ h
  · exact List.mem_append_right _ (List.mem_cons_of_mem _ h)

/-- An entry with another number of users, among the same others. -/
theorem forall_mem_update {n : Nat} {p : Entry κ ν → Prop}
    (hothers : ∀ e', e' ∈ before ∨ e' ∈ after → p e') (he : p { e with users := n }) :
    ∀ e' ∈ before ++ { e with users := n } :: after, p e' := by
  intro e' he'
  rcases List.mem_append.mp he' with he' | he'
  · exact hothers e' (.inl he')
  · rcases List.mem_cons.mp he' with rfl | he'
    · exact he
    · exact hothers e' (.inr he')

/-- The same structure, perhaps with other users. -/
structure Entry.Same (e e' : Entry κ ν) : Prop where
  addr : e'.addr = e.addr
  key : e'.key = e.key
  value : e'.value = e.value

theorem Entry.Same.refl (e : Entry κ ν) : e.Same e := ⟨rfl, rfl, rfl⟩

theorem Entry.Same.trans {e'' : Entry κ ν} (h : e.Same e') (h' : e'.Same e'') : e.Same e'' :=
  ⟨h'.addr.trans h.addr, h'.key.trans h.key, h'.value.trans h.value⟩

theorem exists_same {n : Nat} :
    ∀ e' ∈ before ++ { e with users := n } :: after, ∃ e₀ ∈ before ++ e :: after, e₀.Same e' :=
  forall_mem_update (fun e' he' => ⟨e', mem_others he', .refl e'⟩)
    ⟨e, List.mem_append_right _ List.mem_cons_self, rfl, rfl, rfl⟩

end

/-! ## The invariant is kept -/

section

variable {create : κ → Option ν} {s : State κ ν}

theorem disciplined_append {step : Call κ → State κ ν → State κ ν × Option Nat}
    {calls later : List (Call κ)} {s : State κ ν} :
    Disciplined step (calls ++ later) s
      ↔ Disciplined step calls s ∧ Disciplined step later (Mealy.run step calls s).1 := by
  induction calls generalizing s with
  | nil => exact ⟨fun h => ⟨trivial, h⟩, fun h => h.2⟩
  | cons call calls ih =>
    rw [List.cons_append, Disciplined, Disciplined, ih, and_assoc]
    rfl

theorem inv_empty : Inv create (⟨[], []⟩ : State κ ν) where
  keys := List.nodup_nil
  addrs := List.nodup_nil
  made _ he := absurd he List.not_mem_nil
  users _ he := absurd he List.not_mem_nil
  held _ haddr := absurd haddr List.not_mem_nil

theorem Inv.acquire_made (h : Inv create s) {key : κ} {addr : Nat} {value : ν}
    (hkey : ∀ e ∈ s.entries, e.key ≠ key) (hfree : addr ∉ s.entries.map Entry.addr)
    (hmade : create key = some value) :
    Inv create ⟨⟨addr, key, value, 1⟩ :: s.entries, addr :: s.held⟩ := by
  have hnew : s.held.count addr = 0 :=
    List.count_eq_zero_of_not_mem fun hheld => hfree (h.held addr hheld)
  constructor
  · refine List.nodup_cons.mpr ⟨fun hmem => ?_, h.keys⟩
    obtain ⟨e, he, heq⟩ := List.mem_map.mp hmem
    exact hkey e he heq
  · exact List.nodup_cons.mpr ⟨hfree, h.addrs⟩
  · intro e he
    rcases List.mem_cons.mp he with rfl | he
    · exact hmade
    · exact h.made e he
  · intro e he
    rcases List.mem_cons.mp he with rfl | he
    · rw [List.count_cons_self, hnew]
      exact ⟨rfl, Nat.one_pos⟩
    · have hne : addr ≠ e.addr := fun heq => hfree (heq ▸ List.mem_map_of_mem he)
      rw [List.count_cons_of_ne hne]
      exact h.users e he
  · intro a ha
    rcases List.mem_cons.mp ha with rfl | ha
    · exact List.mem_cons_self
    · exact List.mem_cons_of_mem _ (h.held a ha)

theorem Inv.release (h : Inv create s) {addr : Nat} (haddr : addr ∈ s.held) :
    Inv create ⟨releaseIn addr s.entries, s.held.erase addr⟩ := by
  obtain ⟨before, e, after, hes, rfl, hrelease⟩ := releaseIn_eq (h.held addr haddr)
  have hmem : e ∈ s.entries := hes ▸ List.mem_append_right _ List.mem_cons_self
  have hother {e' : Entry κ ν} (he' : e' ∈ before ∨ e' ∈ after) : e' ∈ s.entries :=
    hes ▸ mem_others he'
  have hcount {e' : Entry κ ν} (he' : e' ∈ before ∨ e' ∈ after) :
      e'.users = (s.held.erase e.addr).count e'.addr ∧ 0 < e'.users := by
    rw [List.count_erase_of_ne (addr_ne (hes ▸ h.addrs) he')]
    exact h.users e' (hother he')
  have hheld {a : Nat} (ha : a ∈ s.held.erase e.addr) :
      a ∈ (before ++ e :: after).map Entry.addr :=
    hes ▸ h.held a (List.mem_of_mem_erase ha)
  obtain ⟨husers, hpos⟩ := h.users e hmem
  rw [hrelease]
  by_cases hlast : e.users - 1 = 0
  · rw [if_pos hlast]
    have hsublist : (before ++ after).Sublist s.entries := by
      rw [hes]
      exact (List.Sublist.refl before).append (List.sublist_cons_self e after)
    have hgone : e.addr ∉ s.held.erase e.addr := by
      rw [← List.count_pos_iff, List.count_erase_self, ← husers, hlast]
      exact Nat.lt_irrefl 0
    constructor
    · exact h.keys.sublist (hsublist.map _)
    · exact h.addrs.sublist (hsublist.map _)
    · exact fun e' he' => h.made e' (hsublist.subset he')
    · exact fun e' he' => hcount (List.mem_append.mp he')
    · intro a ha
      have hmap := hheld ha
      rw [List.map_append, List.map_cons, List.mem_append, List.mem_cons] at hmap
      rw [List.map_append, List.mem_append]
      rcases hmap with hbefore | rfl | hafter
      · exact .inl hbefore
      · exact absurd ha hgone
      · exact .inr hafter
  · rw [if_neg hlast]
    have haddrs : (before ++ { e with users := e.users - 1 } :: after).map Entry.addr
        = s.entries.map Entry.addr := by rw [map_update Entry.addr _ rfl, hes]
    have hkeys : (before ++ { e with users := e.users - 1 } :: after).map Entry.key
        = s.entries.map Entry.key := by rw [map_update Entry.key _ rfl, hes]
    constructor
    · exact hkeys ▸ h.keys
    · exact haddrs ▸ h.addrs
    · exact forall_mem_update (fun e' he' => h.made e' (hother he')) (h.made e hmem)
    · refine forall_mem_update (fun e' he' => hcount he') ?_
      rw [List.count_erase_self]
      exact ⟨congrArg (· - 1) husers, Nat.pos_of_ne_zero hlast⟩
    · intro a ha
      rw [haddrs, hes]
      exact hheld ha

/-- What is held is there, as it was made, and is counted. -/
theorem Inv.exists_entry (h : Inv create s) {addr : Nat} (haddr : addr ∈ s.held) :
    ∃ e ∈ s.entries, e.addr = addr ∧ create e.key = some e.value ∧
      e.users = s.held.count addr := by
  obtain ⟨e, he, rfl⟩ := List.mem_map.mp (h.held addr haddr)
  exact ⟨e, he, rfl, h.made e he, (h.users e he).1⟩

/-- What nobody holds is not there. -/
theorem Inv.mem_held (h : Inv create s) {e : Entry κ ν} (he : e ∈ s.entries) :
    e.addr ∈ s.held := by
  obtain ⟨husers, hpos⟩ := h.users e he
  exact List.count_pos_iff.mp (husers ▸ hpos)

variable [DecidableEq κ]

theorem Inv.acquire_found (h : Inv create s) {key : κ} {addr : Nat} {es : List (Entry κ ν)}
    (hfound : useIn key s.entries = some (addr, es)) :
    Inv create ⟨es, addr :: s.held⟩ := by
  obtain ⟨before, e, after, hes, -, rfl, rfl⟩ := useIn_eq_some hfound
  have hmem : e ∈ s.entries := hes ▸ List.mem_append_right _ List.mem_cons_self
  have hother {e' : Entry κ ν} (he' : e' ∈ before ∨ e' ∈ after) : e' ∈ s.entries :=
    hes ▸ mem_others he'
  have haddrs : (before ++ { e with users := e.users + 1 } :: after).map Entry.addr
      = s.entries.map Entry.addr := by rw [map_update Entry.addr _ rfl, hes]
  have hkeys : (before ++ { e with users := e.users + 1 } :: after).map Entry.key
      = s.entries.map Entry.key := by rw [map_update Entry.key _ rfl, hes]
  constructor
  · exact hkeys ▸ h.keys
  · exact haddrs ▸ h.addrs
  · exact forall_mem_update (fun e' he' => h.made e' (hother he')) (h.made e hmem)
  · refine forall_mem_update (fun e' he' => ?_) ?_
    · rw [List.count_cons_of_ne (addr_ne (hes ▸ h.addrs) he').symm]
      exact h.users e' (hother he')
    · rw [List.count_cons_self]
      exact ⟨congrArg (· + 1) (h.users e hmem).1, Nat.succ_pos _⟩
  · intro a ha
    rw [haddrs]
    rcases List.mem_cons.mp ha with rfl | ha
    · exact List.mem_map_of_mem hmem
    · exact h.held a ha

/-- **One call.** -/
theorem inv_step (h : Inv create s) {call : Call κ} (hcall : Allowed call s) :
    Inv create (step create call s).1 := by
  cases call with
  | release addr => exact h.release hcall
  | acquire key alloc =>
    unfold step acquire
    dsimp only
    cases hfound : useIn key s.entries with
    | some found => exact h.acquire_found hfound
    | none =>
      cases alloc with
      | none => exact h
      | some addr =>
        cases hmade : create key with
        | none => exact h
        | some value =>
          exact h.acquire_made (useIn_eq_none hfound) (hcall addr rfl) hmade

/-- **A run.** -/
theorem inv_run (h : Inv create s) {calls : List (Call κ)}
    (hcalls : Disciplined (step create) calls s) :
    Inv create (Mealy.run (step create) calls s).1 := by
  induction calls generalizing s with
  | nil => exact h
  | cons call calls ih => exact ih (inv_step h hcalls.1) hcalls.2

/-- An answer is the address of a structure for the key that was asked for. -/
theorem acquire_answer {key : κ} {alloc : Option Nat} {es : List (Entry κ ν)} {addr : Nat}
    (h : (acquire create key alloc es).2 = some addr) :
    ∃ e ∈ (acquire create key alloc es).1, e.addr = addr ∧ e.key = key := by
  unfold acquire at h ⊢
  cases hfound : useIn key es with
  | some found =>
    obtain ⟨addr', es'⟩ := found
    rw [hfound] at h
    obtain rfl := Option.some.inj h
    obtain ⟨before, e, after, rfl, hkey, haddr, rfl⟩ := useIn_eq_some hfound
    exact ⟨_, List.mem_append_right _ List.mem_cons_self, haddr, hkey⟩
  | none =>
    rw [hfound] at h
    cases alloc with
    | none => cases h
    | some addr' =>
      cases hmade : create key with
      | none =>
        rw [hmade] at h
        cases h
      | some value =>
        rw [hmade] at h
        exact ⟨_, List.mem_cons_self, Option.some.inj h, rfl⟩

/-! ## What is held stays -/

/-- An entry after a call was there before, or is at an address that was not in use. -/
theorem same_or_new (h : Inv create s) {call : Call κ} (hcall : Allowed call s) {e' : Entry κ ν}
    (he' : e' ∈ (step create call s).1.entries) :
    (∃ e ∈ s.entries, e.Same e') ∨ e'.addr ∉ s.entries.map Entry.addr := by
  cases call with
  | release addr =>
    left
    obtain ⟨before, e, after, hes, rfl, hrelease⟩ := releaseIn_eq (h.held addr hcall)
    change e' ∈ releaseIn e.addr s.entries at he'
    rw [hrelease] at he'
    split at he'
    · exact ⟨e', hes ▸ mem_others (List.mem_append.mp he'), .refl e'⟩
    · rw [hes]
      exact exists_same e' he'
  | acquire key alloc =>
    unfold step acquire at he'
    dsimp only at he'
    cases hfound : useIn key s.entries with
    | some found =>
      obtain ⟨addr, es'⟩ := found
      obtain ⟨before, e, after, hes, -, -, rfl⟩ := useIn_eq_some hfound
      rw [hfound] at he'
      rw [hes]
      exact .inl (exists_same e' he')
    | none =>
      rw [hfound] at he'
      cases alloc with
      | none => exact .inl ⟨e', he', .refl e'⟩
      | some addr =>
        cases hmade : create key with
        | none =>
          rw [hmade] at he'
          exact .inl ⟨e', he', .refl e'⟩
        | some value =>
          rw [hmade] at he'
          rcases List.mem_cons.mp he' with rfl | he'
          · exact .inr (hcall addr rfl)
          · exact .inl ⟨e', he', .refl e'⟩

/-- **A call leaves alone what is held after it.** -/
theorem stays_step (h : Inv create s) {call : Call κ} (hcall : Allowed call s) {e : Entry κ ν}
    (he : e ∈ s.entries) (hheld : e.addr ∈ (step create call s).1.held) :
    ∃ e' ∈ (step create call s).1.entries, e.Same e' := by
  obtain ⟨e', he', haddr⟩ := List.mem_map.mp ((inv_step h hcall).held e.addr hheld)
  rcases same_or_new h hcall he' with ⟨e₀, he₀, hsame⟩ | hnew
  · obtain rfl : e₀ = e :=
      List.inj_on_of_nodup_map h.addrs he₀ he (hsame.addr.symm.trans haddr)
    exact ⟨e', he', hsame⟩
  · exact absurd (haddr ▸ List.mem_map_of_mem he) hnew

/-- **A structure stays as it is while it is held**, whatever others do. -/
theorem stays_run (h : Inv create s) {calls : List (Call κ)}
    (hcalls : Disciplined (step create) calls s) {e : Entry κ ν} (he : e ∈ s.entries)
    (hheld : ∀ n, e.addr ∈ (Mealy.run (step create) (calls.take n) s).1.held) :
    ∃ e' ∈ (Mealy.run (step create) calls s).1.entries, e.Same e' := by
  induction calls generalizing s e with
  | nil => exact ⟨e, he, .refl e⟩
  | cons call calls ih =>
    obtain ⟨e', he', hsame⟩ := stays_step h hcalls.1 he (hheld 1)
    obtain ⟨e'', he'', hsame'⟩ := ih (inv_step h hcalls.1) hcalls.2 he' fun n => by
      rw [hsame.addr]
      exact hheld (n + 1)
    exact ⟨e'', he'', hsame.trans hsame'⟩

end

end SharedStore
end Lib
end CpeClock
