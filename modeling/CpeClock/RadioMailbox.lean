import CpeClock.Broadcast
import CpeClock.Lib.LatestValue

/-!
# The handler and the main loop

The handler is called at any edge, and the main loop comes by at any time and copies what was
published, with interrupts disabled. So their steps interleave in any order, but a code is never
copied while it is being written. Each of the two kinds of codes has one place, and a code that is
published on another one replaces it: both are slots that keep the latest value (`ops`), and what
the main loop gets is what `LatestValue` says. A Home Easy code of zero counts as none.
-/

namespace CpeClock

open Lib Mealy Rx433 LatestValue

/-- What happens next. -/
inductive RadioEvent where
  /-- `rx433_interrupt`, when `micros()` is `time`. -/
  | edge (time : UInt32)
  /-- The part of `mail_receive_messages` between `disable_interrupts` and `enable_interrupts`. -/
  | poll
  deriving DecidableEq

/-- The variables that the handler and the main loop share, and the handler's own. -/
structure Radio where
  rx : Rx433
  mailbox : Mailbox
  deriving DecidableEq

/-- A new code, if one is ready. -/
def Mailbox.code? (mailbox : Mailbox) : Option NcCode :=
  if mailbox.newCodeReady then some mailbox.newCode else none

namespace Radio

def booted : Radio where
  rx := initial
  mailbox := { homeEasy := 0, newCode := Vector.replicate 31 0, newCodeReady := false }

/-- One step, with the copy that a poll takes. -/
def step : RadioEvent → Radio → Radio × Option Mailbox
  | .edge time, r =>
    let (rx, published) := rx433Interrupt time r.rx
    ({ rx := rx, mailbox := published.foldl Mailbox.publish r.mailbox }, none)
  | .poll, r => ({ r with mailbox := r.mailbox.emptied }, some r.mailbox)

/-- The copies that the main loop takes. -/
def polled (events : List RadioEvent) (r : Radio) : List Mailbox :=
  (run step events r).2.reduceOption

/-- The edges among the events. -/
def edges (events : List RadioEvent) : List UInt32 :=
  events.filterMap fun
    | .edge time => some time
    | .poll => none

/-! ## Two slots -/

/-- What happens to the place of one kind of codes. -/
def ops {α : Type} (select : Publication → Option α) : List RadioEvent → Rx433 → List (Op α)
  | [], _ => []
  | .edge time :: events, s =>
    ((rx433Interrupt time s).2.filterMap select).map Op.put
      ++ ops select events (rx433Interrupt time s).1
  | .poll :: events, s => Op.take :: ops select events s

/-- **What is put there** is what is published at the edges, whenever the polls are. -/
theorem puts_ops {α : Type} (select : Publication → Option α) (events : List RadioEvent)
    (s : Rx433) :
    puts (ops select events s) = (hear (edges events) s).2.flatten.filterMap select := by
  induction events generalizing s with
  | nil => rfl
  | cons event events ih =>
    cases event with
    | edge time =>
      show puts (_ ++ _) = (hear (time :: edges events) s).2.flatten.filterMap select
      rw [puts_append, puts_puts, ih, hear, run_cons, List.flatten_cons, List.filterMap_append]
    | poll => exact ih s

theorem ops_append {α : Type} (select : Publication → Option α)
    (events events' : List RadioEvent) (s : Rx433) :
    ops select (events ++ events') s
      = ops select events s ++ ops select events' (hear (edges events) s).1 := by
  induction events generalizing s with
  | nil => rfl
  | cons event events ih =>
    cases event with
    | edge time => exact (congrArg (_ ++ ·) (ih _)).trans (List.append_assoc ..).symm
    | poll => exact congrArg (Op.take :: ·) (ih s)

/-- A field of the mailbox that is a slot for one kind of codes. -/
structure IsSlot {α β : Type} (select : Publication → Option α) (view : Option α → β)
    (field : Mailbox → β) : Prop where
  published : ∀ (mailbox : Mailbox) (slot : Option α) (p : Publication),
    field mailbox = view slot → field (mailbox.publish p) = view ((select p).or slot)
  emptied : ∀ mailbox : Mailbox, field mailbox.emptied = view none

theorem isSlot_newCode : IsSlot Publication.newCode? id Mailbox.code? := by
  refine ⟨fun mailbox slot p hslot => ?_, fun _ => rfl⟩
  cases p with
  | homeEasy code => exact hslot
  | newCode code => rfl

theorem isSlot_homeEasy :
    IsSlot Publication.homeEasy? (fun slot => slot.getD 0) Mailbox.homeEasy := by
  refine ⟨fun mailbox slot p hslot => ?_, fun _ => rfl⟩
  cases p with
  | homeEasy code => rfl
  | newCode code => exact hslot

section

variable {α β : Type} {select : Publication → Option α} {view : Option α → β}
  {field : Mailbox → β}

theorem IsSlot.publish (h : IsSlot select view field) (published : List Publication)
    {mailbox : Mailbox} {slot : Option α} (hslot : field mailbox = view slot) :
    field (published.foldl Mailbox.publish mailbox)
      = view (kept ((published.filterMap select).map Op.put) slot) := by
  induction published generalizing mailbox slot with
  | nil => exact hslot
  | cons p published ih =>
    rw [List.foldl_cons, ih (h.published mailbox slot p hslot)]
    cases hp : select p with
    | none => rw [List.filterMap_cons_none hp, Option.none_or]
    | some a => rw [List.filterMap_cons_some hp, Option.some_or, List.map_cons, kept]

/-- **A field of the mailbox is a slot**, and the polls take from it. -/
theorem IsSlot.run (h : IsSlot select view field) (events : List RadioEvent) (r : Radio)
    (slot : Option α) (hslot : field r.mailbox = view slot) :
    (polled events r).map field = (takes (ops select events r.rx) slot).map view ∧
      field (Mealy.run step events r).1.mailbox = view (kept (ops select events r.rx) slot) := by
  induction events generalizing r slot with
  | nil => exact ⟨rfl, hslot⟩
  | cons event events ih =>
    cases event with
    | edge time =>
      have hpublished := h.publish (rx433Interrupt time r.rx).2 hslot
      obtain ⟨htakes, hkept⟩ := ih (step (.edge time) r).1 _ hpublished
      rw [ops, takes_append, takes_puts, List.nil_append, kept_append]
      exact ⟨htakes, hkept⟩
    | poll =>
      obtain ⟨htakes, hkept⟩ := ih (step .poll r).1 none (h.emptied r.mailbox)
      exact ⟨congrArg₂ List.cons hslot htakes, hkept⟩

end

/-! ## Any interleaving -/

/-- The new codes that the main loop gets. -/
def polledCodes (events : List RadioEvent) (r : Radio) : List NcCode :=
  (polled events r).filterMap Mailbox.code?

/-- The new codes that are published. -/
def publishedCodes (events : List RadioEvent) (r : Radio) : List NcCode :=
  (hear (edges events) r.rx).2.flatten.filterMap Publication.newCode?

theorem polledCodes_eq (events : List RadioEvent) (r : Radio) :
    polledCodes events r
      = (takes (ops Publication.newCode? events r.rx) r.mailbox.code?).reduceOption := by
  have h := (isSlot_newCode.run events r r.mailbox.code? rfl).1
  rw [List.map_id] at h
  rw [polledCodes, ← h, List.reduceOption, List.filterMap_map]
  rfl

/-- The Home Easy codes that the main loop gets. -/
def polledHomeEasy (events : List RadioEvent) (r : Radio) : List UInt32 :=
  ((polled events r).map Mailbox.homeEasy).filter (· ≠ 0)

def publishedHomeEasy (events : List RadioEvent) (r : Radio) : List UInt32 :=
  (hear (edges events) r.rx).2.flatten.filterMap Publication.homeEasy?

/-- A Home Easy code that the main loop has not got yet. -/
def pendingHomeEasy (r : Radio) : List UInt32 := [r.mailbox.homeEasy].filter (· ≠ 0)

theorem filter_getD_sublist (slots : List (Option UInt32)) :
    ((slots.map fun slot => slot.getD 0).filter (· ≠ 0)).Sublist slots.reduceOption := by
  induction slots with
  | nil => exact List.Sublist.refl _
  | cons slot slots ih =>
    cases slot with
    | none =>
      rw [List.map_cons, List.filter_cons_of_neg (by simp), List.reduceOption_cons_of_none]
      exact ih
    | some code =>
      rw [List.map_cons, List.reduceOption_cons_of_some, Option.getD_some]
      by_cases hcode : code = 0
      · rw [List.filter_cons_of_neg (by simp [hcode])]
        exact ih.cons code
      · rw [List.filter_cons_of_pos (by simp [hcode])]
        exact ih.cons_cons code

theorem polledHomeEasy_sublist (events : List RadioEvent) {r : Radio}
    (hhomeEasy : r.mailbox.homeEasy = 0) :
    (polledHomeEasy events r ++ pendingHomeEasy (run step events r).1).Sublist
      (publishedHomeEasy events r) := by
  obtain ⟨htakes, hkept⟩ := isSlot_homeEasy.run events r none hhomeEasy
  have hall := filter_getD_sublist (takes (ops Publication.homeEasy? events r.rx) none
    ++ [kept (ops Publication.homeEasy? events r.rx) none])
  rw [List.map_append, List.filter_append, List.reduceOption_append, ← htakes, List.map_singleton,
    ← hkept, List.reduceOption_singleton] at hall
  rw [publishedHomeEasy, ← puts_ops]
  exact hall.trans (takes_sublist _ none)

/-- **No code is received twice, out of order or in part**, whatever the order of the steps: what
    the main loop gets, and then what is still in the mailbox, are among the codes that were
    published, in their order. No new code is lost if and only if none is published on another. -/
theorem polled_interleaved (events : List RadioEvent) {r : Radio}
    (hcode : r.mailbox.newCodeReady = false) (hhomeEasy : r.mailbox.homeEasy = 0) :
    let after := (run step events r).1
    let pending := after.mailbox.code?.toList
    (polledCodes events r ++ pending).Sublist (publishedCodes events r) ∧
      (polledCodes events r ++ pending = publishedCodes events r
        ↔ KeepsUp (ops Publication.newCode? events r.rx) none) ∧
      (polledHomeEasy events r ++ pendingHomeEasy after).Sublist (publishedHomeEasy events r) := by
  have hslot : r.mailbox.code? = none := by
    rw [Mailbox.code?, hcode]
    rfl
  have hkept := (isSlot_newCode.run events r none hslot).2
  have hputs := puts_ops Publication.newCode? events r.rx
  dsimp only
  rw [polledCodes_eq, hslot, hkept, publishedCodes, ← hputs]
  exact ⟨takes_sublist _ none, takes_complete_iff _ none, polledHomeEasy_sublist events hhomeEasy⟩

/-- The edges of a transmission that begins at `start`. -/
def sampleEdges (start : UInt32) (pulses : List Pulse) : List RadioEvent :=
  (Tx433.risingEdges 0 false pulses).map fun n => .edge (start + UInt32.ofNat n)

/-- Two new codes before the first poll, a Home Easy code before the second and another after. -/
def sampleEvents : List RadioEvent :=
  sampleEdges 5000 (Tx433.writeNc (Vector.replicate 31 9))
    ++ sampleEdges 205000 (Tx433.writeNc (Vector.replicate 31 17)) ++ [.poll]
    ++ sampleEdges 405000 (Tx433.writeHe 0x04022b83 1) ++ [.poll]
    ++ sampleEdges 605000 (Tx433.writeHe 0x04022b93 1)

/-- The first new code is lost, and the second Home Easy code is still there. -/
theorem polled_interleaved_sample :
    publishedCodes sampleEvents booted = [Vector.replicate 31 9, Vector.replicate 31 17] ∧
      polledCodes sampleEvents booted = [Vector.replicate 31 17] ∧
      ¬ KeepsUp (ops Publication.newCode? sampleEvents booted.rx) none ∧
      polledHomeEasy sampleEvents booted = [0x04022b83] ∧
      pendingHomeEasy (run step sampleEvents booted).1 = [0x04022b93] ∧
      [0x04022b83, 0x04022b93].Sublist (publishedHomeEasy sampleEvents booted) := by
  obtain ⟨-, hall, hhomeEasy⟩ := polled_interleaved sampleEvents (r := booted) rfl rfl
  have hpublished : publishedCodes sampleEvents booted
      = [Vector.replicate 31 9, Vector.replicate 31 17] := by decide +kernel
  have hpolled : polledCodes sampleEvents booted = [Vector.replicate 31 17] := by decide +kernel
  have hpending : (run step sampleEvents booted).1.mailbox.code? = none := by decide +kernel
  have hpolledHe : polledHomeEasy sampleEvents booted = [0x04022b83] := by decide +kernel
  have hpendingHe : pendingHomeEasy (run step sampleEvents booted).1 = [0x04022b93] := by
    decide +kernel
  have hlost : ¬ KeepsUp (ops Publication.newCode? sampleEvents booted.rx) none := by
    rw [← hall, hpublished, hpolled, hpending]
    intro hsame
    have hlength := congrArg List.length hsame
    exact absurd hlength (by decide)
  rw [hpolledHe, hpendingHe] at hhomeEasy
  exact ⟨hpublished, hpolled, hlost, hpolledHe, hpendingHe, hhomeEasy⟩

end Radio
end CpeClock
