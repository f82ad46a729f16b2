import CpeClock.Lib.Buffer
import CpeClock.Sha256Standard

/-!
# `sha256.c`, with its buffer

The context as the source has it: an array of 64 bytes that `sha256_init` does not clear, and
`datalen`. Only the bytes before `datalen` are ever read before they are written (`Stands`), so that
what was in the array plays no part in the digest.

The index of `sha256_update` has 32 bits, whatever the length has: a call with `2 ^ 32` bytes or
more does not return (`updateInPlace_eq`).
-/

namespace CpeClock
namespace Sha256

open Lib

/-! ## The source -/

/-- `SHA256_CTX`. `datalen` is at most 64. -/
structure CtxInPlace where
  data : Vector UInt8 64
  datalen : Nat
  bitlen : UInt64
  state : Words

/-- `sha256_init`, with whatever is in the buffer. -/
def initInPlace (data : Vector UInt8 64) : CtxInPlace where
  data := data
  datalen := 0
  bitlen := 0
  state := sha256Init.state

/-- One turn of the loop of `sha256_update`. -/
def updateByteInPlace (ctx : CtxInPlace) (b : UInt8) : CtxInPlace :=
  let data := ctx.data.set! ctx.datalen b
  if ctx.datalen + 1 = 64 then
    { data := data
      datalen := 0
      bitlen := ctx.bitlen + 512
      state := sha256Transform ctx.state data.toList }
  else
    { ctx with data := data, datalen := ctx.datalen + 1 }

/-- The loop of `sha256_update`, from where `i` stands; `none` when it has not ended after so many
    turns. -/
def updateLoop (data : List UInt8) : Nat → UInt32 → CtxInPlace → Option CtxInPlace
  | 0, _, _ => none
  | turns + 1, i, ctx =>
    if i.toNat < data.length then
      updateLoop data turns (i + 1) (updateByteInPlace ctx (data.getD i.toNat 0))
    else
      some ctx

def updateInPlace (turns : Nat) (ctx : CtxInPlace) (data : List UInt8) : Option CtxInPlace :=
  updateLoop data turns 0 ctx

/-- "Pad whatever data is left in the buffer": the state and the buffer afterwards. -/
def padInPlace (ctx : CtxInPlace) : Words × Vector UInt8 64 :=
  let data := ctx.data.set! ctx.datalen 0x80
  if ctx.datalen < 56 then
    (ctx.state, Buffer.fill 0 56 56 data (ctx.datalen + 1))
  else
    let data := Buffer.fill 0 64 64 data (ctx.datalen + 1)
    (sha256Transform ctx.state data.toList, Buffer.fill 0 56 56 data 0)

def finalInPlace (ctx : CtxInPlace) : Digest :=
  let (state, data) := padInPlace ctx
  -- Append to the padding the total message's length in bits and transform.
  let bitlen := ctx.bitlen + ctx.datalen.toUInt64 * 8
  let data := Buffer.storeDown (fun j => (bitlen >>> (8 * j).toUInt64).toUInt8) 8 data
  let state := sha256Transform state data.toList
  let words := [state.a, state.b, state.c, state.d, state.e, state.f, state.g, state.h]
  Vector.ofFn fun i => wordByte (words.getD (i / 4) 0) (i % 4)

/-! ## What is in the buffer -/

/-- The context stands for one whose buffer is the bytes that wait. -/
structure CtxInPlace.Stands (c : CtxInPlace) (ctx : Ctx) : Prop where
  room : c.datalen < 64
  data : c.data.toList.take c.datalen = ctx.data
  bitlen : c.bitlen = ctx.bitlen
  state : c.state = ctx.state

theorem stands_init (data : Vector UInt8 64) : (initInPlace data).Stands sha256Init where
  room := Nat.zero_lt_succ 63
  data := rfl
  bitlen := rfl
  state := rfl

theorem CtxInPlace.Stands.length {c : CtxInPlace} {ctx : Ctx} (h : c.Stands ctx) :
    ctx.data.length = c.datalen := by
  rw [← h.data, List.length_take, Vector.length_toList, Nat.min_eq_left (Nat.le_of_lt h.room)]

theorem CtxInPlace.Stands.updateByte {c : CtxInPlace} {ctx : Ctx} (h : c.Stands ctx) (b : UInt8) :
    (updateByteInPlace c b).Stands (updateByte ctx b) := by
  have htake : (c.data.set! c.datalen b).toList.take (c.datalen + 1) = ctx.data ++ [b] := by
    rw [Buffer.take_set c.data h.room, h.data]
  have hlength : (ctx.data ++ [b]).length = c.datalen + 1 := by
    rw [List.length_append, h.length, List.length_singleton]
  unfold updateByteInPlace Sha256.updateByte
  dsimp only
  rw [hlength]
  split
  · next hfull =>
    have hwhole : (c.data.set! c.datalen b).toList = ctx.data ++ [b] := by
      rw [← htake, hfull, List.take_of_length_le (Nat.le_of_eq Vector.length_toList)]
    refine ⟨Nat.zero_lt_succ 63, rfl, ?_, ?_⟩
    · rw [h.bitlen]
    · rw [h.state, hwhole]
  · next hmore =>
    exact ⟨Nat.lt_of_le_of_ne h.room hmore, htake, h.bitlen, h.state⟩

/-- As long as the length has 32 bits, the loop is a fold over the bytes. -/
theorem updateLoop_eq {data : List UInt8} (hlen : data.length < 2 ^ 32) (turns : Nat)
    {i : UInt32} (hi : i.toNat ≤ data.length) (ctx : CtxInPlace) :
    updateLoop data turns i ctx
      = if data.length - i.toNat < turns then
          some ((data.drop i.toNat).foldl updateByteInPlace ctx)
        else none := by
  induction turns generalizing i ctx with
  | zero => rfl
  | succ turns ih =>
    rw [updateLoop]
    by_cases hmore : i.toNat < data.length
    · have hnext : (i + 1).toNat = i.toNat + 1 := by
        rw [UInt32.toNat_add, show (1 : UInt32).toNat = 1 from rfl]
        exact Nat.mod_eq_of_lt (by omega)
      have hdrop : data.drop i.toNat = data.getD i.toNat 0 :: data.drop (i.toNat + 1) := by
        rw [List.drop_eq_getElem_cons hmore, List.getElem_eq_getD (0 : UInt8)]
      rw [if_pos hmore, ih (by omega), hnext, hdrop, List.foldl_cons]
      exact if_congr (by omega) rfl rfl
    · rw [if_neg hmore, if_pos (by omega), List.drop_of_length_le (by omega), List.foldl_nil]

/-- With a length that 32 bits do not hold, the index never gets there. -/
theorem updateLoop_forever {data : List UInt8} (hlen : 2 ^ 32 ≤ data.length) (turns : Nat)
    (i : UInt32) (ctx : CtxInPlace) : updateLoop data turns i ctx = none := by
  induction turns generalizing i ctx with
  | zero => rfl
  | succ turns ih =>
    rw [updateLoop, if_pos (Nat.lt_of_lt_of_le i.toNat_lt hlen), ih]

/-- **When a call of `sha256_update` returns**, and what it has done then. -/
theorem updateInPlace_eq (turns : Nat) (ctx : CtxInPlace) (data : List UInt8) :
    updateInPlace turns ctx data
      = if data.length < 2 ^ 32 ∧ data.length < turns then
          some (data.foldl updateByteInPlace ctx)
        else none := by
  unfold updateInPlace
  by_cases hlen : data.length < 2 ^ 32
  · rw [updateLoop_eq hlen turns (Nat.zero_le _)]
    exact if_congr ⟨fun h => ⟨hlen, h⟩, fun h => h.2⟩ rfl rfl
  · rw [updateLoop_forever (Nat.not_lt.mp hlen), if_neg fun h => hlen h.1]

theorem stands_update {c : CtxInPlace} {ctx : Ctx} (h : c.Stands ctx) (data : List UInt8) :
    (data.foldl updateByteInPlace c).Stands (sha256Update ctx data) := by
  induction data generalizing c ctx with
  | nil => exact h
  | cons b data ih => exact ih (h.updateByte b)

/-- **The padding** leaves 56 bytes that are known. -/
theorem CtxInPlace.Stands.pad {c : CtxInPlace} {ctx : Ctx} (h : c.Stands ctx) :
    (padInPlace c).1 = (if ctx.data.length < 56 then ctx.state
      else sha256Transform ctx.state (ctx.data ++ [0x80]
        ++ List.replicate (64 - (ctx.data ++ [(0x80 : UInt8)]).length) 0)) ∧
      (padInPlace c).2.toList.take 56 = (if ctx.data.length < 56 then ctx.data ++ [0x80]
        ++ List.replicate (56 - (ctx.data ++ [(0x80 : UInt8)]).length) 0
      else List.replicate 56 0) := by
  have hone : (c.data.set! c.datalen 0x80).toList.take (c.datalen + 1) = ctx.data ++ [0x80] := by
    rw [Buffer.take_set c.data h.room, h.data]
  have hlength : (ctx.data ++ [(0x80 : UInt8)]).length = c.datalen + 1 := by
    rw [List.length_append, h.length, List.length_singleton]
  have hroom := h.room
  rw [h.length, hlength]
  unfold padInPlace
  dsimp only
  split
  · next hfits =>
    refine ⟨h.state, ?_⟩
    rw [Buffer.take_fill 0 (by decide) 56 _ (by omega) (by omega), hone]
  · have hblock := Buffer.take_fill 0 (Nat.le_refl 64) 64 (c.data.set! c.datalen 0x80)
      (i := c.datalen + 1) (by omega) (by omega)
    rw [hone, List.take_of_length_le (Nat.le_of_eq Vector.length_toList)] at hblock
    refine ⟨?_, ?_⟩
    · rw [hblock, h.state]
    · rw [Buffer.take_fill 0 (by decide) 56 _ (Nat.zero_le 56) (Nat.le_add_left 56 0),
        List.take_zero, List.nil_append]

theorem finalInPlace_eq {c : CtxInPlace} {ctx : Ctx} (h : c.Stands ctx) :
    finalInPlace c = sha256Final ctx := by
  obtain ⟨hstate, hdata⟩ := h.pad
  have hfield (bitlen : UInt64) :
      ((List.range 8).map fun j => (bitlen >>> (8 * j).toUInt64).toUInt8).reverse
        = (List.range 8).map fun i => (bitlen >>> (56 - 8 * i).toUInt64).toUInt8 := rfl
  unfold finalInPlace sha256Final
  dsimp only
  rw [Buffer.storeDown_toList _ (by decide), hfield, hdata, hstate, h.bitlen, h.length]
  split <;> rfl

/-- The calls of one hash: `sha256_init`, a `sha256_update` for each part, `sha256_final`. -/
def hashInPlace (turns : Nat) (buffer : Vector UInt8 64) (parts : List (List UInt8)) :
    Option Digest :=
  (parts.foldlM (updateInPlace turns) (initInPlace buffer)).map finalInPlace

theorem foldlM_updateInPlace {turns : Nat} {parts : List (List UInt8)} {c c' : CtxInPlace} :
    parts.foldlM (updateInPlace turns) c = some c'
      ↔ (∀ part ∈ parts, part.length < 2 ^ 32 ∧ part.length < turns) ∧
        c' = parts.foldl (fun c part => part.foldl updateByteInPlace c) c := by
  induction parts generalizing c with
  | nil => simp [eq_comm]
  | cons part parts ih =>
    rw [List.foldlM_cons, updateInPlace_eq, List.forall_mem_cons, List.foldl_cons]
    split
    · next hfits => rw [and_iff_right hfits]; exact ih
    · next hlong => exact ⟨fun h => absurd h (by simp), fun h => absurd h.1.1 hlong⟩

theorem exists_turns (parts : List (List UInt8)) :
    ∃ turns, ∀ part ∈ parts, part.length < turns := by
  induction parts with
  | nil => exact ⟨0, by simp⟩
  | cons part parts ih =>
    obtain ⟨turns, hturns⟩ := ih
    refine ⟨turns + (part.length + 1), fun other hother => ?_⟩
    rcases List.mem_cons.mp hother with rfl | hmem
    · omega
    · exact Nat.lt_add_right _ (hturns other hmem)

/-- **The digest is the standard's**, whatever was in the buffer and however the message is split
    between the calls of `sha256_update`; and there is one if and only if no call is given `2 ^ 32`
    bytes. -/
theorem hashInPlace_iff (buffer : Vector UInt8 64) (parts : List (List UInt8)) (digest : Digest) :
    (∃ turns, hashInPlace turns buffer parts = some digest)
      ↔ (∀ part ∈ parts, part.length < 2 ^ 32) ∧ digest.toList = Sha2.sha256 parts.flatten := by
  have hstands : ∀ {c : CtxInPlace} {ctx : Ctx}, c.Stands ctx →
      (parts.foldl (fun c part => part.foldl updateByteInPlace c) c).Stands
        (parts.foldl sha256Update ctx) := by
    induction parts with
    | nil =>
      intro c ctx h
      exact h
    | cons part parts ih =>
      intro c ctx h
      exact ih (stands_update h part)
  have hfinal := finalInPlace_eq (hstands (stands_init buffer))
  have hstandard := sha256Final_updates parts
  rw [← hfinal] at hstandard
  constructor
  · rintro ⟨turns, h⟩
    obtain ⟨c, hc, rfl⟩ := Option.map_eq_some_iff.mp h
    obtain ⟨hfits, rfl⟩ := foldlM_updateInPlace.mp hc
    exact ⟨fun part hpart => (hfits part hpart).1, hstandard⟩
  · rintro ⟨hlen, hdigest⟩
    obtain ⟨turns, hturns⟩ := exists_turns parts
    refine ⟨turns, Option.map_eq_some_iff.mpr ⟨_, foldlM_updateInPlace.mpr
      ⟨fun part hpart => ⟨hlen part hpart, hturns part hpart⟩, rfl⟩, ?_⟩⟩
    rw [← Vector.toList_inj, hstandard, hdigest]

/-- `abc`, in two parts. -/
example : (hashInPlace 4 (Vector.replicate 64 0xff) [[0x61], [0x62, 0x63]]).map Vector.toList
    = some [0xba, 0x78, 0x16, 0xbf, 0x8f, 0x01, 0xcf, 0xea, 0x41, 0x41, 0x40, 0xde, 0x5d, 0xae,
        0x22, 0x23, 0xb0, 0x03, 0x61, 0xa3, 0x96, 0x17, 0x7a, 0x9c, 0xb4, 0x10, 0xff, 0x61, 0xf2,
        0x00, 0x15, 0xad] := by
  decide +kernel

end Sha256
end CpeClock
