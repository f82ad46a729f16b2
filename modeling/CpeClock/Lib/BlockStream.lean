import Mathlib.Data.List.Basic

/-!
# Data that are worked on in blocks

A function that takes a state and a block of fixed length, chained over the blocks of a long list
(`chain`), and the same chain when the list comes in one element at a time and the block that is not
full yet has to wait (`feed`). `Absorbed` says what such a stream has made of what it was given, and
is all that a proof about a stream needs.
-/

namespace CpeClock
namespace Lib
namespace BlockStream

variable {α σ : Type*} (compress : σ → List α → σ) (size : Nat)

/-- The chain over the whole blocks of `data`; what is left over plays no part. -/
def chain (s : σ) (data : List α) : σ :=
  (List.range (data.length / size)).foldl
    (fun s i => compress s ((data.drop (size * i)).take size)) s

/-- One more element: the state, and the elements that wait. -/
def feed (p : σ × List α) (a : α) : σ × List α :=
  if (p.2 ++ [a]).length = size then (compress p.1 (p.2 ++ [a]), []) else (p.1, p.2 ++ [a])

/-- What a stream that started in `s₀` is like when `data` have come in. -/
structure Absorbed (s₀ : σ) (data : List α) (p : σ × List α) : Prop where
  waiting : p.2.length < size
  chained : ∃ whole, data = whole ++ p.2 ∧ size ∣ whole.length ∧ p.1 = chain compress size s₀ whole

variable {compress size}

theorem chain_short {data : List α} (h : data.length < size) (s : σ) :
    chain compress size s data = s := by
  rw [chain, Nat.div_eq_of_lt h]
  rfl

theorem chain_append (hsize : 0 < size) {whole : List α} (h : size ∣ whole.length) (data : List α)
    (s : σ) :
    chain compress size s (whole ++ data)
      = chain compress size (chain compress size s whole) data := by
  obtain ⟨count, hcount⟩ := h
  have hblocks : (whole ++ data).length / size = count + data.length / size := by
    rw [List.length_append, hcount, Nat.mul_add_div hsize]
  have hwhole : whole.length / size = count := by rw [hcount, Nat.mul_div_cancel_left _ hsize]
  have hfirst (s : σ) (i : Nat) (hi : i ∈ List.range count) :
      compress s (((whole ++ data).drop (size * i)).take size)
        = compress s ((whole.drop (size * i)).take size) := by
    have hroom : size * i + size ≤ whole.length := by
      rw [hcount, ← Nat.mul_succ]
      exact Nat.mul_le_mul_left size (List.mem_range.mp hi)
    rw [List.drop_append_of_le_length (Nat.le_trans (Nat.le_add_right _ _) hroom),
      List.take_append_of_le_length]
    rw [List.length_drop]
    exact Nat.le_sub_of_add_le' hroom
  have hrest (s : σ) (i : Nat) : compress s (((whole ++ data).drop (size * (count + i))).take size)
      = compress s ((data.drop (size * i)).take size) := by
    have hskip : whole.drop (whole.length + size * i) = [] :=
      List.drop_of_length_le (Nat.le_add_right _ _)
    rw [Nat.mul_add, ← hcount, List.drop_append, hskip, Nat.add_sub_cancel_left, List.nil_append]
  unfold chain
  rw [hblocks, hwhole, List.range_add, List.foldl_append, List.foldl_map,
    List.foldl_ext _ _ s hfirst]
  simp only [hrest]

theorem chain_block (hsize : 0 < size) {block : List α} (h : block.length = size) (s : σ) :
    chain compress size s block = compress s block := by
  unfold chain
  rw [h, Nat.div_self hsize]
  show compress s ((block.drop (size * 0)).take size) = _
  rw [Nat.mul_zero, List.drop_zero, ← h, List.take_length]

/-- A map of states that goes with every whole block goes with the chain. -/
theorem chain_hom {τ : Type*} {compress' : τ → List α → τ} (f : σ → τ)
    (h : ∀ s block, block.length = size → f (compress s block) = compress' (f s) block) (s : σ)
    (data : List α) : f (chain compress size s data) = chain compress' size (f s) data := by
  have hblock {i : Nat} (hi : i ∈ List.range (data.length / size)) :
      ((data.drop (size * i)).take size).length = size := by
    have hroom : size * (i + 1) ≤ data.length :=
      Nat.le_trans (Nat.mul_le_mul_left size (List.mem_range.mp hi)) (Nat.mul_div_le ..)
    rw [List.length_take, List.length_drop, Nat.min_eq_left]
    exact Nat.le_sub_of_add_le' hroom
  unfold chain
  generalize List.range (data.length / size) = l at hblock
  induction l generalizing s with
  | nil => rfl
  | cons i l ih =>
    rw [List.foldl_cons, List.foldl_cons, ih _ fun hj => hblock (List.mem_cons_of_mem i hj),
      h s _ (hblock List.mem_cons_self)]

theorem Absorbed.start (hsize : 0 < size) (s : σ) : Absorbed compress size s [] (s, []) where
  waiting := hsize
  chained := ⟨[], rfl, Nat.dvd_zero size, (chain_short hsize s).symm⟩

theorem Absorbed.feed {s₀ : σ} {data : List α} {p : σ × List α}
    (h : Absorbed compress size s₀ data p) (a : α) :
    Absorbed compress size s₀ (data ++ [a]) (feed compress size p a) := by
  have hlength : (p.2 ++ [a]).length = p.2.length + 1 := List.length_append
  have hsize : 0 < size := Nat.lt_of_le_of_lt (Nat.zero_le _) h.waiting
  obtain ⟨whole, hdata, hwhole, hstate⟩ := h.chained
  unfold BlockStream.feed
  split
  · next hfull =>
    refine ⟨hsize, whole ++ (p.2 ++ [a]), ?_, ?_, ?_⟩
    · rw [hdata, List.append_nil, List.append_assoc]
    · rw [List.length_append, hfull]
      exact Nat.dvd_add hwhole (Nat.dvd_refl size)
    · rw [chain_append hsize hwhole, chain_block hsize hfull, hstate]
  · next hmore =>
    refine ⟨?_, whole, ?_, hwhole, hstate⟩
    · rw [hlength] at hmore ⊢
      exact Nat.lt_of_le_of_ne h.waiting hmore
    · rw [hdata, List.append_assoc]

/-- The chain goes on from where the stream stands. -/
theorem Absorbed.chain_append {s₀ : σ} {data : List α} {p : σ × List α}
    (h : Absorbed compress size s₀ data p) (rest : List α) :
    chain compress size s₀ (data ++ rest) = chain compress size p.1 (p.2 ++ rest) := by
  have hsize : 0 < size := Nat.lt_of_le_of_lt (Nat.zero_le _) h.waiting
  obtain ⟨whole, hdata, hwhole, hstate⟩ := h.chained
  rw [hdata, List.append_assoc, BlockStream.chain_append hsize hwhole, hstate]

/-- How many elements wait. -/
theorem Absorbed.length_waiting {s₀ : σ} {data : List α} {p : σ × List α}
    (h : Absorbed compress size s₀ data p) : p.2.length = data.length % size := by
  obtain ⟨whole, hdata, ⟨count, hcount⟩, -⟩ := h.chained
  rw [hdata, List.length_append, hcount, Nat.mul_add_mod, Nat.mod_eq_of_lt h.waiting]

end BlockStream
end Lib
end CpeClock
