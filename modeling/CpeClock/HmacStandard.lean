import CpeClock.CounterStore
import CpeClock.Lib.KeyedHash

/-!
# `hmac_sha256` is HMAC

The function's buffer and its three loops, which share the index. What carries the proof is the part
of the buffer before the index: every turn of a loop appends one byte to it (`take_set`), whatever
stood there, and the index ends at the block size.
-/

namespace CpeClock

open Lib Hmac433 Mail

namespace Hmac

/-! ## The source, with its buffer -/

/-- `k_pad`. -/
abbrev KPad := Vector UInt8 64

/-- One of the loops that copy into `k_pad`, with `i` and `j` where they stand: the buffer and `i`
    afterwards. Each turn increments `i`, so 64 turns are enough. -/
def copyLoop (data : List UInt8) : Nat → KPad → Nat → Nat → KPad × Nat
  | 0, kPad, i, _ => (kPad, i)
  | turns + 1, kPad, i, j =>
    if j < data.length ∧ i < hmacBlockSize then
      copyLoop data turns (kPad.set! i (data.getD j 0 ^^^ 0x36)) (i + 1) (j + 1)
    else
      (kPad, i)

/-- The loop that fills the rest. -/
def fillLoop : Nat → KPad → Nat → KPad
  | 0, kPad, _ => kPad
  | turns + 1, kPad, i =>
    if i < hmacBlockSize then fillLoop turns (kPad.set! i 0x36) (i + 1) else kPad

/-- The loop that turns the inner padding into the outer. -/
def flipLoop : Nat → KPad → Nat → KPad
  | 0, kPad, _ => kPad
  | turns + 1, kPad, i =>
    if i < hmacBlockSize then flipLoop turns (kPad.set! i (kPad[i]! ^^^ (0x5c ^^^ 0x36))) (i + 1)
    else kPad

/-- `hmac_sha256`, with whatever is in `k_pad` before it is written. -/
def hmacSha256InPlace (hash : Hash) (kPad : KPad) (keyData : List UInt8) (counter : UInt64)
    (message : List UInt8) : Digest :=
  let (kPad, i) := copyLoop keyData 64 kPad 0 0
  let (kPad, i) := copyLoop (counterData counter) 64 kPad i 0
  let kPad := fillLoop 64 kPad i
  let digest := hash (kPad.toList ++ message)
  let kPad := flipLoop 64 kPad 0
  hash (kPad.toList ++ digest.toList)

/-! ## The loops -/

theorem take_set (kPad : KPad) {i : Nat} (hi : i < 64) (b : UInt8) :
    (kPad.set! i b).toList.take (i + 1) = kPad.toList.take i ++ [b] := by
  have hlength : i < kPad.toList.length := by
    rw [Vector.length_toList]
    exact hi
  rw [Vector.toList_set!, List.take_add_one, List.take_set_of_le (Nat.le_refl i),
    List.getElem?_set_self hlength]
  rfl

/-- A loop that copies appends what is left of its data, as far as there is room. -/
theorem copyLoop_spec (data : List UInt8) (turns : Nat) (kPad : KPad) {i : Nat} (j : Nat)
    (hi : i ≤ 64) (hturns : 64 ≤ i + turns) :
    (copyLoop data turns kPad i j).1.toList.take (copyLoop data turns kPad i j).2
        = kPad.toList.take i ++ ((data.drop j).take (64 - i)).map (· ^^^ 0x36) ∧
      (copyLoop data turns kPad i j).2 = i + min (data.length - j) (64 - i) := by
  induction turns generalizing kPad i j with
  | zero =>
    obtain rfl : i = 64 := by omega
    simp [copyLoop]
  | succ turns ih =>
    rw [copyLoop]
    split
    · next hmore =>
      obtain ⟨hj, hi'⟩ := hmore
      have hroom : i < 64 := hi'
      obtain ⟨htake, hindex⟩ := ih (kPad.set! i (data.getD j 0 ^^^ 0x36)) (i := i + 1) (j + 1)
        hroom (by omega)
      have hleft : 64 - i = 64 - (i + 1) + 1 := by omega
      have hdata : data.getD j 0 = data[j] := (List.getElem_eq_getD 0).symm
      refine ⟨?_, ?_⟩
      · rw [htake, take_set kPad hroom, hdata, hleft, List.drop_eq_getElem_cons hj,
          List.take_succ_cons, List.map_cons, List.append_assoc]
        rfl
      · rw [hindex]
        omega
    · next hdone =>
      have hnone : (data.drop j).take (64 - i) = [] := by
        by_cases hj : j < data.length
        · have hfull : i = 64 := Nat.le_antisymm hi (Nat.not_lt.mp fun h => hdone ⟨hj, h⟩)
          rw [hfull, Nat.sub_self, List.take_zero]
        · rw [List.drop_of_length_le (Nat.not_lt.mp hj), List.take_nil]
      have hstay : min (data.length - j) (64 - i) = 0 := by
        have hlength := congrArg List.length hnone
        rw [List.length_take, List.length_drop, List.length_nil] at hlength
        omega
      rw [hnone, hstay]
      exact ⟨(List.append_nil _).symm, rfl⟩

theorem fillLoop_spec (turns : Nat) (kPad : KPad) {i : Nat} (hi : i ≤ 64)
    (hturns : 64 ≤ i + turns) :
    (fillLoop turns kPad i).toList = kPad.toList.take i ++ List.replicate (64 - i) 0x36 := by
  have hfull (kPad : KPad) : kPad.toList.take 64 = kPad.toList :=
    List.take_of_length_le (Nat.le_of_eq kPad.length_toList)
  induction turns generalizing kPad i with
  | zero =>
    obtain rfl : i = 64 := by omega
    rw [fillLoop, hfull]
    exact (List.append_nil _).symm
  | succ turns ih =>
    rw [fillLoop]
    split
    · next hroom =>
      have hroom' : i < 64 := hroom
      have hleft : 64 - i = 64 - (i + 1) + 1 := by omega
      rw [ih (kPad.set! i 0x36) hroom (by omega), take_set kPad hroom', hleft, List.replicate_succ,
        List.append_assoc]
      rfl
    · next hdone =>
      obtain rfl : i = 64 := Nat.le_antisymm hi (Nat.not_lt.mp hdone)
      rw [hfull]
      exact (List.append_nil _).symm

/-- What is behind the index has still to be turned. -/
theorem flipLoop_spec (turns : Nat) (kPad : KPad) {i : Nat} (hi : i ≤ 64)
    (hturns : 64 ≤ i + turns) :
    (flipLoop turns kPad i).toList
      = kPad.toList.take i ++ (kPad.toList.drop i).map (· ^^^ (0x5c ^^^ 0x36)) := by
  have hfull (kPad : KPad) : kPad.toList.length = 64 := kPad.length_toList
  have hdone (kPad : KPad) :
      kPad.toList.take 64 ++ (kPad.toList.drop 64).map (· ^^^ (0x5c ^^^ 0x36)) = kPad.toList := by
    rw [List.take_of_length_le (Nat.le_of_eq (hfull kPad)),
      List.drop_of_length_le (Nat.le_of_eq (hfull kPad)), List.map_nil, List.append_nil]
  induction turns generalizing kPad i with
  | zero =>
    obtain rfl : i = 64 := by omega
    rw [flipLoop, hdone]
  | succ turns ih =>
    rw [flipLoop]
    split
    · next hroom =>
      have hroom' : i < 64 := hroom
      have hlength : i < kPad.toList.length := Nat.lt_of_lt_of_eq hroom' (hfull kPad).symm
      have hbyte : kPad[i]! = kPad.toList[i] := by
        rw [getElem!_pos kPad i hroom', Vector.getElem_toList]
      rw [ih (kPad.set! i (kPad[i]! ^^^ (0x5c ^^^ 0x36))) hroom (by omega), take_set kPad hroom',
        Vector.toList_set!, List.drop_set_of_lt (Nat.lt_succ_self i), hbyte,
        List.drop_eq_getElem_cons hlength, List.map_cons, List.append_assoc]
      rfl
    · next hleave =>
      obtain rfl : i = 64 := Nat.le_antisymm hi (Nat.not_lt.mp hleave)
      rw [hdone]

/-! ## The function -/

/-- **The buffer holds the inner padding** when the inner hash is taken, whatever was in it. -/
theorem fill_toList (buffer : KPad) (keyData : List UInt8) (counter : UInt64) :
    let (first, i) := copyLoop keyData 64 buffer 0 0
    let (second, i) := copyLoop (counterData counter) 64 first i 0
    (fillLoop 64 second i).toList = kPad keyData counter := by
  obtain ⟨htake, hindex⟩ := copyLoop_spec keyData 64 buffer 0 (Nat.zero_le 64) (by omega)
  generalize copyLoop keyData 64 buffer 0 0 = first at htake hindex
  obtain ⟨first, i⟩ := first
  dsimp only at htake hindex ⊢
  obtain ⟨htake', hindex'⟩ := copyLoop_spec (counterData counter) 64 first 0
    (i := i) (by omega) (by omega)
  generalize copyLoop (counterData counter) 64 first i 0 = second at htake' hindex'
  obtain ⟨second, i'⟩ := second
  dsimp only at htake' hindex' ⊢
  have hkey : ((keyData.take hmacBlockSize).map (· ^^^ 0x36)).length = i := by
    rw [List.length_map, List.length_take, hmacBlockSize]
    omega
  have hkeyed : ((keyData.take hmacBlockSize).map (· ^^^ 0x36)
      ++ ((counterData counter).take (hmacBlockSize - i)).map (· ^^^ 0x36)).length = i' := by
    rw [List.length_append, hkey, List.length_map, List.length_take, length_counterData,
      hmacBlockSize]
    rw [length_counterData] at hindex'
    omega
  rw [fillLoop_spec 64 second (by omega) (by omega), htake', htake, List.take_zero,
    List.nil_append, List.drop_zero, List.drop_zero]
  unfold kPad
  dsimp only
  rw [hkey, hkeyed]
  rfl

/-- **The buffer plays no part**: the function is what the other modules take it for. -/
theorem hmacSha256InPlace_eq (hash : Hash) (buffer : KPad) (keyData : List UInt8) (counter : UInt64)
    (message : List UInt8) :
    hmacSha256InPlace hash buffer keyData counter message
      = hmacSha256 hash keyData counter message := by
  have hfill := fill_toList buffer keyData counter
  unfold hmacSha256InPlace hmacSha256
  dsimp only at hfill ⊢
  rw [flipLoop_spec 64 _ (Nat.zero_le 64) (by decide), List.take_zero, List.nil_append,
    List.drop_zero, hfill]

/-! ## The standard -/

/-- A hash as a function of byte strings alone. -/
def bytesOf (hash : Hash) (data : List UInt8) : List UInt8 := (hash data).toList

theorem kPad_eq_keyBlock (hash : List UInt8 → List UInt8) {keyData : List UInt8}
    (h : keyData.length ≤ 56) (counter : UInt64) :
    kPad keyData counter = (KeyedHash.keyBlock hash hmacBlockSize
      (keyData ++ counterData counter)).map (· ^^^ KeyedHash.ipad) := by
  have hlength : (keyData ++ counterData counter).length = keyData.length + 8 := by
    rw [List.length_append, length_counterData]
  have hkey : keyData.take hmacBlockSize = keyData :=
    List.take_of_length_le (Nat.le_trans h (by decide))
  have hcounter : (counterData counter).take (hmacBlockSize - keyData.length)
      = counterData counter := by
    refine List.take_of_length_le ?_
    rw [length_counterData, hmacBlockSize]
    omega
  have hfits : (keyData ++ counterData counter).length ≤ hmacBlockSize := by
    rw [hlength, hmacBlockSize]
    omega
  rw [KeyedHash.keyBlock_of_le hfits, List.map_append, List.map_replicate]
  unfold kPad
  dsimp only
  rw [hkey, List.length_map, hcounter, ← List.map_append, List.length_map]
  rfl

theorem length_clampSecret (secretData : List UInt8) : (clampSecret secretData).length ≤ 56 :=
  List.length_take_le 56 secretData

theorem packetHmac_toList (hash : Hash) (secretData : List UInt8) (counter : UInt64)
    (payload : Payload) :
    (packetHmac hash secretData counter payload).toList
      = (hmacSha256 hash (clampSecret secretData) counter payload.toList).toList.take 6 := by
  apply List.ext_getElem
  · simp
  · intro i hi _
    have hi' : i < 6 := by simpa using hi
    simp [packetHmac]

theorem hmacSha256_toList (hash : Hash) (secretData : List UInt8) (counter : UInt64)
    (message : List UInt8) :
    (hmacSha256 hash (clampSecret secretData) counter message).toList
      = KeyedHash.hmac (bytesOf hash) hmacBlockSize (secretData.take 56 ++ counterData counter)
          message :=
  KeyedHash.hmac_eq
    (kPad_eq_keyBlock (bytesOf hash) (length_clampSecret secretData) counter) message

/-- Keys that differ in the counter alone. -/
theorem counter_of_keyBlock {hash : List UInt8 → List UInt8} {secretData : List UInt8}
    {counter counter' : UInt64}
    (h : KeyedHash.keyBlock hash hmacBlockSize (secretData.take 56 ++ counterData counter)
      = KeyedHash.keyBlock hash hmacBlockSize (secretData.take 56 ++ counterData counter')) :
    counter = counter' := by
  have hlength : (secretData.take 56 ++ counterData counter).length
      = (secretData.take 56 ++ counterData counter').length := by
    rw [List.length_append, List.length_append, length_counterData, length_counterData]
  have hfits : (secretData.take 56 ++ counterData counter).length ≤ hmacBlockSize := by
    have hsecret := length_clampSecret secretData
    rw [List.length_append, length_counterData, hmacBlockSize]
    exact Nat.add_le_add_right hsecret 8
  have hkeys := KeyedHash.keyBlock_inj hlength hfits h
  have hdata := congrArg counterOfData (List.append_cancel_left hkeys)
  rwa [counterOfData_counterData, counterOfData_counterData] at hdata

/-- **`hmac_sha256` is HMAC**, for every secret, counter and message, whatever is in its buffer: the
    key is the first 56 bytes of the secret and the bytes of the counter. The tag of a packet is the
    beginning of that, and two counters never make the same key block. -/
theorem hmac_standard (hash : Hash) (buffer : KPad) (secretData : List UInt8) (counter : UInt64)
    (message : List UInt8) :
    let key (counter : UInt64) := secretData.take 56 ++ counterData counter
    (hmacSha256InPlace hash buffer (clampSecret secretData) counter message).toList
        = KeyedHash.hmac (bytesOf hash) hmacBlockSize (key counter) message ∧
      (∀ payload : Payload, (packetHmac hash secretData counter payload).toList
        = (KeyedHash.hmac (bytesOf hash) hmacBlockSize (key counter) payload.toList).take 6) ∧
      ∀ counter', KeyedHash.keyBlock (bytesOf hash) hmacBlockSize (key counter)
        = KeyedHash.keyBlock (bytesOf hash) hmacBlockSize (key counter') → counter = counter' := by
  refine ⟨?_, fun payload => ?_, fun counter' h => counter_of_keyBlock h⟩
  · rw [hmacSha256InPlace_eq]
    exact hmacSha256_toList hash secretData counter message
  · rw [packetHmac_toList, hmacSha256_toList]

end Hmac
end CpeClock
