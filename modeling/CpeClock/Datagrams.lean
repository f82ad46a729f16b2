import CpeClock.Lib.Numerals
import CpeClock.Nvram
import CpeClock.Server433
import Mathlib.Data.Bool.AllAny
import Mathlib.Data.List.TakeWhile

/-!
# Datagrams, and what the server makes of them

Three formats come in on one port: 33 bytes that begin with `NC`, a number in hexadecimal, and a
name with `on` or `off`; the last two may follow the word `notimer`. `network_send` writes the first
two, for a repeater, and `encode_named_action` the third, for the other services. Each is read back
as what was written (`decodeDatagram_networkSend`, `decodeDatagram_namedAction_iff`), but for
numbers that are not codes, and a light that is called `notimer`.
-/

namespace CpeClock

open Lib

/-! ## Texts as bytes -/

namespace Text

/-- `text.encode("ascii")`, for a text that is ASCII. -/
def encodeAscii (text : Text) : List UInt8 := text.map fun c => c.toNat.toUInt8

theorem decodeAscii_encodeAscii {text : Text} (hascii : ∀ c ∈ text, c.toNat < 128) :
    decodeAscii (encodeAscii text) = some text := by
  have hbyte : ∀ c ∈ text, (c.toNat.toUInt8).toNat = c.toNat := by
    intro c hc
    have hc := hascii c hc
    exact Nat.mod_eq_of_lt (by omega)
  have hall : (encodeAscii text).all (· < 128) = true := by
    rw [List.all_eq_true]
    intro b hb
    obtain ⟨c, hc, rfl⟩ := List.mem_map.mp hb
    exact decide_eq_true (UInt8.lt_iff_toNat_lt.mpr (by rw [hbyte c hc]; exact hascii c hc))
  unfold decodeAscii
  rw [if_pos hall, encodeAscii, List.map_map]
  refine congrArg some ((List.map_congr_left fun c hc => ?_).trans (List.map_id text))
  show Char.ofNat (c.toNat.toUInt8).toNat = c
  rw [hbyte c hc, Char.ofNat_toNat]

/-! ## Hexadecimal -/

theorem reads_hexDigit : Numerals.Reads hexDigit 16 := by decide

/-- A digit is no character that `int16` treats otherwise. -/
theorem hexDigit_ne {c : Char} (h : (hexDigit c).isSome = true) {d : Char}
    (hd : hexDigit d = none) : c ≠ d := by
  rintro rfl
  rw [hd] at h
  cases h

theorem toNat_of_hexDigit {c : Char} (h : (hexDigit c).isSome = true) : c.toNat < 128 := by
  unfold hexDigit at h
  split at h
  · next hc => exact Nat.lt_of_le_of_lt (Char.le_def.mp hc.2) (by decide)
  · split at h
    · next hc => exact Nat.lt_of_le_of_lt (Char.le_def.mp hc.2) (by decide)
    · split at h
      · next hc => exact Nat.lt_of_le_of_lt (Char.le_def.mp hc.2) (by decide)
      · cases h

theorem isSeparator_of_hexDigit {c : Char} (h : (hexDigit c).isSome = true) :
    isSeparator c = false := by
  have hall : ∀ n < 128, (hexDigit (Char.ofNat n)).isSome = true →
      isSeparator (Char.ofNat n) = false := by decide +kernel
  have hc := hall c.toNat (toNat_of_hexDigit h)
  rw [Char.ofNat_toNat] at hc
  exact hc h

theorem isSpace_of_not_isSeparator {c : Char} (h : isSeparator c = false) : isSpace c = false :=
  (Bool.or_eq_false_iff.mp h).1

/-- **Digits are read as their number.** -/
theorem int16_digits {text : Text} (hne : text ≠ [])
    (hall : ∀ c ∈ text, (hexDigit c).isSome = true) :
    int16 text = some (Numerals.value hexDigit 16 text : Int) := by
  have hnot : ∀ d, hexDigit d = none → d ∉ text := fun d hd hmem =>
    hexDigit_ne (hall d hmem) hd rfl
  obtain ⟨c, rest, rfl⟩ := List.exists_cons_of_ne_nil hne
  have hspace : ¬ isSpace c = true := by
    rw [isSpace_of_not_isSeparator (isSeparator_of_hexDigit (hall c List.mem_cons_self))]
    exact Bool.false_ne_true
  have hhead : ∀ d, hexDigit d = none → ¬ (c :: rest).head? = some d := fun d hd heq =>
    hnot d hd (List.mem_of_head? heq)
  have hsign : ¬ ((c :: rest).head? = some '-' ∨ (c :: rest).head? = some '+') :=
    not_or.mpr ⟨hhead '-' (by decide), hhead '+' (by decide)⟩
  have hprefixed : ¬ (['0', 'x'] <+: c :: rest ∨ ['0', 'X'] <+: c :: rest) := by
    rintro (hpre | hpre)
    · exact hnot 'x' (by decide) (hpre.subset (by simp))
    · exact hnot 'X' (by decide) (hpre.subset (by simp))
  have hunderscores : ¬ (c :: rest = [] ∨ (c :: rest).head? = some '_'
      ∨ (c :: rest).getLast? = some '_' ∨ ['_', '_'] <:+: c :: rest) := by
    rintro (hnil | hfirst | hlast | hboth)
    · cases hnil
    · exact hhead '_' (by decide) hfirst
    · exact hnot '_' (by decide) (List.mem_of_getLast? hlast)
    · exact hnot '_' (by decide) (hboth.subset (by simp))
  have hdigits : ∀ d ∈ c :: rest, ((hexDigit d).isSome || decide (d = '_')) = true :=
    fun d hd => Bool.or_eq_true_iff.mpr (.inl (hall d hd))
  have hunderscore : ¬ ((['0', 'x'] <+: c :: rest ∨ ['0', 'X'] <+: c :: rest)
      ∧ (c :: rest).head? = some '_') := fun h => hprefixed h.1
  unfold int16
  rw [List.dropWhile_cons_of_neg hspace]
  simp only [if_neg hsign, if_neg hprefixed, if_neg hunderscore]
  rw [List.takeWhile_eq_self_iff.mpr hdigits, List.dropWhile_eq_nil_iff.mpr hdigits, hexDigits,
    if_neg hunderscores, List.all_nil, if_pos rfl, Option.map_some,
    if_neg (hhead '-' (by decide))]
  rfl

theorem hexDigit_padDigits (width n : Nat) :
    ∀ c ∈ (padDigits 16 width n).toList, (hexDigit c).isSome = true := by
  intro c hc
  rw [padDigits, String.toList_ofList] at hc
  rcases List.mem_append.mp hc with hc | hc
  · rw [List.eq_of_mem_replicate hc]
    rfl
  · obtain ⟨d, hd, rfl⟩ := Numerals.mem_toDigits (by decide) n c hc
    rw [reads_hexDigit d hd]
    rfl

theorem padDigits_ne_nil (base width n : Nat) : (padDigits base width n).toList ≠ [] := by
  rw [padDigits, String.toList_ofList]
  exact List.append_ne_nil_of_right_ne_nil _ Nat.toDigits_ne_nil

/-- A character that is no digit, nor anything that stands before one, makes it no number. -/
theorem int16_eq_none {text : Text} (h : 'o' ∈ text) : int16 text = none := by
  have hdrop : ∀ {text : Text} {p : Char → Bool}, 'o' ∈ text → p 'o' = false →
      'o' ∈ text.dropWhile p := by
    intro text p hmem hp
    rw [← List.takeWhile_append_dropWhile (p := p) (l := text)] at hmem
    rcases List.mem_append.mp hmem with hmem | hmem
    · rw [List.mem_takeWhile_imp hmem] at hp
      cases hp
    · exact hmem
  have htail : ∀ {text : Text} {c : Char}, 'o' ∈ text → c ≠ 'o' → text.head? = some c →
      'o' ∈ text.tail := by
    intro text c hmem hc hhead
    cases text with
    | nil => cases hhead
    | cons d rest =>
      obtain rfl := Option.some.inj hhead
      exact (List.mem_cons.mp hmem).resolve_left hc.symm
  have hdropTwo : ∀ {text : Text} {c : Char}, 'o' ∈ text → c ≠ 'o' → ['0', c] <+: text →
      'o' ∈ text.drop 2 := by
    rintro text c hmem hc ⟨rest, rfl⟩
    simpa [hc.symm] using hmem
  unfold int16
  dsimp only
  have hspaces : 'o' ∈ text.dropWhile isSpace := hdrop h (by decide)
  generalize text.dropWhile isSpace = text at hspaces
  have hsigned : 'o' ∈ if text.head? = some '-' ∨ text.head? = some '+' then text.tail
      else text := by
    split
    · next hsign =>
      rcases hsign with hsign | hsign
      · exact htail hspaces (by decide) hsign
      · exact htail hspaces (by decide) hsign
    · exact hspaces
  generalize (if text.head? = some '-' ∨ text.head? = some '+' then text.tail else text)
    = text' at hsigned
  have hprefixed : 'o' ∈ if ['0', 'x'] <+: text' ∨ ['0', 'X'] <+: text' then text'.drop 2
      else text' := by
    split
    · next hpre =>
      rcases hpre with hpre | hpre
      · exact hdropTwo hsigned (by decide) hpre
      · exact hdropTwo hsigned (by decide) hpre
    · exact hsigned
  generalize (if ['0', 'x'] <+: text' ∨ ['0', 'X'] <+: text' then text'.drop 2 else text')
    = digits at hprefixed
  have hunderscore : 'o' ∈ if (['0', 'x'] <+: text' ∨ ['0', 'X'] <+: text')
      ∧ digits.head? = some '_' then digits.tail else digits := by
    split
    · next hboth => exact htail hprefixed (by decide) hboth.2
    · exact hprefixed
  generalize (if (['0', 'x'] <+: text' ∨ ['0', 'X'] <+: text') ∧ digits.head? = some '_'
    then digits.tail else digits) = digits' at hunderscore
  refine if_neg fun hall => ?_
  have hspace := List.all_eq_true.mp hall 'o' (hdrop hunderscore (by decide))
  exact absurd hspace (by decide)

/-! ## Words -/

theorem split_word {word : Text} (hne : word ≠ []) (hword : ∀ c ∈ word, isSeparator c = false) :
    split word = [word] := by
  rw [split, List.splitOnP_eq_singleton hword]
  exact List.filter_cons_of_pos (decide_eq_true hne)

theorem split_words {word word' : Text} (hne : word ≠ []) (hne' : word' ≠ [])
    (hword : ∀ c ∈ word, isSeparator c = false) (hword' : ∀ c ∈ word', isSeparator c = false) :
    split (word ++ ' ' :: word') = [word, word'] := by
  rw [split, List.splitOnP_append_cons _ _ (by decide), List.filter_append]
  exact congrArg₂ (· ++ ·) (split_word hne hword) (split_word hne' hword')

end Text

namespace Server433

/-! ## The three formats -/

/-- What `datagramReceived` takes for a new code. -/
def isNewCode (datagram : List UInt8) : Bool :=
  datagram.length = ncDataSize + ncHeaderSize ∧ ['N'.toUInt8, 'C'.toUInt8] <+: datagram

theorem decodeDatagram_newCode (server : Server433) {datagram : List UInt8}
    (h : isNewCode datagram = true) :
    server.decodeDatagram datagram = (some (.ncData datagram), false) := by
  have hboth : _ ∧ ['N'.toUInt8, 'C'.toUInt8] <+: datagram := of_decide_eq_true h
  unfold decodeDatagram
  rw [if_pos hboth]

/-- What is made of a text, after the word `notimer`. -/
def decodeText (server : Server433) (text : Text) : Option AbstractData :=
  let number := (Text.int16 text).getD 0
  if 0 < number ∧ number < 2 ^ 32 then some (.heData number.toNat)
  else server.decodeNamedAction text

theorem decodeDatagram_text (server : Server433) {datagram : List UInt8}
    (h : ¬ isNewCode datagram = true) :
    let text := (Text.decodeAscii (datagram.take 32)).getD []
    server.decodeDatagram datagram
      = if noTimer <+: text then (server.decodeText (text.drop noTimer.length), false)
        else (server.decodeText text, true) := by
  have hneither : ¬ (_ ∧ ['N'.toUInt8, 'C'.toUInt8] <+: datagram) :=
    fun hboth => h (decide_eq_true hboth)
  unfold decodeDatagram decodeText
  rw [if_neg hneither]
  dsimp only
  generalize (Text.decodeAscii (datagram.take 32)).getD [] = text
  by_cases hpre : noTimer <+: text
  · simp only [if_pos hpre]
    split <;> simp [hpre]
  · simp only [if_neg hpre]
    split <;> simp [hpre]

theorem decodeNamedAction_homeEasy (server : Server433) (text : Text) :
    ∀ data ∈ server.decodeNamedAction text, ∃ number, data = .heData number := by
  intro data hdata
  unfold decodeNamedAction at hdata
  dsimp only at hdata
  split at hdata
  · split at hdata
    · cases hdata
    · split at hdata
      · cases hdata
      · exact ⟨_, (Option.some.inj hdata).symm⟩
  · cases hdata

theorem decodeText_homeEasy (server : Server433) (text : Text) :
    ∀ data ∈ server.decodeText text, ∃ number, data = .heData number := by
  intro data hdata
  unfold decodeText at hdata
  dsimp only at hdata
  split at hdata
  · exact ⟨_, (Option.some.inj hdata).symm⟩
  · exact decodeNamedAction_homeEasy server text data hdata

/-- No other datagram is taken for a new code. -/
theorem decodeDatagram_other (server : Server433) {datagram : List UInt8}
    (h : ¬ isNewCode datagram = true) :
    ∀ data ∈ (server.decodeDatagram datagram).1, ∃ number, data = .heData number := by
  rw [decodeDatagram_text server h]
  split
  · exact decodeText_homeEasy server _
  · exact decodeText_homeEasy server _

/-- The commands that a server makes of some datagrams. -/
def commandsOfDatagrams (server : Server433) (datagrams : List (List UInt8)) :
    List AbstractData :=
  datagrams.filterMap fun datagram => (server.decodeDatagram datagram).1

theorem decodeText_word (server : Server433) {text : Text}
    (hword : ∀ c ∈ text, Text.isSeparator c = false) :
    server.decodeText text
      = let number := (Text.int16 text).getD 0
        if 0 < number ∧ number < 2 ^ 32 then some (.heData number.toNat) else none := by
  have hnone : server.decodeNamedAction text = none := by
    unfold decodeNamedAction
    by_cases hne : text = []
    · rw [hne]
      rfl
    · rw [Text.split_word hne hword]
  unfold decodeText
  rw [hnone]

end Server433

/-! ## `network_send` -/

open Server433

def AbstractData.networkSend : AbstractData → List UInt8
  | .ncData msg => msg
  | .heData number => Text.encodeAscii (noTimer ++ (padDigits 16 8 number).toList)

/-- What a repeater can be told. -/
def AbstractData.Repeatable : AbstractData → Prop
  | .ncData msg => isNewCode msg = true
  | .heData number => 0 < number ∧ number < 2 ^ 32

instance : DecidablePred AbstractData.Repeatable
  | .ncData msg => inferInstanceAs (Decidable (isNewCode msg = true))
  | .heData number => inferInstanceAs (Decidable (0 < number ∧ number < 2 ^ 32))

theorem decodeText_digits (server : Server433) {text : Text} (hne : text ≠ [])
    (hall : ∀ c ∈ text, (Text.hexDigit c).isSome = true) :
    server.decodeText text
      = let number := Numerals.value Text.hexDigit 16 text
        if 0 < number ∧ number < 2 ^ 32 then some (.heData number) else none := by
  rw [decodeText_word server fun c hc => Text.isSeparator_of_hexDigit (hall c hc),
    Text.int16_digits hne hall, Option.getD_some]
  dsimp only
  rw [Int.toNat_natCast]
  by_cases h : 0 < Numerals.value Text.hexDigit 16 text ∧
      Numerals.value Text.hexDigit 16 text < 2 ^ 32
  · rw [if_pos h, if_pos (by exact_mod_cast h)]
  · rw [if_neg h, if_neg (by exact_mod_cast h)]

/-- What a datagram has room for: a code, or something that is no code either. -/
theorem value_take_padDigits (n : Nat) :
    let v := Numerals.value Text.hexDigit 16 ((padDigits 16 8 n).toList.take 24)
    if n < 2 ^ 32 then v = n else 2 ^ 32 ≤ v := by
  dsimp only
  rw [padDigits, String.toList_ofList]
  have hlength : (Nat.toDigits 16 n).length ≤ 8 ↔ n < 16 ^ 8 :=
    Nat.length_toDigits_le_iff (by decide) (by decide)
  have hpow : 16 ^ 8 = 2 ^ 32 := by decide
  rw [hpow] at hlength
  split
  · next hn =>
    have hshort := hlength.mpr hn
    rw [List.take_of_length_le (by rw [List.length_append, List.length_replicate]; omega),
      Numerals.value_zeros rfl, Numerals.value_toDigits Text.reads_hexDigit (by decide)]
  · next hn =>
    have hlong : 8 < (Nat.toDigits 16 n).length := Nat.lt_of_not_le (mt hlength.mp hn)
    obtain ⟨d, hd, hd', hhead⟩ := Numerals.head_toDigits (show 1 < 16 by decide)
      (show 0 < n by omega)
    have hall : ∀ c ∈ Nat.toDigits 16 n, (Text.hexDigit c).isSome = true := by
      intro c hc
      obtain ⟨d, hd, rfl⟩ := Numerals.mem_toDigits (by decide) n c hc
      rw [Text.reads_hexDigit d hd]
      rfl
    rw [Nat.sub_eq_zero_of_le (Nat.le_of_lt hlong), List.replicate_zero, List.nil_append]
    generalize Nat.toDigits 16 n = digits at hlong hhead hall
    cases digits with
    | nil => cases hhead
    | cons c rest =>
      obtain rfl := Option.some.inj hhead
      have hrest : ∀ c ∈ rest.take 23, (Text.hexDigit c).isSome = true :=
        fun c hc => hall c (List.mem_cons_of_mem _ (List.mem_of_mem_take hc))
      have hle := Numerals.le_value Text.reads_hexDigit hd' hrest
      have hplaces : 16 ^ 8 ≤ 16 ^ (rest.take 23).length := by
        refine Nat.pow_le_pow_right (by decide) ?_
        rw [List.length_cons] at hlong
        rw [List.length_take]
        omega
      rw [List.take_succ_cons]
      calc 2 ^ 32 = 1 * 16 ^ 8 := by decide
        _ ≤ d * 16 ^ (rest.take 23).length := Nat.mul_le_mul hd hplaces
        _ ≤ _ := hle

/-- **A number is read back by the repeater** if and only if it is a code, and does not go to the
    timer service again. -/
theorem decodeDatagram_networkSend (server : Server433) (number : Nat) :
    server.decodeDatagram (AbstractData.heData number).networkSend
      = (if (AbstractData.heData number).Repeatable then some (.heData number) else none,
          false) := by
  have hascii : ∀ c ∈ noTimer ++ (padDigits 16 8 number).toList, c.toNat < 128 := by
    intro c hc
    rcases List.mem_append.mp hc with hc | hc
    · have hall : ∀ c ∈ noTimer, c.toNat < 128 := List.all_iff_forall_prop.mp (by decide)
      exact hall c hc
    · exact Text.toNat_of_hexDigit (Text.hexDigit_padDigits 8 number c hc)
  have hother : ¬ isNewCode (AbstractData.heData number).networkSend = true := by
    intro hnew
    obtain ⟨-, rest, hrest⟩ := of_decide_eq_true hnew
    exact absurd (List.cons.inj hrest).1 (by decide)
  have htext : (Text.decodeAscii ((AbstractData.heData number).networkSend.take 32)).getD []
      = noTimer ++ (padDigits 16 8 number).toList.take 24 := by
    have htake : (noTimer ++ (padDigits 16 8 number).toList).take 32
        = noTimer ++ (padDigits 16 8 number).toList.take 24 := by
      rw [List.take_append, List.take_of_length_le (by decide)]
      rfl
    rw [AbstractData.networkSend, Text.encodeAscii, ← List.map_take, ← htake]
    exact congrArg (Option.getD · []) (Text.decodeAscii_encodeAscii fun c hc =>
      hascii c (List.mem_of_mem_take hc))
  have hdigits : ∀ c ∈ (padDigits 16 8 number).toList.take 24, (Text.hexDigit c).isSome = true :=
    fun c hc => Text.hexDigit_padDigits 8 number c (List.mem_of_mem_take hc)
  have hne : (padDigits 16 8 number).toList.take 24 ≠ [] :=
    mt List.take_eq_nil_iff.mp
      (not_or.mpr ⟨by decide, Text.padDigits_ne_nil 16 8 number⟩)
  rw [decodeDatagram_text server hother, htext, if_pos (List.prefix_append _ _), List.drop_left,
    decodeText_digits server hne hdigits]
  have hvalue := value_take_padDigits number
  dsimp only at hvalue ⊢
  refine congrArg (·, false) ?_
  split at hvalue
  · rw [hvalue]
    rfl
  · next hlarge =>
    rw [if_neg fun h => Nat.not_lt.mpr hvalue h.2, if_neg fun h => hlarge h.2]

/-! ## Names -/

namespace Server433

/-- The names are those of a dictionary. -/
def Dictionary (server : Server433) : Prop := (server.nameToLightDataMap.map Prod.fst).Nodup

theorem lookup_of_mem {lights : List (Text × Text)} (hnodup : (lights.map Prod.fst).Nodup)
    {light : Text × Text} (hmem : light ∈ lights) : lights.lookup light.1 = some light.2 := by
  induction lights with
  | nil => cases hmem
  | cons first lights ih =>
    rw [List.map_cons, List.nodup_cons] at hnodup
    rcases List.mem_cons.mp hmem with rfl | hmem
    · exact List.lookup_cons_self
    · have hne : light.1 ≠ first.1 := fun heq =>
        hnodup.1 (heq ▸ List.mem_map_of_mem hmem)
      rw [List.lookup_cons, beq_false_of_ne hne]
      exact ih hnodup.2 hmem

theorem xor_or_bit {code : Nat} (h : code &&& 0x10 ≠ 0) : (code ^^^ 0x10) ||| 0x10 = code := by
  have hbit : code.testBit 4 = true := by
    by_contra hbit
    apply h
    apply Nat.eq_of_testBit_eq
    intro i
    rw [Nat.testBit_and, Nat.zero_testBit, show 0x10 = 2 ^ 4 from rfl, Nat.testBit_two_pow]
    by_cases hi : 4 = i
    · subst hi
      simpa using hbit
    · simp [hi]
  apply Nat.eq_of_testBit_eq
  intro i
  rw [Nat.testBit_or, Nat.testBit_xor, show 0x10 = 2 ^ 4 from rfl, Nat.testBit_two_pow]
  by_cases hi : 4 = i
  · subst hi
    simp [hbit]
  · simp [hi]

/-- **The code of a name that was found** is the code that it was found for. -/
theorem getCode_getName {server : Server433} (hdict : server.Dictionary) {code : Nat}
    (hname : (server.getName code).1 ≠ []) :
    server.getCode (server.getName code).1 (server.getName code).2 = some (code : Int) := by
  unfold getName at hname ⊢
  dsimp only at hname ⊢
  generalize hstripped : (if code &&& 0x10 ≠ 0 then code ^^^ 0x10 else code) = stripped at hname ⊢
  cases hfound : server.nameToLightDataMap.reverse.find? fun light =>
      decide (Text.int16 light.2 = some (stripped : Int)) with
  | none =>
    rw [hfound] at hname
    exact absurd rfl hname
  | some light =>
    have hmem := List.mem_reverse.mp (List.mem_of_find?_eq_some hfound)
    have hholds := List.find?_some hfound
    have hcode : Text.int16 light.2 = some (stripped : Int) := of_decide_eq_true hholds
    rw [Option.map_some, Option.getD_some, getCode, lookup_of_mem hdict hmem]
    dsimp only
    rw [hcode, Option.map_some]
    refine congrArg some ?_
    by_cases hon : code &&& 0x10 ≠ 0
    · rw [if_pos hon] at hstripped
      rw [if_pos (decide_eq_true hon), ← hstripped]
      exact congrArg Int.ofNat (xor_or_bit hon)
    · rw [if_neg hon] at hstripped
      rw [if_neg (by simpa using hon), hstripped]

def action (on : Bool) : Text := (if on then "on" else "off").toList

theorem action_word (on : Bool) :
    action on ≠ [] ∧ 'o' ∈ action on ∧ (∀ c ∈ action on, Text.isSeparator c = false) ∧
      ∀ c ∈ action on, c.toNat < 128 := by
  refine ⟨?_, ?_, List.all_iff_forall_prop.mp ?_, List.all_iff_forall_prop.mp ?_⟩
  all_goals cases on <;> decide

theorem encodeNamedAction_eq {server : Server433} {code : Nat}
    (hname : (server.getName code).1 ≠ []) :
    server.encodeNamedAction (.heData code)
      = (server.getName code).1 ++ ' ' :: action (server.getName code).2 := by
  unfold encodeNamedAction
  dsimp only
  rw [if_neg hname]
  cases (server.getName code).2 <;> rfl

theorem decodeNamedAction_encoded {server : Server433} (hdict : server.Dictionary) {code : Nat}
    (hname : (server.getName code).1 ≠ [])
    (hword : ∀ c ∈ (server.getName code).1, Text.isSeparator c = false) :
    server.decodeNamedAction (server.encodeNamedAction (.heData code)) = some (.heData code) := by
  obtain ⟨hne, -, hseparator, -⟩ := action_word (server.getName code).2
  have hcode := getCode_getName hdict hname
  unfold decodeNamedAction
  rw [encodeNamedAction_eq hname, Text.split_words hname hne hword hseparator]
  dsimp only
  generalize server.getName code = found at hcode
  obtain ⟨name, on⟩ := found
  have hon : decide (action on = "on".toList) = on := by cases on <;> decide
  have heither : ¬ ¬ (action on = "on".toList ∨ action on = "off".toList) := by
    cases on <;> decide
  rw [if_neg heither, hon, hcode, Option.getD_some, if_neg (by omega)]
  rfl

/-- A word with a blank after it is where the text begins. -/
theorem prefix_blank_iff {word word' rest : Text} (hword : ' ' ∉ word) (hword' : ' ' ∉ word') :
    word ++ [' '] <+: word' ++ ' ' :: rest ↔ word = word' := by
  have hcut : ∀ {word rest : Text}, ' ' ∉ word →
      (word ++ ' ' :: rest).takeWhile (· ≠ ' ') = word := by
    intro word rest hword
    have hall : ∀ c ∈ word, decide (c ≠ ' ') = true := fun c hc =>
      decide_eq_true fun heq => hword (heq ▸ hc)
    rw [List.takeWhile_append_of_pos hall, List.takeWhile_cons_of_neg (by decide),
      List.append_nil]
  constructor
  · rintro ⟨rest', heq⟩
    rw [List.append_assoc] at heq
    have hsame := congrArg (List.takeWhile (· ≠ ' ')) heq
    rwa [hcut hword', List.singleton_append, hcut hword] at hsame
  · rintro rfl
    exact ⟨rest, by rw [List.append_assoc]; rfl⟩

/-- **The text of a command is read back** as the command, but for a light called `notimer`. -/
theorem decodeDatagram_namedAction_iff {server : Server433} (hdict : server.Dictionary)
    {code : Nat} (hname : (server.getName code).1 ≠ [])
    (hword : ∀ c ∈ (server.getName code).1, Text.isSeparator c = false)
    (hascii : ∀ c ∈ (server.getName code).1, c.toNat < 128)
    (hshort : (server.encodeNamedAction (.heData code)).length ≤ 32) :
    server.decodeDatagram (Text.encodeAscii (server.encodeNamedAction (.heData code)))
        = (some (.heData code), true)
      ↔ (server.getName code).1 ≠ "notimer".toList := by
  have htext := encodeNamedAction_eq hname
  have hdecode := decodeNamedAction_encoded hdict hname hword
  obtain ⟨hne, ho, hseparator, hascii'⟩ := action_word (server.getName code).2
  rw [htext] at hshort hdecode ⊢
  generalize (server.getName code).1 = name at *
  generalize action (server.getName code).2 = action' at *
  have hall : ∀ c ∈ name ++ ' ' :: action', c.toNat < 128 := by
    intro c hc
    rcases List.mem_append.mp hc with hc | hc
    · exact hascii c hc
    · rcases List.mem_cons.mp hc with rfl | hc
      · decide
      · exact hascii' c hc
  have hother : ¬ isNewCode (Text.encodeAscii (name ++ ' ' :: action')) = true := by
    intro hnew
    have hlength := (of_decide_eq_true hnew).1
    rw [Text.encodeAscii, List.length_map] at hlength
    rw [hlength] at hshort
    exact absurd hshort (by decide)
  have hwhole : (Text.encodeAscii (name ++ ' ' :: action')).take 32
      = Text.encodeAscii (name ++ ' ' :: action') :=
    List.take_of_length_le (by rwa [Text.encodeAscii, List.length_map])
  have hblank : ' ' ∉ name := fun hmem => absurd (hword _ hmem) (by decide)
  have hbegins : noTimer <+: name ++ ' ' :: action' ↔ "notimer".toList = name := by
    have hnoTimer : noTimer = "notimer".toList ++ [' '] := by decide
    rw [hnoTimer]
    exact prefix_blank_iff (by decide) hblank
  have hnumber : ∀ {text : Text}, 'o' ∈ text →
      server.decodeText text = server.decodeNamedAction text := by
    intro text hmem
    unfold decodeText
    rw [Text.int16_eq_none hmem]
    rfl
  rw [decodeDatagram_text server hother, hwhole, Text.decodeAscii_encodeAscii hall,
    Option.getD_some]
  by_cases hlight : "notimer".toList = name
  · subst hlight
    rw [if_pos (hbegins.mpr rfl)]
    exact iff_of_false (fun heq => absurd (Prod.mk.inj heq).2 (by decide)) fun hdiffers =>
      hdiffers rfl
  · rw [if_neg (mt hbegins.mp hlight),
      hnumber (List.mem_append_right _ (List.mem_cons_of_mem _ ho)), hdecode]
    exact iff_of_true rfl fun heq => hlight heq.symm

def sampleLights : List (Text × Text) := [("lamp".toList, "1234e0".toList)]

def sampleServer : Server433 := .init sampleLights

/-- Its command goes to the timer service as `lamp on`. -/
theorem decodeDatagram_namedAction_sample :
    sampleServer.decodeDatagram
        (Text.encodeAscii (sampleServer.encodeNamedAction (.heData 0x1234f0)))
      = (some (.heData 0x1234f0), true) := by
  have hname : sampleServer.getName 0x1234f0 = ("lamp".toList, true) := by decide +kernel
  refine (decodeDatagram_namedAction_iff (by unfold Dictionary; decide) ?_ ?_ ?_ ?_).mpr ?_
  · rw [hname]
    decide
  · rw [hname]
    exact List.all_iff_forall_prop.mp (by decide)
  · rw [hname]
    exact List.all_iff_forall_prop.mp (by decide)
  · decide +kernel
  · rw [hname]
    decide

end Server433
end CpeClock
