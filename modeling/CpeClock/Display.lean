import Mathlib.Data.List.GetD
import Mathlib.Data.List.Infix
import Mathlib.Data.List.TakeWhile

/-!
# `cpeclock.ino` — the display

A message is put into two buffers of 32 bytes, one for each line. `display_message` tries the first
line one byte at a time, in place, and asks the graphics library for the width of what is there
(`width`, a parameter); at a newline, or when a byte is too much, the rest goes to the second line.
Whatever the buffers held before, the two lines are those of `lines` (`text_setMessage`): the first
holds all that fits, and no byte is lost of a message that is short enough for a buffer. The second
line is never measured, and may be wider than the screen; but no other way to break the text would
do better (`lines_fit_iff`).

Every index into a buffer carries its bound, so there is no other way to write to one.
-/

namespace CpeClock
namespace Display

/-! ## The buffers -/

/-- `SCREEN_WIDTH`, in pixels. -/
def screenWidth : UInt16 := 128

abbrev Buffer := Vector UInt8 32

/-- `message_buffer_1` and `message_buffer_2`. -/
structure MessageBuffers where
  messageBuffer1 : Buffer
  messageBuffer2 : Buffer
  deriving DecidableEq

/-- The text in a buffer, up to the NUL. -/
def text (buffer : Buffer) : List UInt8 := buffer.toList.takeWhile (· ≠ 0)

/-- The texts of the two lines. -/
def MessageBuffers.texts (buffers : MessageBuffers) : List UInt8 × List UInt8 :=
  (text buffers.messageBuffer1, text buffers.messageBuffer2)

def newline : UInt8 := '\n'.toUInt8

/-- `msg[i]`, with the NUL that ends the message. -/
def charAt (msg : List UInt8) (i : Nat) : UInt8 := msg.getD i 0

/-- `strncpy` from `&msg[i]`, for one byte less than a buffer has, and a NUL in its last byte. -/
def copyRest (msg : List UInt8) (i : Nat) : Buffer :=
  Vector.ofFn fun k => if (k : Nat) < 31 then charAt msg (i + k) else 0

section

variable (width : List UInt8 → UInt16) (msg : List UInt8)

/-- The loop of `display_message`, with so many turns left; `chars` is `chars_on_first_line`. -/
def fillLines : Nat → Nat → MessageBuffers → MessageBuffers
  | 0, _, buffers => buffers
  | turns + 1, chars, buffers =>
    if h : 31 ≤ chars ∨ charAt msg chars = 0 then
      buffers -- Reached the end of the message and it all fits on one line.
    else
      have hchars : chars < 31 := Nat.lt_of_not_le fun hle => h (.inl hle)
      -- Try to copy one more character
      let line := (buffers.messageBuffer1.set chars (charAt msg chars)).set (chars + 1) 0
      if charAt msg chars = newline then
        -- Newline - go to the second line
        { messageBuffer1 := line.set chars 0, messageBuffer2 := copyRest msg (chars + 1) }
      else if width (text line) > screenWidth then
        -- Too many characters - go to the second line
        { messageBuffer1 := line.set chars 0, messageBuffer2 := copyRest msg chars }
      else
        -- There is still space - continue
        fillLines turns (chars + 1) { buffers with messageBuffer1 := line }

/-- `display_message`, as far as the buffers go. -/
def setMessage (buffers : MessageBuffers) : MessageBuffers :=
  fillLines width msg 32 0 {
    messageBuffer1 := buffers.messageBuffer1.set 0 0
    messageBuffer2 := buffers.messageBuffer2.set 0 0 }

/-! ## Two lines -/

/-- The first line ends before this byte: it is a newline, or one byte too many. -/
def Breaks (k : Nat) : Prop := charAt msg k = newline ∨ width (msg.take (k + 1)) > screenWidth

instance (k : Nat) : Decidable (Breaks width msg k) := inferInstanceAs (Decidable (_ ∨ _))

/-- The lines of a message whose first line ends before byte `k`, or does not end. -/
def linesAt : Option Nat → List UInt8 × List UInt8
  | none => (msg.take 31, [])
  | some k =>
    (msg.take k, (if charAt msg k = newline then msg.drop (k + 1) else msg.drop k).take 31)

/-- The two lines of a message. -/
def lines : List UInt8 × List UInt8 :=
  linesAt msg ((List.range (min 31 msg.length)).find? fun k => Breaks width msg k)

end

/-! ## The loop makes these lines -/

/-- A text and its NUL are in a buffer. -/
def Holds (buffer : Buffer) (t : List UInt8) : Prop :=
  buffer.toList.take (t.length + 1) = t ++ [0]

theorem text_of_holds {buffer : Buffer} {t : List UInt8} (h : Holds buffer t)
    (ht : ∀ c ∈ t, c ≠ 0) : text buffer = t := by
  have hsplit := List.take_append_drop (t.length + 1) buffer.toList
  rw [h] at hsplit
  unfold text
  rw [← hsplit, List.append_assoc, List.takeWhile_append_of_pos]
  · rw [List.singleton_append, List.takeWhile_cons_of_neg (by decide), List.append_nil]
  · exact fun c hc => decide_eq_true (ht c hc)

theorem charAt_of_lt {msg : List UInt8} {k : Nat} (hk : k < msg.length) :
    charAt msg k = msg[k] := List.getD_eq_getElem _ _ hk

theorem charAt_of_le {msg : List UInt8} {k : Nat} (hk : msg.length ≤ k) : charAt msg k = 0 :=
  List.getD_eq_default _ _ hk

section

variable {width : List UInt8 → UInt16} {msg : List UInt8}

theorem take_of_holds {buffer : Buffer} {k : Nat} (hlength : k ≤ msg.length)
    (h : Holds buffer (msg.take k)) : buffer.toList.take k = msg.take k := by
  have hk : (msg.take k).length = k := List.length_take_of_le hlength
  have htake := congrArg (List.take k) h
  rwa [hk, List.take_take, Nat.min_eq_left (Nat.le_succ k), List.take_left' hk] at htake

theorem holds_of_take {buffer : Buffer} {k : Nat} (hk : k < 32) (hlength : k ≤ msg.length)
    (htake : buffer.toList.take k = msg.take k) (hnul : buffer[k] = 0) :
    Holds buffer (msg.take k) := by
  unfold Holds
  rw [List.length_take_of_le hlength, List.take_add_one, htake]
  have hget : buffer.toList[k]? = some 0 := by
    rw [Vector.getElem?_toList, Vector.getElem?_eq_getElem hk, hnul]
  rw [hget]
  rfl

/-- One more byte is in the first line. -/
theorem holds_copied {buffer : Buffer} {k : Nat} (hk : k < 31) (hlength : k < msg.length)
    (h : Holds buffer (msg.take k)) :
    Holds ((buffer.set k (charAt msg k)).set (k + 1) 0) (msg.take (k + 1)) := by
  refine holds_of_take (Nat.succ_lt_succ hk) hlength ?_ (Vector.getElem_set_self ..)
  have hbuffer : k < buffer.toList.length := by
    rw [Vector.length_toList]
    exact Nat.lt_trans hk (by decide)
  rw [Vector.toList_set, Vector.toList_set, List.take_set_of_le (Nat.le_refl _),
    List.take_add_one, List.take_set_of_le (Nat.le_refl _), List.getElem?_set_self hbuffer,
    take_of_holds (Nat.le_of_lt hlength) h, List.take_add_one, charAt_of_lt hlength,
    List.getElem?_eq_getElem hlength]

/-- The byte was one too many. -/
theorem holds_taken_back {buffer : Buffer} {k : Nat} (hk : k < 32) (hlength : k ≤ msg.length)
    (h : buffer.toList.take k = msg.take k) : Holds (buffer.set k 0) (msg.take k) := by
  refine holds_of_take hk hlength ?_ (Vector.getElem_set_self ..)
  rw [Vector.toList_set, List.take_set_of_le (Nat.le_refl _), h]

theorem text_copyRest (hmsg : ∀ c ∈ msg, c ≠ 0) (i : Nat) :
    text (copyRest msg i) = (msg.drop i).take 31 := by
  have hlist : (copyRest msg i).toList
      = (msg.drop i).take 31 ++ List.replicate (32 - ((msg.drop i).take 31).length) 0 := by
    apply List.ext_getElem
    · rw [Vector.length_toList, List.length_append, List.length_replicate, List.length_take]
      omega
    · intro k hk hk'
      rw [Vector.length_toList] at hk
      have hbyte : (copyRest msg i)[k] = if k < 31 then charAt msg (i + k) else 0 :=
        Vector.getElem_ofFn ..
      rw [Vector.getElem_toList, hbyte]
      by_cases hlt : k < ((msg.drop i).take 31).length
      · rw [List.getElem_append_left hlt, List.getElem_take, List.getElem_drop]
        rw [List.length_take, List.length_drop] at hlt
        rw [if_pos (by omega), charAt_of_lt (by omega)]
      · rw [List.getElem_append_right (Nat.le_of_not_lt hlt), List.getElem_replicate]
        rw [List.length_take, List.length_drop] at hlt
        by_cases hlast : k < 31
        · rw [if_pos hlast, charAt_of_le (by omega)]
        · rw [if_neg hlast]
  unfold text
  rw [hlist, List.takeWhile_append_of_pos]
  · obtain ⟨n, hn⟩ : ∃ n, 32 - ((msg.drop i).take 31).length = n + 1 := by
      rw [List.length_take]
      exact ⟨31 - min 31 (msg.drop i).length, by omega⟩
    rw [hn, List.replicate_succ, List.takeWhile_cons_of_neg (by decide), List.append_nil]
  · intro c hc
    exact decide_eq_true (hmsg c (List.mem_of_mem_drop (List.mem_of_mem_take hc)))

/-- **The loop**, from any byte that it comes to. -/
theorem text_fillLines (hmsg : ∀ c ∈ msg, c ≠ 0) {turns chars : Nat} (hturns : 32 ≤ turns + chars)
    (hchars : chars ≤ min 31 msg.length) {buffers : MessageBuffers}
    (h1 : Holds buffers.messageBuffer1 (msg.take chars)) (h2 : text buffers.messageBuffer2 = []) :
    (fillLines width msg turns chars buffers).texts
      = linesAt msg ((List.range' chars (min 31 msg.length - chars)).find?
          fun k => Breaks width msg k) := by
  have hbytes (k : Nat) : ∀ c ∈ msg.take k, c ≠ 0 := fun c hc => hmsg c (List.mem_of_mem_take hc)
  induction turns generalizing chars buffers with
  | zero => omega
  | succ turns ih =>
    unfold fillLines MessageBuffers.texts
    dsimp only
    by_cases hend : chars = min 31 msg.length
    · have hstop : 31 ≤ chars ∨ charAt msg chars = 0 := by
        by_cases hlong : 31 ≤ msg.length
        · exact .inl (by omega)
        · exact .inr (charAt_of_le (by omega))
      have hall : msg.take chars = msg.take 31 := by
        rw [hend, List.take_eq_take_min (i := 31)]
      have hnone : min 31 msg.length - chars = 0 := by omega
      rw [dif_pos hstop, hnone, List.range'_zero, List.find?_nil, linesAt,
        text_of_holds h1 (hbytes chars), h2, hall]
    · have hlt : chars < 31 := by omega
      have hlength : chars < msg.length := by omega
      have hne : charAt msg chars ≠ 0 := by
        rw [charAt_of_lt hlength]
        exact hmsg _ (List.getElem_mem hlength)
      have hgo : ¬ (31 ≤ chars ∨ charAt msg chars = 0) := by
        rintro (hle | hzero)
        · omega
        · exact hne hzero
      have hcopied := holds_copied hlt hlength h1
      have htake : ((buffers.messageBuffer1.set chars (charAt msg chars)).set
          (chars + 1) 0).toList.take chars = msg.take chars := by
        have hmore := congrArg (List.take chars) (take_of_holds hlength hcopied)
        rwa [List.take_take, List.take_take, Nat.min_eq_left (Nat.le_succ chars)] at hmore
      have hback := holds_taken_back (Nat.lt_succ_of_lt hlt) (Nat.le_of_lt hlength) htake
      have hrange : List.range' chars (min 31 msg.length - chars)
          = chars :: List.range' (chars + 1) (min 31 msg.length - (chars + 1)) := by
        rw [show min 31 msg.length - chars = (min 31 msg.length - (chars + 1)) + 1 by omega,
          List.range'_succ]
      rw [dif_neg hgo, hrange, text_of_holds hcopied (hbytes (chars + 1)), List.find?_cons]
      by_cases hnewline : charAt msg chars = newline
      · have hbreaks : Breaks width msg chars := .inl hnewline
        rw [if_pos hnewline, decide_eq_true hbreaks, linesAt, if_pos hnewline,
          text_of_holds hback (hbytes chars), text_copyRest hmsg]
      · rw [if_neg hnewline]
        by_cases hwide : width (msg.take (chars + 1)) > screenWidth
        · have hbreaks : Breaks width msg chars := .inr hwide
          rw [if_pos hwide, decide_eq_true hbreaks, linesAt, if_neg hnewline,
            text_of_holds hback (hbytes chars), text_copyRest hmsg]
        · have hgoes : ¬ Breaks width msg chars := not_or.mpr ⟨hnewline, hwide⟩
          rw [if_neg hwide, decide_eq_false hgoes]
          exact ih (by omega) (by omega) hcopied h2

/-- **The lines of a message are in the buffers**, whatever they held before. -/
theorem text_setMessage (width : List UInt8 → UInt16) (hmsg : ∀ c ∈ msg, c ≠ 0)
    (buffers : MessageBuffers) : (setMessage width msg buffers).texts = lines width msg := by
  have hempty (buffer : Buffer) : Holds (buffer.set 0 0) [] :=
    @holds_of_take [] _ 0 (by decide) (Nat.le_refl 0) rfl (Vector.getElem_set_self ..)
  have hfill := @text_fillLines width msg hmsg 32 0 (Nat.le_refl 32) (Nat.zero_le _)
    ⟨buffers.messageBuffer1.set 0 0, buffers.messageBuffer2.set 0 0⟩
    (hempty _) (text_of_holds (hempty _) fun _ hc => absurd hc List.not_mem_nil)
  rw [Nat.sub_zero, ← List.range_eq_range'] at hfill
  exact hfill

/-! ## What the lines are like -/

/-- No byte of the message is lost: the lines are the message, but for a newline between them.
    Whether the second line is wider than the screen is another matter (`Fits`). -/
def Kept (msg : List UInt8) (shown : List UInt8 × List UInt8) : Prop :=
  shown.1 ++ shown.2 = msg ∨ shown.1 ++ newline :: shown.2 = msg

/-- A line that is not wider than the screen. -/
def Fits (width : List UInt8 → UInt16) (line : List UInt8) : Prop :=
  line = [] ∨ width line ≤ screenWidth

/-- A part of a text is not wider than the text. -/
def Grows (width : List UInt8 → UInt16) : Prop := ∀ t u, t <:+: u → width t ≤ width u

theorem Fits.of_infix {width : List UInt8 → UInt16} (hwidth : Grows width) {line part : List UInt8}
    (h : Fits width line) (hpart : part <:+: line) : Fits width part := by
  rcases h with rfl | h
  · exact .inl (List.eq_nil_of_infix_nil hpart)
  · exact .inr (UInt16.le_trans (hwidth part line hpart) h)

/-- A message that is short enough for a buffer is kept. -/
theorem lines_kept (width : List UInt8 → UInt16) (h : msg.length ≤ 31) :
    Kept msg (lines width msg) := by
  unfold lines
  cases hfind : (List.range (min 31 msg.length)).find? fun k => Breaks width msg k with
  | none =>
    left
    show msg.take 31 ++ [] = msg
    rw [List.append_nil, List.take_of_length_le h]
  | some k =>
    have hk : k < msg.length := by
      have hmem := List.mem_range.mp (List.mem_of_find?_eq_some hfind)
      omega
    have hall (n : Nat) : (msg.drop n).take 31 = msg.drop n :=
      List.take_of_length_le (by rw [List.length_drop]; omega)
    unfold linesAt Kept
    by_cases hnewline : charAt msg k = newline
    · right
      dsimp only
      rw [if_pos hnewline, hall, ← hnewline, charAt_of_lt hk, ← List.drop_eq_getElem_cons hk]
      exact List.take_append_drop k msg
    · left
      dsimp only
      rw [if_neg hnewline, hall]
      exact List.take_append_drop k msg

/-- A first line that no byte broke off fits on the screen. -/
theorem fits_take {k : Nat} (hgoes : ∀ j < k, ¬ Breaks width msg j) : Fits width (msg.take k) := by
  rcases Nat.eq_zero_or_pos k with rfl | hpos
  · exact .inl rfl
  · -- Its last byte did not break it.
    have hwidth := (not_or.mp (hgoes (k - 1) (Nat.sub_lt hpos Nat.one_pos))).2
    rw [Nat.sub_add_cancel hpos] at hwidth
    exact .inr (UInt16.not_lt.mp hwidth)

/-- The first line fits on the screen. -/
theorem lines_fit (width : List UInt8 → UInt16) (msg : List UInt8) :
    Fits width (lines width msg).1 := by
  unfold lines
  cases hfind : (List.range (min 31 msg.length)).find? fun k => Breaks width msg k with
  | none =>
    have hnone := List.find?_eq_none.mp hfind
    show Fits width (msg.take 31)
    rw [List.take_eq_take_min]
    exact fits_take fun j hj => by simpa using hnone j (List.mem_range.mpr hj)
  | some k =>
    obtain ⟨-, -, hbefore⟩ := List.find?_range_eq_some.mp hfind
    exact fits_take fun j hj => by simpa using hbefore j hj

/-- **The second line fits if any way to break the text does.** -/
theorem lines_fit_iff (hwidth : Grows width) (hshort : msg.length ≤ 31) (hline : newline ∉ msg) :
    Fits width (lines width msg).2
      ↔ ∃ k, Fits width (msg.take k) ∧ Fits width (msg.drop k) := by
  constructor
  · intro hfits
    have hkept : (lines width msg).1 ++ (lines width msg).2 = msg := by
      rcases lines_kept width hshort with hkept | hkept
      · exact hkept
      · refine absurd ?_ hline
        rw [← hkept]
        exact List.mem_append_right _ List.mem_cons_self
    refine ⟨(lines width msg).1.length, ?_, ?_⟩
    · rw [← List.prefix_iff_eq_take.mp ⟨_, hkept⟩]
      exact lines_fit width msg
    · have hrest := @List.drop_left _ (lines width msg).1 (lines width msg).2
      rw [hkept] at hrest
      rwa [hrest]
  · rintro ⟨k, htake, hdrop⟩
    unfold lines
    cases hfind : (List.range (min 31 msg.length)).find? fun k => Breaks width msg k with
    | none => exact .inl rfl
    | some first =>
      obtain ⟨hbreaks, hmem, -⟩ := List.find?_range_eq_some.mp hfind
      have hlength : first < msg.length := by
        have := List.mem_range.mp hmem
        omega
      have hother : charAt msg first ≠ newline := by
        rw [charAt_of_lt hlength]
        exact fun heq => hline (heq ▸ List.getElem_mem hlength)
      have hwide : width (msg.take (first + 1)) > screenWidth := by
        exact (of_decide_eq_true hbreaks).resolve_left hother
      -- A longer first line would not fit.
      have hk : k ≤ first := by
        by_contra hlt
        have hpart : msg.take (first + 1) <:+: msg.take k :=
          (List.take_prefix_take_left (by omega)).isInfix
        rcases htake.of_infix hwidth hpart with hnil | hfits
        · rcases List.take_eq_nil_iff.mp hnil with hzero | hnil
          · omega
          · rw [hnil] at hlength
            exact Nat.not_lt_zero _ hlength
        · exact absurd hfits (UInt16.not_le.mpr hwide)
      show Fits width ((if charAt msg first = newline then msg.drop (first + 1)
        else msg.drop first).take 31)
      rw [if_neg hother, List.take_of_length_le (by rw [List.length_drop]; omega)]
      refine hdrop.of_infix hwidth ?_
      rw [← Nat.add_sub_of_le hk, ← List.drop_drop]
      exact (List.drop_suffix _ _).isInfix

/-- **What a message looks like**, whatever the buffers held before: as much of it as fits is on
    the first line, no byte is lost of a message that is short enough for a buffer, and its second
    line fits as well if there is any way to break it into two lines that do. -/
theorem setMessage_shows (width : List UInt8 → UInt16) (hmsg : ∀ c ∈ msg, c ≠ 0)
    (buffers : MessageBuffers) :
    let shown := (setMessage width msg buffers).texts
    shown = lines width msg ∧ Fits width shown.1 ∧
      (msg.length ≤ 31 → Kept msg shown ∧ (Grows width → newline ∉ msg →
        (Fits width shown.2 ↔ ∃ k, Fits width (msg.take k) ∧ Fits width (msg.drop k)))) := by
  dsimp only
  rw [text_setMessage width hmsg buffers]
  exact ⟨rfl, lines_fit width msg, fun hshort =>
    ⟨lines_kept width hshort, fun hwidth hline => lines_fit_iff hwidth hshort hline⟩⟩

end

/-- Ten pixels for each byte. -/
def tenPixels (t : List UInt8) : UInt16 := (10 * min t.length 100).toUInt16

theorem grows_tenPixels : Grows tenPixels := by
  intro t u h
  have hlength := h.length_le
  have hvalue (n : Nat) : (10 * min n 100).toUInt16.toNat = 10 * min n 100 :=
    Nat.mod_eq_of_lt (by omega)
  rw [UInt16.le_iff_toNat_le, tenPixels, tenPixels, hvalue, hvalue]
  omega

/-- So many times the letter A. -/
def sampleLines (n : Nat) : List UInt8 × List UInt8 :=
  (setMessage tenPixels (List.replicate n 65)
    ⟨Vector.replicate 32 7, Vector.replicate 32 7⟩).texts

/-- Twelve bytes fit on a line: of 24 nothing is off the screen, and of 28 something is, although
    they are all in the buffers. -/
theorem setMessage_shows_sample :
    Fits tenPixels (sampleLines 24).2 ∧ Kept (List.replicate 28 65) (sampleLines 28) ∧
      ¬ Fits tenPixels (sampleLines 28).2 := by
  have hmsg (n : Nat) : ∀ c ∈ List.replicate n (65 : UInt8), c ≠ 0 :=
    fun _ hc => List.eq_of_mem_replicate hc ▸ (by decide)
  obtain ⟨-, -, h24⟩ := setMessage_shows tenPixels (hmsg 24)
    ⟨Vector.replicate 32 7, Vector.replicate 32 7⟩
  obtain ⟨hlines, -, h28⟩ := setMessage_shows tenPixels (hmsg 28)
    ⟨Vector.replicate 32 7, Vector.replicate 32 7⟩
  refine ⟨((h24 (by decide)).2 grows_tenPixels (by decide)).mpr ⟨12, ?_, ?_⟩,
    (h28 (by decide)).1, ?_⟩
  · exact .inr (by decide)
  · exact .inr (by decide)
  · rw [sampleLines, hlines]
    exact not_or.mpr ⟨by decide, by decide⟩

/-! ## The messages of the clock -/

/-- The bytes of a message, up to the NUL. -/
def messageBytes (msg : String) : List UInt8 :=
  (msg.toList.map fun c => c.toNat.toUInt8).takeWhile (· ≠ 0)

theorem messageBytes_ne_zero (msg : String) : ∀ c ∈ messageBytes msg, c ≠ 0 := by
  intro c hc
  unfold messageBytes at hc
  simpa using List.mem_takeWhile_imp hc

end Display
end CpeClock
