import CpeClock.PacketCodec
import CpeClock.Screen

/-!
# The messages of the clock

Every message that is ever shown is short enough for a buffer (`messages_kept`), from `RTC ERROR 1`
in `setup` to the counter with the return code of `ncrs_decode`, which has three digits because the
codec has 31 symbols. One lemma for each program that can show a message says so of its events
(`Short`), and one for each part of the sketch of what is at the display (`ShortNotes`).
-/

namespace CpeClock

open Lib

/-! ## What is short -/

/-- The message of an event that is for the display. -/
def Event.message? : Event → Option String
  | .displayMessage msg => some msg
  | .displayMessageLp msg => some msg
  | _ => none

namespace Display

end Display

namespace Panel

open Display

variable {T : Type*}

/-! ## What is at the display -/

/-- The messages shown are short enough for a buffer. -/
def ShortNotes (notes : List (Note T)) : Prop :=
  ∀ msg ∈ notes.filterMap Note.message?, msg.toList.length ≤ 31

theorem ShortNotes.append {notes notes' : List (Note T)} (h : ShortNotes notes)
    (h' : ShortNotes notes') : ShortNotes (notes ++ notes') := by
  intro msg hmsg
  rw [List.filterMap_append] at hmsg
  exact (List.mem_append.mp hmsg).elim (h msg) (h' msg)

section

variable {lib : DateTimes T} {width : List UInt8 → UInt16}

variable [LinearOrder T]

variable (hash : Hash) (secretData : List UInt8) {rs : Rs.RsControl}

end

end Panel
end CpeClock
