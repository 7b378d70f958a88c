/-
  PcmConvert.Rate.Basic — what every rate converter does: it takes whole frames, gives
  frames at the other rate, and may leave the last frames it was given for another time.
-/

import PcmConvert.Fault
import PcmConvert.Log
import PcmConvert.Sample.Basic

namespace PcmConvert

structure Rates where
  input : Nat
  output : Nat
  input_pos : 0 < input
  output_pos : 0 < output
  deriving DecidableEq, Repr

/-- The outcome of converting some frames. -/
structure Converted (β S : Type) where
  next : β
  frames : List (Frame S)
  /-- How many of the frames given, counted from the end, were not used. They must be
      given again. -/
  unconsumed : Nat

/-- `β` converts frames of samples `S` from one rate to another. -/
class RateConverter (β S : Type) where
  convert : β → List (Frame S) → Converted β S
  /-- As if nothing had been converted yet. -/
  reset : β → β
  /-- At other rates, with as much of its state as fits them. -/
  retune : β → Rates → Logged (Except Fault β)
  /-- How many input frames the output is behind. -/
  delay : β → Nat
  /-- Whether frames pass as they are and are never held back. -/
  passes : β → Bool

namespace Rate

variable {S : Type} [Sample S]

def silentFrame (channels : Nat) : Frame S := List.replicate channels Sample.silence

@[simp] theorem length_silentFrame (channels : Nat) : (silentFrame channels : Frame S).length = channels :=
  List.length_replicate

/-- Silent on the channels that it has not, too. -/
theorem getD_silentFrame (channels c : Nat) :
    (silentFrame channels : Frame S).getD c Sample.silence = Sample.silence := by
  unfold silentFrame
  rw [List.getD_eq_getElem?_getD, List.getElem?_replicate]
  split
  · rfl
  · rfl

/-- The weighted sum of the frames of a window, channel by channel, by weights in units of
    2⁻¹⁵. -/
def weigh (channels : Nat) (weights : List Int) (window : List (Frame Int16)) : Frame Int16 :=
  (List.range channels).map fun c => clamp16 (dot (window.map fun f => (f.getD c 0).toInt) weights / 32768)

end Rate

end PcmConvert
