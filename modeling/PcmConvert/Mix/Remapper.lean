/-
  PcmConvert.Mix.Remapper — a mixing matrix applied to frames. Where every output copies
  one input or is silent the samples are moved; otherwise each output is the weighted sum
  of the frame, by binary32 gains or by their nearest multiples of 2⁻¹⁶.
-/

import PcmConvert.Mix.Matrix
import PcmConvert.Sample.Basic

namespace PcmConvert

/-- A gain in units of 2⁻¹⁶, a half away from zero. -/
def q16 (g : Float32) : Int := Number.halfAway (Number.exact g * 65536)

structure Remapper where
  gains : List (List Float32)
  gainsQ16 : List (List Int)
  /-- What each output copies, if every output does no more than that. -/
  copies : Option (List (Option Nat))

namespace Remapper

def ofMatrix (m : Matrix Float32) : Remapper :=
  ⟨m.shown, m.shown.map (·.map q16), m.permutation?⟩

variable {S : Type} [Sample S]

/-- The samples that the outputs copy. -/
def copyFrame (sources : List (Option Nat)) (frame : Frame S) : Frame S :=
  sources.map fun s => match s with
    | some i => frame.getD i Sample.silence
    | none => Sample.silence

/-- The weighted sums of the outputs. -/
def mixFrame (r : Remapper) (frame : Frame S) : Frame S := r.gains.zipWith (Sample.mix frame) r.gainsQ16

def frame (r : Remapper) (f : Frame S) : Frame S :=
  match r.copies with
  | some sources => copyFrame sources f
  | none => r.mixFrame f

def apply (r : Remapper) (frames : List (Frame S)) : List (Frame S) := frames.map r.frame

end Remapper

end PcmConvert
