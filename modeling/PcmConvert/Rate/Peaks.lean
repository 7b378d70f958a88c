/-
  PcmConvert.Rate.Peaks — output frame `n` holds, channel by channel, the largest magnitude
  of the input frames from `⌊n · input / output⌋` up to but without
  `⌊(n + 1) · input / output⌋`. The counters lose whole seconds; the maximum of the open
  window is kept from one call to the next.
-/

import PcmConvert.Rate.Basic

namespace PcmConvert

structure Peaks (S : Type) where
  rates : Rates
  /-- Input frames taken. -/
  consumed : Nat
  /-- Windows closed. -/
  produced : Nat
  /-- The largest magnitudes of the open window. -/
  peak : Frame S

namespace Peaks

variable {S : Type} [Sample S]

def create (channels : Nat) (r : Rates) : Peaks S := ⟨r, 0, 0, Rate.silentFrame channels⟩

/-- A larger magnitude takes the place of the largest. -/
def raise (peak : Frame S) (frame : Frame S) : Frame S :=
  peak.zipWith (fun m s => if Sample.exceeds (Sample.magnitude s) m then Sample.magnitude s else m) frame

def accumulate (peak : Frame S) (frames : List (Frame S)) : Frame S := frames.foldl raise peak

/-- Where window `o` ends among the frames at hand, `i` having gone before. -/
def windowEnd (r : Rates) (i o : Nat) : Nat := (o + 1) * r.input / r.output - i

/-- The frames at hand bound the number of windows that end within them. -/
theorem produced_lt {r : Rates} {i o n : Nat} (h : windowEnd r i o ≤ n) : o < (i + n + 1) * r.output := by
  have hi := r.input_pos
  have hd : (o + 1) * r.input / r.output < i + n + 1 := by unfold windowEnd at h; omega
  have hm := (Nat.div_lt_iff_lt_mul r.output_pos).mp hd
  have : (o + 1) * 1 ≤ (o + 1) * r.input := Nat.mul_le_mul_left (o + 1) hi
  omega

structure Emitted (S : Type) where
  frames : List (Frame S)
  produced : Nat
  peak : Frame S

/-- The windows from number `o` on that end within the `n` frames at hand. The open one has
    begun with `peak`, and goes on with `rest`, the frames from number `start` on. -/
def emit (r : Rates) (i n start o : Nat) (rest : List (Frame S)) (peak : Frame S) : Emitted S :=
  let stop := windowEnd r i o
  if windowEnd r i o ≤ n then
    let closed := accumulate peak (rest.take (stop - start))
    let later := emit r i n stop (o + 1) (rest.drop (stop - start)) (Rate.silentFrame peak.length)
    { later with frames := closed :: later.frames }
  else ⟨[], o, accumulate peak rest⟩
  termination_by (i + n + 1) * r.output - o
  decreasing_by have := produced_lt ‹windowEnd r i o ≤ n›; omega

/-- Both counters without the whole seconds of the first. -/
def normalize (s : Peaks S) : Peaks S :=
  { s with consumed := s.consumed % s.rates.input,
           produced := s.produced - s.consumed / s.rates.input * s.rates.output }

def convert (s : Peaks S) (frames : List (Frame S)) : Converted (Peaks S) S :=
  let e := emit s.rates s.consumed frames.length 0 s.produced frames s.peak
  ⟨normalize { s with consumed := s.consumed + frames.length, produced := e.produced, peak := e.peak }, e.frames, 0⟩

/-- The output cannot be the faster. -/
def make (channels : Nat) (r : Rates) : Except Fault (Peaks S) :=
  if r.input < r.output then .error (.unsupportedMethod .peaks) else .ok (create channels r)

instance : RateConverter (Peaks S) S where
  convert := convert
  reset s := create s.peak.length s.rates
  retune s r := pure (make s.peak.length r)
  delay _ := 0
  passes _ := false

end Peaks

end PcmConvert
