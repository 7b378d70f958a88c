/-
  PcmConvert.Rate.Sinc.Kernel — the weights of a band limited interpolation: a sinc that
  ends at its sixteenth zero under a Kaiser window, tabulated once and interpolated between
  the points of the table. A set of weights is scaled to a sum of one and given in units of
  2⁻¹⁵; what rounding leaves over goes to the largest weight.
-/

import PcmConvert.Number.Binary64
import PcmConvert.Rate.Basic

namespace PcmConvert.Rate.Kernel

/-- Zeros of the sinc on either side. -/
def zeroCrossings : Nat := 16

/-- Points of the table from one zero to the next. -/
def oversample : Nat := 256

/-- The shape of the window. -/
def beta : Float := 8

/-- How far the passband reaches towards the lower Nyquist frequency. -/
def rolloff : Float := 0.95

/-! ## The table -/

def sinc (x : Float) : Float :=
  if x.abs < 1e-12 then 1
  else
    let px := 3.14159265358979323846 * x
    px.sin / px

/-- The rest of the series of `besselI0`, after `k - 1` terms with the sum `sum` and the
    last term `term`; it ends where a term no longer counts. -/
def besselTail (half : Float) (sum term k : Float) : Nat → Float
  | 0 => sum
  | fuel + 1 =>
    if sum * 1e-12 < term then
      let next := term * (half / k * (half / k))
      besselTail half (sum + next) next (k + 1) fuel
    else sum

/-- The modified Bessel function of the first kind and order zero. Arguments up to the
    window's shape need less than twenty terms. -/
def besselI0 (x : Float) : Float := besselTail (x / 2) 1 1 1 64

/-- The Kaiser window on the unit interval. -/
def kaiser (t : Float) : Float :=
  if 1 < t.abs then 0 else besselI0 (beta * (1 - t * t).sqrt) / besselI0 beta

def points : Nat := zeroCrossings * oversample

/-- The kernel at multiples of `1 / oversample`, and two points of zero after its end. -/
def table : Array Float :=
  (Array.range (points + 2)).map fun n =>
    if points ≤ n then 0
    else
      let x := Float.ofNat n / Float.ofNat oversample
      sinc x * kaiser (x / Float.ofNat zeroCrossings)

/-- The kernel `x` zeros away from its middle. -/
def value (x : Float) : Float :=
  let index := x.abs * Float.ofNat oversample
  let i := Number.wholePart index
  if points ≤ i then 0
  else
    let fraction := index - Number.whole index
    table.getD i 0 * (1 - fraction) + table.getD (i + 1) 0 * fraction

/-! ## The weights -/

/-- The cutoff, relative to the Nyquist frequency of the input. -/
def cutoff (r : Rates) : Float := rolloff * min (Float.ofNat r.output / Float.ofNat r.input) 1

/-- Half the width of the kernel, in input frames. -/
def half (r : Rates) : Nat := Number.ceilNat (Float.ofNat zeroCrossings / cutoff r)

/-- `2 * half r` weights for an output frame `fraction / r.output` after an input frame. -/
def weights (r : Rates) (fraction : Nat) : List Float :=
  let f := Float.ofNat fraction / Float.ofNat r.output
  let middle := Float.ofNat (half r)
  let scale := cutoff r
  (List.range (2 * half r)).map fun j => value (((UInt64.ofNat (j + 1)).toFloat - middle - f) * scale)

/-- Where the largest magnitude stands, the last one of several. -/
def largest (qs : List Int) : Nat :=
  (qs.zipIdx.foldl (fun best q => if best.1 ≤ q.1.natAbs then (q.1.natAbs, q.2) else best) (0, 0)).2

/-- A weight in units of 2⁻¹⁵, held within thirty-two bits. -/
def rounded (w : Float) : Int := max (-2147483648) (min 2147483647 (Number.nearestInt (w * 32768)))

/-- Weights in units of 2⁻¹⁵ that sum to one. -/
def quantize (ws : List Float) : List Int :=
  let qs := ws.map rounded
  qs.modify (largest qs) (· + (32768 - qs.foldl (· + ·) 0))

def taps (r : Rates) (fraction : Nat) : List Int :=
  let ws := weights r fraction
  let sum := ws.foldl (· + ·) 0
  quantize (ws.map (· / sum))

end PcmConvert.Rate.Kernel
