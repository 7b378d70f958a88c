/-
  PcmConvert.Mix.Crossover — the split of a frame at one frequency: low frequency channels
  keep what is below it, the others what is above. Each channel runs through two
  second-order state variable filters with Butterworth damping, one after the other.
-/

import PcmConvert.Channel.Map
import PcmConvert.Sample.Basic

namespace PcmConvert

namespace Crossover

structure Coefficients where
  k : Float32
  a1 : Float32
  a2 : Float32
  a3 : Float32

/-- The filter for `cutoff` at `rate`, the cutoff being held between 1 Hz and 0.49 of the
    rate. At a rate of 1 or 2 Hz no frequency lies between. -/
def Coefficients.ofCutoff? (cutoff rate : Nat) : Option Coefficients :=
  if 49 * rate < 100 then none
  else
    let hz : Float32 := Float32.ofNat rate
    let top : Float32 := hz * 0.49
    let wanted : Float32 := Float32.ofNat cutoff
    let held : Float32 := if wanted < 1 then 1 else if top < wanted then top else wanted
    let g : Float32 := ((3.14159265358979323846 : Float32) * held / hz).tan
    let k : Float32 := 1 / (0.707106781186547524400 : Float32)
    let a1 : Float32 := 1 / (1 + g * (g + k))
    let a2 : Float32 := g * a1
    some ⟨k, a1, a2, g * a2⟩

/-- The state of one filter: what its two integrators hold. -/
structure Cell where
  first : Float32 := 0
  second : Float32 := 0

structure Split where
  low : Float32
  high : Float32
  next : Cell

def Cell.split (c : Coefficients) (s : Cell) (x : Float32) : Split :=
  let v3 := x - s.second
  let v1 := c.a1 * s.first + c.a2 * v3
  let v2 := s.second + c.a2 * s.first + c.a3 * v3
  ⟨v2, x - c.k * v1 - v2, ⟨2 * v1 - s.first, 2 * v2 - s.second⟩⟩

/-- A channel: the part it keeps, and its two filters. -/
structure Channel where
  keepsLow : Bool
  front : Cell := {}
  back : Cell := {}

def Channel.step (c : Coefficients) (ch : Channel) (x : Float32) : Float32 × Channel :=
  let a := ch.front.split c x
  let b := ch.back.split c (if ch.keepsLow then a.low else a.high)
  (if ch.keepsLow then b.low else b.high, { ch with front := a.next, back := b.next })

end Crossover

open Crossover in
structure Crossover where
  /-- In Hz, as asked for. -/
  frequency : Nat
  coefficients : Coefficients
  channels : List Channel

namespace Crossover

def create? (map : ChannelMap) (frequency rate : Nat) : Option Crossover :=
  (Coefficients.ofCutoff? frequency rate).map fun c => ⟨frequency, c, map.map fun p => { keepsLow := p.isLfe }⟩

/-- The same filters at another rate, with what they hold. -/
def setRate? (x : Crossover) (rate : Nat) : Option Crossover :=
  (Coefficients.ofCutoff? x.frequency rate).map fun c => { x with coefficients := c }

/-- Filters that hold nothing. -/
def reset (x : Crossover) : Crossover := { x with channels := x.channels.map fun ch => { keepsLow := ch.keepsLow } }

/-- After a jump back in the stream: what the filters hold belongs to another place. -/
def rewind (x : Crossover) : Crossover := x.reset

variable {S : Type} [Sample S]

def frame (x : Crossover) (f : Frame S) : Frame S × Crossover :=
  let steps := f.zipWith (fun s (ch : Channel) => ch.step x.coefficients (Sample.toF32 s)) x.channels
  (steps.map fun s => Sample.ofF32 s.1, { x with channels := steps.map (·.2) })

def process (x : Crossover) : List (Frame S) → List (Frame S) × Crossover
  | [] => ([], x)
  | f :: r =>
    let head := x.frame f
    let rest := process head.2 r
    (head.1 :: rest.1, rest.2)

end Crossover

end PcmConvert
