/-
  PcmConvert.Rate.Chunked — the two floating point methods. They take whole chunks of 256
  frames and leave the rest. What is fixed here is how many frames come out of a chunk, and
  which of them can carry sound: such a sample is given as half of full scale, any other as
  silence. The sound itself depends on the machine and is left open.

  - `sinc` steps through a chunk by the inverse ratio, from where the last chunk left off. A
    frame out is weighed from 128 frames in. The ratio may be moved by a factor of ten from
    where it began if the rates are variable.
  - `fft` works on blocks whose frames in and out are in the exact ratio of the rates. A
    block out depends on its block in and the one before.
-/

import PcmConvert.Number.Binary64
import PcmConvert.Rate.Basic

namespace PcmConvert

namespace Chunked

def chunk : Nat := 256

/-- Frames that a frame of `sinc` is weighed from. -/
def sincLength : Nat := 128

/-- How far the ratio of `sinc` may be moved. -/
def maxRelativeRatio : Float := 10

/-- Whether each channel of a frame carries sound. -/
abbrev Marks := List Bool

def mark (f : Frame Float32) : Marks := f.map fun s => !(s == 0)

/-- The channels that carry sound in either. -/
def join (a b : Marks) : Marks := a.zipWith (· || ·) b

/-- The frame out for the channels that can carry sound. -/
def placeholder (m : Marks) : Frame Float32 := m.map fun b => if b then 0.5 else 0

/-! ## Sinc -/

structure SincClock where
  /-- Output over input. -/
  ratio : Float
  /-- The ratio it began with. -/
  initial : Float
  /-- Where the last frame out stood, from the start of the next chunk. -/
  last : Float

def ratioOf (r : Rates) : Float := Float.ofNat r.output / Float.ofNat r.input

namespace SincClock

def create (r : Rates) : SincClock := ⟨ratioOf r, ratioOf r, -64⟩

/-- The places of the frames out, as long as there is one before `stop`, and the last. -/
def places (step stop place : Float) : Nat → List Float × Float
  | 0 => ([], place)
  | fuel + 1 =>
    if place < stop then
      let rest := places step stop (place + step) fuel
      ((place + step) :: rest.1, rest.2)
    else ([], place)

/-- More frames than a chunk gives out: it spans fewer than 512 frames, but for what a
    slower clock left, and no clock is a hundred times slower than the one it became. -/
def bound (r : Rates) : Nat := 512 * (r.output / r.input + 1) + 128

/-- The places of the frames that a chunk gives out, and the clock after it. -/
def step (c : SincClock) (r : Rates) : List Float × SincClock :=
  let t := 1 / c.ratio
  let stop := Float.ofNat chunk - Float.ofNat (sincLength + 1) - Float.ofNat (Number.ceilNat t)
  let p := places t stop c.last (bound r)
  (p.1, { c with last := p.2 - Float.ofNat chunk })

/-- Another ratio, if it is not too far from the first. -/
def setRatio? (c : SincClock) (ratio : Float) : Option SincClock :=
  if 1 / maxRelativeRatio ≤ ratio / c.initial ∧ ratio / c.initial ≤ maxRelativeRatio then
    some { c with ratio := ratio }
  else none

end SincClock

/-! ## Fft -/

/-- Frames in of a block: the fewest, but at least half a chunk. -/
def blockIn (r : Rates) : Nat :=
  let n := r.input / Nat.gcd r.input r.output
  (chunk / 2 + n - 1) / n * n

/-- Frames out of a block. -/
def blockOut (r : Rates) : Nat :=
  blockIn r / (r.input / Nat.gcd r.input r.output) * (r.output / Nat.gcd r.input r.output)

/-- The marks of the blocks that frames fill, `filled` frames with the marks `begun` being
    in the block already; and the same of the block that stays open. -/
def fillBlocks (size filled : Nat) (begun : Marks) : List Marks → List Marks × Nat × Marks
  | [] => ([], filled, begun)
  | m :: r =>
    if filled + 1 = size then
      let rest := fillBlocks size 0 (begun.map fun _ => false) r
      (join begun m :: rest.1, rest.2)
    else fillBlocks size (filled + 1) (join begun m) r

/-- A block out of `n` frames for each block in; `before` is the block before. -/
def blockFrames (n : Nat) (before : Marks) : List Marks → List (Frame Float32)
  | [] => []
  | b :: r => List.replicate n (placeholder (join before b)) ++ blockFrames n b r

/-! ## Both -/

inductive Engine where
  /-- The clock, and the marks of the last frames in. -/
  | sinc (clock : SincClock) (past : List Marks)
  /-- Frames in the block that is open, their marks, and the marks of the block before. -/
  | fft (filled : Nat) (begun before : Marks)

end Chunked

open Chunked in
structure Chunked where
  method : Method
  channels : Nat
  rates : Rates
  variableRate : Bool
  engine : Engine

namespace Chunked

def Engine.create (m : Method) (channels : Nat) (r : Rates) : Engine :=
  if m = .fft then .fft 0 (List.replicate channels false) (List.replicate channels false)
  else .sinc (SincClock.create r) []

def create (m : Method) (channels : Nat) (r : Rates) (variableRate : Bool) : Chunked :=
  ⟨m, channels, r, variableRate, Engine.create m channels r⟩

/-- Frames in that `sinc` remembers. -/
def memory : Nat := 1024

/-- How many of the first `k` frames carry sound in channel `c`, for every `k`. -/
def tally (marks : List Marks) (c : Nat) : Array Nat :=
  marks.foldl (fun t m => t.push (t.back?.getD 0 + (m.getD c false).toNat)) #[0]

/-- Whether one of the frames from `first` up to but without `stop` carries sound. -/
def heard (t : Array Nat) (first stop : Int) : Bool :=
  let upTo (k : Int) : Nat := t.getD (min k.toNat (t.size - 1)) 0
  upTo first < upTo stop

/-- The frame out at the place `p`, `offset` being the start of the chunk in the tallies. -/
def frameAt (tallies : List (Array Nat)) (offset : Nat) (p : Float) : Frame Float32 :=
  let first := offset + Number.floorInt p
  placeholder (tallies.map fun t => heard t first (first + sincLength))

/-- One chunk in. -/
def process (s : Chunked) (frames : List (Frame Float32)) : List (Frame Float32) × Chunked :=
  match s.engine with
  | .sinc clock past =>
    let marks := past ++ frames.map mark
    let tallies := (List.range s.channels).map (tally marks)
    let p := clock.step s.rates
    (p.1.map (frameAt tallies past.length),
      { s with engine := .sinc p.2 (marks.drop (marks.length - memory)) })
  | .fft filled begun before =>
    let b := fillBlocks (blockIn s.rates) filled begun (frames.map mark)
    (blockFrames (blockOut s.rates) before b.1,
      { s with engine := .fft b.2.1 b.2.2 (b.1.getLastD before) })

/-- Whole chunks in; the rest is not used. -/
def convert (s : Chunked) (frames : List (Frame Float32)) : Converted Chunked Float32 :=
  if (frames.take chunk).length = chunk then
    let head := s.process (frames.take chunk)
    let rest := convert head.2 (frames.drop chunk)
    { rest with frames := head.1 ++ rest.frames }
  else ⟨s, [], frames.length⟩
  termination_by frames.length
  decreasing_by simp only [List.length_take, List.length_drop, chunk] at *; omega

/-- A variable `sinc` moves its ratio if it can; otherwise everything is built anew. -/
def retune (s : Chunked) (r : Rates) : Logged Chunked :=
  let moved : Option Chunked := match s.engine with
    | .sinc clock past =>
      if s.variableRate then
        (clock.setRatio? (ratioOf r)).map fun c => { s with rates := r, engine := .sinc c past }
      else none
    | .fft .. => none
  match moved with
  | some s => pure s
  | none => do
    Logged.note .debug ("rubato - rebuilding for " ++ toString r.input ++ " -> " ++ toString r.output)
    pure (create s.method s.channels r s.variableRate)

instance : RateConverter Chunked Float32 where
  convert := convert
  reset s := create s.method s.channels s.rates s.variableRate
  retune s r := do return .ok (← retune s r)
  delay s := if s.method = .fft then chunk / 2 else sincLength / 2
  passes _ := false

end Chunked

end PcmConvert
