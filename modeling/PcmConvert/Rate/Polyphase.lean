/-
  PcmConvert.Rate.Polyphase — conversion by a cascade of filters. A filter raises the rate
  `up` times by zeros that are never written down: each of its phases holds the weights
  that meet real frames. The phase counts in steps of the raised rate; a frame in moves it
  back by `up`, a frame out forward by `down`.
-/

import PcmConvert.Rate.Basic
import PcmConvert.Rate.Polyphase.Table

namespace PcmConvert

namespace Rate

/-- One filter at work. -/
structure Stage where
  filter : Filter
  channels : Nat
  /-- Of the next frame out. -/
  phase : Nat
  /-- The last `taps` frames in, newest first. -/
  line : List (Frame Int16)
  /-- The frame last computed, for the stage after to read. -/
  last : Frame Int16

namespace Stage

def create (channels : Nat) (f : Filter) : Stage :=
  ⟨f, channels, 0, List.replicate f.taps (silentFrame channels), silentFrame channels⟩

def insert (s : Stage) (f : Frame Int16) : Stage := { s with line := (f :: s.line).take s.filter.taps }

/-- The frame out at the phase is computed, and the phase moves on. -/
def compute (s : Stage) : Stage :=
  { s with last := weigh s.channels (s.filter.phases.getD s.phase []) s.line, phase := s.phase + s.filter.down }

/-- The frames out until another frame in is due. -/
def emit (s : Stage) : List (Frame Int16) × Stage :=
  if s.phase < s.filter.up then
    let rest := emit s.compute
    (s.compute.last :: rest.1, rest.2)
  else ([], s)
  termination_by s.filter.up - s.phase
  decreasing_by have := s.filter.down_pos; simp only [compute]; omega

def push (s : Stage) (f : Frame Int16) : List (Frame Int16) × Stage :=
  let e := (s.insert f).emit
  (e.1, { e.2 with phase := e.2.phase - e.2.filter.up })

def run (s : Stage) : List (Frame Int16) → List (Frame Int16) × Stage
  | [] => ([], s)
  | f :: r =>
    let head := s.push f
    let rest := run head.2 r
    (head.1 ++ rest.1, rest.2)

/-- Stages one after the other. -/
def runAll : List Stage → List (Frame Int16) → List (Frame Int16) × List Stage
  | [], fs => (fs, [])
  | s :: r, fs =>
    let head := s.run fs
    let rest := runAll r head.1
    (rest.1, head.2 :: rest.2)

/-- As if no frame had come in. The frame last computed stays until there is another. -/
def reset (s : Stage) : Stage :=
  { s with phase := 0, line := List.replicate s.filter.taps (silentFrame s.channels) }

end Stage

end Rate

open Rate

structure Polyphase where
  channels : Nat
  cascade : Cascade
  stages : List Stage

namespace Polyphase

/-- Only for the rate pairs of the table. -/
def create (channels input output : Nat) : Except Fault Polyphase :=
  match Cascade.find? input output with
  | some c => .ok ⟨channels, c, c.filters.map (Stage.create channels)⟩
  | none => .error (.rateUnsupported .polyphaseFixed input output)

def convert (s : Polyphase) (frames : List (Frame Int16)) : Converted Polyphase Int16 :=
  let r := Stage.runAll s.stages frames
  ⟨{ s with stages := r.2 }, r.1, 0⟩

/-- Half the taps of each filter, in frames of the input; `rate` is the rate before it. -/
def delayFrom (input rate : Nat) : List Filter → Nat
  | [] => 0
  | f :: r => f.taps / 2 * input / rate + delayFrom input (rate * f.up / f.down) r

instance : RateConverter Polyphase Int16 where
  convert := convert
  reset s := { s with stages := s.stages.map Stage.reset }
  retune s r := pure (create s.channels r.input r.output)
  delay s := delayFrom s.cascade.input s.cascade.input s.cascade.filters
  passes _ := false

end Polyphase

end PcmConvert
