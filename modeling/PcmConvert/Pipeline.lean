/-
  PcmConvert.Pipeline — the stages between bytes in and bytes out: decode, mix and convert
  (whichever leaves the converter the fewer channels comes first), split at the crossover,
  encode.

  A stage reads the frames of the one before it where they lie: in the caller's own bytes,
  if these are working samples as they stand, or in one of three buffers. A buffer keeps
  what a run put into it until a later run puts something else there.

  Frames that the converter did not use are kept for the next run, in the buffer that it
  is fed from: the slot. It holds decoded frames if the converter comes before the mix, and
  mixed ones if it comes after. A converter that passes frames on leaves the slot as it was
  fed, and the count of frames carried says that none of them counts.
-/

import PcmConvert.Mix.Crossover
import PcmConvert.Mix.Remapper
import PcmConvert.Rate.Basic
import PcmConvert.Sample.Codec

namespace PcmConvert

inductive Slot where
  /-- The mix comes first: mixed frames are kept. -/
  | afterMix
  /-- The converter comes first: decoded frames are kept. -/
  | beforeMix
  deriving DecidableEq, Repr

namespace Slot

def all : List Slot := [afterMix, beforeMix]

/-- The name in a document and in the log. -/
def tag : Slot → String
  | afterMix => "RemapOutput"
  | beforeMix => "ToWorkFormatOutput"

/-- The mix comes first unless it widens the frames. -/
def ofChannels (inputs outputs : Nat) : Slot := if outputs ≤ inputs then afterMix else beforeMix

end Slot

/-- Where the frames of a stage lie. -/
inductive Place where
  /-- In the caller's bytes, used in place. -/
  | caller
  | decoded
  | mixed
  | converted
  deriving DecidableEq, Repr

/-- The buffer that frames are carried over in. -/
def Slot.place : Slot → Place
  | .afterMix => .mixed
  | .beforeMix => .decoded

/-- The frames that the stages of a run leave for one another. -/
structure Buffers (S : Type) where
  decoded : List (Frame S) := []
  mixed : List (Frame S) := []
  converted : List (Frame S) := []

namespace Buffers

variable {S : Type}

/-- The frames at a place, `caller` being the caller's. -/
def read (b : Buffers S) (caller : List (Frame S)) : Place → List (Frame S)
  | .caller => caller
  | .decoded => b.decoded
  | .mixed => b.mixed
  | .converted => b.converted

/-- Other frames in a buffer. The caller's are not ours to change. -/
def write (b : Buffers S) (fs : List (Frame S)) : Place → Buffers S
  | .caller => b
  | .decoded => { b with decoded := fs }
  | .mixed => { b with mixed := fs }
  | .converted => { b with converted := fs }

end Buffers

structure Pipeline (β S : Type) where
  inputEncoding : Encoding
  outputEncoding : Encoding
  inputChannels : Nat
  /-- None if mixing would change nothing. -/
  remapper : Option Remapper
  slot : Slot
  converter : β
  crossover : Option Crossover
  /-- How many of the frames in the slot are carried over to the next run. -/
  carried : Nat
  buffers : Buffers S

/-- A run on its way: the frames of the present stage are at `place`. -/
structure Run (β S : Type) where
  pipeline : Pipeline β S
  /-- The caller's frames, if they are used in place. -/
  caller : List (Frame S)
  place : Place

namespace Run

variable {β S : Type} [Sample S]

def frames (r : Run β S) : List (Frame S) := r.pipeline.buffers.read r.caller r.place

/-- The frames of the next stage come into a buffer. -/
def put (r : Run β S) (fs : List (Frame S)) (place : Place) : Run β S :=
  { r with pipeline := { r.pipeline with buffers := r.pipeline.buffers.write fs place }, place }

/-- The mix ahead of the converter: behind what is carried over, in the slot. Without a mix
    the caller's frames stay where they are if nothing is carried over; decoded ones trade
    buffers with the slot then, and are copied behind what is carried over otherwise. -/
def mixAhead (r : Run β S) : Run β S :=
  let p := r.pipeline
  match p.remapper with
  | some m => r.put (p.buffers.mixed.take p.carried ++ m.apply r.frames) .mixed
  | none =>
    if p.carried = 0 then
      if r.place = .caller then r
      else
        let buffers := { p.buffers with mixed := r.frames, decoded := [] }
        { r with pipeline := { p with buffers }, place := .mixed }
    else r.put (p.buffers.mixed ++ r.frames) .mixed

/-- The mix behind the converter. -/
def mixBehind (r : Run β S) : Run β S :=
  match r.pipeline.remapper with
  | some m => r.put (m.apply r.frames) .mixed
  | none => r

/-- The crossover, where there is one, changes the frames where they lie; the caller's are
    copied first. -/
def split (r : Run β S) : Run β S :=
  match r.pipeline.crossover with
  | some x =>
    let r := if r.place = .caller then r.put r.caller .converted else r
    let y := x.process r.frames
    { r with pipeline := { r.pipeline with crossover := some y.2, buffers := r.pipeline.buffers.write y.1 r.place } }
  | none => r

variable [RateConverter β S]

/-- The converter is fed. What it did not use stays in the slot, or comes there. -/
def convert (r : Run β S) : Run β S :=
  let p := r.pipeline
  if RateConverter.passes S p.converter then r
  else
    let c := RateConverter.convert p.converter r.frames
    let tail := min c.unconsumed r.frames.length
    let start := r.frames.length - tail
    let kept := if r.place = .caller then r.caller.drop start else (p.buffers.read [] p.slot.place).drop start
    let buffers := { p.buffers.write kept p.slot.place with converted := c.frames }
    { r with pipeline := { p with converter := c.next, carried := tail, buffers }, place := .converted }

end Run

namespace Pipeline

variable {β S : Type} [Sample S]

/-- Whether the input is used in place, as working samples. The bytes must be theirs and
    lie as theirs must; frames carried over have to stand in front of them, though. -/
def views (p : Pipeline β S) (aligned : Bool) : Bool :=
  Codec.isNative S p.inputEncoding && aligned && (p.slot == .afterMix || p.carried == 0)

/-- The input as frames: the caller's own, or decoded behind what is carried over. -/
def load (p : Pipeline β S) (viewed : Bool) (input : List (Frame S)) : Run β S :=
  if viewed then ⟨p, input, .caller⟩
  else
    let kept := if p.slot = .beforeMix then p.carried else 0
    Run.put ⟨p, [], .decoded⟩ (p.buffers.decoded.take kept ++ input) .decoded

variable [RateConverter β S]

/-- The stages in their order. -/
def runStages (p : Pipeline β S) (aligned : Bool) (bytes : List UInt8) : Run β S :=
  let r := p.load (p.views aligned) (Codec.decodeFrames p.inputEncoding p.inputChannels bytes)
  match p.slot with
  | .afterMix => r.mixAhead.convert.split
  | .beforeMix => r.convert.mixBehind.split

def runLine (p : Pipeline β S) (aligned : Bool) (bytes : List UInt8) : Log.Line :=
  let frames := bytes.length / (p.inputEncoding.size * p.inputChannels)
  let place := if p.views aligned then "Caller" else "ToWork"
  ⟨.trace, "run - " ++ toString frames ++ " frames in, " ++ toString p.carried ++ " leftover, " ++ place⟩

/-- The bytes out for some bytes of whole frames in. -/
def run (p : Pipeline β S) (aligned : Bool) (bytes : List UInt8) : Logged (List UInt8 × Pipeline β S) :=
  let r := p.runStages aligned bytes
  ⟨(Codec.encodeFrames p.outputEncoding r.frames, r.pipeline), [p.runLine aligned bytes]⟩

/-- The frames that the output is behind. -/
def delay (p : Pipeline β S) : Nat := p.carried + RateConverter.delay S p.converter

/-- The converter and the slot as if nothing had been run yet. -/
def clear (p : Pipeline β S) : Pipeline β S :=
  { p with
    converter := RateConverter.reset S p.converter
    carried := 0
    buffers := p.buffers.write [] p.slot.place }

/-- As if nothing had been run yet. -/
def reset (p : Pipeline β S) : Pipeline β S := { p.clear with crossover := p.crossover.map Crossover.reset }

/-- The stream goes back, to where nothing held belongs. -/
def rewind (p : Pipeline β S) : Pipeline β S := { p.clear with crossover := p.crossover.map Crossover.rewind }

/-- At other rates. If the converter cannot, nothing changes. If it can but the crossover
    cannot, the converter has changed by then. -/
def retune (p : Pipeline β S) (r : Rates) : Logged (Except Refusal Unit × Pipeline β S) := do
  match ← RateConverter.retune S p.converter r with
  | .error f => return (.error (.fault f), p)
  | .ok c =>
    let p := { p with converter := c }
    match p.crossover with
    | none => return (.ok (), p)
    | some x => match x.setRate? r.output with
      | some x => return (.ok (), { p with crossover := some x })
      | none => return (.error (.halt (.noCutoff r.output)), p)

/-- The crossover of a configuration: only where low frequencies are made from all inputs. -/
def createCrossover (c : Config) (m : Matrix Float32) : Except Refusal (Option Crossover) :=
  match c.crossover with
  | some f =>
    if m.lfeSynthesized then
      match Crossover.create? c.outputMap f c.output.rate with
      | some x => .ok (some x)
      | none => .error (.halt (.noCutoff c.output.rate))
    else .ok none
  | none => .ok none

/-- The stages of a configuration; `createConverter` is told how many channels it gets. -/
def create (c : Config) (m : Matrix Float32) (createConverter : Nat → Except Fault β) :
    Except Refusal (Pipeline β S) := do
  let converter ← (createConverter (min c.input.channels c.output.channels)).mapError .fault
  let crossover ← createCrossover c m
  return {
    inputEncoding := c.input.encoding
    outputEncoding := c.output.encoding
    inputChannels := c.input.channels
    remapper := if m.isIdentity then none else some (Remapper.ofMatrix m)
    slot := Slot.ofChannels c.input.channels c.output.channels
    converter, crossover
    carried := 0
    buffers := {} }

end Pipeline

end PcmConvert
