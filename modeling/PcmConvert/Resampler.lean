/-
  PcmConvert.Resampler — a conversion that is running. It is made from a configuration,
  takes the input in pieces of whole frames, and answers how much goes in and comes out.
  Rates may change in between where the method can; all else stays as configured.
-/

import PcmConvert.Method.Resolve
import PcmConvert.Number.Rounding
import PcmConvert.Pipeline
import PcmConvert.Rate.Converter

namespace PcmConvert

/-- The stages, on the working samples that were chosen. -/
inductive Engine where
  | s16 (p : Pipeline FixedConverter Int16)
  | f32 (p : Pipeline FloatConverter Float32)

namespace Engine

def run (e : Engine) (aligned : Bool) (bytes : List UInt8) : Logged (List UInt8 × Engine) :=
  match e with
  | s16 p => do let r ← p.run aligned bytes; return (r.1, s16 r.2)
  | f32 p => do let r ← p.run aligned bytes; return (r.1, f32 r.2)

def reset : Engine → Engine
  | s16 p => s16 p.reset
  | f32 p => f32 p.reset

def rewind : Engine → Engine
  | s16 p => s16 p.rewind
  | f32 p => f32 p.rewind

def retune (e : Engine) (r : Rates) : Logged (Except Refusal Unit × Engine) :=
  match e with
  | s16 p => do let x ← p.retune r; return (x.1, s16 x.2)
  | f32 p => do let x ← p.retune r; return (x.1, f32 x.2)

def carried : Engine → Nat
  | s16 p => p.carried
  | f32 p => p.carried

def delay : Engine → Nat
  | s16 p => p.delay
  | f32 p => p.delay

def slot : Engine → Slot
  | s16 p => p.slot
  | f32 p => p.slot

def crossover : Engine → Option Crossover
  | s16 p => p.crossover
  | f32 p => p.crossover

def isMixing : Engine → Bool
  | s16 p => p.remapper.isSome
  | f32 p => p.remapper.isSome

def create (b : Build) (m : Method) (r : Rates) (c : Config) (x : Matrix Float32) : Except Refusal Engine :=
  match m.precision c.input.encoding c.output.encoding with
  | .s16 => s16 <$> Pipeline.create c x fun n => FixedConverter.create m n r
  | .f32 => f32 <$> Pipeline.create c x fun n => FloatConverter.create b c.flags.variableRate m n r

end Engine

structure Resampler where
  config : Config
  rates : Rates
  /-- The method that runs. -/
  method : Method
  matrix : Matrix Float32
  /-- Whether both sides are the same, so that the input is the output. -/
  passthrough : Bool
  engine : Engine

namespace Resampler

open Number (ceilDiv)

def precision (s : Resampler) : Precision := s.method.precision s.config.input.encoding s.config.output.encoding

/-! ## Beginning -/

def describe (c : Config) (m : Method) : Log.Line :=
  let side (s : StreamSpec) (map : ChannelMap) : String :=
    s.encoding.name ++ " " ++ toString s.rate ++ " " ++ map.render
  ⟨.info, "Resampler - " ++ side c.input c.inputMap ++ " -> " ++ side c.output c.outputMap ++ ", method: " ++ m.name ++
    ", work format: " ++ (m.precision c.input.encoding c.output.encoding).tag⟩

def describeStages (c : Config) (m : Method) (e : Engine) : Log.Line :=
  ⟨.debug, "Pipeline - backend: " ++ m.name ++ ", channels: " ++ toString (min c.input.channels c.output.channels) ++
    ", remap: " ++ toString e.isMixing ++ ", lfe: " ++ toString e.crossover.isSome ++ ", leftover: " ++ e.slot.tag⟩

/-- Both sides are the same, and nothing is to be converted. -/
def isPassthrough (c : Config) (m : Method) : Bool := m == .copy && c.input == c.output && c.inputMap == c.outputMap

/-- Build the stages of a configuration, once the method is chosen. -/
def build (b : Build) (c : Config) (r : Rates) (choice : Method.Choice) : Logged (Except Refusal Resampler) :=
  let m := choice.method
  let matrix : Matrix Float32 := Matrix.build c.inputMap c.outputMap c.flags
  let begun := choice.notes.map Method.Note.line ++
    [describe c m, ⟨.debug, "Resampler - mix matrix:\n" ++ matrix.render⟩]
  match Engine.create b m r c matrix with
  | .error e => ⟨.error e, begun⟩
  | .ok e => ⟨.ok ⟨c, r, m, matrix, isPassthrough c m, e⟩, begun ++ [describeStages c m e]⟩

/-- The configuration is checked, the method resolved, the matrix derived, and the stages
    are built, in this order. -/
def create (b : Build) (c : Config) : Logged (Except Refusal Resampler) :=
  match h : c.validate with
  | .error f => pure (.error (.fault f))
  | .ok () =>
    have hp := Config.rates_pos_of_validate h
    match c.method.resolve b ⟨c.input.rate, c.output.rate, c.flags.variableRate⟩ c.fallback with
    | .error f => pure (.error (.fault f))
    | .ok choice => build b c ⟨c.input.rate, c.output.rate, hp.1, hp.2⟩ choice

/-! ## Running -/

/-- Whole frames in; `aligned` says whether they lie in memory as working samples must. -/
def run (s : Resampler) (aligned : Bool) (bytes : List UInt8) : Logged (Except Halt (List UInt8 × Resampler)) :=
  let size := s.config.input.frameSize
  if bytes.length % size ≠ 0 then pure (.error (.partialFrame bytes.length size))
  else if s.passthrough then pure (.ok (bytes, s))
  else do
    let r ← s.engine.run aligned bytes
    return .ok (r.1, { s with engine := r.2 })

/-- Forget all that was run. -/
def reset (s : Resampler) : Logged Resampler := do
  Logged.note .trace "Resampler - reset"
  return { s with engine := s.engine.reset }

/-- The stream goes back by `frames` output frames. -/
def rewind (s : Resampler) (frames : Nat) : Logged Resampler := do
  Logged.note .trace ("Resampler - rewind " ++ toString frames ++ " frames")
  return { s with engine := s.engine.rewind }

/-! ## Rates -/

/-- Run at the rates `r`, which `side` says how differ from the present ones; `config` is
    the configuration then. -/
def setRates (s : Resampler) (r : Rates) (config : Config) (side : String) :
    Logged (Except Refusal Unit × Resampler) := do
  let x ← s.engine.retune r
  match x.1 with
  | .error e => return (.error e, { s with engine := x.2 })
  | .ok () =>
    Logged.note .debug ("Resampler - " ++ side)
    return (.ok (), { s with engine := x.2, rates := r, config })

def change (old new : Nat) : String := toString old ++ " -> " ++ toString new

/-- Another input rate. The same rate is no change. -/
def setInputRate (s : Resampler) (rate : Nat) : Logged (Except Refusal Unit × Resampler) :=
  match h : checkRate rate with
  | .error f => pure (.error (.fault f), s)
  | .ok () =>
    if rate = s.rates.input then pure (.ok (), s)
    else
      s.setRates { s.rates with input := rate, input_pos := pos_of_checkRate h }
        { s.config with input := { s.config.input with rate } } ("input rate " ++ change s.rates.input rate)

/-- Another output rate. The same rate is no change. -/
def setOutputRate (s : Resampler) (rate : Nat) : Logged (Except Refusal Unit × Resampler) :=
  match h : checkRate rate with
  | .error f => pure (.error (.fault f), s)
  | .ok () =>
    if rate = s.rates.output then pure (.ok (), s)
    else
      s.setRates { s.rates with output := rate, output_pos := pos_of_checkRate h }
        { s.config with output := { s.config.output with rate } } ("output rate " ++ change s.rates.output rate)

/-! ## Sizes -/

/-- Sizes are below this. -/
def sizeLimit : Nat := 1 <<< 64

/-- Frames kept free in a block of working memory. -/
def headroom : Nat := 128

/-- The bytes of so many frames; the last whole frame below the limit if there are more. -/
def bytesOf (frames frameSize : Nat) : Nat :=
  if frames * frameSize < sizeLimit then frames * frameSize
  else sizeLimit - 1 - (sizeLimit - 1) % frameSize

/-- The bytes in that give at least so many bytes out, frames carried over aside. -/
def request (s : Resampler) (bytes : Nat) : Nat :=
  let out := ceilDiv bytes s.config.output.frameSize
  bytesOf (ceilDiv (out * s.rates.input) s.rates.output) s.config.input.frameSize

/-- The most bytes out for so many bytes in. -/
def result (s : Resampler) (bytes : Nat) : Nat :=
  let frames := ceilDiv bytes s.config.input.frameSize + s.engine.carried
  bytesOf (ceilDiv (frames * s.rates.output) s.rates.input) s.config.output.frameSize

/-- The bytes in whose intermediate results fit the working memory: at least a frame. -/
def maxBlock (s : Resampler) : Except Halt Nat :=
  let channels := max s.config.input.channels s.config.output.channels
  let size := max (max s.config.input.encoding.size s.config.output.encoding.size) s.precision.size
  let room := s.config.slab / (channels * size) - headroom - s.engine.carried
  if sizeLimit ≤ room * s.rates.input then .error .overflow
  else
    let frames := room * s.rates.input / max s.rates.input s.rates.output
    .ok (max 1 frames * s.config.input.frameSize)

end Resampler

end PcmConvert
