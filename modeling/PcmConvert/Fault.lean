/-
  PcmConvert.Fault — why a stream cannot be set up, or a rate not be changed. A `Fault`
  is an answer. A `Halt` is none: the caller broke a promise, or a number has no place
  to go, and the call ends without one.
-/

import PcmConvert.Method.Basic
import PcmConvert.Text.Quoted

namespace PcmConvert

/-- What is wrong with a configuration. -/
inductive Defect where
  | zeroRate
  | rateTooHigh
  | noChannels
  | tooManyChannels
  | mapLength
  | auxRange
  | zeroCrossover
  | zeroSlab
  | other (text : String)
  deriving DecidableEq, Repr

def Defect.message : Defect → String
  | zeroRate => "rate must be non-zero"
  | rateTooHigh => "rate is too high"
  | noChannels => "channel count must be non-zero"
  | tooManyChannels => "too many channels"
  | mapLength => "channel map length does not match channel count"
  | auxRange => "auxiliary channel index out of range"
  | zeroCrossover => "crossover frequency must be non-zero"
  | zeroSlab => "slab size must be non-zero"
  | other text => text

inductive Fault where
  | invalidFormat (defect : Defect)
  /-- The method cannot do what the configuration asks. -/
  | unsupportedMethod (m : Method)
  /-- The build does not hold the method. -/
  | backendUnavailable (m : Method)
  /-- The method has a table of rate pairs, and this pair is not in it. -/
  | rateUnsupported (m : Method) (input output : Nat)
  | backend (text : String)
  deriving DecidableEq, Repr

namespace Fault

def kind : Fault → String
  | invalidFormat _ => "InvalidFormat"
  | unsupportedMethod _ => "UnsupportedMethod"
  | backendUnavailable _ => "BackendUnavailable"
  | rateUnsupported .. => "RateUnsupported"
  | backend _ => "Backend"

def message : Fault → String
  | invalidFormat d => "invalid stream format: " ++ d.message
  | unsupportedMethod m => "resample method `" ++ m.name ++ "` does not support this configuration"
  | backendUnavailable m => "resample method `" ++ m.name ++ "` is not available in this build"
  | rateUnsupported m i o =>
    "resample method `" ++ m.name ++ "` does not support " ++ toString i ++ " Hz -> " ++ toString o ++ " Hz"
  | backend text => "backend error: " ++ text

/-- The kind and what it carries, as a term. -/
def term : Fault → String
  | invalidFormat d => "InvalidFormat(" ++ Text.quote d.message ++ ")"
  | unsupportedMethod m => "UnsupportedMethod(" ++ m.label ++ ")"
  | backendUnavailable m => "BackendUnavailable(" ++ m.label ++ ")"
  | rateUnsupported m i o =>
    "RateUnsupported \x7b method: " ++ m.label ++ ", input: " ++ toString i ++ ", output: " ++ toString o ++ " \x7d"
  | backend text => "Backend(" ++ Text.quote text ++ ")"

end Fault

inductive Halt where
  /-- The bytes given are not whole frames. -/
  | partialFrame (length frameSize : Nat)
  /-- The lowest cutoff of the crossover lies above the highest at this rate. -/
  | noCutoff (rate : Nat)
  /-- A product does not fit 64 bits. -/
  | overflow
  deriving DecidableEq, Repr

/-- Only a broken promise is explained. -/
def Halt.message? : Halt → Option String
  | partialFrame n f =>
    some ("input length " ++ toString n ++ " is not a multiple of the frame size " ++ toString f)
  | _ => none

/-- A call that gives no result. -/
inductive Refusal where
  | fault (f : Fault)
  | halt (h : Halt)
  deriving DecidableEq, Repr

end PcmConvert
