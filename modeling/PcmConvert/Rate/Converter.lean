/-
  PcmConvert.Rate.Converter — the converter of a method. Three methods work on any samples;
  two need 16-bit integers and two binary32 numbers.
-/

import PcmConvert.Rate.Chunked
import PcmConvert.Rate.Nearest
import PcmConvert.Rate.Peaks
import PcmConvert.Rate.Polyphase
import PcmConvert.Rate.Sinc

namespace PcmConvert

/-- The methods of 16-bit integers. -/
inductive FixedPoint where
  | polyphase (p : Polyphase)
  | sinc (s : SincFixed)

instance : RateConverter FixedPoint Int16 where
  convert
    | .polyphase p, fs => let c := RateConverter.convert p fs; ⟨.polyphase c.next, c.frames, c.unconsumed⟩
    | .sinc s, fs => let c := RateConverter.convert s fs; ⟨.sinc c.next, c.frames, c.unconsumed⟩
  reset
    | .polyphase p => .polyphase (RateConverter.reset Int16 p)
    | .sinc s => .sinc (RateConverter.reset Int16 s)
  retune
    | .polyphase p, r => do return (← RateConverter.retune Int16 p r).map .polyphase
    | .sinc s, r => do return (← RateConverter.retune Int16 s r).map .sinc
  delay
    | .polyphase p => RateConverter.delay Int16 p
    | .sinc s => RateConverter.delay Int16 s
  passes _ := false

/-- `ν` holds the methods of the samples `S` alone. -/
inductive Converter (ν S : Type) where
  /-- Equal rates. -/
  | copy (rates : Rates)
  | nearest (n : Nearest)
  | peaks (p : Peaks S)
  | native (n : ν)

namespace Converter

variable {ν S : Type}

/-- Only for equal rates. -/
def createCopy (r : Rates) : Except Fault (Converter ν S) :=
  if r.input = r.output then .ok (.copy r) else .error (.unsupportedMethod .copy)

/-- The converter of a resolved method, `native` building those of the samples alone. -/
def create [Sample S] (native : Method → Except Fault ν) (m : Method) (channels : Nat) (r : Rates) :
    Except Fault (Converter ν S) :=
  match m with
  | .auto => .error (.unsupportedMethod .auto)
  | .copy => createCopy r
  | .trivial => .ok (.nearest (Nearest.create r))
  | .peaks => (Peaks.make channels r).map .peaks
  | m => (native m).map .native

instance [Sample S] [RateConverter ν S] : RateConverter (Converter ν S) S where
  convert
    | .copy r, fs => ⟨.copy r, fs, 0⟩
    | .nearest n, fs => let c := RateConverter.convert n fs; ⟨.nearest c.next, c.frames, c.unconsumed⟩
    | .peaks p, fs => let c := RateConverter.convert p fs; ⟨.peaks c.next, c.frames, c.unconsumed⟩
    | .native n, fs => let c := RateConverter.convert n fs; ⟨.native c.next, c.frames, c.unconsumed⟩
  reset
    | .copy r => .copy r
    | .nearest n => .nearest (RateConverter.reset S n)
    | .peaks p => .peaks (RateConverter.reset S p)
    | .native n => .native (RateConverter.reset S n)
  retune
    | .copy _, r => pure (createCopy r)
    | .nearest n, r => do return (← RateConverter.retune S n r).map .nearest
    | .peaks p, r => do return (← RateConverter.retune S p r).map .peaks
    | .native n, r => do return (← RateConverter.retune S n r).map .native
  delay
    | .native n => RateConverter.delay S n
    | _ => 0
  passes
    | .copy _ => true
    | _ => false

end Converter

/-- Converters of 16-bit integers. -/
abbrev FixedConverter := Converter FixedPoint Int16

/-- Converters of binary32 numbers. -/
abbrev FloatConverter := Converter Chunked Float32

/-- The two methods of 16-bit integers. -/
def FixedPoint.create (channels : Nat) (r : Rates) : Method → Except Fault FixedPoint
  | .polyphaseFixed => (Polyphase.create channels r.input r.output).map .polyphase
  | .sincFixed => .ok (.sinc (SincFixed.create channels r))
  | m => .error (.unsupportedMethod m)

def FixedConverter.create (m : Method) (channels : Nat) (r : Rates) : Except Fault FixedConverter :=
  Converter.create (FixedPoint.create channels r) m channels r

/-- The two methods of binary32 numbers. A build without them has none of its own here. -/
def Chunked.ofMethod (b : Build) (variableRate : Bool) (channels : Nat) (r : Rates) (m : Method) :
    Except Fault Chunked :=
  if !b.chunked then .error (.backendUnavailable m)
  else if m = .sinc ∨ m = .fft then .ok (Chunked.create m channels r variableRate)
  else .error (.unsupportedMethod m)

def FloatConverter.create (b : Build) (variableRate : Bool) (m : Method) (channels : Nat) (r : Rates) :
    Except Fault FloatConverter :=
  Converter.create (Chunked.ofMethod b variableRate channels r) m channels r

end PcmConvert
