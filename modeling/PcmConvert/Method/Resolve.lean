/-
  PcmConvert.Method.Resolve — from the method asked for to the method that runs. Where
  substitution is allowed the request only narrows the choice, and every step away from
  it leaves a note; where it is not, the first step is the fault instead. Equal rates that
  stay equal need no conversion, whatever was asked for.
-/

import PcmConvert.Fault
import PcmConvert.Log
import PcmConvert.Rate.Polyphase.Table
import PcmConvert.Stream.Encoding

namespace PcmConvert

namespace Method

def supportsRates (m : Method) (input output : Nat) : Bool :=
  match m with
  | copy => input == output
  | peaks => output ≤ input
  | polyphaseFixed => (Rate.Cascade.find? input output).isSome
  | _ => true

/-- What a method must do. -/
structure Demand where
  input : Nat
  output : Nat
  variableRate : Bool
  deriving DecidableEq, Repr

namespace Demand

/-- The rates are equal and stay so. -/
def isIdle (d : Demand) : Bool := d.input == d.output && !d.variableRate

end Demand

def isCapable (m : Method) (d : Demand) : Bool :=
  m.supportsRates d.input d.output && (!d.variableRate || m.supportsVariableRate)

/-- A step away from what was asked for. -/
inductive Note where
  /-- The rates are not in the method's table. -/
  | offTable (m : Method) (d : Demand)
  | equalRates (m : Method)
  | unavailable (m : Method)
  | incapable (m : Method) (d : Demand)
  | picked (m : Method)
  deriving DecidableEq, Repr

def rateArrow (d : Demand) : String := toString d.input ++ " -> " ++ toString d.output

def Note.line : Note → Log.Line
  | .offTable m d =>
    ⟨.info, "resolve - " ++ m.name ++ " does not support " ++ rateArrow d ++ ", falling back to " ++ sincFixed.name⟩
  | .equalRates m => ⟨.info, "resolve - equal rates, " ++ m.name ++ " -> " ++ copy.name⟩
  | .unavailable m => ⟨.warn, "resolve - " ++ m.name ++ " is not available, falling back to " ++ auto.name⟩
  | .incapable m d =>
    ⟨.warn, "resolve - " ++ m.name ++ " cannot do " ++ rateArrow d ++ " (variable: " ++ toString d.variableRate ++
      "), falling back to " ++ auto.name⟩
  | .picked m => ⟨.info, "resolve - " ++ auto.name ++ " -> " ++ m.name⟩

structure Choice where
  method : Method
  notes : List Note
  deriving DecidableEq, Repr

/-- The best method of a build: it supports any rates, and changing ones if need be. -/
def best (b : Build) (variableRate : Bool) : Method :=
  if sinc.isAvailable b then sinc
  else if variableRate then trivial
  else if fft.isAvailable b then fft
  else sincFixed

/-- `c` if `keep`; else the fault, or, where `fallback` is allowed, `m` with a note. -/
def Choice.elseUse (c : Choice) (keep fallback : Bool) (fault : Fault) (m : Method) (note : Note) :
    Except Fault Choice :=
  if keep then .ok c
  else if fallback then .ok ⟨m, c.notes ++ [note]⟩
  else .error fault

/-- The rate table, the build and the capabilities are looked at in this order. -/
def resolve (b : Build) (m : Method) (d : Demand) (fallback : Bool) : Except Fault Choice := do
  let c ← Choice.elseUse ⟨m, []⟩ (m ≠ polyphaseFixed || d.isIdle || m.supportsRates d.input d.output) fallback
    (.rateUnsupported m d.input d.output) sincFixed (.offTable m d)
  if d.isIdle then
    return ⟨copy, if c.method = copy then c.notes else c.notes ++ [.equalRates c.method]⟩
  let c ← c.elseUse (c.method.isAvailable b) fallback (.backendUnavailable c.method) auto (.unavailable c.method)
  let c ← c.elseUse (c.method.isCapable d) fallback (.unsupportedMethod c.method) auto (.incapable c.method d)
  if c.method = auto then
    let m := best b d.variableRate
    return ⟨m, c.notes ++ [.picked m]⟩
  return c

/-- The working samples of a method: its own if it has one kind only, else 16 bits if a
    side has them or no side is finer. -/
def precision (m : Method) (input output : Encoding) : Precision :=
  match m with
  | polyphaseFixed | sincFixed => .s16
  | sinc | fft => .f32
  | auto | copy | trivial | peaks =>
    if input.isS16 || output.isS16 then .s16
    else if input.isFinerThanS16 || output.isFinerThanS16 then .f32
    else .s16

end Method

end PcmConvert
