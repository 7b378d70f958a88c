/-
  PcmConvert.Method.Basic — the methods of rate conversion, and which of them a build
  holds. `auto` is only ever asked for, never run.
-/

namespace PcmConvert

inductive Method where
  /-- The best one there is. -/
  | auto
  /-- Equal rates: nothing to convert. -/
  | copy
  /-- Nearest neighbour. -/
  | trivial
  /-- The largest magnitude of each window, for level meters. -/
  | peaks
  /-- Fixed point filters, for a table of rate pairs. -/
  | polyphaseFixed
  /-- Fixed point interpolation with a windowed sinc. -/
  | sincFixed
  /-- Floating point interpolation, in chunks. -/
  | sinc
  /-- Floating point Fourier transform, in chunks. -/
  | fft
  deriving DecidableEq, Repr

/-- What a build of the library holds. -/
structure Build where
  /-- The two floating point methods. -/
  chunked : Bool
  deriving DecidableEq, Repr

namespace Method

def all : List Method := [auto, copy, trivial, peaks, polyphaseFixed, sincFixed, sinc, fft]

def name : Method → String
  | auto => "auto"
  | copy => "copy"
  | trivial => "trivial"
  | peaks => "peaks"
  | polyphaseFixed => "polyphase-fixed"
  | sincFixed => "sinc-fixed"
  | sinc => "sinc"
  | fft => "fft"

def ofName? (s : String) : Option Method := all.find? (·.name == s)

/-- The name with its words run together, each with a capital. -/
def label : Method → String
  | auto => "Auto"
  | copy => "Copy"
  | trivial => "Trivial"
  | peaks => "Peaks"
  | polyphaseFixed => "PolyphaseFixed"
  | sincFixed => "SincFixed"
  | sinc => "Sinc"
  | fft => "Fft"

def isAvailable (b : Build) : Method → Bool
  | sinc | fft => b.chunked
  | _ => true

/-- Whether the rates may change while it runs. -/
def supportsVariableRate : Method → Bool
  | copy | polyphaseFixed | fft => false
  | _ => true

end Method

instance : Inhabited Method := ⟨.auto⟩
instance : ToString Method := ⟨Method.name⟩

end PcmConvert
