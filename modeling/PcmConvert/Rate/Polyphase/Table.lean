/-
  PcmConvert.Rate.Polyphase.Table — the rate pairs with filters. Each is a cascade of one
  or two filters; a filter raises the rate `up` times, smooths, and keeps every `down`-th
  frame, so the quotients of a cascade multiply to the quotient of its rates.
-/

import PcmConvert.Rate.Polyphase.Coefficients

namespace PcmConvert.Rate

structure Filter where
  up : Nat
  down : Nat
  /-- Frames that an output frame is computed from. -/
  taps : Nat
  /-- `up` rows of `taps` weights, in units of 2⁻¹⁵. -/
  phases : List (List Int)
  down_pos : 0 < down

namespace Filter

def double : Filter := ⟨2, 1, 24, Coefficients.double, by decide⟩
def halve : Filter := ⟨1, 2, 48, Coefficients.halve, by decide⟩
def triple : Filter := ⟨3, 1, 24, Coefficients.triple, by decide⟩
def third : Filter := ⟨1, 3, 72, Coefficients.third, by decide⟩
def up3down2 : Filter := ⟨3, 2, 36, Coefficients.up3down2, by decide⟩
def up2down3 : Filter := ⟨2, 3, 36, Coefficients.up2down3, by decide⟩
def up10down7 : Filter := ⟨10, 7, 24, Coefficients.up10down7, by decide⟩
def up16down21 : Filter := ⟨16, 21, 32, Coefficients.up16down21, by decide⟩
def up21down20 : Filter := ⟨21, 20, 24, Coefficients.up21down20, by decide⟩
def up7down8 : Filter := ⟨7, 8, 32, Coefficients.up7down8, by decide⟩

end Filter

/-- A pair of rates and the filters that lead from one to the other. -/
structure Cascade where
  input : Nat
  output : Nat
  filters : List Filter

namespace Cascade

def all : List Cascade :=
  [⟨8000, 16000, [.double]⟩, ⟨16000, 8000, [.halve]⟩, ⟨16000, 48000, [.triple]⟩, ⟨48000, 16000, [.third]⟩,
   ⟨8000, 48000, [.double, .triple]⟩, ⟨48000, 8000, [.third, .halve]⟩, ⟨24000, 48000, [.double]⟩,
   ⟨48000, 24000, [.halve]⟩, ⟨32000, 48000, [.up3down2]⟩, ⟨48000, 32000, [.up2down3]⟩,
   ⟨22050, 44100, [.double]⟩, ⟨44100, 22050, [.halve]⟩, ⟨44100, 48000, [.up10down7, .up16down21]⟩,
   ⟨48000, 44100, [.up21down20, .up7down8]⟩]

def find? (input output : Nat) : Option Cascade := all.find? fun c => c.input == input && c.output == output

end Cascade

end PcmConvert.Rate
