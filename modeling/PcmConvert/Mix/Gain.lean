/-
  PcmConvert.Mix.Gain — the arithmetic that gains are computed in. A stream is mixed with
  binary32 gains; the same rules over the rationals say what the gains stand for.
-/

import PcmConvert.Number.Binary32

namespace PcmConvert

class Gain (α : Type) extends Zero α, One α, Add α, Div α, LT α, BEq α where
  ofNat : Nat → α
  decidableLT : DecidableLT α

namespace Gain

variable {α : Type} [Gain α]

instance : DecidableLT α := Gain.decidableLT

/-- The quotient of two counts. -/
def ratio (n d : Nat) : α := ofNat n / ofNat d

/-- One part of `n`. -/
def share (n : Nat) : α := 1 / ofNat n

def total (row : List α) : α := row.foldl (· + ·) 0

end Gain

instance : Gain Float32 where
  ofNat := Float32.ofNat
  decidableLT := inferInstance

instance : Gain Rat where
  zero := 0
  one := 1
  ofNat n := n
  decidableLT := inferInstance

end PcmConvert
