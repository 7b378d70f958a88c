/-
  PcmConvert.Number.Binary32 — binary32 numbers read exactly, and their conversions to and
  from integers. A conversion to an integer drops the fraction; a conversion from one goes
  to the nearest number.
-/

import PcmConvert.Number.Rounding

namespace PcmConvert.Number

/-- The exact value of a finite number: sign, eight bits of exponent, 23 of fraction. -/
def exact (x : Float32) : Rat :=
  let bits := x.toBits.toNat
  let exponent := (bits >>> 23) % 256
  let significand := if exponent = 0 then bits % 0x800000 else 0x800000 + bits % 0x800000
  let scaled : Nat := significand <<< (exponent - 1)
  let magnitude : Rat := mkRat scaled (1 <<< 149)
  if bits < 0x80000000 then magnitude else -magnitude

/-- `x` without its fraction; what is not a number gives zero. -/
def truncate (x : Float32) : Int :=
  if x < 0 then -(-x).toUInt64.toNat else x.toUInt64.toNat

/-- The number nearest to `n`, for a magnitude below 2⁶⁴. -/
def nearest (n : Int) : Float32 :=
  if n < 0 then -n.natAbs.toUInt64.toFloat32 else n.natAbs.toUInt64.toFloat32

/-- `x` held between minus one and one. -/
def clampUnit (x : Float32) : Float32 := if 1 < x then 1 else if x < -1 then -1 else x

example : exact 0.375 = 3 / 8 ∧ exact (-2) = -2 := by decide +kernel

end PcmConvert.Number
