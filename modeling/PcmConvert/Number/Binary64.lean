/-
  PcmConvert.Number.Binary64 — binary64 numbers to integers: down, up, without the
  fraction, to the nearest. Magnitudes stay below 2⁶³.
-/

namespace PcmConvert.Number

/-- `x` without its fraction, for `x` not negative. -/
def wholePart (x : Float) : Nat := x.toUInt64.toNat

/-- That number as a binary64 number. -/
def whole (x : Float) : Float := x.toUInt64.toFloat

/-- The least natural number not below `x`. -/
def ceilNat (x : Float) : Nat := if whole x < x then wholePart x + 1 else wholePart x

/-- The greatest integer not above `x`. -/
def floorInt (x : Float) : Int := if x < 0 then -(ceilNat (-x) : Int) else wholePart x

/-- The nearest integer, a half going away from zero. -/
def nearestInt (x : Float) : Int :=
  let a := x.abs
  let n := if 0.5 ≤ a - whole a then wholePart a + 1 else wholePart a
  if x < 0 then -(n : Int) else n

example : ceilNat 16.0 = 16 ∧ ceilNat 16.8 = 17 ∧ floorInt (-0.5) = -1 ∧ nearestInt (-2.5) = -3 := by decide +kernel

end PcmConvert.Number
