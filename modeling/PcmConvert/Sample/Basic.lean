/-
  PcmConvert.Sample.Basic — the two working sample types: 16-bit integers and binary32
  numbers. Both are read from and written to bytes, 16-bit words, full scale 32-bit words
  and numbers of the unit range, and both mix the samples of a frame. To fewer bits a
  sample is cut off, to integers clamped; between wider types nothing is lost.
-/

import PcmConvert.Number.Binary32
import PcmConvert.Stream.Encoding

namespace PcmConvert

class Sample (S : Type) where
  precision : Precision
  silence : S
  ofU8 : UInt8 → S
  ofS16 : Int16 → S
  /-- From a 32-bit word, full scale at 2³¹. -/
  ofS32 : Int → S
  ofF32 : Float32 → S
  toU8 : S → UInt8
  toS16 : S → Int16
  toS32 : S → Int
  toF32 : S → Float32
  /-- The absolute value, as far as there is one. -/
  magnitude : S → S
  /-- Whether the first is the greater. -/
  exceeds : S → S → Bool
  /-- The sum of the samples of a frame, weighted by gains, which are also given in units
      of 2⁻¹⁶. -/
  mix : List S → List Float32 → List Int → S

/-- One sample for each channel. -/
abbrev Frame (S : Type) := List S

/-- `v` held within sixteen bits. -/
def clamp16 (v : Int) : Int16 := Int16.ofInt (max (-32768) (min 32767 v))

theorem toInt_clamp16 (v : Int) : (clamp16 v).toInt = max (-32768) (min 32767 v) :=
  Int16.toInt_ofInt_of_le (by omega) (by omega)

theorem clamp16_toInt (v : Int16) : clamp16 v.toInt = v := by
  have hle := v.le_toInt
  have hlt := v.toInt_lt
  apply Int16.toInt_inj.mp
  rw [toInt_clamp16]
  omega

/-- The sum of products. -/
def dot (xs ws : List Int) : Int := (List.zipWith (· * ·) xs ws).foldl (· + ·) 0

theorem dot_cons (x w : Int) (xs ws : List Int) : dot (x :: xs) (w :: ws) = x * w + dot xs ws := by
  rw [dot, List.zipWith_cons_cons, List.foldl_cons, Int.add_comm 0, List.foldl_assoc]
  rfl

instance : Sample Int16 where
  precision := .s16
  silence := 0
  ofU8 b := Int16.ofInt ((b.toNat - 128) * 256)
  ofS16 x := x
  ofS32 v := Int16.ofInt (v / 65536)
  ofF32 f := clamp16 (Number.truncate (Number.clampUnit f * 32768))
  toU8 x := UInt8.ofNat ((x.toInt + 32768) / 256).toNat
  toS16 x := x
  toS32 x := x.toInt * 65536
  toF32 x := Number.nearest x.toInt / 32768
  magnitude x := clamp16 x.toInt.natAbs
  exceeds x y := y < x
  mix frame _ q16 := clamp16 (dot (frame.map Int16.toInt) q16 / 65536)

instance : Sample Float32 where
  precision := .f32
  silence := 0
  ofU8 b := Number.nearest b.toNat / 128 - 1
  ofS16 x := Number.nearest x.toInt / 32768
  ofS32 v := Number.nearest v / 2147483648
  ofF32 f := f
  toU8 f := UInt8.ofNat (min 255 (Number.truncate ((Number.clampUnit f + 1) * 128)).toNat)
  toS16 f := clamp16 (Number.truncate (Number.clampUnit f * 32768))
  toS32 f := min 2147483647 (Number.truncate (Number.clampUnit f * 2147483648))
  toF32 f := f
  magnitude f := f.abs
  exceeds f g := g < f
  mix frame gains _ := (List.zipWith (· * ·) frame gains).foldl (· + ·) 0

end PcmConvert
