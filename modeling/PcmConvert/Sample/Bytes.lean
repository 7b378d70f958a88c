/-
  PcmConvert.Sample.Bytes — numbers as bytes, lowest byte first, and a list cut into
  groups of equal length.
-/

import PcmConvert.Stream.Encoding

namespace PcmConvert.Bytes

/-- The number with the bytes `bs`, lowest first. -/
def toNat : List UInt8 → Nat
  | [] => 0
  | b :: r => b.toNat + 256 * toNat r

/-- The lowest `width` bytes of `n`, lowest first. -/
def ofNat : Nat → Nat → List UInt8
  | 0, _ => []
  | width + 1, n => UInt8.ofNat n :: ofNat width (n / 256)

/-- `bs` in the other order of bytes, or the same. -/
def inOrder (o : ByteOrder) (bs : List UInt8) : List UInt8 :=
  match o with
  | .little => bs
  | .big => bs.reverse

/-- The number that `n` stands for in two's complement of `bits` bits. -/
def signed (bits n : Nat) : Int := Int.bmod n (1 <<< bits)

/-- The lowest `bits` bits of `v` in two's complement. -/
def unsigned (bits : Nat) (v : Int) : Nat := (v % (1 <<< bits : Nat)).toNat

/-- `l` in groups of `n`, a rest that fills no group left out. -/
def groups {α : Type} (n : Nat) (l : List α) : List (List α) :=
  if 0 < n ∧ (l.take n).length = n then l.take n :: groups n (l.drop n) else []
  termination_by l.length
  decreasing_by simp only [List.length_take, List.length_drop] at *; omega

end PcmConvert.Bytes
