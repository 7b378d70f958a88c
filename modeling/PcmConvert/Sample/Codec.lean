/-
  PcmConvert.Sample.Codec — bytes of an encoding to working samples and back. A 24-bit
  sample is the upper end of a 32-bit word; writing rounds to it, and the highest value
  stays within 24 bits.

  A binary32 sample is read as a number, and all bit patterns that stand for no number are
  read as the same one, which is written as `7fc00000`: their signs and payloads are not
  kept, not even where a sample is only moved.
-/

import PcmConvert.Sample.Basic
import PcmConvert.Sample.Bytes
import PcmConvert.Sample.Companding

namespace PcmConvert

namespace Codec

variable {S : Type} [Sample S]

/-- The number that the bytes of one sample stand for. -/
def word (o : ByteOrder) (bs : List UInt8) : Nat := Bytes.toNat (Bytes.inOrder o bs)

/-- The lowest `8 * width` bits of `v`. -/
def bytes (o : ByteOrder) (width : Nat) (v : Int) : List UInt8 :=
  Bytes.inOrder o (Bytes.ofNat width (Bytes.unsigned (8 * width) v))

/-- A full scale word in 24 bits, to the nearest. -/
def to24 (v : Int) : Int := min ((v + 128) / 256) 0x7FFFFF

/-- One sample from its bytes. -/
def decodeSample (e : Encoding) (bs : List UInt8) : S :=
  match e with
  | .u8 => Sample.ofU8 (bs.headD 0)
  | .aLaw => Sample.ofS16 (Companding.decodeALaw (bs.headD 0))
  | .muLaw => Sample.ofS16 (Companding.decodeMuLaw (bs.headD 0))
  | .s16 o => Sample.ofS16 (Int16.ofInt (Bytes.signed 16 (word o bs)))
  | .f32 o => Sample.ofF32 (Float32.ofBits (UInt32.ofNat (word o bs)))
  | .s32 o => Sample.ofS32 (Bytes.signed 32 (word o bs))
  | .s24 o | .s24in32 o => Sample.ofS32 (Bytes.signed 24 (word o bs) * 256)

/-- One sample as bytes. -/
def encodeSample (e : Encoding) (s : S) : List UInt8 :=
  match e with
  | .u8 => [Sample.toU8 s]
  | .aLaw => [Companding.encodeALaw (Sample.toS16 s)]
  | .muLaw => [Companding.encodeMuLaw (Sample.toS16 s)]
  | .s16 o => bytes o 2 (Sample.toS16 s).toInt
  | .f32 o => bytes o 4 (Sample.toF32 s).toBits.toNat
  | .s32 o => bytes o 4 (Sample.toS32 s)
  | .s24 o => bytes o 3 (to24 (Sample.toS32 s))
  | .s24in32 o => bytes o 4 (to24 (Sample.toS32 s))

def decode (e : Encoding) (bs : List UInt8) : List S := (Bytes.groups e.size bs).map (decodeSample e)

def encode (e : Encoding) (samples : List S) : List UInt8 := samples.flatMap (encodeSample e)

/-- Frames of `channels` samples from their bytes. -/
def decodeFrames (e : Encoding) (channels : Nat) (bs : List UInt8) : List (Frame S) :=
  Bytes.groups channels (decode e bs)

def encodeFrames (e : Encoding) (frames : List (Frame S)) : List UInt8 := encode e frames.flatten

/-- Whether the bytes of `e` are working samples as they stand. -/
def isNative (S : Type) [Sample S] (e : Encoding) : Bool := e == (Sample.precision S).encoding

end Codec

end PcmConvert
