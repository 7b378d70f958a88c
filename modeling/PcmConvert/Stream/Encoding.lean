/-
  PcmConvert.Stream.Encoding — how one sample of a stream is written in bytes. Thirteen
  encodings: three of a single byte, five of several bytes in either byte order.
-/

namespace PcmConvert

inductive ByteOrder where
  | little
  | big
  deriving DecidableEq, Repr

inductive Encoding where
  /-- Unsigned, eight bits. -/
  | u8
  /-- G.711 A-law. -/
  | aLaw
  /-- G.711 μ-law. -/
  | muLaw
  | s16 (order : ByteOrder)
  /-- Binary32, full scale at one. -/
  | f32 (order : ByteOrder)
  | s32 (order : ByteOrder)
  /-- 24 bits in three bytes. -/
  | s24 (order : ByteOrder)
  /-- 24 bits in the low end of four bytes. -/
  | s24in32 (order : ByteOrder)
  deriving DecidableEq, Repr

namespace Encoding

open ByteOrder

def all : List Encoding :=
  [u8, aLaw, muLaw, s16 little, s16 big, f32 little, f32 big, s32 little, s32 big, s24 little, s24 big,
   s24in32 little, s24in32 big]

/-- Bytes of a sample. -/
def size : Encoding → Nat
  | u8 | aLaw | muLaw => 1
  | s16 _ => 2
  | s24 _ => 3
  | f32 _ | s32 _ | s24in32 _ => 4

def isS16 : Encoding → Bool
  | s16 _ => true
  | _ => false

/-- Whether 16 bits cannot hold every sample. -/
def isFinerThanS16 : Encoding → Bool
  | f32 _ | s32 _ | s24 _ | s24in32 _ => true
  | _ => false

/-- Single bytes count as little endian. -/
def isLittle : Encoding → Bool
  | s16 o | f32 o | s32 o | s24 o | s24in32 o => o = little
  | _ => true

def name : Encoding → String
  | u8 => "u8"
  | aLaw => "alaw"
  | muLaw => "ulaw"
  | s16 little => "s16le"
  | s16 big => "s16be"
  | f32 little => "float32le"
  | f32 big => "float32be"
  | s32 little => "s32le"
  | s32 big => "s32be"
  | s24 little => "s24le"
  | s24 big => "s24be"
  | s24in32 little => "s24-32le"
  | s24in32 big => "s24-32be"

/-- The name an encoding has in a document. -/
def tag : Encoding → String
  | u8 => "U8"
  | aLaw => "Alaw"
  | muLaw => "Ulaw"
  | s16 little => "S16Le"
  | s16 big => "S16Be"
  | f32 little => "F32Le"
  | f32 big => "F32Be"
  | s32 little => "S32Le"
  | s32 big => "S32Be"
  | s24 little => "S24Le"
  | s24 big => "S24Be"
  | s24in32 little => "S24_32Le"
  | s24in32 big => "S24_32Be"

def ofName? (s : String) : Option Encoding := all.find? (·.name == s)

theorem size_pos (e : Encoding) : 0 < e.size := by cases e <;> simp [size]

end Encoding

instance : ToString Encoding := ⟨Encoding.name⟩

/-! ## The working sample type -/

/-- What the samples are between decoding and encoding. -/
inductive Precision where
  | s16
  | f32
  deriving DecidableEq, Repr

namespace Precision

def all : List Precision := [s16, f32]

/-- The encoding whose bytes are the working samples as they stand in memory: the
    machine is little endian. -/
def encoding : Precision → Encoding
  | s16 => .s16 .little
  | f32 => .f32 .little

def size (p : Precision) : Nat := p.encoding.size

def name : Precision → String
  | s16 => "s16"
  | f32 => "f32"

/-- The name in a document and in the log. -/
def tag : Precision → String
  | s16 => "S16"
  | f32 => "F32"

end Precision

instance : ToString Precision := ⟨Precision.name⟩

end PcmConvert
