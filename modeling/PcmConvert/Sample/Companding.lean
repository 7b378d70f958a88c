/-
  PcmConvert.Sample.Companding — the two laws of G.711: sixteen bits in one byte, with a
  step that doubles from segment to segment. A byte holds sign, segment and four bits of
  the place within it; A-law flips every other bit, μ-law flips them all.
-/

namespace PcmConvert.Companding

/-- The first segment that reaches up to `m`, out of those that end at `ends`. -/
def segment (m : Nat) (ends : List Nat) : Nat := ends.findIdx (m ≤ ·)

/-! ## A-law -/

/-- Ends of the segments, in units of eight. -/
def aLawEnds : List Nat := [0x1F, 0x3F, 0x7F, 0xFF, 0x1FF, 0x3FF, 0x7FF, 0xFFF]

/-- Segment and place of a magnitude; the first two segments have equal steps. -/
def aLawCode (m : Nat) : Nat :=
  let s := segment m aLawEnds
  if 8 ≤ s then 0x7F else 16 * s + (m >>> max 1 s) % 16

def encodeALaw (x : Int16) : UInt8 :=
  let m := x.toInt / 8
  UInt8.ofNat (if 0 ≤ m then aLawCode m.toNat ^^^ 0xD5 else aLawCode (-m - 1).toNat ^^^ 0x55)

/-- The middle of the step that `a` names, its bits flipped back. -/
def aLawLevel (a : Nat) : Nat :=
  let s := a / 16 % 8
  let place := 16 * (a % 16)
  if s = 0 then place + 0x08 else (place + 0x108) <<< (s - 1)

def decodeALaw (b : UInt8) : Int16 :=
  let a := b.toNat ^^^ 0x55
  Int16.ofInt (if 128 ≤ a then aLawLevel a else -(aLawLevel a : Int))

/-! ## μ-law -/

/-- Ends of the segments, in units of four. -/
def muLawEnds : List Nat := [0x3F, 0x7F, 0xFF, 0x1FF, 0x3FF, 0x7FF, 0xFFF, 0x1FFF]

/-- Added to a magnitude before the segments, in units of one. -/
def muLawBias : Nat := 0x84

/-- The largest magnitude, in units of four. -/
def muLawClip : Nat := 8159

def muLawCode (m : Nat) : Nat :=
  let n := min m muLawClip + muLawBias / 4
  let s := segment n muLawEnds
  if 8 ≤ s then 0x7F else 16 * s + (n >>> (s + 1)) % 16

def encodeMuLaw (x : Int16) : UInt8 :=
  let m := x.toInt / 4
  UInt8.ofNat (if 0 ≤ m then muLawCode m.toNat ^^^ 0xFF else muLawCode (-m).toNat ^^^ 0x7F)

/-- The magnitude that `u` names, its bits flipped back. -/
def muLawLevel (u : Nat) : Nat := ((8 * (u % 16) + muLawBias) <<< (u / 16 % 8)) - muLawBias

def decodeMuLaw (b : UInt8) : Int16 :=
  let u := 255 - b.toNat
  Int16.ofInt (if 128 ≤ u then -(muLawLevel u : Int) else muLawLevel u)

end PcmConvert.Companding
