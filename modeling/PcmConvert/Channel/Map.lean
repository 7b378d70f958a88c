/-
  PcmConvert.Channel.Map — the positions of a stream's channels, in channel order: text,
  the usual layouts, the layout of a set of loudspeakers given by bits.
-/

import PcmConvert.Stream.Spec

namespace PcmConvert

abbrev ChannelMap := List Position

namespace ChannelMap

open Position

def mono : ChannelMap := [.mono]

def stereo : ChannelMap := [frontLeft, frontRight]

def hasLfe (m : ChannelMap) : Bool := m.any isLfe

/-- Whether a position is auxiliary with a number no stream has. -/
def isStray : Position → Bool
  | aux n => maxChannels ≤ n
  | _ => false

/-- The length is looked at first. -/
def validate (m : ChannelMap) (s : StreamSpec) : Except Fault Unit := do
  if m.length ≠ s.channels then throw (.invalidFormat .mapLength)
  if m.any isStray then throw (.invalidFormat .auxRange)

/-! ## Text -/

/-- The positions with commas between them. -/
def render (m : ChannelMap) : String := ",".intercalate (m.map Position.render)

/-- Every piece between commas must be a position, blanks around it aside. -/
def parse? (s : List Char) : Option ChannelMap :=
  (Text.pieces ',' s).mapM fun p => Position.parse? (Text.trim p)

def ofText? (s : String) : Option ChannelMap := parse? s.toList

/-! ## Usual layouts -/

/-- The layouts of one to eight channels. -/
def layout : Nat → ChannelMap
  | 1 => mono
  | 2 => stereo
  | 3 => [frontLeft, frontRight, frontCenter]
  | 4 => [frontLeft, frontRight, rearLeft, rearRight]
  | 5 => [frontLeft, frontRight, frontCenter, rearLeft, rearRight]
  | 6 => [frontLeft, frontRight, frontCenter, lfe, rearLeft, rearRight]
  | 7 => [frontLeft, frontRight, frontCenter, lfe, rearCenter, sideLeft, sideRight]
  | _ => [frontLeft, frontRight, frontCenter, lfe, rearLeft, rearRight, sideLeft, sideRight]

/-- The usual layout of `n` channels: beyond eight, auxiliary channels follow. -/
def default? (n : Nat) : Option ChannelMap :=
  if n = 0 ∨ maxChannels < n then none
  else some (layout n ++ (List.range (n - (layout n).length)).map aux)

/-! ## Loudspeakers -/

/-- The loudspeakers of bits 0 to 17. -/
def speakers : List Position :=
  [frontLeft, frontRight, frontCenter, lfe, rearLeft, rearRight, frontLeftOfCenter, frontRightOfCenter, rearCenter,
   sideLeft, sideRight, topCenter, topFrontLeft, topFrontCenter, topFrontRight, topRearLeft, topRearCenter,
   topRearRight]

/-- Bits that stand for a loudspeaker. -/
def speakerBits : Nat := 26

/-- Positions for the loudspeakers `bits`, the ones without a position being numbered
    from `next`. -/
def place (next : Nat) : List Nat → ChannelMap
  | [] => []
  | b :: r => match speakers[b]? with
    | some p => p :: place next r
    | none => aux next :: place (next + 1) r

/-- The channels of a set of loudspeakers, lowest bit first. A front left alone is mono. -/
def ofSpeakers (mask : Nat) : ChannelMap :=
  match ((List.range speakerBits).filter mask.testBit).take maxChannels with
  | [0] => mono
  | bits => place 0 bits

end ChannelMap

end PcmConvert
