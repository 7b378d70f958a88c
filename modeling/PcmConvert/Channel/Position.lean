/-
  PcmConvert.Channel.Position — where the loudspeaker of a channel stands. Mixing reads
  positions, not channel numbers: a position has at most one side (left, right, center,
  low frequency) and one placement (front, rear, side). The two pairs of surrounds, rear
  and side, are aliases of each other.
-/

import PcmConvert.Text.Blank
import PcmConvert.Text.Numeral

namespace PcmConvert

/-- A stream has at most this many channels. -/
def maxChannels : Nat := 32

inductive Placement where
  | front
  | rear
  | side
  | other
  deriving DecidableEq, Repr

inductive Position where
  | mono
  | frontLeft
  | frontRight
  | frontCenter
  | rearCenter
  | rearLeft
  | rearRight
  | lfe
  | frontLeftOfCenter
  | frontRightOfCenter
  | sideLeft
  | sideRight
  /-- A channel without a place, told apart by its number. -/
  | aux (n : Nat)
  | topCenter
  | topFrontLeft
  | topFrontRight
  | topFrontCenter
  | topRearLeft
  | topRearRight
  | topRearCenter
  deriving DecidableEq, Repr

namespace Position

/-- Every position with a name of its own, in their order. -/
def named : List Position :=
  [mono, frontLeft, frontRight, frontCenter, rearCenter, rearLeft, rearRight, lfe, frontLeftOfCenter,
   frontRightOfCenter, sideLeft, sideRight, topCenter, topFrontLeft, topFrontRight, topFrontCenter, topRearLeft,
   topRearRight, topRearCenter]

def isLeft : Position → Bool
  | frontLeft | rearLeft | frontLeftOfCenter | sideLeft | topFrontLeft | topRearLeft => true
  | _ => false

def isRight : Position → Bool
  | frontRight | rearRight | frontRightOfCenter | sideRight | topFrontRight | topRearRight => true
  | _ => false

def isCenter : Position → Bool
  | frontCenter | rearCenter | topCenter | topFrontCenter | topRearCenter => true
  | _ => false

def isLfe (p : Position) : Bool := p = lfe

/-- Left or right. -/
def isSided (p : Position) : Bool := p.isLeft || p.isRight

def placement : Position → Placement
  | frontLeft | frontRight | frontCenter | topFrontLeft | topFrontRight | topFrontCenter | frontLeftOfCenter
  | frontRightOfCenter => .front
  | rearLeft | rearRight | rearCenter | topRearLeft | topRearRight | topRearCenter => .rear
  | sideLeft | sideRight | topCenter => .side
  | mono | lfe | aux _ => .other

/-- A rear surround is the alias of the side surround on its side, and the other way. -/
def isAlias : Position → Position → Bool
  | rearLeft, sideLeft | sideLeft, rearLeft | rearRight, sideRight | sideRight, rearRight => true
  | _, _ => false

/-! ## Text -/

def name? : Position → Option String
  | mono => some "mono"
  | frontLeft => some "front-left"
  | frontRight => some "front-right"
  | frontCenter => some "front-center"
  | rearCenter => some "rear-center"
  | rearLeft => some "rear-left"
  | rearRight => some "rear-right"
  | lfe => some "lfe"
  | frontLeftOfCenter => some "front-left-of-center"
  | frontRightOfCenter => some "front-right-of-center"
  | sideLeft => some "side-left"
  | sideRight => some "side-right"
  | topCenter => some "top-center"
  | topFrontLeft => some "top-front-left"
  | topFrontRight => some "top-front-right"
  | topFrontCenter => some "top-front-center"
  | topRearLeft => some "top-rear-left"
  | topRearRight => some "top-rear-right"
  | topRearCenter => some "top-rear-center"
  | aux _ => none

/-- The name, or `aux` and the number. -/
def render : Position → String
  | aux n => "aux" ++ toString n
  | p => p.name?.getD ""

/-- What follows `aux` must be a byte below `maxChannels`; anything else must be a name. -/
def parse? : List Char → Option Position
  | 'a' :: 'u' :: 'x' :: r => ((Text.readByte r).filter (· < maxChannels)).map aux
  | s => named.find? fun p => p.name? == some (String.ofList s)

def ofName? (s : String) : Option Position := parse? s.toList

/-- The order of the positions: as declared, the auxiliary ones by number. -/
def order : Position → Nat × Nat
  | mono => (0, 0)
  | frontLeft => (1, 0)
  | frontRight => (2, 0)
  | frontCenter => (3, 0)
  | rearCenter => (4, 0)
  | rearLeft => (5, 0)
  | rearRight => (6, 0)
  | lfe => (7, 0)
  | frontLeftOfCenter => (8, 0)
  | frontRightOfCenter => (9, 0)
  | sideLeft => (10, 0)
  | sideRight => (11, 0)
  | aux n => (12, n)
  | topCenter => (13, 0)
  | topFrontLeft => (14, 0)
  | topFrontRight => (15, 0)
  | topFrontCenter => (16, 0)
  | topRearLeft => (17, 0)
  | topRearRight => (18, 0)
  | topRearCenter => (19, 0)

def le (p q : Position) : Bool :=
  p.order.1 < q.order.1 || (p.order.1 == q.order.1 && p.order.2 ≤ q.order.2)

/-- The name with its words run together, each with a capital. -/
def label : Position → String
  | mono => "Mono"
  | frontLeft => "FrontLeft"
  | frontRight => "FrontRight"
  | frontCenter => "FrontCenter"
  | rearCenter => "RearCenter"
  | rearLeft => "RearLeft"
  | rearRight => "RearRight"
  | lfe => "Lfe"
  | frontLeftOfCenter => "FrontLeftOfCenter"
  | frontRightOfCenter => "FrontRightOfCenter"
  | sideLeft => "SideLeft"
  | sideRight => "SideRight"
  | aux n => "Aux(" ++ toString n ++ ")"
  | topCenter => "TopCenter"
  | topFrontLeft => "TopFrontLeft"
  | topFrontRight => "TopFrontRight"
  | topFrontCenter => "TopFrontCenter"
  | topRearLeft => "TopRearLeft"
  | topRearRight => "TopRearRight"
  | topRearCenter => "TopRearCenter"

end Position

instance : ToString Position := ⟨Position.render⟩

end PcmConvert
