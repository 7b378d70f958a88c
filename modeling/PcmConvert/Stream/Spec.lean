/-
  PcmConvert.Stream.Spec — one side of a conversion: encoding, frames per second, samples
  per frame.
-/

import PcmConvert.Stream.Encoding
import PcmConvert.Channel.Position
import PcmConvert.Fault

namespace PcmConvert

/-- Frames per second, at most. -/
def maxRate : Nat := 768000

def checkRate (rate : Nat) : Except Fault Unit :=
  if rate = 0 then .error (.invalidFormat .zeroRate)
  else if maxRate < rate then .error (.invalidFormat .rateTooHigh)
  else .ok ()

theorem pos_of_checkRate {rate : Nat} (h : checkRate rate = .ok ()) : 0 < rate := by
  unfold checkRate at h
  split at h
  · cases h
  · omega

structure StreamSpec where
  encoding : Encoding
  rate : Nat
  channels : Nat
  deriving DecidableEq, Repr

namespace StreamSpec

/-- Bytes of a frame. -/
def frameSize (s : StreamSpec) : Nat := s.encoding.size * s.channels

/-- The rate is looked at first. -/
def validate (s : StreamSpec) : Except Fault Unit := do
  checkRate s.rate
  if s.channels = 0 then throw (.invalidFormat .noChannels)
  if maxChannels < s.channels then throw (.invalidFormat .tooManyChannels)

theorem rate_pos_of_validate {s : StreamSpec} (h : s.validate = .ok ()) : 0 < s.rate := by
  unfold validate at h
  cases hr : checkRate s.rate with
  | ok => exact pos_of_checkRate hr
  | error f => rw [hr] at h; cases h

def render (s : StreamSpec) : String :=
  s.encoding.name ++ " " ++ toString s.channels ++ "ch " ++ toString s.rate ++ "Hz"

end StreamSpec

instance : ToString StreamSpec := ⟨StreamSpec.render⟩

end PcmConvert
