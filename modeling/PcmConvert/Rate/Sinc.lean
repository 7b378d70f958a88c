/-
  PcmConvert.Rate.Sinc — conversion between any two rates by band limited interpolation.
  The clock of the output is a position in the input, counted exactly: frames kept from
  earlier calls, and a fraction of a frame over the output rate. An output frame is the
  weighted sum of the `half` frames up to its position and the `half` after it.

  The weights are worked out anew for each output frame (`Kernel.taps`). No room for them is
  kept in the state: all of it would be overwritten before any of it is read, so a frame
  depends on the history, the clock and the rates alone. That there are `2 * half` of them
  is a fact about these lists.
-/

import PcmConvert.Rate.Sinc.Kernel

namespace PcmConvert

open Rate

structure SincFixed where
  channels : Nat
  rates : Rates
  /-- Input frames that an output frame can still reach. -/
  history : List (Frame Int16)
  /-- The frame of the history that the next output frame comes after. -/
  position : Nat
  /-- How far after it, over the output rate. -/
  fraction : Nat

namespace SincFixed

/-- Frames on either side of a position that are weighed. -/
def half (s : SincFixed) : Nat := Kernel.half s.rates

/-- The first input frame comes right after half a kernel of silence. -/
def create (channels : Nat) (r : Rates) : SincFixed :=
  ⟨channels, r, List.replicate (Kernel.half r) (silentFrame channels), Kernel.half r, 0⟩

/-- The position and the fraction of the next output frame. -/
def advance (r : Rates) (position fraction : Nat) : Nat × Nat :=
  let p := position + r.input / r.output
  let f := fraction + r.input % r.output
  if r.output ≤ f then (p + 1, f - r.output) else (p, f)

/-- The clock moves on: the position grows, or it stays and the fraction grows below the
    output rate. -/
theorem advance_lt (r : Rates) (p f : Nat) :
    p < (advance r p f).1 ∨ ((advance r p f).1 = p ∧ f < (advance r p f).2 ∧ (advance r p f).2 < r.output) := by
  have hi := r.input_pos
  have hdm := Nat.div_add_mod r.input r.output
  unfold advance
  by_cases hz : r.input / r.output = 0
  · rw [hz] at hdm
    simp only [hz, Nat.mul_zero] at hdm ⊢
    split
    · left; simp
    · right; simp; omega
  · have hq := Nat.pos_of_ne_zero hz
    generalize r.input / r.output = q at hq
    left
    dsimp only
    split <;> dsimp only <;> omega

structure Emitted where
  frames : List (Frame Int16)
  position : Nat
  fraction : Nat

/-- The frames that a position is weighed from. -/
def window (half : Nat) (history : Array (Frame Int16)) (position : Nat) : List (Frame Int16) :=
  let first := position + 1 - half
  (history.extract first (first + 2 * half)).toList

/-- The output frames whose windows lie within `history`. -/
def emit (channels : Nat) (r : Rates) (history : Array (Frame Int16)) (position fraction : Nat) : Emitted :=
  if position + Kernel.half r < history.size then
    let y := weigh channels (Kernel.taps r fraction) (window (Kernel.half r) history position)
    let rest := emit channels r history (advance r position fraction).1 (advance r position fraction).2
    { rest with frames := y :: rest.frames }
  else ⟨[], position, fraction⟩
  termination_by (history.size - position, r.output - fraction)
  decreasing_by
    rcases advance_lt r position fraction with h | ⟨h, hf, hl⟩
    · exact Prod.Lex.left _ _ (by omega)
    · rw [h]; exact Prod.Lex.right _ (by omega)

def convert (s : SincFixed) (frames : List (Frame Int16)) : Converted SincFixed Int16 :=
  let history := s.history ++ frames
  let e := emit s.channels s.rates history.toArray s.position s.fraction
  let drop := min (e.position + 1 - s.half) history.length
  ⟨{ s with history := history.drop drop, position := e.position - drop, fraction := e.fraction }, e.frames, 0⟩

/-- The clock stays where it is, its fraction over the new output rate; silence is put in
    front where the new kernel reaches further back than the history. -/
def retune (s : SincFixed) (r : Rates) : SincFixed :=
  let pad := Kernel.half r - (s.position + 1)
  { s with
    rates := r
    history := List.replicate pad (silentFrame s.channels) ++ s.history
    position := s.position + pad
    fraction := s.fraction * r.output / s.rates.output }

instance : RateConverter SincFixed Int16 where
  convert := convert
  reset s := create s.channels s.rates
  retune s r := pure (.ok (retune s r))
  delay := half
  passes _ := false

end SincFixed

end PcmConvert
