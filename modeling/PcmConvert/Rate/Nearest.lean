/-
  PcmConvert.Rate.Nearest — output frame `n` is input frame `⌊n · input / output⌋`. The two
  counters lose whole seconds, which the two rates share, and so stay below a second.
-/

import PcmConvert.Rate.Basic

namespace PcmConvert

structure Nearest where
  rates : Rates
  /-- Input frames taken. -/
  consumed : Nat
  /-- Output frames given. -/
  produced : Nat

namespace Nearest

def create (r : Rates) : Nearest := ⟨r, 0, 0⟩

/-- The frame among the ones at hand that output frame `o` is, `i` having gone before. -/
def index (r : Rates) (i o : Nat) : Nat := o * r.input / r.output - i

/-- `o * r.input / r.output - i` grows with `o`, so the frames at hand bound it. -/
theorem produced_lt {r : Rates} {i o n : Nat} (h : index r i o < n) : o < (i + n) * r.output := by
  have hi := r.input_pos
  have hd : o * r.input / r.output < i + n := by unfold index at h; omega
  have hm := (Nat.div_lt_iff_lt_mul r.output_pos).mp hd
  have : o * 1 ≤ o * r.input := Nat.mul_le_mul_left o hi
  omega

variable {S : Type}

/-- The output frames from number `o` on that `frames` give, and the number after them. -/
def emit (r : Rates) (i : Nat) (frames : Array (Frame S)) (o : Nat) : List (Frame S) × Nat :=
  if h : index r i o < frames.size then
    let rest := emit r i frames (o + 1)
    (frames[index r i o] :: rest.1, rest.2)
  else ([], o)
  termination_by (i + frames.size) * r.output - o
  decreasing_by have := produced_lt h; omega

/-- Both counters without the whole seconds of the first. -/
def normalize (s : Nearest) : Nearest :=
  { s with consumed := s.consumed % s.rates.input,
           produced := s.produced - s.consumed / s.rates.input * s.rates.output }

def convert (s : Nearest) (frames : List (Frame S)) : Converted Nearest S :=
  let e := emit s.rates s.consumed frames.toArray s.produced
  ⟨normalize { s with consumed := s.consumed + frames.length, produced := e.2 }, e.1, 0⟩

instance : RateConverter Nearest S where
  convert := convert
  reset s := create s.rates
  retune _ r := pure (.ok (create r))
  delay _ := 0
  passes _ := false

end Nearest

end PcmConvert
