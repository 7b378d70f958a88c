/-
  PcmConvert.Proofs.Rate.Counters — two counters, frames in and frames out, that lose whole
  seconds. A second is taken off both at a time (`Shed`), and the second counter has one
  whenever the first has (`shed_seconds`). With less than a second counted before a call,
  and calls of less than 2³² frames, the products of a counter and a rate fit into a 64-bit
  word (`mul_input_lt`).
-/

import Mathlib.Algebra.Group.Nat.Defs
import PcmConvert.Number.Rounding
import PcmConvert.Rate.Basic
import PcmConvert.Stream.Spec

namespace PcmConvert.Rates

open Number

/-- Seconds taken off both counters while the first has one; the other has it, too. -/
inductive Shed (r : Rates) : Nat → Nat → Nat → Nat → Prop
  | done {i o : Nat} : i < r.input → Shed r i o i o
  | second {i o i' o' : Nat} : r.input ≤ i → r.output ≤ o → Shed r (i - r.input) (o - r.output) i' o' →
      Shed r i o i' o'

/-- What is left are the frames of a second that is not over. -/
theorem shed_seconds (r : Rates) {i o : Nat} (h : i / r.input * r.output ≤ o) :
    Shed r i o (i % r.input) (o - i / r.input * r.output) := by
  have hpos := r.input_pos
  -- on the number of whole seconds
  induction hq : i / r.input generalizing i o with
  | zero =>
    have hlt : i < r.input := (Nat.div_eq_zero_iff_lt hpos).mp hq
    rw [Nat.mod_eq_of_lt hlt, Nat.zero_mul, Nat.sub_zero]
    exact .done hlt
  | succ q ih =>
    rw [hq, Nat.add_mul, Nat.one_mul] at h
    have hle : r.input ≤ i := by
      rcases Nat.lt_or_ge i r.input with hlt | hge
      · rw [Nat.div_eq_of_lt hlt] at hq
        cases hq
      · exact hge
    have hq' : (i - r.input) / r.input = q := by
      rw [Nat.div_eq_sub_div hpos hle] at hq
      omega
    have hrest := ih (i := i - r.input) (o := o - r.output) (by rw [hq']; omega) hq'
    rw [← Nat.mod_eq_sub_mod hle, show o - r.output - q * r.output = o - (q + 1) * r.output by
      rw [Nat.add_mul, Nat.one_mul]; omega] at hrest
    exact .second hle (by omega) hrest

variable {r : Rates}

/-- After a call of `m` frames, a number of seconds and what is left of the counter are all
    the frames again. -/
theorem seconds_add {i q m total : Nat} (hq : i + q * r.input = total) :
    (i + m) % r.input + (q + (i + m) / r.input) * r.input = total + m := by
  have hdm := Nat.mod_add_div' (i + m) r.input
  rw [Nat.add_mul]
  omega

/-- Frames of a call, times a rate. -/
theorem mul_output_lt (ho : r.output ≤ maxRate) {m : Nat} (hm : m < 2 ^ 32) : m * r.output < 2 ^ 32 * maxRate :=
  calc m * r.output ≤ m * maxRate := Nat.mul_le_mul_left m ho
    _ < 2 ^ 32 * maxRate := Nat.mul_lt_mul_of_pos_right hm (by decide)

/-- The number of a frame out that a call of `m` frames asks for, times a rate. -/
theorem mul_input_lt (hi : r.input ≤ maxRate) (ho : r.output ≤ maxRate) {i m o : Nat} (hlt : i < r.input)
    (hm : m < 2 ^ 32) (h : o ≤ ceilDiv ((i + m + 1) * r.output) r.input) : o * r.input < 2 ^ 64 := by
  have hround := ceilDiv_mul_lt ((i + m + 1) * r.output) r.input_pos
  have hcount : o * r.input ≤ ceilDiv ((i + m + 1) * r.output) r.input * r.input := Nat.mul_le_mul_right _ h
  have hsum : (i + m + 1) * r.output ≤ (maxRate + 2 ^ 32) * maxRate := Nat.mul_le_mul (by omega) ho
  have hword : (maxRate + 2 ^ 32) * maxRate + maxRate < 2 ^ 64 := by decide
  omega

end PcmConvert.Rates
