/-
  PcmConvert.Proofs.Rate.Sinc.Retuned — a change of rates in the middle of a stream. The frames
  that are kept stay, in their order, and silence is put in front of them only as far as the
  wider kernel reaches; so every frame lies as far from the clock as it did before
  (`around_retune`), and so does the next frame in, also where the clock is past the last
  frame that is kept.

  The clock itself is put on the grid of the new output rate. It goes to the point of the
  grid at or before it, so it never moves forward, and back by less than a step of the grid
  (`fraction_retune`).
-/

import Mathlib.Algebra.Order.Field.Rat
import Mathlib.Data.List.GetD
import Mathlib.Tactic.Linarith
import PcmConvert.Proofs.Rate.Sinc.Windows
import PcmConvert.Stream.Spec

namespace PcmConvert.SincFixed

open Rate

variable {n : Nat} {s : SincFixed}

/-! ## Around the clock -/

/-- The frame `i` steps after the clock's position, with `fs` to come; silence before all frames that are kept. -/
def around (s : SincFixed) (fs : List (Frame Int16)) (i : Int) : Frame Int16 :=
  if s.position + i < 0 then silentFrame s.channels else (s.history ++ fs).getD (s.position + i).toNat []

/-- How far the clock is past the next frame in, in input frames. -/
def lead (s : SincFixed) : Rat := s.position + s.fraction / s.rates.output - s.history.length

theorem around_retune (s : SincFixed) (r : Rates) (fs : List (Frame Int16)) (i : Int) :
    around (retune s r) fs i = around s fs i := by
  unfold around retune
  generalize Kernel.half r - (s.position + 1) = pad
  dsimp only
  rw [List.append_assoc]
  by_cases hs : (s.position : Int) + i < 0
  · rw [if_pos hs]
    split_ifs with ht
    · rfl
    · rw [List.getD_append _ _ _ _ (by rw [List.length_replicate]; omega), List.getD_replicate _ (by omega)]
  · rw [if_neg hs, if_neg (by omega), List.getD_append_right _ _ _ _ (by rw [List.length_replicate]; omega),
      List.length_replicate]
    congr 1
    omega

/-- With the silence in front, the clock is as far from the end of what is kept as before. -/
theorem position_retune (s : SincFixed) (r : Rates) :
    (retune s r).position + s.history.length = s.position + (retune s r).history.length := by
  simp only [retune, List.length_append, List.length_replicate]
  omega

/-! ## The grid of the output rate -/

/-- The fraction is rounded down: it is not more than it was, and less than a step of the grid less. -/
theorem fraction_retune (s : SincFixed) (r : Rates) :
    ((retune s r).fraction : Rat) / r.output ≤ s.fraction / s.rates.output ∧
      (s.fraction : Rat) / s.rates.output < (retune s r).fraction / r.output + 1 / r.output := by
  have hold : (0 : Rat) < s.rates.output := Nat.cast_pos.mpr s.rates.output_pos
  have hnew : (0 : Rat) < r.output := Nat.cast_pos.mpr r.output_pos
  have hfraction : (retune s r).fraction = s.fraction * r.output / s.rates.output := rfl
  have hle : (retune s r).fraction * s.rates.output ≤ s.fraction * r.output := Nat.div_mul_le_self _ _
  have hlt : s.fraction * r.output < ((retune s r).fraction + 1) * s.rates.output := by
    rw [hfraction, Nat.mul_comm (_ + 1)]
    exact Nat.lt_mul_div_succ _ s.rates.output_pos
  constructor
  · rw [div_le_div_iff₀ hnew hold]
    exact_mod_cast hle
  · rw [← add_div, div_lt_div_iff₀ hold hnew]
    exact_mod_cast hlt

/-- The clock never moves forward against the stream, and back by less than a step of the grid. -/
theorem lead_retune (s : SincFixed) (r : Rates) :
    (retune s r).lead ≤ s.lead ∧ s.lead < (retune s r).lead + 1 / r.output := by
  obtain ⟨hle, hlt⟩ := fraction_retune s r
  have hposition : ((retune s r).position : Rat) + s.history.length = s.position + (retune s r).history.length := by
    exact_mod_cast position_retune s r
  have hrates : (retune s r).rates = r := rfl
  unfold lead
  rw [hrates]
  constructor
  · linarith
  · linarith

/-! ## In any state -/

/-- Rates are never refused. What is kept is kept, behind as many frames of silence as the new
    kernel reaches back further than the frames before the clock, so no frame moves against the
    clock, nor does the next frame in. The clock is put on the grid of the new output rate: as a
    fraction of a frame rounded down, which moves it back by less than a step. And the next window
    begins within what is kept. -/
theorem retune_continues (h : Reached n s) (r : Rates) :
    let t := retune s r
    let pad := Kernel.half r - (s.position + 1)
    ((RateConverter.retune Int16 s r).value = .ok t ∧ t.rates = r ∧ t.half = Kernel.half r) ∧
      (t.history = List.replicate pad (List.replicate n 0) ++ s.history ∧ t.position = s.position + pad) ∧
      ((t.history.length : Int) - t.position = s.history.length - s.position ∧
        ∀ fs i, around t fs i = around s fs i) ∧
      (t.fraction = s.fraction * r.output / s.rates.output ∧ t.fraction < r.output ∧
        (s.rates.output ≤ maxRate → r.output ≤ maxRate → s.fraction * r.output < 2 ^ 64)) ∧
      ((t.fraction : Rat) / r.output ≤ s.fraction / s.rates.output ∧
        (s.fraction : Rat) / s.rates.output < t.fraction / r.output + 1 / r.output) ∧
      (t.lead ≤ s.lead ∧ s.lead < t.lead + 1 / r.output) ∧
      t.half ≤ t.position + 1 := by
  intro t pad
  have hs := sound_of_reached h
  have ht : Sound n t := sound_retune hs r
  refine ⟨⟨rfl, rfl, rfl⟩, ⟨?_, rfl⟩, ⟨?_, around_retune s r⟩, ⟨rfl, ht.fraction_lt, ?_⟩, fraction_retune s r,
    lead_retune s r, ht.half_le⟩
  · show List.replicate pad (List.replicate s.channels 0) ++ s.history = _
    rw [hs.channels]
  · have hposition := position_retune s r
    show (((retune s r).history.length : Nat) : Int) - ((retune s r).position : Nat) = _
    omega
  · intro hold hnew
    have hword : maxRate * maxRate < 2 ^ 64 := by decide
    have hfraction := hs.fraction_lt
    exact Nat.lt_of_le_of_lt (Nat.mul_le_mul (by omega) hnew) hword

/-- Two frames through a narrow kernel, then a wide one, which reaches back further than what is kept. -/
theorem retune_continues_wider :
    let narrow : Rates := ⟨8000, 48000, by decide, by decide⟩
    let wide : Rates := ⟨48000, 8000, by decide, by decide⟩
    let s := (convert (create 1 narrow) [[3], [-5]]).next
    let t := retune s wide
    Reached 1 s ∧ t.history = List.replicate (Kernel.half wide - (s.position + 1)) [0] ++ s.history ∧
      (t.history.length : Int) - t.position = s.history.length - s.position ∧
      t.fraction = s.fraction * 8000 / 48000 ∧ t.lead ≤ s.lead ∧ s.lead < t.lead + 1 / (8000 : Nat) ∧
      Kernel.half wide ≤ t.position + 1 := by
  intro narrow wide s t
  have hf : Uniform 1 [[(3 : Int16)], [-5]] := Uniform.cons rfl (Uniform.cons rfl Uniform.nil)
  have hs : Reached 1 s := .convert (.made (r := narrow) rfl) hf
  obtain ⟨-, ⟨hhistory, -⟩, ⟨hposition, -⟩, ⟨hfraction, -⟩, -, ⟨hle, hlt⟩, hhalf⟩ := retune_continues hs wide
  exact ⟨hs, hhistory, hposition, hfraction, hle, hlt, hhalf⟩

end PcmConvert.SincFixed
