/-
  PcmConvert.Proofs.Rate.Sinc.Windows — every frame that the interpolating converter reads is
  there. Its clock is one number, in units of an input frame over the output rate (`time`);
  a call gives the frames at the times `s.time 0`, `s.time 1`, … as long as their windows lie
  within what is kept and what is fed (`convert_eq`).

  Whatever rates it had before, and however often they changed, the clock stands at least
  half a kernel behind the start of what is kept, and frames are forgotten only as far as
  the clock has come (`windows_within_history`). So no window reaches before the start, and
  a call of any size leaves less than a kernel's width.
-/

import PcmConvert.Proofs.Rate.Sinc

namespace PcmConvert

open Number Rate

namespace SincFixed

/-! ## The clock as one number -/

theorem clock_div_mod (r : Rates) (position : Nat) {fraction : Nat} (h : fraction < r.output) :
    (position * r.output + fraction) / r.output = position ∧
      (position * r.output + fraction) % r.output = fraction := by
  rw [Nat.add_comm]
  constructor
  · rw [Nat.add_mul_div_right _ _ r.output_pos, Nat.div_eq_of_lt h, Nat.zero_add]
  · rw [Nat.add_mul_mod_self_right, Nat.mod_eq_of_lt h]

/-- The output frame at a time, in units of an input frame over the output rate. -/
def frameAt (channels : Nat) (r : Rates) (history : List (Frame Int16)) (t : Nat) : Frame Int16 :=
  weigh channels (Kernel.taps r (t % r.output))
    ((history.drop (t / r.output + 1 - Kernel.half r)).take (2 * Kernel.half r))

/-- The loop gives frames at times an input rate apart, each before its window reaches the
    end, and leaves the clock where the next would be. -/
theorem emit_frames (channels : Nat) (r : Rates) (history : List (Frame Int16)) (position : Nat) {fraction : Nat}
    (hf : fraction < r.output) :
    let e := emit channels r history.toArray position fraction
    let t := fun k => position * r.output + fraction + k * r.input
    e.frames = (List.range e.frames.length).map (fun k => frameAt channels r history (t k)) ∧
      e.position = t e.frames.length / r.output ∧ e.fraction = t e.frames.length % r.output ∧
      ∀ k < e.frames.length, t k / r.output + Kernel.half r < history.length := by
  generalize ha : history.toArray = hs
  fun_induction emit channels r hs position fraction with
  | case1 position fraction h y rest ih =>
    subst ha
    obtain ⟨hp, hm⟩ := clock_div_mod r position hf
    obtain ⟨hclock, hlt⟩ := advance_clock r position hf
    obtain ⟨hframes, hnext, hfraction, hwindows⟩ := ih hlt
    -- what comes after the first frame begins an input rate later
    have hshift : ∀ k, position * r.output + fraction + r.input + k * r.input =
        position * r.output + fraction + (k + 1) * r.input := by
      intro k
      rw [Nat.add_mul]
      omega
    simp only [hclock, hshift] at hframes hnext hfraction hwindows
    refine ⟨?_, hnext, hfraction, ?_⟩
    · refine cons_eq_map_range ?_ hframes
      simp only [y, frameAt, Nat.zero_mul, Nat.add_zero, hp, hm, window_toArray]
    · intro k hk
      cases k with
      | zero =>
        simp only [Nat.zero_mul, Nat.add_zero, hp]
        simpa using h
      | succ k => exact hwindows k (by simpa using hk)
  | case2 position fraction h =>
    obtain ⟨hp, hm⟩ := clock_div_mod r position hf
    simp only [List.length_nil, Nat.zero_mul, Nat.add_zero, hp, hm]
    exact ⟨rfl, trivial, trivial, fun k hk => absurd hk (Nat.not_lt_zero k)⟩

/-! ## Calls -/

/-- When output frame `k` of the next call is due, from the start of what is kept. -/
def time (s : SincFixed) (k : Nat) : Nat := s.position * s.rates.output + s.fraction + k * s.rates.input

/-- The frame of the history that output frame `k` of the next call comes after. -/
def positionAt (s : SincFixed) (k : Nat) : Nat := s.time k / s.rates.output

/-- How far after it, over the output rate. -/
def fractionAt (s : SincFixed) (k : Nat) : Nat := s.time k % s.rates.output

theorem positionAt_mono (s : SincFixed) {j k : Nat} (h : j ≤ k) : s.positionAt j ≤ s.positionAt k :=
  Nat.div_le_div_right (Nat.add_le_add_left (Nat.mul_le_mul_right _ h) _)

theorem le_positionAt (s : SincFixed) (k : Nat) : s.position ≤ s.positionAt k := by
  unfold positionAt time
  rw [Nat.le_div_iff_mul_le s.rates.output_pos]
  omega

/-- A call gives frame after frame while their windows lie within the frames at hand. Then
    it forgets the frames before the next window, and the clock counts from there. -/
theorem convert_eq {n : Nat} {s : SincFixed} (h : Fits n s) (fs : List (Frame Int16)) :
    let history := s.history ++ fs
    let count := (convert s fs).frames.length
    let drop := min (s.positionAt count + 1 - s.half) history.length
    (convert s fs).frames = (List.range count).map (fun k => frameAt n s.rates history (s.time k)) ∧
      (∀ k, k < count ↔ s.positionAt k + s.half < history.length) ∧
      (convert s fs).next = { s with
        history := history.drop drop
        position := s.positionAt count - drop
        fraction := s.fractionAt count } := by
  intro history count drop
  obtain ⟨hframes, hp, hm, hlt⟩ := emit_frames s.channels s.rates history s.position h.fraction_lt
  have hend := size_le_emit_position s.channels s.rates history.toArray s.position s.fraction
  rw [List.size_toArray] at hend
  have hpos : (emit s.channels s.rates history.toArray s.position s.fraction).position = s.positionAt count := hp
  have hfrac : (emit s.channels s.rates history.toArray s.position s.fraction).fraction = s.fractionAt count := hm
  rw [hpos] at hend
  refine ⟨h.channels ▸ hframes, fun k => ⟨hlt k, fun hk => ?_⟩, ?_⟩
  · -- past the last frame of the call the clock has only moved on
    apply Nat.lt_of_not_le
    intro hle
    have hmono := s.positionAt_mono hle
    have hend' : history.length ≤ s.positionAt count + s.half := hend
    omega
  · simp only [convert]
    rw [hpos, hfrac]

/-! ## Every state -/

/-- The clock is right, and what is kept are whole frames. -/
structure Sound (n : Nat) (s : SincFixed) : Prop extends Fits n s where
  history : Uniform n s.history

theorem sound_create (n : Nat) (r : Rates) : Sound n (create n r) where
  toFits := fits_create n r
  history := Uniform.replicate _ (length_silentFrame n)

theorem sound_convert {n : Nat} {s : SincFixed} (h : Sound n s) {fs : List (Frame Int16)} (hf : Uniform n fs) :
    Sound n (convert s fs).next where
  toFits := fits_convert h.toFits fs
  history := (h.history.append hf).drop _

theorem sound_retune {n : Nat} {s : SincFixed} (h : Sound n s) (r : Rates) : Sound n (retune s r) where
  toFits := fits_retune h.toFits r
  history := by
    have hsilent : (silentFrame s.channels : Frame Int16).length = n := (length_silentFrame _).trans h.channels
    exact (Uniform.replicate _ hsilent).append h.history

/-- The converters for `n` channels at any rates, after any calls. -/
abbrev Reached (n : Nat) (s : SincFixed) : Prop := RateConverter.Reached Int16 n (fun r => .ok (create n r)) s

theorem sound_of_reached {n : Nat} {s : SincFixed} (h : Reached n s) : Sound n s := by
  induction h with
  | made hm =>
    cases hm
    exact sound_create n _
  | convert _ hf ih => exact sound_convert ih hf
  | reset _ ih =>
    rw [← ih.channels]
    exact sound_create _ _
  | retune _ hr ih =>
    cases hr
    exact sound_retune ih _

/-- After any calls, at any rates and however often they changed: the clock is right, the
    weights are as many as a window has frames, and what is kept are whole frames. The next
    call gives frames exactly as long as their windows end within the frames at hand; none
    of them begins before; and what is forgotten lies behind the clock, so that less than a
    window is kept. -/
theorem windows_within_history {n : Nat} {s : SincFixed} (h : Reached n s) {fs : List (Frame Int16)}
    (hf : Uniform n fs) :
    let history := s.history ++ fs
    let count := (convert s fs).frames.length
    (s.fraction < s.rates.output ∧ 0 < s.half ∧ s.half ≤ s.position + 1) ∧
      (∀ x, (Kernel.weights s.rates x).length = 2 * s.half ∧ (Kernel.taps s.rates x).length = 2 * s.half) ∧
      Uniform n s.history ∧ s.history.flatten.length = s.history.length * n ∧
      (convert s fs).frames = (List.range count).map (fun k => frameAt n s.rates history (s.time k)) ∧
      (∀ k, k < count ↔ s.positionAt k + s.half < history.length) ∧
      (∀ k < count, s.fractionAt k < s.rates.output ∧ s.half ≤ s.positionAt k + 1 ∧
        s.positionAt k + 1 - s.half + 2 * s.half ≤ history.length) ∧
      (∃ drop, drop ≤ s.positionAt count ∧ drop ≤ history.length ∧ (convert s fs).next = { s with
        history := history.drop drop
        position := s.positionAt count - drop
        fraction := s.fractionAt count }) ∧
      Uniform n (convert s fs).next.history ∧ (convert s fs).next.history.length < 2 * s.half := by
  intro history count
  have hs := sound_of_reached h
  have hhalf : 0 < s.half := Kernel.half_pos s.rates
  obtain ⟨hframes, hcount, hnext⟩ := convert_eq hs.toFits fs
  have hbehind : ∀ k, s.half ≤ s.positionAt k + 1 := by
    intro k
    have hle := s.le_positionAt k
    have hfirst := hs.half_le
    omega
  have hstop : history.length ≤ s.positionAt count + s.half :=
    Nat.le_of_not_lt fun hlt => Nat.lt_irrefl _ ((hcount count).mpr hlt)
  refine ⟨⟨hs.fraction_lt, hhalf, hs.half_le⟩, fun x => ⟨Kernel.length_weights s.rates x, Kernel.length_taps s.rates x⟩,
    hs.history, hs.history.length_flatten, hframes, hcount, fun k hk => ⟨?_, hbehind k, ?_⟩, ⟨_, ?_, ?_, hnext⟩,
    (sound_convert hs hf).history, ?_⟩
  · exact Nat.mod_lt _ s.rates.output_pos
  · have hlt : s.positionAt k + s.half < history.length := (hcount k).mp hk
    have hle := hbehind k
    omega
  · have hdrop : s.positionAt count + 1 - s.half ≤ s.positionAt count := by omega
    exact Nat.le_trans (Nat.min_le_left _ _) hdrop
  · exact Nat.min_le_right _ _
  · have hle := hbehind count
    rw [hnext]
    show (history.drop (min (s.positionAt count + 1 - s.half) history.length)).length < _
    rw [List.length_drop]
    omega

/-- After a frame, a narrower kernel, and two changes in a row to a wider one. -/
theorem windows_within_history_narrow_widen :
    ∃ s, Reached 1 s ∧ s.rates.input = 96000 ∧ s.rates.output = 8000 ∧ Uniform 1 [[(5 : Int16)], [-7]] ∧
      s.half ≤ s.position + 1 ∧ (convert s [[5], [-7]]).next.history.length < 2 * s.half := by
  have hmade : Reached 1 (create 1 ⟨48000, 8000, by decide, by decide⟩) := .made rfl
  have hran := RateConverter.Reached.convert hmade (show Uniform 1 [[(3 : Int16)]] from Uniform.cons rfl Uniform.nil)
  have hnarrow := RateConverter.Reached.retune (r := ⟨8000, 48000, by decide, by decide⟩) hran rfl
  have hwider := RateConverter.Reached.retune (r := ⟨48000, 8000, by decide, by decide⟩) hnarrow rfl
  have hwidest := RateConverter.Reached.retune (r := ⟨96000, 8000, by decide, by decide⟩) hwider rfl
  have hf : Uniform 1 [[(5 : Int16)], [-7]] := Uniform.cons rfl (Uniform.cons rfl Uniform.nil)
  obtain ⟨⟨_, _, hle⟩, _, _, _, _, _, _, _, _, hlt⟩ := windows_within_history hwidest hf
  exact ⟨_, hwidest, rfl, rfl, hf, hle, hlt⟩

end SincFixed

end PcmConvert
