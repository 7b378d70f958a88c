/-
  PcmConvert.Proofs.Resampler.Sizes — what `maxBlock` answers, whatever the memory. The
  frames that the memory has to spare are multiplied by the input rate before they are
  divided by the faster one, and that product must be a size itself. So a memory of
  `blockLimit` bytes or more ends the call, though the answer would be a size
  (`exists_maxBlock_iff`); it takes more than 2⁴⁵ bytes. Nothing else can go wrong: a
  frame is between 2 and 128 bytes at its widest, the subtractions stop at zero, and the
  answer is whole frames, at least one, and no more than the memory if that holds one
  (`maxBlock_spec`). What is carried over is subtracted and nothing more, so with more of it
  the answer is never larger.
-/

import PcmConvert.Proofs.Resampler.Blocks

namespace PcmConvert

theorem Precision.two_le_size (p : Precision) : 2 ≤ p.size := by
  cases p <;> decide

theorem Precision.size_le (p : Precision) : p.size ≤ 4 := by
  cases p <;> decide

theorem Encoding.size_le (e : Encoding) : e.size ≤ 4 := by
  cases e <;> simp [Encoding.size]

namespace Resampler

variable {b : Build} {c : Config} {s t : Resampler}

/-! ## Frames at their widest -/

theorem inputFrame_le_widest (s : Resampler) : s.config.input.frameSize ≤ s.widest := by
  unfold StreamSpec.frameSize widest
  rw [Nat.mul_comm]
  exact Nat.mul_le_mul (Nat.le_max_left ..) (Nat.le_trans (Nat.le_max_left ..) (Nat.le_max_left ..))

theorem widest_of_reachable (h : Reachable b c s) : 2 ≤ s.widest ∧ s.widest ≤ 128 := by
  have hs := sound_of_reachable h
  obtain ⟨_, hi, hv⟩ := exists_of_bind_eq_ok (validate_of_reachable h)
  obtain ⟨_, ho, _⟩ := exists_of_bind_eq_ok hv
  have hin : s.config.input.channels = c.input.channels := by
    rw [hs.config]
    rfl
  have hout : s.config.output.channels = c.output.channels := by
    rw [hs.config]
    rfl
  unfold widest
  rw [hin, hout]
  have hchannels : 1 ≤ max c.input.channels c.output.channels := Nat.le_trans hs.shaped.input_pos (Nat.le_max_left ..)
  have hmost : max c.input.channels c.output.channels ≤ maxChannels :=
    Nat.max_le.mpr ⟨StreamSpec.channels_le_of_validate hi, StreamSpec.channels_le_of_validate ho⟩
  have hsample := Nat.le_trans s.precision.two_le_size
    (Nat.le_max_right (max s.config.input.encoding.size s.config.output.encoding.size) _)
  have hlargest := Nat.max_le.mpr
    ⟨Nat.max_le.mpr ⟨s.config.input.encoding.size_le, s.config.output.encoding.size_le⟩, s.precision.size_le⟩
  exact ⟨Nat.mul_le_mul hchannels hsample, Nat.mul_le_mul hmost hlargest⟩

/-! ## The product -/

/-- The frames that the memory holds beside the headroom and what is carried over. -/
def spareFrames (s : Resampler) : Nat := s.config.slab / s.widest - headroom - s.engine.carried

/-- The least memory whose spare frames, times the input rate, are no size. -/
def blockLimit (s : Resampler) : Nat :=
  ((sizeLimit - 1) / s.rates.input + 1 + headroom + s.engine.carried) * s.widest

theorem maxBlock_of_le (h : sizeLimit ≤ s.spareFrames * s.rates.input) : s.maxBlock = .error .overflow := if_pos h

theorem maxBlock_of_lt (h : s.spareFrames * s.rates.input < sizeLimit) :
    s.maxBlock = .ok (max 1 (s.spareFrames * s.rates.input / max s.rates.input s.rates.output) *
      s.config.input.frameSize) := if_neg (Nat.not_le.mpr h)

/-- There is an answer only if the product is a size. -/
theorem of_maxBlock {n : Nat} (h : s.maxBlock = .ok n) : s.spareFrames * s.rates.input < sizeLimit ∧
    n = max 1 (s.spareFrames * s.rates.input / max s.rates.input s.rates.output) * s.config.input.frameSize := by
  by_cases hlt : s.spareFrames * s.rates.input < sizeLimit
  · rw [maxBlock_of_lt hlt] at h
    cases h
    exact ⟨hlt, rfl⟩
  · rw [maxBlock_of_le (Nat.not_lt.mp hlt)] at h
    cases h

theorem maxBlock_cases (s : Resampler) : s.maxBlock = .error .overflow ∨ ∃ n, s.maxBlock = .ok n := by
  by_cases hlt : s.spareFrames * s.rates.input < sizeLimit
  · exact .inr ⟨_, maxBlock_of_lt hlt⟩
  · exact .inl (maxBlock_of_le (Nat.not_lt.mp hlt))

theorem lt_sizeLimit_iff (hw : 0 < s.widest) :
    s.spareFrames * s.rates.input < sizeLimit ↔ s.config.slab < s.blockLimit := by
  have hlimit : sizeLimit = sizeLimit - 1 + 1 := by decide
  calc s.spareFrames * s.rates.input < sizeLimit
      ↔ s.spareFrames ≤ (sizeLimit - 1) / s.rates.input := by
        rw [Nat.le_div_iff_mul_le s.rates.input_pos, hlimit, Nat.lt_add_one_iff, Nat.add_sub_cancel]
    _ ↔ s.config.slab / s.widest < (sizeLimit - 1) / s.rates.input + 1 + headroom + s.engine.carried := by
        unfold spareFrames
        generalize (sizeLimit - 1) / s.rates.input = quotient
        omega
    _ ↔ s.config.slab < s.blockLimit := Nat.div_lt_iff_lt_mul hw

/-- There is an answer as long as the memory is below `blockLimit`. -/
theorem exists_maxBlock_iff (hw : 0 < s.widest) : (∃ n, s.maxBlock = .ok n) ↔ s.config.slab < s.blockLimit := by
  rw [← lt_sizeLimit_iff hw]
  constructor
  · rintro ⟨n, hn⟩
    exact (of_maxBlock hn).1
  · intro hlt
    exact ⟨_, maxBlock_of_lt hlt⟩

/-- No rate is so high that a memory of 2⁴⁵ bytes is too large. -/
theorem lt_blockLimit (hw : 2 ≤ s.widest) (hrate : s.rates.input ≤ maxRate) : 2 ^ 45 < s.blockLimit := by
  have hquotient : 2 ^ 44 ≤ (sizeLimit - 1) / s.rates.input := by
    rw [Nat.le_div_iff_mul_le s.rates.input_pos]
    exact Nat.le_trans (Nat.mul_le_mul_left _ hrate) (by decide)
  calc 2 ^ 45 < (2 ^ 44 + 1) * 2 := by decide
    _ ≤ s.blockLimit := Nat.mul_le_mul (by omega) hw

/-! ## The answer -/

/-- What is answered is whole frames, at least one, and fits the memory if a frame does. -/
theorem maxBlock_bounds {n : Nat} (hpos : 0 < s.config.input.frameSize) (h : s.maxBlock = .ok n) :
    0 < n ∧ s.config.input.frameSize ∣ n ∧ n ≤ max s.config.slab s.config.input.frameSize := by
  obtain ⟨_, rfl⟩ := of_maxBlock h
  refine ⟨Nat.mul_pos (by omega) hpos, Nat.dvd_mul_left .., ?_⟩
  have hspare : s.spareFrames ≤ s.config.slab / s.widest := Nat.le_trans (Nat.sub_le _ _) (Nat.sub_le _ _)
  have hframes : s.spareFrames * s.rates.input / max s.rates.input s.rates.output ≤ s.config.slab / s.widest := by
    refine Nat.le_trans (Nat.div_le_of_le_mul ?_) hspare
    rw [Nat.mul_comm]
    exact Nat.mul_le_mul_right _ (Nat.le_max_left ..)
  rcases Nat.le_total (s.spareFrames * s.rates.input / max s.rates.input s.rates.output) 1 with hone | hmany
  · rw [Nat.max_eq_left hone, Nat.one_mul]
    exact Nat.le_max_right ..
  · rw [Nat.max_eq_right hmany]
    exact Nat.le_trans (frames_le_slab hframes s.inputFrame_le_widest) (Nat.le_max_left ..)

/-- With more carried over there is still an answer, and no larger one. -/
theorem maxBlock_antitone (hc : t.config = s.config) (hm : t.method = s.method) (hr : t.rates = s.rates)
    (hle : s.engine.carried ≤ t.engine.carried) {n : Nat} (h : s.maxBlock = .ok n) :
    ∃ k, t.maxBlock = .ok k ∧ k ≤ n := by
  obtain ⟨hlt, rfl⟩ := of_maxBlock h
  have hwidest : t.widest = s.widest := by
    unfold widest precision
    rw [hc, hm]
  have hspare : t.spareFrames ≤ s.spareFrames := by
    unfold spareFrames
    rw [hwidest, hc]
    exact Nat.sub_le_sub_left hle _
  have hproduct : t.spareFrames * t.rates.input ≤ s.spareFrames * s.rates.input := by
    rw [hr]
    exact Nat.mul_le_mul_right _ hspare
  have hquotient := Nat.div_le_div_right (c := max s.rates.input s.rates.output) hproduct
  refine ⟨_, maxBlock_of_lt (Nat.lt_of_le_of_lt hproduct hlt), ?_⟩
  rw [hc]
  refine Nat.mul_le_mul_right _ ?_
  rw [← hr] at hquotient ⊢
  omega

/-- In every state `maxBlock` answers exactly if the memory is below a limit, which is more than
    2⁴⁵ bytes. The answer is a positive number of whole frames and a size, and never larger
    when more is carried over. -/
theorem maxBlock_spec (h : Reachable b c s) (hslab : c.slab < sizeLimit) :
    (2 ≤ s.widest ∧ s.widest ≤ 128) ∧
      ((∃ n, s.maxBlock = .ok n) ↔
        c.slab < ((sizeLimit - 1) / s.rates.input + 1 + headroom + s.engine.carried) * s.widest) ∧
      (∀ e, s.maxBlock = .error e → e = .overflow) ∧
      (c.slab ≤ 2 ^ 45 → ∃ n, s.maxBlock = .ok n) ∧
      (∀ n, s.maxBlock = .ok n → 0 < n ∧ s.config.input.frameSize ∣ n ∧
        n ≤ max c.slab s.config.input.frameSize ∧ n < sizeLimit) ∧
      ∀ t : Resampler, t.config = s.config → t.method = s.method → t.rates = s.rates →
        s.engine.carried ≤ t.engine.carried → ∀ n, s.maxBlock = .ok n → ∃ k, t.maxBlock = .ok k ∧ k ≤ n := by
  have hmemory : s.config.slab = c.slab := by
    rw [(sound_of_reachable h).config]
    rfl
  obtain ⟨hwide, hnarrow⟩ := widest_of_reachable h
  have hw : 0 < s.widest := Nat.lt_of_lt_of_le (by decide) hwide
  obtain ⟨⟨hpos, hsize⟩, _⟩ := frameSize_of_reachable h
  have hiff := exists_maxBlock_iff hw
  rw [hmemory] at hiff
  refine ⟨⟨hwide, hnarrow⟩, hiff, ?_, ?_, ?_, fun t hc hm hr hle n hn => maxBlock_antitone hc hm hr hle hn⟩
  · intro e he
    rcases maxBlock_cases s with hover | ⟨n, hn⟩
    · rw [hover] at he
      cases he
      rfl
    · rw [hn] at he
      cases he
  · intro hle
    exact hiff.mpr (Nat.lt_of_le_of_lt hle (lt_blockLimit hwide (kept_of_reachable h).input_le))
  · intro n hn
    obtain ⟨hn0, hdvd, hle⟩ := maxBlock_bounds hpos hn
    rw [hmemory] at hle
    have hframe : s.config.input.frameSize < sizeLimit := Nat.lt_of_le_of_lt hsize (by decide)
    exact ⟨hn0, hdvd, hle, Nat.lt_of_le_of_lt hle (Nat.max_lt.mpr ⟨hslab, hframe⟩)⟩

/-- Before and after a run of a frame, which is carried over. -/
theorem maxBlock_spec_monoDown :
    ∃ s t k, Reachable ⟨true⟩ (monoDown .fft) s ∧ Reachable ⟨true⟩ (monoDown .fft) t ∧ s.engine.carried = 0 ∧
      s.maxBlock = .ok 32512 ∧ t.maxBlock = .ok k ∧ 0 < k ∧ 2 ∣ k ∧ k ≤ 32512 := by
  obtain ⟨s, hs⟩ : ∃ s, (create ⟨true⟩ (monoDown .fft)).value = .ok s := ⟨_, rfl⟩
  have hr := Reachable.create hs
  obtain ⟨t, ht, hc, hm, hrates, hframe, h0⟩ : ∃ t, Reachable ⟨true⟩ (monoDown .fft) t ∧ t.config = s.config ∧
      t.method = s.method ∧ t.rates = s.rates ∧ t.config.input.frameSize = 2 ∧ s.engine.carried = 0 := by
    refine ⟨_, .call (.run true [1, 0]) hr ?_, ?_, ?_, ?_, ?_, ?_⟩
    all_goals
      cases hs
      first
        | rfl
        | intro h hh
          cases hh
  have hn : s.maxBlock = .ok 32512 := by
    cases hs
    exact maxBlock_of_lt (by decide)
  obtain ⟨_, _, _, _, _, hless⟩ := maxBlock_spec hr (by decide)
  obtain ⟨k, hk, hle⟩ := hless t hc hm hrates (by omega) _ hn
  obtain ⟨_, _, _, _, hanswer, _⟩ := maxBlock_spec ht (by decide)
  obtain ⟨hpos, hdvd, _⟩ := hanswer k hk
  exact ⟨s, t, k, hr, ht, h0, hn, hk, hpos, hframe ▸ hdvd, hle⟩

/-- One channel from 1 Hz, in all the memory that a size can say. -/
def monoVast : Config where
  input := ⟨.s16 .little, 1, 1⟩
  inputMap := ChannelMap.mono
  output := ⟨.s16 .little, 44100, 1⟩
  outputMap := ChannelMap.mono
  method := .trivial
  slab := sizeLimit - 1

/-- The configuration is valid, and at 1 Hz there is an answer, but at 48000 Hz there is none. -/
theorem maxBlock_overflow_monoVast :
    monoVast.validate = .ok () ∧ monoVast.slab < sizeLimit ∧
      ∃ s, Reachable ⟨true⟩ monoVast s ∧ s.rates.input = 48000 ∧ s.maxBlock = .error .overflow := by
  obtain ⟨s, hs⟩ : ∃ s, (create ⟨true⟩ monoVast).value = .ok s := ⟨_, rfl⟩
  refine ⟨rfl, by decide, _, .call (.setInputRate 48000) (.create hs) ?_, ?_, ?_⟩
  · cases hs
    intro h hh
    cases hh
  · cases hs
    rfl
  · refine maxBlock_of_le ?_
    cases hs
    decide

end Resampler

end PcmConvert
