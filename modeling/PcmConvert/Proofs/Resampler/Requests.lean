/-
  PcmConvert.Proofs.Resampler.Requests — whether what `request` asks for is enough. With the
  methods of any samples a run of `f` frames gives between `⌊f · output / input⌋` and
  `⌈f · output / input⌉` frames, whatever was run before and at whatever rates: the counters
  have some part of a frame open, and that is less than one either way. `request` rounds up
  to whole frames in, so that the lower bound of these is what was asked for
  (`request_met`).
-/

import PcmConvert.Proofs.Resampler.Bound
import PcmConvert.Proofs.Resampler.Passthrough

namespace PcmConvert

open Number RateConverter

/-! ## Frames out -/

namespace Engine

variable {b : Build} {m : Method} {c : Config} {r : Rates} {e : Engine}

theorem Sound.le_yield (h : Sound b m c r e) (hm : m ∈ [Method.copy, .trivial, .peaks]) (k : Nat) :
    k * r.output / r.input ≤ e.yield k := by
  cases h with
  | s16 _ hf hr =>
    obtain ⟨x, hx, hs, _⟩ := Pipeline.remade_iff.mp hr
    exact Converter.le_yield hf.stages.converter (Converter.at_of_remade FixedPoint.at_of_remade hx hs)
      (Converter.steady_of_remade hm hx hs) k
  | f32 _ hf hr =>
    obtain ⟨x, hx, hs, _⟩ := Pipeline.remade_iff.mp hr
    exact Converter.le_yield hf.stages.converter (Converter.at_of_remade Chunked.at_of_remade hx hs)
      (Converter.steady_of_remade hm hx hs) k

end Engine

/-! ## Sizes -/

theorem StreamSpec.channels_le_of_validate {s : StreamSpec} (h : s.validate = .ok ()) : s.channels ≤ maxChannels := by
  unfold validate at h
  obtain ⟨_, _, h⟩ := exists_of_bind_eq_ok h
  by_cases hz : s.channels = 0
  · simp [hz] at h
  · by_cases hm : maxChannels < s.channels
    · simp [hz, hm] at h
    · exact Nat.le_of_not_lt hm

/-- A frame of a valid stream is not large. -/
theorem StreamSpec.frameSize_le_of_validate {s : StreamSpec} (h : s.validate = .ok ()) : s.frameSize ≤ 128 := by
  have hsize : s.encoding.size ≤ 4 := by cases s.encoding <;> simp [Encoding.size]
  exact Nat.mul_le_mul hsize (channels_le_of_validate h)

namespace Resampler

variable {b : Build} {c : Config} {s : Resampler}

/-- Fewer than 2³² frames of this size are bytes enough below the limit. -/
theorem bytesOf_eq {frames size : Nat} (hpos : 0 < size) (hsize : size ≤ 128)
    (h : bytesOf frames size < 2 ^ 32 * size) : bytesOf frames size = frames * size := by
  unfold bytesOf at h ⊢
  by_cases hlt : frames * size < sizeLimit
  · rw [if_pos hlt]
  · rw [if_neg hlt] at h
    have hmod := Nat.mod_lt (sizeLimit - 1) hpos
    have hlimit : sizeLimit = 2 ^ 64 := rfl
    omega

theorem frameSize_of_reachable (h : Reachable b c s) :
    (0 < s.config.input.frameSize ∧ s.config.input.frameSize ≤ 128) ∧ 0 < s.config.output.frameSize := by
  have hs := sound_of_reachable h
  have hv := validate_of_reachable h
  have hin : s.config.input.frameSize = c.input.frameSize := by
    rw [hs.config]
    rfl
  have hout : s.config.output.frameSize = c.output.frameSize := by
    rw [hs.config]
    rfl
  obtain ⟨_, hi, _⟩ := exists_of_bind_eq_ok hv
  rw [hin, hout]
  exact ⟨⟨Nat.mul_pos c.input.encoding.size_pos hs.shaped.input_pos, StreamSpec.frameSize_le_of_validate hi⟩,
    Nat.mul_pos c.output.encoding.size_pos hs.shaped.output_pos⟩

/-- The methods that use all they are fed carry nothing over. -/
theorem carried_of_reachable (h : Reachable b c s)
    (hm : s.method ∈ [Method.copy, .trivial, .peaks, .polyphaseFixed, .sincFixed]) : s.engine.carried = 0 := by
  refine ((kept_of_reachable h).cuttable ?_).carried
  generalize s.method = m at hm
  revert m
  decide

/-- The frames of a run are those that the rates promise, but for less than one. -/
theorem frames_of_run (h : Reachable b c s) (hm : s.method ∈ [Method.copy, .trivial, .peaks]) (aligned : Bool) {f : Nat}
    {bytes : List UInt8} (hf : bytes.length = f * s.config.input.frameSize) :
    ∃ out t k, (s.run aligned bytes).value = .ok (out, t) ∧ out.length = k * s.config.output.frameSize ∧
      f * s.rates.output / s.rates.input ≤ k ∧ k ≤ ceilDiv (f * s.rates.output) s.rates.input := by
  have hs := sound_of_reachable h
  obtain ⟨⟨hpos, _⟩, _⟩ := frameSize_of_reachable h
  have hcarried := carried_of_reachable h (List.mem_append_left [Method.polyphaseFixed, .sincFixed] hm)
  have hfed : s.fed bytes.length = f := by
    rw [fed, hf, Nat.mul_div_cancel f hpos, hcarried, Nat.add_zero]
  have hw : s.config.input.frameSize ∣ bytes.length := hf ▸ Nat.dvd_mul_left ..
  have hlen := length_ran hs aligned hw
  rw [hfed] at hlen
  have hle := hs.engine.yield_le (hs.engine.steady hm) f
  exact ⟨_, _, s.engine.yield f, run_value aligned hw, hlen, hs.engine.le_yield hm f, hle⟩

/-- In every state of the methods of any samples a run gives the frames that the rates
    promise, but for less than one; so that the bytes that `request` asks for give what was
    wanted. -/
theorem request_met (h : Reachable b c s) (hm : s.method ∈ [Method.copy, .trivial, .peaks]) :
    (∀ (aligned : Bool) (f : Nat) (bytes : List UInt8), bytes.length = f * s.config.input.frameSize →
      ∃ out t k, (s.run aligned bytes).value = .ok (out, t) ∧ out.length = k * s.config.output.frameSize ∧
        f * s.rates.output / s.rates.input ≤ k ∧ k ≤ ceilDiv (f * s.rates.output) s.rates.input) ∧
    (∀ need, s.request need < 2 ^ 32 * s.config.input.frameSize →
      ∀ (aligned : Bool) (bytes : List UInt8), bytes.length = s.request need →
        ∃ out t, (s.run aligned bytes).value = .ok (out, t) ∧ need ≤ out.length) := by
  refine ⟨fun aligned f bytes hf => frames_of_run h hm aligned hf, ?_⟩
  intro need hlim aligned bytes hlen
  obtain ⟨⟨hpos, hsize⟩, hout⟩ := frameSize_of_reachable h
  have hrequest := bytesOf_eq hpos hsize hlim
  obtain ⟨out, t, k, hrun, hk, hle, _⟩ := frames_of_run h hm aligned (hlen.trans hrequest)
  refine ⟨out, t, hrun, ?_⟩
  -- the frames in are those that the frames out need, rounded up
  have hwanted : ceilDiv need s.config.output.frameSize ≤ k := by
    refine Nat.le_trans ?_ hle
    rw [Nat.le_div_iff_mul_le s.rates.input_pos]
    exact le_ceilDiv_mul _ s.rates.output_pos
  calc need ≤ ceilDiv need s.config.output.frameSize * s.config.output.frameSize := le_ceilDiv_mul need hout
    _ ≤ k * s.config.output.frameSize := Nat.mul_le_mul_right _ hwanted
    _ = out.length := hk.symm

/-- After a frame and a change of the input rate: for ten bytes out, eleven frames in. -/
theorem request_met_monoDown :
    ∃ s out t, Reachable ⟨true⟩ (monoDown .peaks) s ∧ s.rates.input = 96000 ∧ s.request 10 = 22 ∧
      (s.run false (List.replicate 22 0)).value = .ok (out, t) ∧ 10 ≤ out.length := by
  obtain ⟨s, hs⟩ : ∃ s, (create ⟨true⟩ (monoDown .peaks)).value = .ok s := ⟨_, rfl⟩
  have hr := Reachable.call (.setInputRate 96000)
    (Reachable.call (.run true [1, 0]) (Reachable.create hs) fun h => ?_) fun h => ?_
  · obtain ⟨_, hmet⟩ := request_met hr (by cases hs; decide)
    obtain ⟨out, t, hrun, hle⟩ := hmet 10 (by cases hs; decide) false (List.replicate 22 0) (by cases hs; decide)
    refine ⟨_, out, t, hr, ?_, ?_, hrun, hle⟩
    · cases hs
      rfl
    · cases hs
      rfl
  · cases hs
    intro hh
    cases hh
  · cases hs
    intro hh
    cases hh

end Resampler

end PcmConvert
