/-
  PcmConvert.Proofs.Resampler.Bound — how many bytes a run gives, and whether `result` bounds
  them. The state before the run decides how many frames come out (`Engine.yield`,
  `length_ran`). The rates promise a number for the frames that the converter is fed, and
  `result` is that number of frames in bytes. So it bounds the bytes of a run exactly if the
  converter keeps the promise (`run_length_le_result_iff`).

  A converter does so in a state that is steady, which one that copies, takes the nearest
  frame or measures peaks always is. One with a single filter is too, and so is `sincFixed`
  unless its kernel has become narrower since its last run, and `fft` while no block is open.
  Several filters one after the other round up each for itself: they need not keep it
  (`result_exceeded_monoDown`).
-/

import PcmConvert.Proofs.Resampler.Restart

namespace PcmConvert

open Number RateConverter

/-- The frames of a run are those that the converter gives. -/
theorem Pipeline.length_run {β S : Type} [RateConverter β S] [Sample S] {c : Config} {Ok : β → Prop} {p : Pipeline β S}
    (hc : c.Shaped) (hk : Contract S c.width Ok) {y : β → Nat → Nat}
    (hy : ∀ {b fs}, Ok b → Uniform c.width fs → (RateConverter.convert (S := S) b fs).frames.length = y b fs.length)
    (h : p.Fits c Ok) (aligned : Bool) (bytes : List UInt8) :
    (p.run aligned bytes).value.1.length =
      y p.converter (bytes.length / c.input.frameSize + p.carried) * c.output.frameSize := by
  obtain ⟨hout, _⟩ := run_stages hc hk h aligned bytes
  rw [hout, Stages.run_whole hc hk h.stages bytes, hy h.stages.converter (Stages.fed_uniform hc h.stages bytes),
    Stages.length_fed hc, Nat.add_comm, show p.stages.leftover.length = p.carried from h.length_leftover]
  rfl

/-! ## Engines -/

namespace Engine

/-- How many frames a run gives that feeds the converter so many. -/
def yield : Engine → Nat → Nat
  | s16 p => FixedConverter.yield p.converter
  | f32 p => FloatConverter.yield p.converter

/-- The converter gives no more than the rates promise, however many frames it is fed. -/
def Steady : Engine → Prop
  | s16 p => FixedConverter.Steady p.converter
  | f32 p => FloatConverter.Steady p.converter

variable {b : Build} {m : Method} {c : Config} {r : Rates} {e : Engine}

theorem Sound.length_run (hc : c.Shaped) (h : Sound b m c r e) (aligned : Bool) (bytes : List UInt8) :
    (e.run aligned bytes).value.1.length =
      e.yield (bytes.length / c.input.frameSize + e.carried) * c.output.frameSize := by
  cases h with
  | s16 _ hf _ =>
    exact Pipeline.length_run hc (FixedConverter.contract _) FixedConverter.length_convert hf aligned bytes
  | f32 _ hf _ =>
    exact Pipeline.length_run hc (FloatConverter.contract _) FloatConverter.length_convert hf aligned bytes

theorem Sound.yield_le (h : Sound b m c r e) (hg : e.Steady) (k : Nat) :
    e.yield k ≤ ceilDiv (k * r.output) r.input := by
  cases h with
  | s16 _ hf hr =>
    obtain ⟨x, hx, hs, _⟩ := Pipeline.remade_iff.mp hr
    exact FixedConverter.yield_le hf.stages.converter hx hs hg k
  | f32 _ hf hr =>
    obtain ⟨x, hx, hs, _⟩ := Pipeline.remade_iff.mp hr
    exact FloatConverter.yield_le hf.stages.converter hx hs hg k

/-- An engine that copies carries nothing over, and gives the frames it is fed. -/
theorem Sound.yield_copy (h : Sound b .copy c r e) : e.carried = 0 ∧ ∀ k, e.yield k = k := by
  cases h with
  | s16 _ hf hr =>
    obtain ⟨x, hx, hs, _⟩ := Pipeline.remade_iff.mp hr
    have hp := Converter.passes_of_remade hx hs
    exact ⟨hf.idle hp, Converter.yield_of_passes _ hp⟩
  | f32 _ hf hr =>
    obtain ⟨x, hx, hs, _⟩ := Pipeline.remade_iff.mp hr
    have hp := Converter.passes_of_remade hx hs
    exact ⟨hf.idle hp, Converter.yield_of_passes _ hp⟩

/-- The methods of any samples are always steady. -/
theorem Sound.steady (h : Sound b m c r e) (hm : m ∈ [Method.copy, .trivial, .peaks]) : e.Steady := by
  cases h with
  | s16 _ hf hr =>
    obtain ⟨x, hx, hs, _⟩ := Pipeline.remade_iff.mp hr
    exact Converter.steady_of_remade hm hx hs
  | f32 _ hf hr =>
    obtain ⟨x, hx, hs, _⟩ := Pipeline.remade_iff.mp hr
    exact Converter.steady_of_remade hm hx hs

/-- `sincFixed` is steady after a run. -/
theorem Sound.steady_run (hc : c.Shaped) (h : Sound b .sincFixed c r e) (aligned : Bool) (bytes : List UInt8) :
    (e.run aligned bytes).value.2.Steady := by
  cases h with
  | s16 _ hf hr =>
    obtain ⟨x, hx, hs, _⟩ := Pipeline.remade_iff.mp hr
    have hnext := congrArg Stages.converter (Pipeline.run_stages hc (FixedConverter.contract _) hf aligned bytes).2.1
    exact (congrArg FixedConverter.Steady hnext).mpr (FixedConverter.steady_next hx hs _)
  | f32 hm _ _ => cases hm

end Engine

/-! ## Resamplers -/

namespace Resampler

variable {b : Build} {c : Config} {s : Resampler}

/-- The frames that a run of so many bytes feeds the converter. -/
def fed (s : Resampler) (bytes : Nat) : Nat := bytes / s.config.input.frameSize + s.engine.carried

/-- The most frames that the rates promise for them. -/
def promised (s : Resampler) (bytes : Nat) : Nat := ceilDiv (s.fed bytes * s.rates.output) s.rates.input

theorem result_eq_promised (hc : s.config.Shaped) {bytes : Nat} (hw : s.config.input.frameSize ∣ bytes)
    (hlim : s.promised bytes * s.config.output.frameSize < sizeLimit) :
    s.result bytes = s.promised bytes * s.config.output.frameSize := by
  have hpos : 0 < s.config.input.frameSize := Nat.mul_pos s.config.input.encoding.size_pos hc.input_pos
  have hframes : ceilDiv bytes s.config.input.frameSize = bytes / s.config.input.frameSize := by
    obtain ⟨q, rfl⟩ := hw
    rw [Nat.mul_comm, ceilDiv_mul_right q hpos, Nat.mul_div_cancel q hpos]
  simp only [result, bytesOf, hframes]
  exact if_pos hlim

/-- The bytes of a run are the frames that its state says. -/
theorem length_ran (h : Sound b c s) (aligned : Bool) {bytes : List UInt8}
    (hw : s.config.input.frameSize ∣ bytes.length) :
    (s.ran aligned bytes).1.length = s.engine.yield (s.fed bytes.length) * s.config.output.frameSize := by
  unfold ran fed
  rw [h.config] at hw ⊢
  split
  · next hp =>
    obtain ⟨hm, he, hch⟩ := h.passthrough hp
    obtain ⟨h0, hy⟩ := (hm ▸ h.engine).yield_copy
    have hsize : (c.at s.rates.input s.rates.output).output.frameSize =
        (c.at s.rates.input s.rates.output).input.frameSize := by
      show c.output.encoding.size * c.output.channels = c.input.encoding.size * c.input.channels
      rw [he, hch]
    rw [hy, h0, hsize]
    exact (Nat.div_mul_cancel hw).symm
  · exact h.engine.length_run h.shaped aligned bytes

/-- The methods of any samples are steady in every state, and `sincFixed` is after a run. -/
theorem steady_of_reachable (h : Reachable b c s) :
    (s.method ∈ [Method.copy, .trivial, .peaks] → s.engine.Steady) ∧
      (s.method = .sincFixed → ∀ aligned bytes, (s.ran aligned bytes).2.engine.Steady) := by
  have hs := sound_of_reachable h
  refine ⟨hs.engine.steady, fun hm aligned bytes => ?_⟩
  unfold ran
  split
  · next hp => exact absurd ((hs.passthrough hp).1.symm.trans hm) (by decide)
  · exact (hm ▸ hs.engine).steady_run hs.shaped aligned bytes

/-- As long as the sizes do not reach their limit, `result` is what the rates promise, a run
    gives what the state says, and the one bounds the other if no more frames come out than
    are promised; so it does in a state that is steady. -/
theorem run_length_le_result_iff (h : Reachable b c s) (aligned : Bool) (bytes : List UInt8)
    (hw : s.config.input.frameSize ∣ bytes.length)
    (hlim : s.promised bytes.length * s.config.output.frameSize < sizeLimit) :
    ∃ out t, (s.run aligned bytes).value = .ok (out, t) ∧
      out.length = s.engine.yield (s.fed bytes.length) * s.config.output.frameSize ∧
      s.result bytes.length = s.promised bytes.length * s.config.output.frameSize ∧
      (out.length ≤ s.result bytes.length ↔ s.engine.yield (s.fed bytes.length) ≤ s.promised bytes.length) ∧
      (s.engine.Steady → out.length ≤ s.result bytes.length) := by
  have hs := sound_of_reachable h
  have hc : s.config.Shaped := by
    rw [hs.config]
    exact hs.shaped.at _ _
  have hpos : 0 < s.config.output.frameSize := Nat.mul_pos s.config.output.encoding.size_pos hc.output_pos
  have hresult := result_eq_promised hc hw hlim
  have hlen := length_ran hs aligned hw
  have hiff : (s.ran aligned bytes).1.length ≤ s.result bytes.length ↔
      s.engine.yield (s.fed bytes.length) ≤ s.promised bytes.length := by
    rw [hlen, hresult]
    exact Nat.mul_le_mul_right_iff hpos
  exact ⟨_, _, run_value aligned hw, hlen, hresult, hiff, fun hg => hiff.mpr (hs.engine.yield_le hg _)⟩

/-- After a frame and a change of the input rate. -/
theorem run_length_le_result_iff_monoDown :
    ∃ s out t, Reachable ⟨true⟩ (monoDown .peaks) s ∧ s.rates.input = 96000 ∧
      (s.run false [2, 0, 3, 0]).value = .ok (out, t) ∧ out.length ≤ s.result 4 := by
  obtain ⟨s, hs⟩ : ∃ s, (create ⟨true⟩ (monoDown .peaks)).value = .ok s := ⟨_, rfl⟩
  have hr := Reachable.call (.setInputRate 96000)
    (Reachable.call (.run true [1, 0]) (Reachable.create hs) fun h => ?_) fun h => ?_
  · obtain ⟨out, t, hrun, _, _, _, hle⟩ := run_length_le_result_iff hr false [2, 0, 3, 0]
      (by cases hs; decide) (by cases hs; decide)
    refine ⟨_, out, t, hr, ?_, hrun, hle ?_⟩
    · cases hs
      rfl
    · cases hs
      exact trivial
  · cases hs
    intro hh
    cases hh
  · cases hs
    intro hh
    cases hh

/-- One frame through several filters: two come out, and one is promised. -/
theorem result_exceeded_monoDown :
    ∃ s out t, (create ⟨true⟩ (monoDown .polyphaseFixed)).value = .ok s ∧ (s.run true [0, 0]).value = .ok (out, t) ∧
      s.result 2 = 2 ∧ out.length = 4 := by
  obtain ⟨s, hs⟩ : ∃ s, (create ⟨true⟩ (monoDown .polyphaseFixed)).value = .ok s := ⟨_, rfl⟩
  have hsound := sound_create hs
  have hw : s.config.input.frameSize ∣ [(0 : UInt8), 0].length := by
    cases hs
    decide
  refine ⟨s, _, _, hs, run_value true hw, ?_, (length_ran hsound true hw).trans ?_⟩
  · cases hs
    rfl
  · cases hs
    rfl

end Resampler

end PcmConvert
