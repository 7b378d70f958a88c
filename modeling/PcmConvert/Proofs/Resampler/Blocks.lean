/-
  PcmConvert.Proofs.Resampler.Blocks — whether a block of `maxBlock` bytes fits the working
  memory. `maxBlock` leaves `headroom` frames free in what the rates promise for a block. As
  long as the rates have not changed, a converter of whole frames gives no more than one
  frame beyond the promise: a cascade rounds up twice, and `sincFixed` has no window left to
  give, in the beginning, after each run and after a reset (`Engine.Spent`). So neither the
  frames in nor the frames out are more than the memory holds, and every stage of the run
  stays within it, whichever comes first of mixing and conversion (`block_fits`).
-/

import PcmConvert.Proofs.Pipeline.Course
import PcmConvert.Proofs.Resampler.Requests

namespace PcmConvert

open Number RateConverter

/-- With nothing carried over, each stage takes no more than `k` frames of the wider side, if
    no more than `k` come in or go out. -/
theorem Pipeline.footprint_le {β S : Type} [RateConverter β S] [Sample S] {c : Config} {Ok : β → Prop}
    {p : Pipeline β S} (hc : c.Shaped) (hk : Contract S c.width Ok) {y : β → Nat → Nat}
    (hy : ∀ {b fs}, Ok b → Uniform c.width fs → (RateConverter.convert (S := S) b fs).frames.length = y b fs.length)
    (h : p.Fits c Ok) (h0 : p.carried = 0) (aligned : Bool) {bytes : List UInt8} {k : Nat}
    (hin : bytes.length / c.input.frameSize ≤ k) (hout : y p.converter (bytes.length / c.input.frameSize) ≤ k) :
    ∀ r ∈ p.course aligned bytes,
      r.footprint ≤ k * (max c.input.channels c.output.channels * (Sample.precision S).size) := by
  have hleft : p.stages.leftover = [] := leftover_of_carried_eq_zero h0
  have hfed := hy h.stages.converter (Stages.fed_uniform hc h.stages bytes)
  rw [Stages.length_fed hc, hleft, List.length_nil, Nat.zero_add] at hfed
  intro r hr
  exact (within_course hc hk h h0 aligned hin (Nat.le_trans (Nat.le_of_eq hfed) hout) r hr).footprint_le

/-! ## Engines -/

namespace Engine

/-- No window is left in the history of `sincFixed`. -/
def Spent : Engine → Prop
  | s16 p => FixedConverter.Spent p.converter
  | f32 _ => True

/-- The bytes that the stages of a run take. -/
def footprints (e : Engine) (aligned : Bool) (bytes : List UInt8) : List Nat :=
  match e with
  | s16 p => (p.course aligned bytes).map Run.footprint
  | f32 p => (p.course aligned bytes).map Run.footprint

variable {b : Build} {m : Method} {c : Config} {r : Rates} {e : Engine}

theorem spent_create {x : Matrix Float32} (h : create b m r c x = .ok e) : e.Spent := by
  cases hm : m.precision c.input.encoding c.output.encoding with
  | s16 =>
    rw [create_s16 hm] at h
    obtain ⟨p, hp, rfl⟩ := exists_of_map_eq_ok h
    obtain ⟨a, _, ha, _, rfl⟩ := Pipeline.create_eq_ok.mp hp
    exact FixedConverter.spent_create ha
  | f32 =>
    rw [create_f32 hm] at h
    obtain ⟨p, _, rfl⟩ := exists_of_map_eq_ok h
    trivial

theorem Sound.spent_run (hc : c.Shaped) (h : Sound b m c r e) (aligned : Bool) (bytes : List UInt8) :
    (e.run aligned bytes).value.2.Spent := by
  cases h with
  | s16 _ hf _ =>
    have hnext := congrArg Stages.converter (Pipeline.run_stages hc (FixedConverter.contract _) hf aligned bytes).2.1
    exact (congrArg FixedConverter.Spent hnext).mpr (FixedConverter.spent_convert _ _)
  | f32 _ _ _ => trivial

theorem spent_reset (e : Engine) : e.reset.Spent := by
  cases e with
  | s16 p => exact FixedConverter.spent_reset p.converter
  | f32 p => trivial

/-- A run gives no more than a frame beyond what the rates promise. -/
theorem Sound.yield_le_succ (h : Sound b m c r e)
    (hm : m ∈ [Method.copy, .trivial, .peaks, .polyphaseFixed, .sincFixed]) (hg : e.Spent) (k : Nat) :
    e.yield k ≤ ceilDiv (k * r.output) r.input + 1 := by
  have hany (hm : m ∈ [Method.copy, .trivial, .peaks]) : e.yield k ≤ ceilDiv (k * r.output) r.input + 1 :=
    Nat.le_succ_of_le (h.yield_le (h.steady hm) k)
  cases h with
  | s16 _ hf hr =>
    obtain ⟨x, hx, hs, _⟩ := Pipeline.remade_iff.mp hr
    exact FixedConverter.yield_le_succ hf.stages.converter hx hs hg k
  | f32 hp hf hr =>
    -- the methods of 16-bit integers do not work on others
    cases m with
    | polyphaseFixed => cases hp
    | sincFixed => cases hp
    | sinc => exact absurd hm (by decide)
    | fft => exact absurd hm (by decide)
    | auto => exact absurd hm (by decide)
    | _ => exact hany (by decide)

theorem Sound.footprint_le (hc : c.Shaped) (h : Sound b m c r e) (h0 : e.carried = 0) (aligned : Bool)
    {bytes : List UInt8} {k : Nat} (hin : bytes.length / c.input.frameSize ≤ k)
    (hout : e.yield (bytes.length / c.input.frameSize) ≤ k) :
    ∀ x ∈ e.footprints aligned bytes,
      x ≤ k * (max c.input.channels c.output.channels * (m.precision c.input.encoding c.output.encoding).size) := by
  intro x hx
  cases h with
  | s16 hp hf _ =>
    obtain ⟨r, hr, rfl⟩ := List.mem_map.mp hx
    rw [hp]
    exact Pipeline.footprint_le hc (FixedConverter.contract _) FixedConverter.length_convert hf h0 aligned hin hout r hr
  | f32 hp hf _ =>
    obtain ⟨r, hr, rfl⟩ := List.mem_map.mp hx
    rw [hp]
    exact Pipeline.footprint_le hc (FloatConverter.contract _) FloatConverter.length_convert hf h0 aligned hin hout r hr

end Engine

/-! ## Resamplers -/

namespace Resampler

variable {b : Build} {c : Config} {s : Resampler}

/-- The rates stay as they are. -/
def Call.keepsRates : Call → Bool
  | .setInputRate _ => false
  | .setOutputRate _ => false
  | _ => true

/-- The states that calls lead to, from a resampler that was created, as long as none of them
    changes the rates or halts. -/
inductive Unretuned (b : Build) (c : Config) : Resampler → Prop
  | create {s : Resampler} : (create b c).value = .ok s → Unretuned b c s
  | call {s : Resampler} (k : Call) : Unretuned b c s → k.keepsRates = true → (∀ h, (s.call k).value.1 ≠ .halted h) →
      Unretuned b c (s.call k).value.2

theorem Unretuned.reachable (h : Unretuned b c s) : Reachable b c s := by
  induction h with
  | create h => exact .create h
  | call k _ _ hh ih => exact .call k ih hh

theorem spent_call (hs : Sound b c s) (h : s.engine.Spent) {k : Call} (hk : k.keepsRates = true) :
    (s.call k).value.2.engine.Spent := by
  cases k with
  | run aligned bytes =>
    simp only [call, run]
    split
    · exact h
    · split
      · exact h
      · exact hs.engine.spent_run hs.shaped aligned bytes
  | setInputRate rate => cases hk
  | setOutputRate rate => cases hk
  | reset => exact Engine.spent_reset s.engine
  | rewind frames =>
    show s.engine.rewind.Spent
    rw [Engine.rewind_eq_reset]
    exact Engine.spent_reset s.engine
  | maxBlock =>
    simp only [call]
    cases s.maxBlock <;> exact h
  | _ => exact h

theorem Unretuned.spent (h : Unretuned b c s) : s.engine.Spent := by
  induction h with
  | create h =>
    obtain ⟨_, r, m, e, _, he, rfl⟩ := create_eq_ok h
    exact Engine.spent_create he
  | call k hr hk _ ih => exact spent_call (sound_of_reachable hr.reachable) ih hk

/-- The most bytes that a frame takes, on either side or on its way. -/
def widest (s : Resampler) : Nat :=
  max s.config.input.channels s.config.output.channels *
    max (max s.config.input.encoding.size s.config.output.encoding.size) s.precision.size

/-- The frames of a block: what the memory holds but for the headroom, at the slower rate. -/
def blockFrames (s : Resampler) : Nat :=
  (s.config.slab / s.widest - headroom) * s.rates.input / max s.rates.input s.rates.output

theorem maxBlock_eq_ok (h0 : s.engine.carried = 0) (hrate : s.rates.input ≤ maxRate) (hslab : s.config.slab < 2 ^ 40)
    (hroom : 1 ≤ s.blockFrames) : s.maxBlock = .ok (s.blockFrames * s.config.input.frameSize) := by
  have hlim : ¬sizeLimit ≤ (s.config.slab / s.widest - headroom) * s.rates.input := by
    have hle : s.config.slab / s.widest - headroom ≤ 2 ^ 40 :=
      Nat.le_trans (Nat.sub_le _ _) (Nat.le_trans (Nat.div_le_self _ _) (Nat.le_of_lt hslab))
    exact Nat.not_le.mpr (Nat.lt_of_le_of_lt (Nat.mul_le_mul hle hrate) (by decide))
  unfold maxBlock
  dsimp only
  rw [h0, Nat.sub_zero]
  refine (if_neg hlim).trans ?_
  show Except.ok (max 1 s.blockFrames * _) = _
  rw [Nat.max_eq_right hroom]

/-- The bytes that the stages of a run take; none where the input is the output. -/
def footprints (s : Resampler) (aligned : Bool) (bytes : List UInt8) : List Nat :=
  if s.passthrough then [] else s.engine.footprints aligned bytes

theorem outputFrame_le_widest (s : Resampler) : s.config.output.frameSize ≤ s.widest := by
  unfold StreamSpec.frameSize widest
  rw [Nat.mul_comm]
  refine Nat.mul_le_mul (Nat.le_max_right ..) ?_
  exact Nat.le_trans (Nat.le_max_right ..) (Nat.le_max_left ..)

theorem Sound.workingFrame_le_widest (h : Sound b c s) :
    max c.input.channels c.output.channels * (s.method.precision c.input.encoding c.output.encoding).size ≤ s.widest := by
  unfold widest precision
  rw [h.config]
  exact Nat.mul_le_mul_left _ (Nat.le_max_right ..)

/-- As many frames as the memory holds are no more than it. -/
theorem frames_le_slab {k n : Nat} (hk : k ≤ s.config.slab / s.widest) (hn : n ≤ s.widest) : k * n ≤ s.config.slab :=
  Nat.le_trans (Nat.mul_le_mul hk hn) (Nat.div_mul_le_self _ _)

/-- What the rates promise for a block are no more frames than the memory holds. -/
theorem le_of_le_blockFrames {k : Nat} (hroom : 1 ≤ s.blockFrames) (hk : k ≤ s.blockFrames) :
    k + headroom ≤ s.config.slab / s.widest ∧
      ceilDiv (k * s.rates.output) s.rates.input + headroom ≤ s.config.slab / s.widest := by
  unfold blockFrames at hroom hk
  generalize s.config.slab / s.widest = held at *
  have hi := s.rates.input_pos
  have hfaster : 0 < max s.rates.input s.rates.output := Nat.lt_of_lt_of_le hi (Nat.le_max_left ..)
  have hscaled := (Nat.le_div_iff_mul_le hfaster).mp hk
  have hin : k ≤ held - headroom :=
    Nat.le_of_mul_le_mul_right (Nat.le_trans (Nat.mul_le_mul_left k (Nat.le_max_left ..)) hscaled) hi
  have hout : ceilDiv (k * s.rates.output) s.rates.input ≤ held - headroom :=
    (ceilDiv_le_iff hi).mpr (Nat.le_trans (Nat.mul_le_mul_left k (Nat.le_max_right ..)) hscaled)
  have hfree : headroom < held := by
    rcases Nat.lt_or_ge headroom held with hlt | hge
    · exact hlt
    · rw [Nat.sub_eq_zero_of_le hge, Nat.zero_mul, Nat.zero_div] at hroom
      omega
  omega

/-- While the rates stay, a block of `maxBlock` bytes and what becomes of it fit the working
    memory, at each stage, as soon as the memory holds a frame besides the headroom. -/
theorem block_fits (h : Unretuned b c s)
    (hm : s.method ∈ [Method.copy, .trivial, .peaks, .polyphaseFixed, .sincFixed]) (hslab : s.config.slab < 2 ^ 40)
    (hroom : 1 ≤ (s.config.slab / s.widest - headroom) * s.rates.input / max s.rates.input s.rates.output) :
    ∃ n, s.maxBlock = .ok n ∧ ∀ (aligned : Bool) (bytes : List UInt8), s.config.input.frameSize ∣ bytes.length →
      bytes.length ≤ n → ∃ out t, (s.run aligned bytes).value = .ok (out, t) ∧
        bytes.length / s.config.input.frameSize ≤ s.config.slab / s.widest ∧
        out.length / s.config.output.frameSize ≤ s.config.slab / s.widest ∧
        out.length ≤ s.config.slab ∧ ∀ x ∈ s.footprints aligned bytes, x ≤ s.config.slab := by
  have hs := sound_of_reachable h.reachable
  have hrate := (kept_of_reachable h.reachable).input_le
  have hinput : s.config.input.frameSize = c.input.frameSize := by
    rw [hs.config]
    rfl
  have h0 := carried_of_reachable h.reachable hm
  refine ⟨_, maxBlock_eq_ok h0 hrate hslab hroom, ?_⟩
  intro aligned bytes hw hle
  have hf : bytes.length / s.config.input.frameSize ≤ s.blockFrames :=
    Nat.div_le_of_le_mul (Nat.mul_comm s.blockFrames _ ▸ hle)
  obtain ⟨hin, hpromised⟩ := le_of_le_blockFrames hroom hf
  have hyield := hs.engine.yield_le_succ hm h.spent (bytes.length / s.config.input.frameSize)
  have hin : bytes.length / s.config.input.frameSize ≤ s.config.slab / s.widest := Nat.le_of_add_right_le hin
  have hout : s.engine.yield (bytes.length / s.config.input.frameSize) ≤ s.config.slab / s.widest := by
    have hfree : headroom = 128 := rfl
    omega
  have hlen := length_ran hs aligned hw
  rw [fed, h0, Nat.add_zero] at hlen
  obtain ⟨_, hpos⟩ := frameSize_of_reachable h.reachable
  refine ⟨_, _, run_value aligned hw, hin, ?_, ?_, ?_⟩
  · show (s.ran aligned bytes).1.length / _ ≤ _
    rw [hlen, Nat.mul_div_cancel _ hpos]
    exact hout
  · show (s.ran aligned bytes).1.length ≤ _
    rw [hlen]
    exact frames_le_slab hout s.outputFrame_le_widest
  · intro x hx
    unfold footprints at hx
    by_cases hp : s.passthrough = true
    · rw [if_pos hp] at hx
      cases hx
    · rw [if_neg hp] at hx
      rw [hinput] at hin hout
      have hle := hs.engine.footprint_le hs.shaped h0 aligned hin hout x hx
      exact Nat.le_trans hle (frames_le_slab (Nat.le_refl _) hs.workingFrame_le_widest)

/-- After a frame and a reset, a whole block. -/
theorem block_fits_monoDown :
    ∃ s out t, Unretuned ⟨true⟩ (monoDown .polyphaseFixed) s ∧ s.maxBlock = .ok 65280 ∧
      (s.run true (List.replicate 65280 0)).value = .ok (out, t) ∧ out.length ≤ 65536 ∧
      ∀ x ∈ s.footprints true (List.replicate 65280 0), x ≤ 65536 := by
  obtain ⟨s, hr, hm, hc, hi, ho⟩ : ∃ s, Unretuned ⟨true⟩ (monoDown .polyphaseFixed) s ∧ s.method = .polyphaseFixed ∧
      s.config = monoDown .polyphaseFixed ∧ s.rates.input = 48000 ∧ s.rates.output = 44100 := by
    obtain ⟨s, hs⟩ : ∃ s, (create ⟨true⟩ (monoDown .polyphaseFixed)).value = .ok s := ⟨_, rfl⟩
    refine ⟨_, .call .reset (.call (.run true [1, 0]) (.create hs) rfl ?_) rfl ?_, ?_, ?_, ?_, ?_⟩
    all_goals
      cases hs
      first
        | rfl
        | intro h hh
          cases hh
  have hwidest : s.widest = 2 := by
    unfold widest precision
    rw [hc, hm]
    rfl
  have hframes : (s.config.slab / s.widest - headroom) * s.rates.input / max s.rates.input s.rates.output = 32640 := by
    rw [hwidest, hc, hi, ho]
    rfl
  have hslab : s.config.slab < 2 ^ 40 := by
    rw [hc]
    decide
  have h0 := carried_of_reachable hr.reachable (by rw [hm]; decide)
  have hblock := maxBlock_eq_ok h0 (by rw [hi]; decide) hslab (by rw [blockFrames, hframes]; decide)
  rw [blockFrames, hframes, hc] at hblock
  obtain ⟨n, hn, hfits⟩ := block_fits hr (by rw [hm]; decide) hslab (by rw [hframes]; decide)
  cases Except.ok.inj (hn.symm.trans hblock)
  obtain ⟨out, t, hrun, _, _, hout, hall⟩ := hfits true (List.replicate 65280 0)
    (by rw [hc, List.length_replicate]; exact ⟨32640, rfl⟩) (Nat.le_of_eq List.length_replicate)
  rw [hc] at hout hall
  exact ⟨s, out, t, hr, hn, hrun, hout, hall⟩

end Resampler

end PcmConvert
