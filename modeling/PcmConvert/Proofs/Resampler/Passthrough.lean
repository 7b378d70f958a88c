/-
  PcmConvert.Proofs.Resampler.Passthrough — the short way of a resampler whose two sides are
  the same: its runs give what they get. It asks for equal specs and equal maps, and never
  for the matrix. So it does what the matrix says exactly where the matrix from the map to
  itself changes nothing (`passthrough_agrees_iff`); with mono among others, or a position
  that is there twice, the matrix that is shown mixes and the runs do not.
-/

import PcmConvert.Proofs.Method.Resolve
import PcmConvert.Proofs.Mix.Identity
import PcmConvert.Proofs.Resampler.Invariant

namespace PcmConvert

/-- The auxiliary positions of a valid map are those of channels that a stream can have. -/
theorem ChannelMap.aux_lt_of_validate {m : ChannelMap} {s : StreamSpec} (h : m.validate s = .ok ()) {n : Nat}
    (hn : Position.aux n ∈ m) : n < maxChannels := by
  rw [← Nat.not_le]
  intro hle
  have hstray : m.any isStray = true := List.any_eq_true.mpr ⟨_, hn, decide_eq_true hle⟩
  unfold validate at h
  rw [hstray] at h
  by_cases hl : m.length = s.channels
  · simp [hl] at h
  · rw [if_pos hl] at h
    cases h

theorem Config.inputMap_of_validate {c : Config} (h : c.validate = .ok ()) : c.inputMap.validate c.input = .ok () := by
  unfold validate at h
  obtain ⟨_, _, h⟩ := exists_of_bind_eq_ok h
  obtain ⟨_, _, h⟩ := exists_of_bind_eq_ok h
  obtain ⟨_, hm, _⟩ := exists_of_bind_eq_ok h
  exact hm

namespace Resampler

variable {b : Build} {c : Config} {s : Resampler}

theorem validate_of_reachable (h : Reachable b c s) : c.validate = .ok () := by
  induction h with
  | create h => exact (create_eq_ok h).1
  | call _ _ _ ih => exact ih

/-- Runs between equal sides give what they get; and that is what the matrix says exactly if
    the flags keep the channels of the map. -/
theorem passthrough_agrees_iff :
    (∀ (m : ChannelMap) (f : Flags), (∀ n, Position.aux n ∈ m → n < 256) →
        ((Matrix.build m m f : Matrix Float32).isIdentity = true ↔ f.Keeps m)) ∧
      ∀ (b : Build) (c : Config) (s : Resampler), Reachable b c s → s.method = .copy → c.input = c.output →
        c.inputMap = c.outputMap →
          (∀ aligned (bytes : List UInt8), c.input.frameSize ∣ bytes.length →
            (s.run aligned bytes).value = .ok (bytes, s)) ∧
          s.matrix = Matrix.build c.inputMap c.inputMap c.flags ∧
          (s.matrix.isIdentity = true ↔ c.flags.Keeps c.inputMap) := by
  refine ⟨fun m f haux => Matrix.isIdentity_build_iff haux f, ?_⟩
  intro b c s h hm hspec hmap
  have hs := sound_of_reachable h
  have hpass : s.passthrough = true := by
    rw [(kept_of_reachable h).passthrough, hm]
    simp [isPassthrough, hspec, hmap]
  have hmatrix : s.matrix = Matrix.build c.inputMap c.inputMap c.flags := by
    rw [hs.matrix, Config.matrix, ← hmap]
  refine ⟨fun aligned bytes hw => ?_, hmatrix, ?_⟩
  · have hsize : s.config.input.frameSize = c.input.frameSize := by
      rw [hs.config]
      rfl
    rw [run_value aligned (hsize ▸ hw), ran, if_pos hpass]
  · rw [hmatrix]
    refine Matrix.isIdentity_build_iff (fun n hn => ?_) c.flags
    have hlt := ChannelMap.aux_lt_of_validate (Config.inputMap_of_validate (validate_of_reachable h)) hn
    exact Nat.lt_trans hlt (by decide)

/-- Two channels to the same two. -/
def between (m : ChannelMap) : Config where
  input := ⟨.s16 .little, 48000, 2⟩
  inputMap := m
  output := ⟨.s16 .little, 48000, 2⟩
  outputMap := m

/-- Stereo is kept. Mono and a front left are not, but a frame comes out as it went in. -/
theorem passthrough_agrees_iff_between :
    (Matrix.build ChannelMap.stereo ChannelMap.stereo {} : Matrix Float32).isIdentity = true ∧
      ∃ s, (create ⟨true⟩ (between [.mono, .frontLeft])).value = .ok s ∧
        (s.run true [1, 0, 2, 0]).value = .ok ([1, 0, 2, 0], s) ∧ ¬s.matrix.isIdentity = true := by
  obtain ⟨hiff, hshort⟩ := passthrough_agrees_iff
  refine ⟨(hiff ChannelMap.stereo {} (by simp [ChannelMap.stereo])).mpr (by simp [Flags.Keeps, ChannelMap.stereo]), ?_⟩
  obtain ⟨s, hs⟩ : ∃ s, (create ⟨true⟩ (between [.mono, .frontLeft])).value = .ok s := ⟨_, rfl⟩
  obtain ⟨hrun, _, hkeeps⟩ := hshort _ _ s (.create hs) (by cases hs; rfl) rfl rfl
  refine ⟨s, hs, hrun true [1, 0, 2, 0] (by decide), ?_⟩
  rw [hkeeps]
  simp [Flags.Keeps, between]

end Resampler

end PcmConvert
