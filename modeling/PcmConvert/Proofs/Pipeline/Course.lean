/-
  PcmConvert.Proofs.Pipeline.Course — a run stage by stage, and the memory that each takes.
  A stage leaves frames for the next one (`course`), and those of the last are encoded
  (`getLast?_course`). With nothing carried over the frames are as many as came in, or as
  many as the converter gave; and their samples are as many as either side has channels
  (`within_course`).
-/

import PcmConvert.Proofs.Pipeline.Refinement

namespace PcmConvert

open RateConverter

variable {β S : Type}

/-- The converter's frames have the channels of one side. -/
theorem Config.uniform_of_width {c : Config} {fs : List (Frame S)} (h : Uniform c.width fs) :
    Uniform c.input.channels fs ∨ Uniform c.output.channels fs := by
  unfold width at h
  rcases Nat.le_total c.input.channels c.output.channels with hle | hle
  · rw [Nat.min_eq_left hle] at h
    exact .inl h
  · rw [Nat.min_eq_right hle] at h
    exact .inr h

namespace Run

/-- At the present stage there are `k` frames at most, of the input's channels or the
    output's. -/
def Within (c : Config) (k : Nat) (r : Run β S) : Prop :=
  r.frames.length ≤ k ∧ (Uniform c.input.channels r.frames ∨ Uniform c.output.channels r.frames)

theorem within_iff {c : Config} {k : Nat} {r : Run β S} {fs : List (Frame S)} (h : r.frames = fs) :
    r.Within c k ↔ fs.length ≤ k ∧ (Uniform c.input.channels fs ∨ Uniform c.output.channels fs) := by
  subst h
  exact Iff.rfl

/-- The bytes of the frames of the present stage, as working samples. -/
def footprint [Sample S] (r : Run β S) : Nat := r.frames.flatten.length * (Sample.precision S).size

theorem Within.footprint_le [Sample S] {c : Config} {k : Nat} {r : Run β S} (h : r.Within c k) :
    r.footprint ≤ k * (max c.input.channels c.output.channels * (Sample.precision S).size) := by
  obtain ⟨hlen, hwhole⟩ := h
  have hle : r.frames.flatten.length ≤ k * max c.input.channels c.output.channels := by
    rcases hwhole with hu | hu
    · rw [hu.length_flatten]
      exact Nat.mul_le_mul hlen (Nat.le_max_left ..)
    · rw [hu.length_flatten]
      exact Nat.mul_le_mul hlen (Nat.le_max_right ..)
  rw [← Nat.mul_assoc]
  exact Nat.mul_le_mul_right _ hle

end Run

namespace Pipeline

variable [Sample S] [RateConverter β S]

/-- A run after each of its stages: the input is loaded, mixed and converted in their order,
    and split. -/
def course (p : Pipeline β S) (aligned : Bool) (bytes : List UInt8) : List (Run β S) :=
  let r := p.load (p.views aligned) (Codec.decodeFrames p.inputEncoding p.inputChannels bytes)
  match p.slot with
  | .afterMix => [r, r.mixAhead, r.mixAhead.convert, r.mixAhead.convert.split]
  | .beforeMix => [r, r.convert, r.convert.mixBehind, r.convert.mixBehind.split]

theorem getLast?_course (p : Pipeline β S) (aligned : Bool) (bytes : List UInt8) :
    (p.course aligned bytes).getLast? = some (p.runStages aligned bytes) := by
  unfold course runStages
  cases p.slot with
  | afterMix => rfl
  | beforeMix => rfl

variable {c : Config} {Ok : β → Prop} {p : Pipeline β S}

/-- With nothing carried over, the frames of each stage are as many as came in or as the
    converter gave. -/
theorem within_course (hc : c.Shaped) (hk : Contract S c.width Ok) (h : p.Fits c Ok) (h0 : p.carried = 0)
    (aligned : Bool) {bytes : List UInt8} {k : Nat} (hin : bytes.length / c.input.frameSize ≤ k)
    (hout : (convert p.converter (p.stages.fed c bytes)).frames.length ≤ k) :
    ∀ r ∈ p.course aligned bytes, r.Within c k := by
  have hleft : p.leftover = [] := leftover_of_carried_eq_zero h0
  have hfed : p.stages.fed c bytes = c.ahead (Codec.decodeFrames c.input.encoding c.input.channels bytes) := by
    rw [Stages.fed, show p.stages.leftover = [] from hleft, List.nil_append]
  have hwhole := Stages.fed_uniform hc h.stages bytes
  have hbehind := Stages.behind_converted_uniform hc hk h.stages bytes
  have hdecoded := Codec.uniform_decodeFrames (S := S) c.input.encoding c.input.channels bytes
  have hlength : (Codec.decodeFrames (S := S) c.input.encoding c.input.channels bytes).length ≤ k := by
    rw [Codec.length_decodeFrames _ hc.input_pos]
    exact hin
  rw [hfed] at hout hwhole hbehind
  unfold course
  rw [h.inputEncoding, h.inputChannels]
  generalize Codec.decodeFrames (S := S) c.input.encoding c.input.channels bytes = input at *
  generalize p.views aligned = viewed
  intro r hr
  cases hs : p.slot with
  | afterMix =>
    rw [hs] at hr
    rw [h.ahead_eq, if_pos hs] at hout hwhole hbehind
    rw [h.behind_eq, if_pos hs] at hbehind
    have hmix := Run.fed_mixAhead h hs viewed input
    rw [hleft, List.nil_append] at hmix
    have hconv := Run.holds_convert hk h hwhole hmix
    have hsplit := Run.holds_split hconv
    simp only [List.mem_cons, List.not_mem_nil, or_false] at hr
    rcases hr with rfl | rfl | rfl | rfl
    · rw [Run.within_iff (Run.load_afterMix viewed input hs).1]
      exact ⟨hlength, .inl hdecoded⟩
    · rw [Run.within_iff hmix.frames, Config.length_mix]
      exact ⟨hlength, .inr (Config.mix_uniform hc hdecoded)⟩
    · rw [Run.within_iff hconv.frames]
      exact ⟨hout, .inr hbehind⟩
    · rw [Run.within_iff hsplit.frames, Crossover.length_processAny]
      exact ⟨hout, .inr (Crossover.processAny_fits h.stages.crossover hbehind).1⟩
  | beforeMix =>
    rw [hs] at hr
    rw [h.ahead_eq, if_neg (by rw [hs]; decide)] at hout hwhole hbehind
    rw [h.behind_eq, if_neg (by rw [hs]; decide)] at hbehind
    have hload : Run.Fed p (p.leftover ++ input) (p.load viewed input) := Run.fed_load input hs fun _ => h0
    rw [hleft, List.nil_append] at hload
    have hconv := Run.holds_convert hk h hwhole hload
    have hmix := Run.holds_mixBehind h hs hconv
    have hsplit := Run.holds_split hmix
    simp only [List.mem_cons, List.not_mem_nil, or_false] at hr
    rcases hr with rfl | rfl | rfl | rfl
    · rw [Run.within_iff hload.frames]
      exact ⟨hlength, .inl hdecoded⟩
    · rw [Run.within_iff hconv.frames]
      exact ⟨hout, Config.uniform_of_width (hk.whole h.stages.converter hwhole)⟩
    · rw [Run.within_iff hmix.frames, Config.length_mix]
      exact ⟨hout, .inr hbehind⟩
    · rw [Run.within_iff hsplit.frames, Crossover.length_processAny, Config.length_mix]
      exact ⟨hout, .inr (Crossover.processAny_fits h.stages.crossover hbehind).1⟩

end Pipeline

end PcmConvert
