/-
  PcmConvert.Proofs.Pipeline.Stages — the stages of a configuration as plain functions of
  frames, without a buffer: what is left over stands before the input, the mix is ahead of
  the converter or behind it, the crossover comes last. Their state is the converter's, the
  crossover's, and the frames that are left over.

  For any converter that keeps its contract a run keeps the shape of the state (`run_fits`)
  and gives whole frames (`run_whole`). For one that does not mind how its input is cut
  (`run_append`), or that a reset makes anew (`reset_run`), neither do the stages.
-/

import PcmConvert.Config
import PcmConvert.Proofs.Mix.Shape
import PcmConvert.Proofs.Rate.Contract

namespace PcmConvert

open RateConverter

/-! ## Shapes that a valid configuration has -/

theorem StreamSpec.channels_pos_of_validate {s : StreamSpec} (h : s.validate = .ok ()) : 0 < s.channels := by
  unfold validate at h
  cases hr : checkRate s.rate with
  | error f => rw [hr] at h; cases h
  | ok =>
    rw [hr] at h
    by_cases hz : s.channels = 0
    · rw [if_pos hz] at h; cases h
    · exact Nat.pos_of_ne_zero hz

theorem ChannelMap.length_of_validate {m : ChannelMap} {s : StreamSpec} (h : m.validate s = .ok ()) :
    m.length = s.channels := by
  unfold validate at h
  by_cases hl : m.length = s.channels
  · exact hl
  · rw [if_pos hl] at h; cases h

namespace Config

/-- There are channels on both sides, and a position for each. -/
structure Shaped (c : Config) : Prop where
  input_pos : 0 < c.input.channels
  output_pos : 0 < c.output.channels
  inputMap : c.inputMap.length = c.input.channels
  outputMap : c.outputMap.length = c.output.channels

theorem shaped_of_validate {c : Config} (h : c.validate = .ok ()) : c.Shaped := by
  unfold validate at h
  cases hi : c.input.validate with
  | error f => rw [hi] at h; cases h
  | ok =>
    cases ho : c.output.validate with
    | error f => rw [hi, ho] at h; cases h
    | ok =>
      cases him : c.inputMap.validate c.input with
      | error f => rw [hi, ho, him] at h; cases h
      | ok =>
        cases hom : c.outputMap.validate c.output with
        | error f => rw [hi, ho, him, hom] at h; cases h
        | ok =>
          exact ⟨StreamSpec.channels_pos_of_validate hi, StreamSpec.channels_pos_of_validate ho,
            ChannelMap.length_of_validate him, ChannelMap.length_of_validate hom⟩

def matrix (c : Config) : Matrix Float32 := Matrix.build c.inputMap c.outputMap c.flags

/-- The channels of the converter: the fewer of both sides. -/
def width (c : Config) : Nat := min c.input.channels c.output.channels

variable {S : Type} [Sample S]

/-- Frames of the input's channels to frames of the output's. -/
def mix (c : Config) (fs : List (Frame S)) : List (Frame S) :=
  if c.matrix.isIdentity then fs else (Remapper.ofMatrix c.matrix).apply fs

/-- The part of the mix that comes before the converter. -/
def ahead (c : Config) (fs : List (Frame S)) : List (Frame S) :=
  if c.output.channels ≤ c.input.channels then c.mix fs else fs

/-- The part of the mix that comes after the converter. -/
def behind (c : Config) (fs : List (Frame S)) : List (Frame S) :=
  if c.output.channels ≤ c.input.channels then fs else c.mix fs

theorem mix_uniform {c : Config} (h : c.Shaped) {fs : List (Frame S)} (hf : Uniform c.input.channels fs) :
    Uniform c.output.channels (c.mix fs) := by
  unfold mix
  split
  · next hid =>
    have hl := Matrix.length_eq_of_isIdentity hid
    rw [h.inputMap, h.outputMap] at hl
    exact hl ▸ hf
  · refine Remapper.apply_uniform ?_ fs
    have := Matrix.length_shown_build (α := Float32) c.outputMap c.flags (h.inputMap ▸ h.input_pos)
    exact this.trans h.outputMap

theorem ahead_uniform {c : Config} (h : c.Shaped) {fs : List (Frame S)} (hf : Uniform c.input.channels fs) :
    Uniform c.width (c.ahead fs) := by
  unfold ahead width
  split
  · rw [Nat.min_eq_right ‹_›]
    exact mix_uniform h hf
  · rwa [Nat.min_eq_left (by omega)]

theorem behind_uniform {c : Config} (h : c.Shaped) {fs : List (Frame S)} (hf : Uniform c.width fs) :
    Uniform c.output.channels (c.behind fs) := by
  unfold behind
  unfold width at hf
  split
  · rwa [Nat.min_eq_right ‹_›] at hf
  · rw [Nat.min_eq_left (by omega)] at hf
    exact mix_uniform h hf

theorem mix_append (c : Config) (a b : List (Frame S)) : c.mix (a ++ b) = c.mix a ++ c.mix b := by
  unfold mix
  split
  · rfl
  · exact List.map_append

theorem ahead_append (c : Config) (a b : List (Frame S)) : c.ahead (a ++ b) = c.ahead a ++ c.ahead b := by
  unfold ahead
  split
  · exact mix_append c a b
  · rfl

theorem behind_append (c : Config) (a b : List (Frame S)) : c.behind (a ++ b) = c.behind a ++ c.behind b := by
  unfold behind
  split
  · rfl
  · exact mix_append c a b

theorem length_mix (c : Config) (fs : List (Frame S)) : (c.mix fs).length = fs.length := by
  unfold mix
  split
  · rfl
  · exact List.length_map ..

@[simp] theorem length_ahead (c : Config) (fs : List (Frame S)) : (c.ahead fs).length = fs.length := by
  unfold ahead
  split
  · exact length_mix c fs
  · rfl

@[simp] theorem length_behind (c : Config) (fs : List (Frame S)) : (c.behind fs).length = fs.length := by
  unfold behind
  split
  · rfl
  · exact length_mix c fs

end Config

/-! ## The crossover, where there is one -/

namespace Crossover

variable {S : Type} [Sample S]

def processAny (x : Option Crossover) (fs : List (Frame S)) : List (Frame S) × Option Crossover :=
  match x with
  | some x => let y := x.process fs; (y.1, some y.2)
  | none => (fs, none)

/-- A crossover that is there is for `n` channels. -/
def FitsAny (n : Nat) (x : Option Crossover) : Prop := ∀ y ∈ x, y.channels.length = n

theorem processAny_append (x : Option Crossover) (a b : List (Frame S)) :
    processAny x (a ++ b) =
      ((processAny x a).1 ++ (processAny (processAny x a).2 b).1, (processAny (processAny x a).2 b).2) := by
  cases x with
  | none => rfl
  | some x => simp only [processAny, process_append]

@[simp] theorem length_processAny (x : Option Crossover) (fs : List (Frame S)) :
    (processAny x fs).1.length = fs.length := by
  cases x with
  | none => rfl
  | some x => exact length_process x fs

theorem processAny_fits {n : Nat} {x : Option Crossover} {fs : List (Frame S)} (hx : FitsAny n x) (hf : Uniform n fs) :
    Uniform n (processAny x fs).1 ∧ FitsAny n (processAny x fs).2 ∧ (processAny x fs).2.map reset = x.map reset := by
  cases x with
  | none => exact ⟨hf, hx, rfl⟩
  | some x =>
    have hl : x.channels.length = n := hx x rfl
    obtain ⟨h1, h2, h3⟩ := process_channels (hl ▸ hf)
    refine ⟨hl ▸ h1, ?_, congrArg some h3⟩
    intro y hy
    cases hy
    exact h2.trans hl

end Crossover

/-! ## The stages -/

structure Stages (β S : Type) where
  converter : β
  crossover : Option Crossover
  /-- Frames that the converter has not used. -/
  leftover : List (Frame S)

namespace Stages

variable {β S : Type}

/-- What is seen of the stages; `f` tells what is of the converter. -/
def seen (f : β → β) (s : Stages β S) : Stages β S := { s with converter := f s.converter }

theorem seen_eq_iff {f : β → β} {s t : Stages β S} :
    s.seen f = t.seen f ↔ f s.converter = f t.converter ∧ s.crossover = t.crossover ∧ s.leftover = t.leftover := by
  simp only [seen, Stages.mk.injEq]

variable [RateConverter β S]

def reset (s : Stages β S) : Stages β S := ⟨RateConverter.reset S s.converter, s.crossover.map Crossover.reset, []⟩

def delay (s : Stages β S) : Nat := s.leftover.length + RateConverter.delay S s.converter

/-- The shape of a state between runs. -/
structure Fits (c : Config) (Ok : β → Prop) (s : Stages β S) : Prop where
  converter : Ok s.converter
  crossover : Crossover.FitsAny c.output.channels s.crossover
  leftover : Uniform c.width s.leftover
  passing : passes S s.converter = true → s.leftover = []

theorem reset_fits {c : Config} {Ok : β → Prop} (hk : Contract S c.width Ok) {s : Stages β S} (h : s.Fits c Ok) :
    s.reset.Fits c Ok where
  converter := hk.reset h.converter
  crossover := by
    intro y hy
    obtain ⟨x, hx, rfl⟩ := Option.map_eq_some_iff.mp hy
    exact (Crossover.length_channels_reset x).trans (h.crossover x hx)
  leftover := Uniform.nil
  passing _ := rfl

theorem reset_reset {c : Config} {Ok : β → Prop} {f : β → β} (hf : Forgets S c.width Ok f) {s : Stages β S}
    (h : s.Fits c Ok) :
    s.reset.reset.seen f = s.reset.seen f := by
  have hx : (s.crossover.map Crossover.reset).map Crossover.reset = s.crossover.map Crossover.reset := by
    cases s.crossover with
    | none => rfl
    | some x => exact congrArg some (Crossover.reset_reset x)
  simp only [reset, seen, hf.twice h.converter, hx]

theorem reset_seen {f : β → β} (hf : Sees S f) {s t : Stages β S} (h : s.seen f = t.seen f) :
    s.reset.seen f = t.reset.seen f := by
  obtain ⟨hc, hx, hl⟩ := seen_eq_iff.mp h
  simp only [reset, seen, hf.reset hc, hx]

theorem delay_seen {f : β → β} (hf : Sees S f) {s t : Stages β S} (h : s.seen f = t.seen f) : s.delay = t.delay := by
  obtain ⟨hc, hx, hl⟩ := seen_eq_iff.mp h
  rw [delay, delay, hl, hf.delay hc]

/-! ## A run -/

variable [Sample S]

/-- What the converter is fed: what is left over, and the input, mixed if the mix comes
    first. -/
def fed (c : Config) (s : Stages β S) (bytes : List UInt8) : List (Frame S) :=
  s.leftover ++ c.ahead (Codec.decodeFrames c.input.encoding c.input.channels bytes)

def run (c : Config) (s : Stages β S) (bytes : List UInt8) : List UInt8 × Stages β S :=
  let fed := s.fed c bytes
  let x := convert s.converter fed
  let y := Crossover.processAny s.crossover (c.behind x.frames)
  (Codec.encodeFrames c.output.encoding y.1, ⟨x.next, y.2, fed.drop (fed.length - x.unconsumed)⟩)

variable {c : Config} {Ok : β → Prop}

theorem fed_uniform (hc : c.Shaped) {s : Stages β S} (h : s.Fits c Ok) (bytes : List UInt8) :
    Uniform c.width (s.fed c bytes) :=
  h.leftover.append (Config.ahead_uniform hc (Codec.uniform_decodeFrames _ _ _))

omit [RateConverter β S] in
theorem length_fed (hc : c.Shaped) (s : Stages β S) (bytes : List UInt8) :
    (s.fed c bytes).length = s.leftover.length + bytes.length / c.input.frameSize := by
  rw [fed, List.length_append, Config.length_ahead, Codec.length_decodeFrames _ hc.input_pos]
  rfl

theorem behind_converted_uniform (hc : c.Shaped) (hk : Contract S c.width Ok) {s : Stages β S} (h : s.Fits c Ok)
    (bytes : List UInt8) : Uniform c.output.channels (c.behind (convert s.converter (s.fed c bytes)).frames) :=
  Config.behind_uniform hc (hk.whole h.converter (fed_uniform hc h bytes))

theorem run_fits (hc : c.Shaped) (hk : Contract S c.width Ok) {s : Stages β S} (h : s.Fits c Ok) (bytes : List UInt8) :
    (s.run c bytes).2.Fits c Ok where
  converter := hk.next h.converter (fed_uniform hc h bytes)
  crossover := (Crossover.processAny_fits h.crossover (behind_converted_uniform hc hk h bytes)).2.1
  leftover := (fed_uniform hc h bytes).drop _
  passing hp := by
    have hs : passes S s.converter = true := (hk.passes_next _).symm.trans hp
    simp only [run, hk.passing _ hs, Nat.sub_zero, List.drop_length]

/-- The bytes of a run are whole frames, as many as the converter gave. -/
theorem run_whole (hc : c.Shaped) (hk : Contract S c.width Ok) {s : Stages β S} (h : s.Fits c Ok) (bytes : List UInt8) :
    (s.run c bytes).1.length = (convert s.converter (s.fed c bytes)).frames.length * c.output.frameSize := by
  have hu := Crossover.processAny_fits h.crossover (behind_converted_uniform hc hk h bytes)
  simp only [run, Codec.length_encodeFrames _ hu.1, Crossover.length_processAny, Config.length_behind]
  rfl

/-! ## Cutting the input -/

/-- Nothing is left over by a converter that takes all. -/
theorem leftover_run (hc : c.Shaped) (hs : Splits S c.width Ok) {s : Stages β S} (h : s.Fits c Ok)
    (bytes : List UInt8) :
    (s.run c bytes).2.leftover = [] := by
  simp only [run, hs.all h.converter (fed_uniform hc h bytes), Nat.sub_zero, List.drop_length]

/-- Bytes of whole frames may be run in two parts. -/
theorem run_append (hc : c.Shaped) (hk : Contract S c.width Ok) (hs : Splits S c.width Ok) {s : Stages β S}
    (h : s.Fits c Ok) (hl : s.leftover = []) {a : List UInt8} (b : List UInt8) (ha : c.input.frameSize ∣ a.length) :
    s.run c (a ++ b) =
      let x := s.run c a
      let y := x.2.run c b
      (x.1 ++ y.1, y.2) := by
  have hx : (s.run c a).2.leftover = [] := leftover_run hc hs h a
  have hfit := run_fits hc hk h a
  have hfa := fed_uniform hc h a
  have hfb := fed_uniform hc hfit b
  have hfed : s.fed c (a ++ b) = s.fed c a ++ (s.run c a).2.fed c b := by
    simp only [fed, hl, hx, List.nil_append, Codec.decodeFrames_append _ _ a b ha, Config.ahead_append]
  have happ := hs.append h.converter hfa hfb
  have hall := hs.all hfit.converter hfb
  simp only [run] at hfed happ hall
  simp only [run, hfed, happ, convertTwice, Config.behind_append, Crossover.processAny_append,
    Codec.encodeFrames_append, hall, Nat.sub_zero, List.drop_length]

/-! ## Starting anew -/

/-- What is not seen of a state matters to no run. -/
theorem run_seen {f : β → β} (hf : Sees S f) {s t : Stages β S} (h : s.seen f = t.seen f) (bytes : List UInt8) :
    (s.run c bytes).1 = (t.run c bytes).1 ∧ (s.run c bytes).2.seen f = (t.run c bytes).2.seen f := by
  obtain ⟨hc, hx, hl⟩ := seen_eq_iff.mp h
  have hfed : s.fed c bytes = t.fed c bytes := by rw [fed, fed, hl]
  obtain ⟨h1, h2, h3⟩ := hf.convert (t.fed c bytes) hc
  simp only [run, hfed, h1, h2, hx, seen, h3, and_self]

/-- A reset leaves nothing of a run. -/
theorem reset_run (hc : c.Shaped) (hk : Contract S c.width Ok) {f : β → β} (hf : Forgets S c.width Ok f)
    {s : Stages β S} (h : s.Fits c Ok) (bytes : List UInt8) : (s.run c bytes).2.reset.seen f = s.reset.seen f := by
  have hx := Crossover.processAny_fits h.crossover (behind_converted_uniform hc hk h bytes)
  simp only [run, reset, seen, hf.run h.converter (fed_uniform hc h bytes), hx.2.2]

end Stages

end PcmConvert
