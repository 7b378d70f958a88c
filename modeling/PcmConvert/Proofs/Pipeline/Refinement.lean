/-
  PcmConvert.Proofs.Pipeline.Refinement — the buffers of a pipeline against its stages as
  plain functions. What a pipeline holds between runs is the frames of its slot, all of them
  unless the converter passes frames on, and none then (`Fits`). From there a run is the
  plain one, wherever the frames lie on their way and whatever older runs left in the
  buffers (`run_stages`).
-/

import PcmConvert.Pipeline
import PcmConvert.Proofs.Pipeline.Stages

namespace PcmConvert

open RateConverter

variable {β S : Type}

namespace Buffers

@[simp] theorem read_write_self (b : Buffers S) (caller fs : List (Frame S)) {x : Place} (h : x ≠ .caller) :
    (b.write fs x).read caller x = fs := by
  cases x with
  | caller => exact absurd rfl h
  | _ => rfl

theorem read_write_of_ne (b : Buffers S) (caller fs : List (Frame S)) {x y : Place} (h : x ≠ y) :
    (b.write fs x).read caller y = b.read caller y := by
  cases x <;> cases y <;> first | rfl | exact absurd rfl h

/-- Only the caller's frames depend on the caller. -/
theorem read_caller (b : Buffers S) (caller : List (Frame S)) {x : Place} (h : x ≠ .caller) :
    b.read caller x = b.read [] x := by
  cases x with
  | caller => exact absurd rfl h
  | _ => rfl

end Buffers

theorem Slot.place_ne_caller (s : Slot) : s.place ≠ .caller := by cases s <;> decide

theorem Slot.place_ne_converted (s : Slot) : s.place ≠ .converted := by cases s <;> decide

namespace Pipeline

/-- The frames of the buffer that the converter is fed from. -/
def slotFrames (p : Pipeline β S) : List (Frame S) := p.buffers.read [] p.slot.place

/-- Those of them that are carried over. -/
def leftover (p : Pipeline β S) : List (Frame S) := p.slotFrames.take p.carried

def stages (p : Pipeline β S) : Stages β S := ⟨p.converter, p.crossover, p.leftover⟩

theorem leftover_of_carried_eq_zero {p : Pipeline β S} (h : p.carried = 0) : p.leftover = [] := by
  rw [leftover, h, List.take_zero]

variable [RateConverter β S]

/-- The stages are those of the configuration, and the slot holds what is carried over. -/
structure Fits (c : Config) (Ok : β → Prop) (p : Pipeline β S) : Prop where
  inputEncoding : p.inputEncoding = c.input.encoding
  outputEncoding : p.outputEncoding = c.output.encoding
  inputChannels : p.inputChannels = c.input.channels
  remapper : p.remapper = if c.matrix.isIdentity then none else some (Remapper.ofMatrix c.matrix)
  slot : p.slot = Slot.ofChannels c.input.channels c.output.channels
  stages : p.stages.Fits c Ok
  held : passes S p.converter = false → p.slotFrames.length = p.carried
  idle : passes S p.converter = true → p.carried = 0

variable {c : Config} {Ok : β → Prop} {p : Pipeline β S}

/-- Unless frames pass, all of the slot is carried over. -/
theorem Fits.leftover_eq (h : p.Fits c Ok) (hp : passes S p.converter = false) : p.leftover = p.slotFrames := by
  rw [leftover, ← h.held hp, List.take_length]

/-- A slot that holds `l` alone carries `l` over. -/
theorem leftover_eq_of_slotFrames {l : List (Frame S)} (hc : p.carried = l.length)
    (hheld : passes S p.converter = false → p.slotFrames = l) (hidle : passes S p.converter = true → l = []) :
    p.leftover = l := by
  cases hb : passes S p.converter with
  | false => rw [leftover, hc, hheld hb, List.take_length]
  | true =>
    rw [hidle hb] at hc ⊢
    exact leftover_of_carried_eq_zero hc

/-- Frames are carried over by a converter that does not pass them on. -/
theorem Fits.passes_eq_false (h : p.Fits c Ok) (hp : p.carried ≠ 0) : passes S p.converter = false := by
  cases hb : passes S p.converter with
  | false => rfl
  | true => exact absurd (h.idle hb) hp

theorem Fits.length_leftover (h : p.Fits c Ok) : p.leftover.length = p.carried := by
  cases hb : passes S p.converter with
  | false => rw [h.leftover_eq hb, h.held hb]
  | true => rw [leftover_of_carried_eq_zero (h.idle hb), h.idle hb, List.length_nil]

theorem Fits.delay_eq (h : p.Fits c Ok) : p.delay = p.stages.delay := by
  show p.carried + RateConverter.delay S p.converter = p.leftover.length + RateConverter.delay S p.converter
  rw [h.length_leftover]

variable [Sample S]

theorem Fits.mix_eq (h : p.Fits c Ok) (fs : List (Frame S)) :
    c.mix fs = match p.remapper with
      | some m => m.apply fs
      | none => fs := by
  rw [h.remapper, Config.mix]
  split <;> rfl

theorem Fits.ahead_eq (h : p.Fits c Ok) (fs : List (Frame S)) :
    c.ahead fs = if p.slot = .afterMix then c.mix fs else fs := by
  rw [h.slot, Config.ahead, Slot.ofChannels]
  by_cases hle : c.output.channels ≤ c.input.channels
  · rw [if_pos hle, if_pos hle, if_pos rfl]
  · rw [if_neg hle, if_neg hle, if_neg (by decide)]

theorem Fits.behind_eq (h : p.Fits c Ok) (fs : List (Frame S)) :
    c.behind fs = if p.slot = .afterMix then fs else c.mix fs := by
  rw [h.slot, Config.behind, Slot.ofChannels]
  by_cases hle : c.output.channels ≤ c.input.channels
  · rw [if_pos hle, if_pos hle, if_pos rfl]
  · rw [if_neg hle, if_neg hle, if_neg (by decide)]

end Pipeline

/-! ## Up to the converter -/

namespace Run

open Pipeline

/-- A run of `p` that has come to the converter: the frames are the caller's, or fill the
    slot. -/
structure Fed (p : Pipeline β S) (fs : List (Frame S)) (r : Run β S) : Prop where
  pipeline : ∃ b, r.pipeline = { p with buffers := b }
  frames : r.frames = fs
  place : r.place = .caller ∨ r.place = p.slot.place

theorem fed_put {p : Pipeline β S} {r : Run β S} (h : ∃ b, r.pipeline = { p with buffers := b }) (fs : List (Frame S))
    {x : Place} (hx : x = p.slot.place) : Fed p fs (r.put fs x) where
  pipeline := by
    obtain ⟨b, hb⟩ := h
    exact ⟨b.write fs x, by rw [put, hb]⟩
  frames := Buffers.read_write_self _ _ _ (hx ▸ p.slot.place_ne_caller)
  place := .inr hx

/-- The mix does not come first: what is carried over stands before the input. -/
theorem fed_load [Sample S] {p : Pipeline β S} {viewed : Bool} (input : List (Frame S)) (hs : p.slot = .beforeMix)
    (hv : viewed = true → p.carried = 0) : Fed p (p.leftover ++ input) (p.load viewed input) := by
  cases viewed with
  | true =>
    rw [leftover_of_carried_eq_zero (hv rfl)]
    exact ⟨⟨_, rfl⟩, rfl, .inl rfl⟩
  | false =>
    have hslot : p.slot.place = .decoded := by rw [hs]; rfl
    have hl : p.leftover = p.buffers.decoded.take p.carried := by rw [leftover, slotFrames, hslot]; rfl
    have hload : p.load false input = put ⟨p, [], .decoded⟩ (p.leftover ++ input) .decoded := by
      rw [load, if_neg (by decide), if_pos hs, hl]
    rw [hload]
    exact fed_put (p := p) ⟨_, rfl⟩ _ hslot.symm

/-- Where the mix comes first the input is not behind what is carried over yet, and the slot
    is as it was. -/
theorem load_afterMix {p : Pipeline β S} (viewed : Bool) (input : List (Frame S)) (hs : p.slot = .afterMix) :
    (p.load viewed input).frames = input ∧
      ∃ b, (p.load viewed input).pipeline = { p with buffers := b } ∧ b.mixed = p.buffers.mixed := by
  cases viewed with
  | true => exact ⟨rfl, _, rfl, rfl⟩
  | false =>
    have hload : p.load false input = put ⟨p, [], .decoded⟩ input .decoded := by
      rw [load, if_neg (by decide), if_neg (by rw [hs]; decide)]
      rfl
    rw [hload]
    exact ⟨rfl, _, rfl, rfl⟩

variable [RateConverter β S] {c : Config} {Ok : β → Prop} {p : Pipeline β S}

/-- The mix comes first: the mixed input is behind what is carried over. -/
theorem fed_mixAhead [Sample S] (h : p.Fits c Ok) (hs : p.slot = .afterMix) (viewed : Bool) (input : List (Frame S)) :
    Fed p (p.leftover ++ c.mix input) (p.load viewed input).mixAhead := by
  obtain ⟨hframes, b, hpipe, hmixed⟩ := load_afterMix viewed input hs
  have hslot : p.slot.place = .mixed := by rw [hs]; rfl
  have hl : p.leftover = p.buffers.mixed.take p.carried := by rw [leftover, slotFrames, hslot]; rfl
  generalize p.load viewed input = r at hframes hpipe
  rw [h.mix_eq, hl, ← hmixed, ← hframes]
  simp only [mixAhead, hpipe]
  cases hm : p.remapper with
  | some m => exact fed_put ⟨b, hpipe⟩ _ hslot.symm
  | none =>
    by_cases hz : p.carried = 0
    · -- nothing is carried over, and no frame has to move
      simp only [hz, if_pos, List.take_zero, List.nil_append]
      by_cases hc : r.place = .caller
      · rw [if_pos hc]
        exact ⟨⟨b, hpipe⟩, rfl, .inl hc⟩
      · rw [if_neg hc]
        exact ⟨⟨_, by rw [← hm, ← hz]⟩, rfl, .inr hslot.symm⟩
    · have hheld := h.held (h.passes_eq_false hz)
      rw [slotFrames, hslot] at hheld
      have hall : b.mixed.length = p.carried := hmixed ▸ hheld
      simp only [hz, if_neg, not_false_eq_true]
      rw [← hall, List.take_length]
      exact fed_put ⟨b, hpipe⟩ _ hslot.symm

/-! ## From the converter on -/

/-- A run of `p` that is past the converter: `s` is the state of the stages by then. -/
structure Holds (p : Pipeline β S) (s : Stages β S) (fs : List (Frame S)) (r : Run β S) : Prop where
  pipeline : ∃ b, r.pipeline = { p with
    converter := s.converter, crossover := s.crossover, carried := s.leftover.length, buffers := b }
  frames : r.frames = fs
  /-- What is left over fills the slot, and no later stage works there. -/
  held : passes S s.converter = false → r.pipeline.slotFrames = s.leftover ∧ r.place ≠ p.slot.place
  idle : passes S s.converter = true → s.leftover = []

theorem holds_convert (hk : Contract S c.width Ok) (h : p.Fits c Ok) {fs : List (Frame S)} (hf : Uniform c.width fs)
    {r : Run β S} (hr : Fed p fs r) :
    let x := RateConverter.convert p.converter fs
    Holds p ⟨x.next, p.crossover, fs.drop (fs.length - x.unconsumed)⟩ x.frames r.convert := by
  obtain ⟨⟨b, hpipe⟩, hframes, hplace⟩ := hr
  cases hb : passes S p.converter with
  | true =>
    have hconv : r.convert = r := by
      simp only [convert, hpipe, hb, if_pos]
    simp only [hconv, hk.passing fs hb, Nat.sub_zero, List.drop_length]
    refine ⟨⟨b, ?_⟩, hframes, fun hn => ?_, fun _ => rfl⟩
    · rw [hpipe, h.idle hb]
      rfl
    · exact absurd (hb.symm.trans hn) (by decide)
  | false =>
    have hmin : min (RateConverter.convert p.converter fs).unconsumed fs.length = _ :=
      Nat.min_eq_left (hk.tail h.stages.converter hf)
    have hkept : (if r.place = .caller then r.caller else b.read [] p.slot.place) = fs := by
      rw [frames, hpipe] at hframes
      rcases hplace with hc | hc
      · rw [if_pos hc, ← hframes, hc]
        rfl
      · rw [if_neg (hc ▸ p.slot.place_ne_caller), ← hframes, hc]
        exact (Buffers.read_caller b r.caller p.slot.place_ne_caller).symm
    generalize hx : RateConverter.convert p.converter fs = x at hmin
    have hconv : r.convert = { r with
        pipeline := { p with
          converter := x.next
          carried := x.unconsumed
          buffers := { b.write (fs.drop (fs.length - x.unconsumed)) p.slot.place with converted := x.frames } }
        place := .converted } := by
      simp only [convert, hpipe, hb, hframes, hx, hmin, ← apply_ite (List.drop _), hkept]
      rfl
    have hlen : (fs.drop (fs.length - x.unconsumed)).length = x.unconsumed := by
      rw [List.length_drop]
      omega
    rw [hconv]
    refine ⟨⟨_, by rw [hlen]⟩, rfl, fun _ => ⟨?_, p.slot.place_ne_converted.symm⟩, fun hn => ?_⟩
    · simp only [slotFrames]
      cases p.slot <;> rfl
    · have hp := hk.passes_next (b := p.converter) fs
      rw [hx] at hp
      exact absurd (hn.symm.trans (hp.trans hb)) (by decide)

/-- Frames of a later stage that come into a buffer leave the slot alone, if it is another. -/
theorem holds_put {s : Stages β S} {fs : List (Frame S)} {r : Run β S} (hr : Holds p s fs r) (gs : List (Frame S))
    {x : Place} (hs : passes S s.converter = false → x ≠ p.slot.place) (hc : x ≠ .caller) :
    Holds p s gs (r.put gs x) := by
  obtain ⟨⟨b, hpipe⟩, _, hheld, hidle⟩ := hr
  refine ⟨⟨b.write gs x, by rw [put, hpipe]⟩, Buffers.read_write_self _ _ _ hc, fun hp => ⟨?_, hs hp⟩, hidle⟩
  obtain ⟨hl, _⟩ := hheld hp
  rw [slotFrames, hpipe] at hl
  simp only [slotFrames, put, hpipe]
  rw [Buffers.read_write_of_ne _ _ _ (hs hp), hl]

/-- Frames that are the caller's come into a buffer of their own before they are changed. -/
theorem holds_owned {s : Stages β S} {fs : List (Frame S)} {r : Run β S} (hr : Holds p s fs r) :
    let q := if r.place = .caller then r.put r.caller .converted else r
    Holds p s fs q ∧ q.place ≠ .caller := by
  by_cases hc : r.place = .caller
  · have hcaller : r.caller = fs := by
      rw [← hr.frames, frames, hc]
      rfl
    rw [if_pos hc]
    exact ⟨hcaller ▸ holds_put hr r.caller (fun _ => p.slot.place_ne_converted.symm) (by decide), Place.noConfusion⟩
  · rw [if_neg hc]
    exact ⟨hr, hc⟩

variable [Sample S]

theorem holds_mixBehind (h : p.Fits c Ok) (hs : p.slot = .beforeMix) {s : Stages β S} {fs : List (Frame S)}
    {r : Run β S} (hr : Holds p s fs r) : Holds p s (c.mix fs) r.mixBehind := by
  obtain ⟨b, hpipe⟩ := hr.pipeline
  have hslot : Place.mixed ≠ p.slot.place := by
    rw [hs]
    decide
  rw [h.mix_eq, ← hr.frames]
  simp only [mixBehind, hpipe]
  cases hm : p.remapper with
  | none => exact hr.frames ▸ hr
  | some m => exact holds_put hr (m.apply r.frames) (fun _ => hslot) (by decide)

theorem holds_split {s : Stages β S} {fs : List (Frame S)} {r : Run β S} (hr : Holds p s fs r) :
    let y := Crossover.processAny s.crossover fs
    Holds p { s with crossover := y.2 } y.1 r.split := by
  obtain ⟨converter, crossover, leftover⟩ := s
  obtain ⟨b, hpipe⟩ := hr.pipeline
  cases crossover with
  | none =>
    have hsplit : r.split = r := by simp only [split, hpipe]
    rw [hsplit]
    exact hr
  | some x =>
    obtain ⟨hq, hplace⟩ := holds_owned hr
    generalize hown : (if r.place = .caller then r.put r.caller .converted else r) = q at hq hplace
    have hsplit : r.split =
        put { q with pipeline := { q.pipeline with crossover := some (x.process fs).2 } } (x.process fs).1 q.place := by
      simp only [split, hpipe, hown, hq.frames]
      rfl
    obtain ⟨⟨d, hqpipe⟩, hframes, hheld, hidle⟩ := hq
    have hcrossed : Holds p ⟨converter, some (x.process fs).2, leftover⟩ fs
        { q with pipeline := { q.pipeline with crossover := some (x.process fs).2 } } :=
      ⟨⟨d, by rw [hqpipe]⟩, hframes, hheld, hidle⟩
    rw [hsplit]
    exact holds_put hcrossed _ (fun hp => (hheld hp).2) hplace

end Run

/-! ## A run -/

namespace Pipeline

variable [Sample S]

theorem carried_eq_zero_of_views {p : Pipeline β S} {aligned : Bool} (hs : p.slot = .beforeMix)
    (hv : p.views aligned = true) :
    p.carried = 0 := by
  simp only [views, Bool.and_eq_true, Bool.or_eq_true, beq_iff_eq, hs] at hv
  rcases hv.2 with hn | hz
  · cases hn
  · exact hz

variable [RateConverter β S] {c : Config} {Ok : β → Prop} {p : Pipeline β S}

theorem holds_runStages (hc : c.Shaped) (hk : Contract S c.width Ok) (h : p.Fits c Ok) (aligned : Bool)
    (bytes : List UInt8) :
    let x := convert p.converter (p.stages.fed c bytes)
    Run.Holds p (p.stages.run c bytes).2 (Crossover.processAny p.crossover (c.behind x.frames)).1
      (p.runStages aligned bytes) := by
  have hf := Stages.fed_uniform hc h.stages bytes
  have hfed : p.stages.fed c bytes =
      p.leftover ++ c.ahead (Codec.decodeFrames p.inputEncoding p.inputChannels bytes) := by
    rw [h.inputEncoding, h.inputChannels]
    rfl
  cases hs : p.slot with
  | afterMix =>
    rw [h.ahead_eq, if_pos hs] at hfed
    have hmix := Run.fed_mixAhead h hs (p.views aligned) (Codec.decodeFrames p.inputEncoding p.inputChannels bytes)
    rw [← hfed] at hmix
    have hconv := Run.holds_split (Run.holds_convert hk h hf hmix)
    have hbehind : ∀ fs : List (Frame S), c.behind fs = fs := by
      intro fs
      rw [h.behind_eq, if_pos hs]
    simp only [runStages, hs, Stages.run, hbehind]
    exact hconv
  | beforeMix =>
    rw [h.ahead_eq, if_neg (by rw [hs]; decide)] at hfed
    have hview : p.views aligned = true → p.carried = 0 := carried_eq_zero_of_views hs
    have hload := Run.fed_load (Codec.decodeFrames p.inputEncoding p.inputChannels bytes) hs hview
    rw [← hfed] at hload
    have hconv := Run.holds_split (Run.holds_mixBehind h hs (Run.holds_convert hk h hf hload))
    have hbehind : ∀ fs : List (Frame S), c.behind fs = c.mix fs := by
      intro fs
      rw [h.behind_eq, if_neg (by rw [hs]; decide)]
    simp only [runStages, hs, Stages.run, hbehind]
    exact hconv

omit [Sample S] in
/-- A run that is past the converter leaves a pipeline that fits. -/
theorem fits_of_holds (h : p.Fits c Ok) {s : Stages β S} (hfit : s.Fits c Ok) {fs : List (Frame S)} {r : Run β S}
    (hr : Run.Holds p s fs r) : r.pipeline.stages = s ∧ r.pipeline.Fits c Ok := by
  obtain ⟨hpipe, _, hheld, hidle⟩ := hr
  generalize r.pipeline = q at hpipe hheld
  obtain ⟨b, rfl⟩ := hpipe
  have hslot : passes S s.converter = false → b.read [] p.slot.place = s.leftover := fun hp => (hheld hp).1
  have hl := leftover_eq_of_slotFrames (p := { p with
    converter := s.converter, crossover := s.crossover, carried := s.leftover.length, buffers := b }) rfl hslot hidle
  have hstages : stages { p with
      converter := s.converter, crossover := s.crossover, carried := s.leftover.length, buffers := b } = s :=
    congrArg (Stages.mk s.converter s.crossover) hl
  refine ⟨hstages, ?_⟩
  exact {
    inputEncoding := h.inputEncoding
    outputEncoding := h.outputEncoding
    inputChannels := h.inputChannels
    remapper := h.remapper
    slot := h.slot
    stages := by
      rw [hstages]
      exact hfit
    held := fun hp => congrArg List.length (hslot hp)
    idle := fun hp => congrArg List.length (hidle hp) }

/-- A run does to the stages what it would without buffers, and leaves a pipeline that fits. -/
theorem run_stages (hc : c.Shaped) (hk : Contract S c.width Ok) (h : p.Fits c Ok) (aligned : Bool)
    (bytes : List UInt8) :
    (p.run aligned bytes).value.1 = (p.stages.run c bytes).1 ∧
      (p.run aligned bytes).value.2.stages = (p.stages.run c bytes).2 ∧ (p.run aligned bytes).value.2.Fits c Ok := by
  have hholds := holds_runStages hc hk h aligned bytes
  have hout : (p.run aligned bytes).value.1 = (p.stages.run c bytes).1 := by
    simp only [run, hholds.frames, h.outputEncoding]
    rfl
  exact ⟨hout, fits_of_holds h (Stages.run_fits hc hk h.stages bytes) hholds⟩

end Pipeline

end PcmConvert
