/-
  PcmConvert.Proofs.Pipeline.Reached — the states that a pipeline gets into by runs, resets,
  jumps back and changes of rates, also those that fail. Each of them fits its
  configuration (`fits_of_reached`), whatever the converter, as long as that keeps its
  contract; so every run in such a state is one of the plain stages
  (`run_composes_stages`).
-/

import PcmConvert.Proofs.Pipeline.Refinement
import PcmConvert.Proofs.Rate.Chunked

namespace PcmConvert

open RateConverter

namespace Pipeline

variable {β S : Type}

/-! ## Calls other than runs -/

/-- There is a crossover where one is asked for and low frequencies are made from all
    inputs, and it is made for the output. -/
theorem createCrossover_eq_ok {c : Config} {m : Matrix Float32} {x : Option Crossover} :
    createCrossover c m = .ok x ↔
      (x = none ∧ (c.crossover = none ∨ m.lfeSynthesized = false)) ∨
        ∃ f y, c.crossover = some f ∧ m.lfeSynthesized = true ∧
          Crossover.create? c.outputMap f c.output.rate = some y ∧ x = some y := by
  unfold createCrossover
  constructor
  · intro h
    split at h
    · next f hf =>
      split at h
      · next hm =>
        split at h
        · next y hy =>
          cases h
          exact .inr ⟨f, y, hf, hm, hy, rfl⟩
        · cases h
      · next hm =>
        cases h
        exact .inl ⟨rfl, .inr (eq_false_of_ne_true hm)⟩
    · next hf =>
      cases h
      exact .inl ⟨rfl, .inl hf⟩
  · rintro (⟨rfl, hn | hm⟩ | ⟨f, y, hf, hm, hy, rfl⟩)
    · rw [hn]
    · rw [hm]
      cases c.crossover <;> rfl
    · simp only [hf, hm, hy, if_pos]

theorem createCrossover_fits {c : Config} {m : Matrix Float32} {x : Option Crossover} (hc : c.Shaped)
    (h : createCrossover c m = .ok x) : Crossover.FitsAny c.output.channels x := by
  intro z hz
  rcases createCrossover_eq_ok.mp h with ⟨rfl, _⟩ | ⟨f, y, _, _, hy, rfl⟩
  · cases hz
  · cases hz
    exact (Crossover.length_channels_of_create? hy).trans hc.outputMap

theorem create_eq_ok {c : Config} {m : Matrix Float32} {make : Nat → Except Fault β} {p : Pipeline β S} :
    create c m make = .ok p ↔ ∃ b x, make c.width = .ok b ∧ createCrossover c m = .ok x ∧ p = {
      inputEncoding := c.input.encoding
      outputEncoding := c.output.encoding
      inputChannels := c.input.channels
      remapper := if m.isIdentity then none else some (Remapper.ofMatrix m)
      slot := Slot.ofChannels c.input.channels c.output.channels
      converter := b
      crossover := x
      carried := 0
      buffers := {} } := by
  unfold create
  show (make c.width).mapError Refusal.fault >>= _ = _ ↔ _
  constructor
  · intro h
    cases hb : make c.width with
    | error f => rw [hb] at h; cases h
    | ok b =>
      rw [hb] at h
      cases hx : createCrossover c m with
      | error e => rw [hx] at h; cases h
      | ok x =>
        rw [hx] at h
        cases h
        exact ⟨b, x, rfl, rfl, rfl⟩
  · rintro ⟨b, x, hb, hx, rfl⟩
    rw [hb, hx]
    rfl

variable [RateConverter β S]

/-- What a change of rates answers and leaves, from what the converter answers. -/
theorem retune_error {p : Pipeline β S} {r : Rates} {f : Fault}
    (h : (RateConverter.retune S p.converter r).value = .error f) :
    (p.retune r).value = (.error (.fault f), p) := by
  simp only [retune, bind, h]
  rfl

theorem retune_ok {p : Pipeline β S} {r : Rates} {b : β} (h : (RateConverter.retune S p.converter r).value = .ok b) :
    (p.retune r).value =
      match p.crossover with
      | none => (.ok (), { p with converter := b })
      | some x => match x.setRate? r.output with
        | some y => (.ok (), { p with converter := b, crossover := some y })
        | none => (.error (.halt (.noCutoff r.output)), { p with converter := b }) := by
  simp only [retune, bind, h]
  cases p.crossover with
  | none => rfl
  | some x =>
    dsimp only
    cases x.setRate? r.output with
    | none => rfl
    | some y => rfl

/-- All that a change of rates can come to: refused by the converter, which leaves the
    pipeline; taken by the converter, and by the crossover if there is one; or taken by the
    converter alone. -/
inductive Retuned (p : Pipeline β S) (r : Rates) : Except Refusal Unit × Pipeline β S → Prop
  | refused {f : Fault} : (RateConverter.retune S p.converter r).value = .error f → Retuned p r (.error (.fault f), p)
  | plain {b : β} : (RateConverter.retune S p.converter r).value = .ok b → p.crossover = none →
      Retuned p r (.ok (), { p with converter := b })
  | both {b : β} {x y : Crossover} : (RateConverter.retune S p.converter r).value = .ok b → p.crossover = some x →
      x.setRate? r.output = some y → Retuned p r (.ok (), { p with converter := b, crossover := some y })
  | halted {b : β} {x : Crossover} : (RateConverter.retune S p.converter r).value = .ok b → p.crossover = some x →
      x.setRate? r.output = none → Retuned p r (.error (.halt (.noCutoff r.output)), { p with converter := b })

theorem retuned (p : Pipeline β S) (r : Rates) : Retuned p r (p.retune r).value := by
  cases hv : (RateConverter.retune S p.converter r).value with
  | error f =>
    rw [retune_error hv]
    exact .refused hv
  | ok b =>
    rw [retune_ok hv]
    cases hx : p.crossover with
    | none =>
      dsimp only
      rw [← hx]
      exact .plain hv hx
    | some x =>
      dsimp only
      cases hy : x.setRate? r.output with
      | none =>
        dsimp only
        rw [← hx]
        exact .halted hv hx hy
      | some y => exact .both hv hx hy

/-- A change that the converter refuses leaves the pipeline. -/
theorem retune_fault {p : Pipeline β S} {r : Rates} {f : Fault} (h : (p.retune r).value.1 = .error (.fault f)) :
    (p.retune r).value.2 = p := by
  have hr := p.retuned r
  generalize (p.retune r).value = v at h hr
  cases hr with
  | refused _ => rfl
  | plain _ _ => cases h
  | both _ _ _ => cases h
  | halted _ _ _ => cases h

/-- What is carried over stays. -/
theorem carried_retune (p : Pipeline β S) (r : Rates) : (p.retune r).value.2.carried = p.carried := by
  have hr := p.retuned r
  generalize (p.retune r).value = v at hr
  cases hr <;> rfl

/-! ## Pipelines fit their configuration -/

variable {c : Config} {Ok : β → Prop} {p : Pipeline β S}

theorem fits_create (hc : c.Shaped) {make : Nat → Except Fault β} (hm : ∀ {b}, make c.width = .ok b → Ok b)
    (h : create c c.matrix make = .ok p) : p.Fits c Ok := by
  obtain ⟨b, x, hb, hx, rfl⟩ := create_eq_ok.mp h
  refine ⟨rfl, rfl, rfl, rfl, rfl, ?_, fun _ => ?_, fun _ => rfl⟩
  · exact ⟨hm hb, createCrossover_fits hc hx, Uniform.nil, fun _ => rfl⟩
  · simp only [slotFrames]
    cases Slot.ofChannels c.input.channels c.output.channels <;> rfl

theorem fits_reset (hk : Contract S c.width Ok) (h : p.Fits c Ok) : p.reset.Fits c Ok where
  inputEncoding := h.inputEncoding
  outputEncoding := h.outputEncoding
  inputChannels := h.inputChannels
  remapper := h.remapper
  slot := h.slot
  stages := Stages.reset_fits hk h.stages
  held _ := congrArg List.length (Buffers.read_write_self p.buffers [] [] p.slot.place_ne_caller)
  idle _ := rfl

theorem fits_retuned (h : p.Fits c Ok) {b : β} {x : Option Crossover} (hb : Ok b)
    (hp : passes S b = passes S p.converter) (hx : Crossover.FitsAny c.output.channels x) :
    Fits c Ok { p with converter := b, crossover := x } where
  inputEncoding := h.inputEncoding
  outputEncoding := h.outputEncoding
  inputChannels := h.inputChannels
  remapper := h.remapper
  slot := h.slot
  stages := ⟨hb, hx, h.stages.leftover, fun ht => h.stages.passing (hp.symm.trans ht)⟩
  held hf := h.held (hp.symm.trans hf)
  idle ht := h.idle (hp.symm.trans ht)

theorem fits_retune (hk : Contract S c.width Ok) (h : p.Fits c Ok) (r : Rates) : (p.retune r).value.2.Fits c Ok := by
  have hr := p.retuned r
  generalize (p.retune r).value = v at hr
  have hx : Crossover.FitsAny c.output.channels p.crossover := h.stages.crossover
  cases hr with
  | refused _ => exact h
  | plain hv _ => exact fits_retuned h (hk.retune h.stages.converter hv) (hk.passes_retune hv) hx
  | both hv hc hy =>
    refine fits_retuned h (hk.retune h.stages.converter hv) (hk.passes_retune hv) fun z hz => ?_
    cases hz
    exact (Crossover.length_channels_setRate? hy).trans (hx _ hc)
  | halted hv _ _ => exact fits_retuned h (hk.retune h.stages.converter hv) (hk.passes_retune hv) hx

variable [Sample S]

/-- The states that calls lead to, also those that fail. -/
inductive Reached (c : Config) (make : Nat → Except Fault β) : Pipeline β S → Prop
  | create {p : Pipeline β S} : create c c.matrix make = .ok p → Reached c make p
  | run {p : Pipeline β S} (aligned : Bool) (bytes : List UInt8) :
      Reached c make p → Reached c make (p.run aligned bytes).value.2
  | reset {p : Pipeline β S} : Reached c make p → Reached c make p.reset
  | rewind {p : Pipeline β S} : Reached c make p → Reached c make p.rewind
  | retune {p : Pipeline β S} (r : Rates) : Reached c make p → Reached c make (p.retune r).value.2

theorem fits_of_reached {make : Nat → Except Fault β} (hc : c.Shaped) (hk : Contract S c.width Ok)
    (hm : ∀ {b}, make c.width = .ok b → Ok b) (h : Reached c make p) : p.Fits c Ok := by
  induction h with
  | create h => exact fits_create hc hm h
  | run aligned bytes _ ih => exact (run_stages hc hk ih aligned bytes).2.2
  | reset _ ih => exact fits_reset hk ih
  | rewind _ ih => exact fits_reset hk ih
  | retune r _ ih => exact fits_retune hk ih r

/-- In every state the slot holds what is carried over. A run feeds the converter that and
    the input, mixed before if the output has no more channels; carries over what the
    converter does not use; and gives the rest of the stages, as whole frames. -/
theorem run_composes_stages {make : Nat → Except Fault β} (hc : c.validate = .ok ()) (hk : Contract S c.width Ok)
    (hm : ∀ {b}, make c.width = .ok b → Ok b) (h : Reached c make p) (aligned : Bool) (bytes : List UInt8) :
    let fed := p.leftover ++ c.ahead (Codec.decodeFrames c.input.encoding c.input.channels bytes)
    let x := RateConverter.convert p.converter fed
    let y := Crossover.processAny p.crossover (c.behind x.frames)
    let out := (p.run aligned bytes).value.1
    let q := (p.run aligned bytes).value.2
    p.slot = Slot.ofChannels c.input.channels c.output.channels ∧
      (passes S p.converter = false → p.leftover = p.slotFrames ∧ p.slotFrames.flatten.length = p.carried * c.width) ∧
      (passes S p.converter = true → p.leftover = []) ∧
      q.converter = x.next ∧ q.crossover = y.2 ∧ q.leftover = fed.drop (fed.length - x.unconsumed) ∧
      q.carried = x.unconsumed ∧ out = Codec.encodeFrames c.output.encoding y.1 ∧ c.output.frameSize ∣ out.length := by
  have hs := Config.shaped_of_validate hc
  have hfit := fits_of_reached hs hk hm h
  obtain ⟨hout, hstages, hnext⟩ := run_stages hs hk hfit aligned bytes
  have hf := Stages.fed_uniform hs hfit.stages bytes
  intro fed x y out q
  have hleft : q.leftover = fed.drop (fed.length - x.unconsumed) := congrArg Stages.leftover hstages
  refine ⟨hfit.slot, fun hp => ⟨hfit.leftover_eq hp, ?_⟩, hfit.stages.passing, congrArg Stages.converter hstages,
    congrArg Stages.crossover hstages, hleft, ?_, hout, ?_⟩
  · have hu := hfit.stages.leftover.length_flatten
    have hl : p.stages.leftover = p.slotFrames := hfit.leftover_eq hp
    rwa [hl, hfit.held hp] at hu
  · have htail := hk.tail hfit.stages.converter hf
    rw [← hnext.length_leftover, hleft, List.length_drop]
    exact Nat.sub_sub_self htail
  · refine ⟨x.frames.length, ?_⟩
    rw [show out = _ from hout, Stages.run_whole hs hk hfit.stages bytes, Nat.mul_comm]
    rfl

/-- Two channels of 44.1 kHz to one of 48 kHz. -/
def downmix : Config where
  input := ⟨.s16 .little, 44100, 2⟩
  inputMap := ChannelMap.stereo
  output := ⟨.s16 .little, 48000, 1⟩
  outputMap := ChannelMap.mono

def downmixConverter (n : Nat) : Except Fault Chunked :=
  .ok (Chunked.create .fft n ⟨44100, 48000, by decide, by decide⟩ false)

/-- After a run of one frame, which `fft` leaves in the slot, a frame that is not aligned. -/
theorem run_composes_stages_downmix :
    ∃ p : Pipeline Chunked Float32, create downmix downmix.matrix downmixConverter = .ok p ∧
      let q := (p.run true [1, 0, 2, 0]).value.2
      let fed := q.leftover ++ downmix.ahead (Codec.decodeFrames downmix.input.encoding 2 [3, 0, 4, 0])
      q.slot = .afterMix ∧ q.leftover = q.slotFrames ∧ q.slotFrames.flatten.length = q.carried ∧
        (q.run false [3, 0, 4, 0]).value.2.leftover =
          fed.drop (fed.length - (RateConverter.convert q.converter fed).unconsumed) := by
  obtain ⟨p, hp⟩ : ∃ p : Pipeline Chunked Float32, create downmix downmix.matrix downmixConverter = .ok p :=
    ⟨_, create_eq_ok.mpr ⟨_, none, rfl, rfl, rfl⟩⟩
  have hmade : ∀ {b}, downmixConverter downmix.width = .ok b → Chunked.Fits downmix.width b := by
    intro b hb
    cases hb
    exact Chunked.fits_create _ _ _ _
  have hreached := Reached.run true [1, 0, 2, 0] (.create hp)
  obtain ⟨hslot, hheld, _, _, _, hleft, _⟩ :=
    run_composes_stages rfl (Chunked.contract _) hmade hreached false [3, 0, 4, 0]
  obtain ⟨hl, hn⟩ := hheld rfl
  exact ⟨p, hp, hslot, hl, hn.trans (Nat.mul_one _), hleft⟩

end Pipeline

end PcmConvert
