/-
  PcmConvert.Proofs.Resampler.Creation — how creating a resampler ends, for every
  configuration and build (`create_outcome`). Three sets of rules speak about the methods:
  what a method resolves to, which working samples it gets, and what the converters take.
  They agree: the method that is resolved has a converter of the samples that it gets, at the
  rates of the configuration (`Config.hasConverter_of_resolved`). So the only faults are
  those of the configuration and of the method asked for. One call in between gives no
  answer: no crossover fits under an output rate of 1 or 2 Hz.
-/

import PcmConvert.Proofs.Method.Resolve
import PcmConvert.Proofs.Resampler.RateChange

namespace PcmConvert

/-! ## Converters of a method -/

/-- The methods of any samples need only their rates; the others are built by `native`. -/
theorem Converter.exists_create {ν S : Type} [Sample S] {native : Method → Except Fault ν} {m : Method} {r : Rates}
    (hm : m ≠ .auto) (hcan : m.can r = true) (n : Nat)
    (hnative : m ∈ [Method.polyphaseFixed, .sincFixed, .sinc, .fft] → ∃ x, native m = .ok x) :
    ∃ x : Converter ν S, create native m n r = .ok x := by
  cases m with
  | auto => exact absurd rfl hm
  | copy => exact ⟨.copy r, if_pos (Method.can_copy.mp hcan)⟩
  | trivial => exact ⟨_, rfl⟩
  | peaks =>
    have hle : ¬r.input < r.output := Nat.not_lt.mpr (Method.can_peaks.mp hcan)
    exact ⟨.peaks (Peaks.create n r), congrArg (Except.map Converter.peaks) (if_neg hle)⟩
  | _ =>
    obtain ⟨x, hx⟩ := hnative (by decide)
    exact ⟨.native x, congrArg (Except.map Converter.native) hx⟩

theorem FixedConverter.exists_create {m : Method} {r : Rates} (hm : m ≠ .auto) (hcan : m.can r = true) (n : Nat)
    {e e' : Encoding} (hp : m.precision e e' = .s16) : ∃ x, create m n r = .ok x := by
  refine Converter.exists_create hm hcan n fun hmem => ?_
  cases m with
  | polyphaseFixed =>
    obtain ⟨c, hc⟩ := Method.can_polyphaseFixed.mp hcan
    refine ⟨.polyphase ⟨n, c, c.filters.map (Rate.Stage.create n)⟩, ?_⟩
    simp only [FixedPoint.create, Polyphase.create, hc, Except.map]
  | sincFixed => exact ⟨_, rfl⟩
  | sinc => cases hp
  | fft => cases hp
  | _ => simp at hmem

theorem FloatConverter.exists_create {b : Build} {m : Method} {r : Rates} (hm : m ≠ .auto) (hb : m.isAvailable b = true)
    (hcan : m.can r = true) (v : Bool) (n : Nat) {e e' : Encoding} (hp : m.precision e e' = .f32) :
    ∃ x, create b v m n r = .ok x := by
  refine Converter.exists_create hm hcan n fun hmem => ?_
  have hchunked : m = .sinc ∨ m = .fft := by
    cases m <;> first | exact .inl rfl | exact .inr rfl | cases hp | simp at hmem
  have hheld : b.chunked = true := by
    rcases hchunked with rfl | rfl <;> exact hb
  exact ⟨Chunked.create m n r v, by simp [Chunked.ofMethod, hheld, hchunked]⟩

namespace Config

/-- The method that runs for the configuration. -/
def resolved (b : Build) (c : Config) : Except Fault Method.Choice :=
  c.method.resolve b ⟨c.input.rate, c.output.rate, c.flags.variableRate⟩ c.fallback

/-- The method has a converter of the working samples that it gets, for any channels. -/
def HasConverter (b : Build) (c : Config) (m : Method) : Prop :=
  ∀ (r : Rates) (n : Nat), r.input = c.input.rate → r.output = c.output.rate →
    match m.precision c.input.encoding c.output.encoding with
    | .s16 => ∃ x, FixedConverter.create m n r = .ok x
    | .f32 => ∃ x, FloatConverter.create b c.flags.variableRate m n r = .ok x

/-- A crossover is to be built, and no frequency lies under its output rate. -/
def LacksCutoff (c : Config) : Prop :=
  c.matrix.lfeSynthesized = true ∧ c.crossover.isSome = true ∧ (c.output.rate = 1 ∨ c.output.rate = 2)

variable {b : Build} {c : Config}

theorem hasConverter_of_resolved {choice : Method.Choice} (h : c.resolved b = .ok choice) :
    c.HasConverter b choice.method := by
  have hs := Method.serves_of_resolve h
  intro r n hi ho
  have hcan : choice.method.can r = true := by
    show choice.method.supportsRates r.input r.output = true
    rw [hi, ho]
    exact hs.supportsRates
  split
  · next hp => exact FixedConverter.exists_create hs.concrete hcan n hp
  · next hp => exact FloatConverter.exists_create hs.concrete hs.available hcan c.flags.variableRate n hp

end Config

/-! ## The stages -/

/-- The crossover is built, or it has no cutoff at a rate below 3 Hz. -/
theorem Pipeline.createCrossover_cases (c : Config) (hpos : 0 < c.output.rate) :
    c.LacksCutoff ∧ createCrossover c c.matrix = .error (.halt (.noCutoff c.output.rate)) ∨
      ¬c.LacksCutoff ∧ ∃ x, createCrossover c c.matrix = .ok x := by
  cases hf : c.crossover with
  | none =>
    refine .inr ⟨?_, none, createCrossover_eq_ok.mpr (.inl ⟨rfl, .inl hf⟩)⟩
    rintro ⟨-, hsome, -⟩
    rw [hf] at hsome
    cases hsome
  | some f =>
    cases hl : c.matrix.lfeSynthesized with
    | false =>
      refine .inr ⟨?_, none, createCrossover_eq_ok.mpr (.inl ⟨rfl, .inr hl⟩)⟩
      rintro ⟨hlfe, -⟩
      rw [hl] at hlfe
      cases hlfe
    | true =>
      by_cases hrate : 49 * c.output.rate < 100
      · have hnone : Crossover.create? c.outputMap f c.output.rate = none := by
          simp [Crossover.create?, Crossover.Coefficients.ofCutoff?, hrate]
        refine .inl ⟨⟨hl, by rw [hf]; rfl, by omega⟩, ?_⟩
        simp only [createCrossover, hf, hl, hnone, if_true]
      · obtain ⟨x, hx⟩ : ∃ x, Crossover.create? c.outputMap f c.output.rate = some x := by
          simp [Crossover.create?, Crossover.Coefficients.ofCutoff?, hrate]
        refine .inr ⟨?_, some x, createCrossover_eq_ok.mpr (.inr ⟨f, x, hf, hl, hx, rfl⟩)⟩
        rintro ⟨-, -, h | h⟩ <;> omega

/-- With a converter, the crossover alone decides how the stages come out. -/
theorem Pipeline.create_of_made {β S : Type} {c : Config} (make : Nat → Except Fault β)
    (hmake : ∃ x, make c.width = .ok x) :
    (∀ e, createCrossover c c.matrix = .error e → (create c c.matrix make : Except Refusal (Pipeline β S)) = .error e) ∧
      ((∃ x, createCrossover c c.matrix = .ok x) → ∃ p : Pipeline β S, create c c.matrix make = .ok p) := by
  obtain ⟨y, hy⟩ := hmake
  constructor
  · intro e he
    unfold create
    show (make c.width).mapError Refusal.fault >>= _ = _
    rw [hy, he]
    rfl
  · rintro ⟨x, hx⟩
    exact ⟨_, create_eq_ok.mpr ⟨y, x, hy, hx, rfl⟩⟩

/-- The engine of a method with a converter is built, or halts for want of a cutoff. -/
theorem Engine.create_cases {b : Build} {c : Config} {m : Method} {r : Rates} (hc : c.HasConverter b m)
    (hi : r.input = c.input.rate) (ho : r.output = c.output.rate) :
    c.LacksCutoff ∧ create b m r c c.matrix = .error (.halt (.noCutoff c.output.rate)) ∨
      ¬c.LacksCutoff ∧ ∃ e, create b m r c c.matrix = .ok e := by
  have hmake := hc r c.width hi ho
  have hcross := Pipeline.createCrossover_cases c (ho ▸ r.output_pos)
  cases hp : m.precision c.input.encoding c.output.encoding with
  | s16 =>
    simp only [hp] at hmake
    obtain ⟨herr, hok⟩ := Pipeline.create_of_made (S := Int16) (fun n => FixedConverter.create m n r) hmake
    rw [create_s16 hp]
    rcases hcross with ⟨hl, he⟩ | ⟨hl, hx⟩
    · exact .inl ⟨hl, congrArg (Except.map s16) (herr _ he)⟩
    · obtain ⟨p, hpipe⟩ := hok hx
      exact .inr ⟨hl, s16 p, congrArg (Except.map s16) hpipe⟩
  | f32 =>
    simp only [hp] at hmake
    obtain ⟨herr, hok⟩ := Pipeline.create_of_made (S := Float32) (fun n => FloatConverter.create b c.flags.variableRate m n r) hmake
    rw [create_f32 hp]
    rcases hcross with ⟨hl, he⟩ | ⟨hl, hx⟩
    · exact .inl ⟨hl, congrArg (Except.map f32) (herr _ he)⟩
    · obtain ⟨p, hpipe⟩ := hok hx
      exact .inr ⟨hl, f32 p, congrArg (Except.map f32) hpipe⟩

/-! ## The resampler -/

namespace Resampler

variable {b : Build} {c : Config}

theorem create_invalid {f : Fault} (h : c.validate = .error f) : (create b c).value = .error (.fault f) := by
  unfold create
  split
  · next h' =>
    rw [h] at h'
    cases h'
    rfl
  · next h' =>
    rw [h] at h'
    cases h'

theorem create_unresolved {f : Fault} (hv : c.validate = .ok ()) (h : c.resolved b = .error f) :
    (create b c).value = .error (.fault f) := by
  unfold Config.resolved at h
  unfold create
  split
  · next h' =>
    rw [hv] at h'
    cases h'
  · simp only [h]
    rfl

/-- Once the method is resolved, what is built is what comes out. -/
theorem create_resolved {choice : Method.Choice} (hv : c.validate = .ok ()) (h : c.resolved b = .ok choice) :
    ∃ r : Rates, r.input = c.input.rate ∧ r.output = c.output.rate ∧ (create b c).value = (build b c r choice).value := by
  obtain ⟨hi, ho⟩ := Config.rates_pos_of_validate hv
  refine ⟨⟨c.input.rate, c.output.rate, hi, ho⟩, rfl, rfl, ?_⟩
  unfold Config.resolved at h
  unfold create
  split
  · next h' =>
    rw [hv] at h'
    cases h'
  · simp only [h]

/-- A configuration that is not valid, and a method that is not resolved, give their own
    faults. The method that is resolved has a converter; then the call halts if the crossover
    has no cutoff, and gives a resampler of the method in all other cases. -/
theorem create_outcome (b : Build) (c : Config) :
    (∀ f, c.validate = .error f → (create b c).value = .error (.fault f)) ∧
      (c.validate = .ok () → ∀ f, c.resolved b = .error f → (create b c).value = .error (.fault f)) ∧
      (c.validate = .ok () → ∀ choice, c.resolved b = .ok choice →
        c.HasConverter b choice.method ∧
          ((create b c).value = .error (.halt (.noCutoff c.output.rate)) ↔ c.LacksCutoff) ∧
          ((∃ s, (create b c).value = .ok s ∧ s.method = choice.method) ↔ ¬c.LacksCutoff)) := by
  refine ⟨fun f h => create_invalid h, fun hv f h => create_unresolved hv h, ?_⟩
  intro hv choice h
  have hconv := Config.hasConverter_of_resolved h
  obtain ⟨r, hi, ho, hvalue⟩ := create_resolved hv h
  refine ⟨hconv, ?_⟩
  rw [hvalue, build]
  rcases Engine.create_cases hconv hi ho with ⟨hlacks, he⟩ | ⟨hlacks, e, he⟩
  · simp only [show Matrix.build c.inputMap c.outputMap c.flags = c.matrix from rfl, he]
    simp [hlacks]
  · simp only [show Matrix.build c.inputMap c.outputMap c.flags = c.matrix from rfl, he]
    simp [hlacks]

/-- Stereo to stereo with a low frequency channel made from both, split at 80 Hz. -/
def addLfe (rate : Nat) : Config where
  input := ⟨.s16 .little, rate, 2⟩
  inputMap := ChannelMap.stereo
  output := ⟨.s16 .little, rate, 3⟩
  outputMap := [.frontLeft, .frontRight, .lfe]
  flags := { produceLfe := true }
  crossover := some 80

/-- At 2 Hz the call halts, at 3 Hz it does not. -/
theorem create_outcome_addLfe :
    (create ⟨true⟩ (addLfe 2)).value = .error (.halt (.noCutoff 2)) ∧
      ∃ s, (create ⟨true⟩ (addLfe 3)).value = .ok s ∧ s.method = .copy := by
  have hlfe : (addLfe 2).matrix.lfeSynthesized = true := by decide +kernel
  obtain ⟨-, -, htwo⟩ := create_outcome ⟨true⟩ (addLfe 2)
  obtain ⟨-, -, hthree⟩ := create_outcome ⟨true⟩ (addLfe 3)
  refine ⟨(htwo rfl ⟨.copy, [.equalRates .auto]⟩ rfl).2.1.mpr ⟨hlfe, rfl, .inr rfl⟩, ?_⟩
  refine (hthree rfl ⟨.copy, [.equalRates .auto]⟩ rfl).2.2.mpr ?_
  rintro ⟨-, -, h | h⟩ <;> cases h

end Resampler

end PcmConvert
