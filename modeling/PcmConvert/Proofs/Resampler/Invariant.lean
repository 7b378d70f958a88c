/-
  PcmConvert.Proofs.Resampler.Invariant — what holds of a resampler in every state that calls
  lead to (`coherent_of_reachable`). Rates are held in four places: the configuration shows
  them, the resampler works sizes out from them, the converter runs at them, the crossover
  is cut for the output's. All agree after any calls, also after changes that failed
  (`Coherent`), and the method that was chosen in the beginning supports them.

  Most of it a call keeps step by step (`kept_call`). That the input is the output is found
  once, in the beginning; it stays true because only a method that copies is found so, and
  that takes no other rates.
-/

import PcmConvert.Proofs.Rate.Tuning
import PcmConvert.Proofs.Resampler.Pieces

namespace PcmConvert

open RateConverter

/-! ## Pipelines and rates -/

namespace Pipeline

variable {β S : Type} [RateConverter β S] {can : Rates → Bool} {Runs : Rates → β → Prop} {p : Pipeline β S} {r : Rates}

theorem runs_retune (ht : Tunes S can Runs) (h : Runs r p.converter) {r' : Rates}
    (hok : (p.retune r').value.1 = .ok ()) : Runs r' (p.retune r').value.2.converter := by
  have hr := p.retuned r'
  generalize (p.retune r').value = v at hok hr
  cases hr with
  | refused _ => cases hok
  | halted _ _ _ => cases hok
  | plain hv _ => exact ht.retune h hv
  | both hv _ _ => exact ht.retune h hv

/-- A change is refused where the method does not support the rates. -/
theorem retune_fault_iff (ht : Tunes S can Runs) (h : Runs r p.converter) (r' : Rates) :
    (∃ f, (p.retune r').value.1 = .error (.fault f)) ↔ can r' = false := by
  rw [← ht.refuses r' h]
  have hr := p.retuned r'
  generalize (p.retune r').value = v at hr
  cases hr with
  | refused hv => simp [hv]
  | plain hv _ => simp [hv]
  | both hv _ _ => simp [hv]
  | halted hv _ _ => simp [hv]

/-- It halts where there is a crossover, and no cutoff for the output rate. -/
theorem retune_halt_iff (ht : Tunes S can Runs) (h : Runs r p.converter) (r' : Rates) :
    (∃ e, (p.retune r').value.1 = .error (.halt e)) ↔
      can r' = true ∧ p.crossover.isSome = true ∧ 49 * r'.output < 100 := by
  have hcan : can r' = true ↔ ¬∃ f, (RateConverter.retune S p.converter r').value = .error f := by
    rw [ht.refuses r' h, Bool.not_eq_false]
  rw [hcan]
  have hr := p.retuned r'
  generalize (p.retune r').value = v at hr
  cases hr with
  | refused hv => simp [hv]
  | plain hv hx => simp [hv, hx]
  | @both _ x _ hv hx hy =>
    have hcut : ¬49 * r'.output < 100 := by
      rw [← x.setRate?_eq_none_iff, hy]
      simp
    simp [hv, hx, hcut]
  | @halted _ x hv hx hn =>
    have hcut := (x.setRate?_eq_none_iff r'.output).mp hn
    simp [hv, hx, hcut]

end Pipeline

/-! ## Engines -/

namespace Engine

/-- The converter is one of the method `m`, at the rates `r`. -/
def Runs (m : Method) (r : Rates) : Engine → Prop
  | s16 p => FixedConverter.Runs m r p.converter
  | f32 p => FloatConverter.Runs m r p.converter

variable {b : Build} {m : Method} {c : Config} {r : Rates} {e : Engine}

theorem runs_create {x : Matrix Float32} (h : create b m r c x = .ok e) : Runs m r e := by
  cases hm : m.precision c.input.encoding c.output.encoding with
  | s16 =>
    rw [create_s16 hm] at h
    obtain ⟨p, hp, rfl⟩ := exists_of_map_eq_ok h
    obtain ⟨a, _, ha, _, rfl⟩ := Pipeline.create_eq_ok.mp hp
    exact FixedConverter.runs_of_create ha
  | f32 =>
    rw [create_f32 hm] at h
    obtain ⟨p, hp, rfl⟩ := exists_of_map_eq_ok h
    obtain ⟨a, _, ha, _, rfl⟩ := Pipeline.create_eq_ok.mp hp
    exact FloatConverter.runs_of_create ha

theorem Runs.supports (h : Runs m r e) : m.can r = true := by
  cases e with
  | s16 p => exact (FixedConverter.tunes m).supports h
  | f32 p => exact (FloatConverter.tunes m).supports h

theorem Runs.run (h : Runs m r e) (hc : c.Shaped) (hs : Sound b m c r e) (aligned : Bool) (bytes : List UInt8) :
    Runs m r (e.run aligned bytes).value.2 := by
  cases hs with
  | s16 _ hf _ =>
    have hnext := congrArg Stages.converter (Pipeline.run_stages hc (FixedConverter.contract _) hf aligned bytes).2.1
    exact (congrArg (FixedConverter.Runs m r) hnext).mpr ((FixedConverter.tunes m).convert _ h)
  | f32 _ hf _ =>
    have hnext := congrArg Stages.converter (Pipeline.run_stages hc (FloatConverter.contract _) hf aligned bytes).2.1
    exact (congrArg (FloatConverter.Runs m r) hnext).mpr ((FloatConverter.tunes m).convert _ h)

theorem Runs.reset (h : Runs m r e) : Runs m r e.reset := by
  cases e with
  | s16 p => exact (FixedConverter.tunes m).reset h
  | f32 p => exact (FloatConverter.tunes m).reset h

theorem Runs.rewind (h : Runs m r e) : Runs m r e.rewind := rewind_eq_reset e ▸ h.reset

theorem Runs.retune (h : Runs m r e) {r' : Rates} (hok : (e.retune r').value.1 = .ok ()) :
    Runs m r' (e.retune r').value.2 := by
  cases e with
  | s16 p => exact Pipeline.runs_retune (FixedConverter.tunes m) h hok
  | f32 p => exact Pipeline.runs_retune (FloatConverter.tunes m) h hok

theorem Runs.retune_fault_iff (h : Runs m r e) (r' : Rates) :
    (∃ f, (e.retune r').value.1 = .error (.fault f)) ↔ m.can r' = false := by
  cases e with
  | s16 p => exact Pipeline.retune_fault_iff (FixedConverter.tunes m) h r'
  | f32 p => exact Pipeline.retune_fault_iff (FloatConverter.tunes m) h r'

theorem Runs.retune_halt_iff (h : Runs m r e) (r' : Rates) :
    (∃ x, (e.retune r').value.1 = .error (.halt x)) ↔
      m.can r' = true ∧ e.crossover.isSome = true ∧ 49 * r'.output < 100 := by
  cases e with
  | s16 p => exact Pipeline.retune_halt_iff (FixedConverter.tunes m) h r'
  | f32 p => exact Pipeline.retune_halt_iff (FloatConverter.tunes m) h r'

/-- The method is one that was resolved, and the build holds it. -/
theorem Sound.available (h : Sound b m c r e) : m ≠ .auto ∧ m.isAvailable b = true := by
  cases h with
  | s16 hm _ hr =>
    obtain ⟨a, ha, _, _⟩ := Pipeline.remade_iff.mp hr
    cases m with
    | auto => cases ha
    | sinc => cases hm
    | fft => cases hm
    | _ => exact ⟨by decide, rfl⟩
  | f32 hm _ hr =>
    obtain ⟨a, ha, _, _⟩ := Pipeline.remade_iff.mp hr
    cases m with
    | auto => cases ha
    | sinc =>
      obtain ⟨x, hx, _⟩ := exists_of_map_eq_ok (f := Converter.native) ha
      exact ⟨by decide, Chunked.held_of_ofMethod hx⟩
    | fft =>
      obtain ⟨x, hx, _⟩ := exists_of_map_eq_ok (f := Converter.native) ha
      exact ⟨by decide, Chunked.held_of_ofMethod hx⟩
    | _ => exact ⟨by decide, rfl⟩

/-- A reset makes of the crossover what is created for the output rate. -/
theorem Sound.crossover (h : Sound b m c r e) :
    Pipeline.createCrossover (c.at r.input r.output) c.matrix = .ok (e.crossover.map Crossover.reset) := by
  cases h with
  | s16 _ _ hr =>
    obtain ⟨_, _, _, hx⟩ := Pipeline.remade_iff.mp hr
    exact hx
  | f32 _ _ hr =>
    obtain ⟨_, _, _, hx⟩ := Pipeline.remade_iff.mp hr
    exact hx

theorem Sound.slot (h : Sound b m c r e) : e.slot = Slot.ofChannels c.input.channels c.output.channels := by
  cases h with
  | s16 _ hf _ => exact hf.slot
  | f32 _ hf _ => exact hf.slot

end Engine

/-! ## Resamplers -/

theorem checkRate_eq_ok_iff (rate : Nat) : checkRate rate = .ok () ↔ 1 ≤ rate ∧ rate ≤ maxRate := by
  unfold checkRate
  by_cases hz : rate = 0
  · simp [hz]
  · by_cases hm : maxRate < rate
    · simp [hz, hm]
    · simp [hz, hm]
      omega

theorem Config.rates_le_of_validate {c : Config} (h : c.validate = .ok ()) :
    c.input.rate ≤ maxRate ∧ c.output.rate ≤ maxRate := by
  have hspec {s : StreamSpec} (h : s.validate = .ok ()) : s.rate ≤ maxRate := by
    unfold StreamSpec.validate at h
    cases hr : checkRate s.rate with
    | ok => exact ((checkRate_eq_ok_iff _).mp hr).2
    | error f =>
      rw [hr] at h
      cases h
  unfold validate at h
  cases hi : c.input.validate with
  | error f =>
    rw [hi] at h
    cases h
  | ok =>
    cases ho : c.output.validate with
    | error f =>
      rw [hi, ho] at h
      cases h
    | ok => exact ⟨hspec hi, hspec ho⟩

namespace Resampler

variable {b : Build} {c : Config} {s : Resampler}

/-- What each call keeps, beside that the resampler is sound. -/
structure Kept (c : Config) (s : Resampler) : Prop where
  passthrough : s.passthrough = isPassthrough c s.method
  input_le : s.rates.input ≤ maxRate
  output_le : s.rates.output ≤ maxRate
  runs : s.engine.Runs s.method s.rates
  cuttable : s.method ≠ .sinc ∧ s.method ≠ .fft → s.engine.Cuttable c

theorem kept_create (h : (create b c).value = .ok s) : Kept c s := by
  obtain ⟨hv, r, m, e, hc, he, rfl⟩ := create_eq_ok h
  obtain ⟨hi, ho⟩ := Config.rates_le_of_validate hv
  rw [hc] at hi ho
  refine ⟨rfl, hi, ho, Engine.runs_create he, ?_⟩
  intro hm
  exact (Engine.cuttable_create (Config.shaped_of_validate hv) hm he).1

theorem kept_change {rate i o : Nat} {g : Resampler → Logged (Except Refusal Unit × Resampler)}
    (hg : Change s.rates s.config rate i o g) (hi : i ≤ maxRate ∨ i = rate) (ho : o ≤ maxRate ∨ o = rate)
    (h : Kept c s) (hh : ∀ e, (g s).value.1 ≠ .error (.halt e)) : Kept c (g s).value.2 := by
  cases hg with
  | refused f _ hf =>
    rw [hf]
    exact h
  | same _ _ hf =>
    rw [hf s rfl]
    exact h
  | other r ci co side hrate _ hr _ hf =>
    obtain ⟨rfl, rfl⟩ := hr
    have hle := ((checkRate_eq_ok_iff rate).mp hrate).2
    have hcut : s.method ≠ .sinc ∧ s.method ≠ .fft → (s.engine.retune r).value.2.Cuttable c := fun hm =>
      (h.cuttable hm).retune r
    rw [hf s rfl rfl, setRates_value] at hh ⊢
    cases hv : (s.engine.retune r).value.1 with
    | error f =>
      cases f with
      | fault f =>
        have hsame := Engine.retune_fault hv
        rw [hsame] at hcut ⊢
        exact ⟨h.passthrough, h.input_le, h.output_le, h.runs, hcut⟩
      | halt e =>
        rw [hv] at hh
        exact absurd rfl (hh e)
    | ok =>
      have hin : r.input ≤ maxRate := by omega
      have hout : r.output ≤ maxRate := by omega
      exact ⟨h.passthrough, hin, hout, h.runs.retune hv, hcut⟩

theorem kept_call (hs : Sound b c s) (h : Kept c s) (k : Call) (hh : ∀ e, (s.call k).value.1 ≠ .halted e) :
    Kept c (s.call k).value.2 := by
  cases k with
  | run aligned bytes =>
    simp only [call, run]
    split
    · exact h
    · split
      · exact h
      · exact ⟨h.passthrough, h.input_le, h.output_le, h.runs.run hs.shaped hs.engine aligned bytes,
          fun hm => (h.cuttable hm).run hs.shaped aligned bytes⟩
  | setInputRate rate =>
    exact kept_change (change_setInputRate _ _ rate) (.inr rfl) (.inl h.output_le) h
      fun e he => hh e (congrArg Answer.ofChange he)
  | setOutputRate rate =>
    exact kept_change (change_setOutputRate _ _ rate) (.inl h.input_le) (.inr rfl) h
      fun e he => hh e (congrArg Answer.ofChange he)
  | reset => exact ⟨h.passthrough, h.input_le, h.output_le, h.runs.reset, fun hm => (h.cuttable hm).reset⟩
  | rewind frames => exact ⟨h.passthrough, h.input_le, h.output_le, h.runs.rewind, fun hm => (h.cuttable hm).rewind⟩
  | maxBlock =>
    simp only [call]
    cases s.maxBlock <;> exact h
  | _ => exact h

theorem kept_of_reachable (h : Reachable b c s) : Kept c s := by
  induction h with
  | create h => exact kept_create h
  | call k hr hh ih => exact kept_call (sound_of_reachable hr) ih k hh

/-- The rates are in bounds and shown; the method is held by the build, supports them, and
    its converter runs at them; what is passed through is the same on both sides; the
    crossover is there if it is asked for, and cut for the output rate; and the slot is as
    configured, and empty unless the method takes whole chunks. -/
structure Coherent (b : Build) (c : Config) (s : Resampler) : Prop where
  input_rate : 1 ≤ s.rates.input ∧ s.rates.input ≤ maxRate
  output_rate : 1 ≤ s.rates.output ∧ s.rates.output ≤ maxRate
  config : s.config = c.at s.rates.input s.rates.output
  method : s.method ≠ .auto ∧ s.method.isAvailable b = true
  supports : s.method.supportsRates s.config.input.rate s.config.output.rate = true
  runs : s.engine.Runs s.method s.rates
  passthrough : s.passthrough = true → s.config.input = s.config.output ∧ s.config.inputMap = s.config.outputMap
  crossover_iff : s.engine.crossover.isSome = true ↔ s.config.crossover.isSome = true ∧ s.matrix.lfeSynthesized = true
  crossover : ∀ x, s.engine.crossover = some x → s.config.crossover = some x.frequency ∧
    Crossover.Coefficients.ofCutoff? x.frequency s.config.output.rate = some x.coefficients
  slot : s.engine.slot = Slot.ofChannels c.input.channels c.output.channels
  slot_iff : s.engine.slot = .afterMix ↔ c.output.channels ≤ c.input.channels
  carried : s.method ≠ .sinc ∧ s.method ≠ .fft → s.engine.carried = 0

theorem Kept.passthrough_eq (hs : Sound b c s) (h : Kept c s) (hp : s.passthrough = true) :
    s.config.input = s.config.output ∧ s.config.inputMap = s.config.outputMap := by
  rw [h.passthrough] at hp
  simp only [isPassthrough, Bool.and_eq_true, beq_iff_eq] at hp
  obtain ⟨⟨hm, hspec⟩, hmap⟩ := hp
  -- the rates may have changed since, but not while the method copies
  have hrates : s.rates.input = s.rates.output := by
    have hcan := h.runs.supports
    rw [hm] at hcan
    exact Method.can_copy.mp hcan
  rw [hs.config]
  refine ⟨?_, hmap⟩
  show { c.input with rate := s.rates.input } = { c.output with rate := s.rates.output }
  rw [hspec, hrates]

theorem Sound.crossover_isSome_iff (h : Sound b c s) :
    s.engine.crossover.isSome = true ↔ s.config.crossover.isSome = true ∧ s.matrix.lfeSynthesized = true := by
  rw [h.config, h.matrix]
  show _ ↔ c.crossover.isSome = true ∧ _
  rcases Pipeline.createCrossover_eq_ok.mp h.engine.crossover with ⟨hnone, hwhy⟩ | ⟨f, y, hf, hlfe, _, hsome⟩
  · rw [Option.map_eq_none_iff.mp hnone]
    rcases hwhy with hc | hlfe
    · simp [show c.crossover = none from hc]
    · simp [hlfe]
  · obtain ⟨x, hx, _⟩ := Option.map_eq_some_iff.mp hsome
    simp [hx, hlfe, show c.crossover = some f from hf]

theorem Sound.crossover_cut (h : Sound b c s) {x : Crossover} (hx : s.engine.crossover = some x) :
    s.config.crossover = some x.frequency ∧
      Crossover.Coefficients.ofCutoff? x.frequency s.config.output.rate = some x.coefficients := by
  have hmade := h.engine.crossover
  rw [hx] at hmade
  rcases Pipeline.createCrossover_eq_ok.mp hmade with ⟨hnone, _⟩ | ⟨f, y, hf, _, hy, hsome⟩
  · cases hnone
  · cases hsome
    obtain ⟨k, hk, hreset⟩ := Crossover.create?_eq_some hy
    have hfreq : x.frequency = f := congrArg Crossover.frequency hreset
    have hcoeff : x.coefficients = k := congrArg Crossover.coefficients hreset
    rw [hfreq, hcoeff, h.config]
    exact ⟨hf, hk⟩

/-- In every state that calls lead to the resampler is coherent. -/
theorem coherent_of_reachable (h : Reachable b c s) : Coherent b c s := by
  have hs := sound_of_reachable h
  have hk := kept_of_reachable h
  have hslot := hs.engine.slot
  refine ⟨⟨s.rates.input_pos, hk.input_le⟩, ⟨s.rates.output_pos, hk.output_le⟩, hs.config, hs.engine.available, ?_,
    hk.runs, hk.passthrough_eq hs, hs.crossover_isSome_iff, fun _ hx => hs.crossover_cut hx, hslot, ?_,
    fun hm => (hk.cuttable hm).carried⟩
  · rw [hs.config]
    exact hk.runs.supports
  · rw [hslot, Slot.ofChannels]
    by_cases hle : c.output.channels ≤ c.input.channels
    · simp [hle]
    · simp [hle]

/-- After a frame, a change of the input rate, one of the output rate that `peaks` refuses,
    and a reset. -/
theorem coherent_of_reachable_monoDown :
    ∃ s, Reachable ⟨true⟩ (monoDown .peaks) s ∧ s.config.input.rate = 96000 ∧ s.config.output.rate = 44100 ∧
      Coherent ⟨true⟩ (monoDown .peaks) s := by
  obtain ⟨s, hs⟩ : ∃ s, (create ⟨true⟩ (monoDown .peaks)).value = .ok s := ⟨_, rfl⟩
  have hr := Reachable.call .reset (Reachable.call (.setOutputRate 200000) (Reachable.call (.setInputRate 96000)
    (Reachable.call (.run true [1, 0]) (Reachable.create hs) fun h => ?_) fun h => ?_) fun h => ?_) fun h => ?_
  · refine ⟨_, hr, ?_, ?_, coherent_of_reachable hr⟩
    · cases hs
      rfl
    · cases hs
      rfl
  all_goals
    cases hs
    intro hh
    cases hh

end Resampler

end PcmConvert
