/-
  PcmConvert.Proofs.Resampler.Restart — the states that calls lead to, from a resampler that
  was created (`Reachable`). In each of them (`Sound`) the configuration is the one it was
  created from, at the rates it has by then; the engine fits it; and a reset would make of
  the engine one that is created for it. So a resampler that is reset, or that jumps back,
  answers every later call as one with a new engine (`restart_replies`), whatever was run
  before and whatever rates it had.
-/

import PcmConvert.Proofs.Resampler.Calls

namespace PcmConvert

/-! ## Engines -/

namespace Engine

/-- The engine fits, and a reset makes of it what is created. -/
inductive Sound (b : Build) (m : Method) (c : Config) (r : Rates) : Engine → Prop
  | s16 {p : Pipeline FixedConverter Int16} : m.precision c.input.encoding c.output.encoding = .s16 →
      p.Fits c (FixedConverter.Fits c.width) →
      p.Remade c FixedConverter.seen (fun r n => FixedConverter.create m n r) r → Sound b m c r (.s16 p)
  | f32 {p : Pipeline FloatConverter Float32} : m.precision c.input.encoding c.output.encoding = .f32 →
      p.Fits c (FloatConverter.Fits c.width) →
      p.Remade c FloatConverter.seen (fun r n => FloatConverter.create b c.flags.variableRate m n r) r →
      Sound b m c r (.f32 p)

variable {b : Build} {m : Method} {c : Config} {r : Rates} {e : Engine}

theorem create_s16 (hm : m.precision c.input.encoding c.output.encoding = .s16) (x : Matrix Float32) :
    create b m r c x = (Pipeline.create c x fun n => FixedConverter.create m n r).map s16 := by
  unfold create
  rw [hm]
  rfl

theorem create_f32 (hm : m.precision c.input.encoding c.output.encoding = .f32) (x : Matrix Float32) :
    create b m r c x =
      (Pipeline.create c x fun n => FloatConverter.create b c.flags.variableRate m n r).map f32 := by
  unfold create
  rw [hm]
  rfl

theorem sound_create (hc : c.Shaped) (h : create b m r (c.at r.input r.output) c.matrix = .ok e) : Sound b m c r e := by
  have hc' := hc.at r.input r.output
  cases hm : m.precision c.input.encoding c.output.encoding with
  | s16 =>
    rw [create_s16 (c := c.at r.input r.output) hm] at h
    obtain ⟨p, hp, rfl⟩ := RateConverter.exists_of_map_eq_ok h
    have hr := FixedConverter.remakes m c.width
    exact .s16 hm (Pipeline.fits_at_iff.mp (Pipeline.fits_create hc' (fun hb => (hr.made hb).1) hp))
      (Pipeline.remade_create hr hp)
  | f32 =>
    rw [create_f32 (c := c.at r.input r.output) hm] at h
    obtain ⟨p, hp, rfl⟩ := RateConverter.exists_of_map_eq_ok h
    have hr := FloatConverter.remakes b c.flags.variableRate m c.width
    exact .f32 hm (Pipeline.fits_at_iff.mp (Pipeline.fits_create hc' (fun hb => (hr.made hb).1) hp))
      (Pipeline.remade_create hr hp)

theorem Sound.run (hc : c.Shaped) (h : Sound b m c r e) (aligned : Bool) (bytes : List UInt8) :
    Sound b m c r (e.run aligned bytes).value.2 := by
  cases h with
  | s16 hm hf hr =>
    exact .s16 hm (Pipeline.run_stages hc (FixedConverter.contract _) hf aligned bytes).2.2
      (Pipeline.remade_run hc (FixedConverter.contract _) (FixedConverter.forgets _) hf hr aligned bytes)
  | f32 hm hf hr =>
    exact .f32 hm (Pipeline.run_stages hc (FloatConverter.contract _) hf aligned bytes).2.2
      (Pipeline.remade_run hc (FloatConverter.contract _) (FloatConverter.forgets _) hf hr aligned bytes)

theorem Sound.reset (h : Sound b m c r e) : Sound b m c r e.reset := by
  cases h with
  | s16 hm hf hr =>
    exact .s16 hm (Pipeline.fits_reset (FixedConverter.contract _) hf)
      (Pipeline.remade_reset (FixedConverter.forgets _) hf hr)
  | f32 hm hf hr =>
    exact .f32 hm (Pipeline.fits_reset (FloatConverter.contract _) hf)
      (Pipeline.remade_reset (FloatConverter.forgets _) hf hr)

theorem Sound.rewind (h : Sound b m c r e) : Sound b m c r e.rewind := rewind_eq_reset e ▸ h.reset

theorem Sound.retune (h : Sound b m c r e) {r' : Rates} (hok : (e.retune r').value.1 = .ok ()) :
    Sound b m c r' (e.retune r').value.2 := by
  cases h with
  | s16 hm hf hr =>
    exact .s16 hm (Pipeline.fits_retune (FixedConverter.contract _) hf r')
      (Pipeline.remade_retune (FixedConverter.remakes m _) hf hr hok)
  | f32 hm hf hr =>
    exact .f32 hm (Pipeline.fits_retune (FloatConverter.contract _) hf r')
      (Pipeline.remade_retune (FloatConverter.remakes b _ m _) hf hr hok)

/-- A change of rates that the converter refuses leaves the engine. -/
theorem retune_fault {r' : Rates} {f : Fault} (h : (e.retune r').value.1 = .error (.fault f)) :
    (e.retune r').value.2 = e := by
  cases e with
  | s16 p => exact congrArg s16 (Pipeline.retune_fault h)
  | f32 p => exact congrArg f32 (Pipeline.retune_fault h)

/-- After a reset an engine is alike to one that is created. -/
theorem Sound.alike (hc : c.Shaped) (h : Sound b m c r e) :
    ∃ e', create b m r (c.at r.input r.output) c.matrix = .ok e' ∧ Alike c e.reset e' := by
  cases h with
  | s16 hm hf hr =>
    obtain ⟨q, hq, ha⟩ := hr.alike hc (FixedConverter.contract _) (FixedConverter.remakes m _) hf
    refine ⟨.s16 q, ?_, .s16 ha⟩
    rw [create_s16 (c := c.at r.input r.output) hm, hq]
    rfl
  | f32 hm hf hr =>
    obtain ⟨q, hq, ha⟩ := hr.alike hc (FloatConverter.contract _) (FloatConverter.remakes b _ m _) hf
    refine ⟨.f32 q, ?_, .f32 ha⟩
    rw [create_f32 (c := c.at r.input r.output) hm]
    exact congrArg (Except.map Engine.f32) hq

end Engine

/-! ## Resamplers -/

namespace Resampler

variable {b : Build} {c : Config} {s : Resampler}

theorem build_eq_ok {r : Rates} {choice : Method.Choice} (h : (build b c r choice).value = .ok s) :
    ∃ e, Engine.create b choice.method r c c.matrix = .ok e ∧
      s = ⟨c, r, choice.method, c.matrix, isPassthrough c choice.method, e⟩ := by
  unfold build at h
  dsimp only at h
  split at h
  · cases h
  · next e he =>
    cases h
    exact ⟨e, he, rfl⟩

/-- A resampler that is created has a valid configuration, and an engine created for it. -/
theorem create_eq_ok (h : (create b c).value = .ok s) :
    c.validate = .ok () ∧ ∃ r m e, c = c.at r.input r.output ∧ Engine.create b m r c c.matrix = .ok e ∧
      s = ⟨c, r, m, c.matrix, isPassthrough c m, e⟩ := by
  unfold create at h
  split at h
  · cases h
  · next hv =>
    refine ⟨hv, ?_⟩
    dsimp only at h
    split at h
    · cases h
    · next choice _ =>
      obtain ⟨e, he, rfl⟩ := build_eq_ok h
      exact ⟨_, _, e, rfl, he, rfl⟩

/-- The states that calls lead to, as long as none of them halts. -/
inductive Reachable (b : Build) (c : Config) : Resampler → Prop
  | create {s : Resampler} : (create b c).value = .ok s → Reachable b c s
  | call {s : Resampler} (k : Call) : Reachable b c s → (∀ h, (s.call k).value.1 ≠ .halted h) →
      Reachable b c (s.call k).value.2

/-- The resampler is of the configuration `c`, at the rates it has by now. -/
structure Sound (b : Build) (c : Config) (s : Resampler) : Prop where
  shaped : c.Shaped
  config : s.config = c.at s.rates.input s.rates.output
  matrix : s.matrix = c.matrix
  passthrough : s.passthrough = true → s.method = .copy ∧ c.input.encoding = c.output.encoding ∧
    c.input.channels = c.output.channels
  engine : Engine.Sound b s.method c s.rates s.engine

/-- The configuration shows the rates. -/
theorem Sound.shown (h : Sound b c s) :
    s.config.input.rate = s.rates.input ∧ s.config.output.rate = s.rates.output := by
  rw [h.config]
  exact ⟨rfl, rfl⟩

theorem sound_create (h : (create b c).value = .ok s) : Sound b c s := by
  obtain ⟨hv, r, m, e, hc, he, rfl⟩ := create_eq_ok h
  have hs := Config.shaped_of_validate hv
  refine ⟨hs, hc, rfl, fun hp => ?_, Engine.sound_create hs (hc ▸ he)⟩
  simp only [isPassthrough, Bool.and_eq_true, beq_iff_eq] at hp
  exact ⟨hp.1.1, congrArg StreamSpec.encoding hp.1.2, congrArg StreamSpec.channels hp.1.2⟩

theorem sound_change {rate i o : Nat} {g : Resampler → Logged (Except Refusal Unit × Resampler)}
    (hg : Change s.rates s.config rate i o g) (h : Sound b c s) (hh : ∀ e, (g s).value.1 ≠ .error (.halt e)) :
    Sound b c (g s).value.2 := by
  cases hg with
  | refused f _ hf =>
    rw [hf]
    exact h
  | same _ _ hf =>
    rw [hf s rfl]
    exact h
  | other r ci co side _ _ _ hconfig hf =>
    rw [hf s rfl rfl] at hh ⊢
    obtain ⟨rfl, rfl⟩ := hconfig h.shown.1 h.shown.2
    simp only [setRates, bind] at hh ⊢
    cases hv : (s.engine.retune r).value.1 with
    | error f =>
      cases f with
      | fault f =>
        have he : Engine.Sound b s.method c s.rates (s.engine.retune r).value.2 := by
          rw [Engine.retune_fault hv]
          exact h.engine
        exact ⟨h.shaped, h.config, h.matrix, h.passthrough, he⟩
      | halt e =>
        rw [hv] at hh
        exact absurd rfl (hh e)
    | ok => exact ⟨h.shaped, by rw [h.config]; rfl, h.matrix, h.passthrough, h.engine.retune hv⟩

theorem sound_run (h : Sound b c s) (aligned : Bool) (bytes : List UInt8) :
    Sound b c (s.call (.run aligned bytes)).value.2 := by
  simp only [call, run]
  split
  · exact h
  · split
    · exact h
    · exact ⟨h.shaped, h.config, h.matrix, h.passthrough, h.engine.run h.shaped aligned bytes⟩

theorem sound_call (h : Sound b c s) (k : Call) (hh : ∀ e, (s.call k).value.1 ≠ .halted e) :
    Sound b c (s.call k).value.2 := by
  cases k with
  | run aligned bytes => exact sound_run h aligned bytes
  | setInputRate rate =>
    exact sound_change (change_setInputRate _ _ rate) h fun e he => hh e (congrArg Answer.ofChange he)
  | setOutputRate rate =>
    exact sound_change (change_setOutputRate _ _ rate) h fun e he => hh e (congrArg Answer.ofChange he)
  | reset => exact ⟨h.shaped, h.config, h.matrix, h.passthrough, h.engine.reset⟩
  | rewind frames => exact ⟨h.shaped, h.config, h.matrix, h.passthrough, h.engine.rewind⟩
  | maxBlock =>
    simp only [call]
    cases s.maxBlock <;> exact h
  | _ => exact h

theorem sound_of_reachable (h : Reachable b c s) : Sound b c s := by
  induction h with
  | create h => exact sound_create h
  | call k _ hh ih => exact sound_call ih k hh

/-- A resampler that is reset, or that jumps back, answers every later call as one with a
    new engine, for the configuration it was created from at the rates it has by now. -/
theorem restart_replies (h : Reachable b c s) :
    s.config = c.at s.rates.input s.rates.output ∧
      ∃ e, Engine.create b s.method s.rates s.config s.config.matrix = .ok e ∧
        (∀ ks, s.reset.value.replies ks = { s with engine := e }.replies ks) ∧
          ∀ n ks, (s.rewind n).value.replies ks = { s with engine := e }.replies ks := by
  have hs := sound_of_reachable h
  obtain ⟨e, he, ha⟩ := hs.engine.alike hs.shaped
  have hshaped : s.config.Shaped := by
    rw [hs.config]
    exact hs.shaped.at _ _
  have halike : Engine.Alike s.config s.engine.reset e := by
    rw [hs.config]
    exact ha.at _ _
  have hreset : Alike s.reset.value { s with engine := e } := ⟨hshaped, rfl, halike⟩
  have hrewind : ∀ n, Alike (s.rewind n).value { s with engine := e } := by
    intro n
    refine ⟨hshaped, rfl, ?_⟩
    show Engine.Alike s.config s.engine.rewind e
    rwa [Engine.rewind_eq_reset]
  refine ⟨hs.config, e, ?_, replies_eq_of_alike hreset, fun n => replies_eq_of_alike (hrewind n)⟩
  rw [hs.config]
  exact he

/-- One channel of 16 bits, from 48 to 44.1 kHz. -/
def monoDown (m : Method) : Config where
  input := ⟨.s16 .little, 48000, 1⟩
  inputMap := ChannelMap.mono
  output := ⟨.s16 .little, 44100, 1⟩
  outputMap := ChannelMap.mono
  method := m

/-- After a frame and a change of the input rate. -/
theorem restart_replies_monoDown :
    ∃ s, Reachable ⟨true⟩ (monoDown .sincFixed) s ∧ s.rates.input = 32000 ∧
      s.config = (monoDown .sincFixed).at s.rates.input s.rates.output ∧
        ∃ e, Engine.create ⟨true⟩ s.method s.rates s.config s.config.matrix = .ok e ∧
          (∀ ks, s.reset.value.replies ks = { s with engine := e }.replies ks) ∧
            ∀ n ks, (s.rewind n).value.replies ks = { s with engine := e }.replies ks := by
  obtain ⟨s, hs⟩ : ∃ s, (create ⟨true⟩ (monoDown .sincFixed)).value = .ok s := ⟨_, rfl⟩
  have hr := Reachable.call (.setInputRate 32000)
    (Reachable.call (.run true [1, 0]) (Reachable.create hs) fun h => ?_) fun h => ?_
  · refine ⟨_, hr, ?_, restart_replies hr⟩
    cases hs
    rfl
  · cases hs
    intro hh
    cases hh
  · cases hs
    intro hh
    cases hh

end Resampler

end PcmConvert
