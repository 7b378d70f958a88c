/-
  PcmConvert.Proofs.Resampler.RateChange — a change of one rate is all or nothing. The
  converter is asked first. If it refuses, not a bit of the resampler has changed, and all
  later calls are answered as if the change had never been asked for; if it takes the rates,
  all places that hold them hold the new ones (`atomic_of_reachable`). It refuses exactly
  what its method does not support.

  One way is left to stop halfway: no crossover fits below an output rate of 1 or 2 Hz.
  Such a call halts, and gives no answer.
-/

import PcmConvert.Proofs.Resampler.Invariant

namespace PcmConvert

/-- What the methods do not support: unequal rates, more peaks than frames, and pairs
    without filters. -/
theorem Method.supportsRates_eq_false_iff (m : Method) (i o : Nat) :
    m.supportsRates i o = false ↔
      m = .copy ∧ i ≠ o ∨ m = .peaks ∧ i < o ∨ m = .polyphaseFixed ∧ Rate.Cascade.find? i o = none := by
  cases m <;> simp [supportsRates]

namespace Resampler

variable {b : Build} {c : Config} {s : Resampler}

/-! ## One change -/

/-- The answer to a change of one rate to `rate`, and so of both to `i` and `o`, what it
    leaves, and why. -/
inductive Outcome (s : Resampler) (rate i o : Nat) : Answer × Resampler → Prop
  | invalid {f : Fault} : ¬(1 ≤ rate ∧ rate ≤ maxRate) → Outcome s rate i o (.refused f, s)
  | same : 1 ≤ rate ∧ rate ≤ maxRate → i = s.rates.input ∧ o = s.rates.output → Outcome s rate i o (.done, s)
  | unsupported {f : Fault} : 1 ≤ rate ∧ rate ≤ maxRate → ¬(i = s.rates.input ∧ o = s.rates.output) →
      s.method.supportsRates i o = false → Outcome s rate i o (.refused f, s)
  | moved {r : Rates} {e : Engine} : 1 ≤ rate ∧ rate ≤ maxRate → ¬(i = s.rates.input ∧ o = s.rates.output) →
      s.method.supportsRates i o = true → ¬(s.engine.crossover.isSome = true ∧ 49 * o < 100) →
      r.input = i → r.output = o → e.Runs s.method r →
      Outcome s rate i o (.done, { s with config := s.config.at i o, rates := r, engine := e })
  | halted {e : Halt} {t : Resampler} : 1 ≤ rate ∧ rate ≤ maxRate → ¬(i = s.rates.input ∧ o = s.rates.output) →
      s.method.supportsRates i o = true → s.engine.crossover.isSome = true ∧ 49 * o < 100 →
      Outcome s rate i o (.halted e, t)

theorem outcome_of_change {rate i o : Nat} {g : Resampler → Logged (Except Refusal Unit × Resampler)}
    (hg : Change s.rates s.config rate i o g) (hs : Sound b c s) (hk : Kept c s) :
    Outcome s rate i o (.ofChange (g s).value.1, (g s).value.2) := by
  cases hg with
  | refused f hrate hf =>
    rw [hf]
    refine .invalid ?_
    rw [← checkRate_eq_ok_iff, hrate]
    simp
  | same hrate hsame hf =>
    rw [hf s rfl]
    exact .same ((checkRate_eq_ok_iff _).mp hrate) hsame
  | other r ci co side hrate hother hr hconfig hf =>
    obtain ⟨rfl, rfl⟩ := hr
    obtain ⟨rfl, rfl⟩ := hconfig hs.shown.1 hs.shown.2
    have hvalid := (checkRate_eq_ok_iff _).mp hrate
    have hfault := hk.runs.retune_fault_iff r
    have hhalt := hk.runs.retune_halt_iff r
    rw [hf s rfl rfl, setRates_value]
    cases hv : (s.engine.retune r).value.1 with
    | error e =>
      cases e with
      | fault f =>
        dsimp only
        rw [Engine.retune_fault hv]
        exact .unsupported hvalid hother (hfault.mp ⟨f, hv⟩)
      | halt e =>
        obtain ⟨hcan, hx⟩ := hhalt.mp ⟨e, hv⟩
        exact .halted hvalid hother hcan hx
    | ok =>
      have hcan : s.method.can r = true := by
        rw [← Bool.not_eq_false, ← hfault, hv]
        simp
      have hx : ¬(s.engine.crossover.isSome = true ∧ 49 * r.output < 100) := by
        intro hx
        obtain ⟨e, he⟩ := hhalt.mpr ⟨hcan, hx⟩
        rw [hv] at he
        cases he
      exact .moved hvalid hother hcan hx rfl rfl (hk.runs.retune hv)

/-! ## All or nothing -/

/-- The call `k`, which asks for the rate `rate`, and so for the rates `i` and `o`, is
    refused and leaves everything, is done and sets both rates everywhere, or halts. -/
structure Atomic (s : Resampler) (k : Call) (rate i o : Nat) : Prop where
  answers : (s.call k).value.1 = .done ∨ (∃ f, (s.call k).value.1 = .refused f) ∨ ∃ e, (s.call k).value.1 = .halted e
  refused_iff : (∃ f, (s.call k).value.1 = .refused f) ↔
    rate = 0 ∨ maxRate < rate ∨ ¬(i = s.config.input.rate ∧ o = s.config.output.rate) ∧
      (s.method = .copy ∨ s.method = .peaks ∧ i < o ∨
        s.method = .polyphaseFixed ∧ Rate.Cascade.find? i o = none)
  refused : ∀ f, (s.call k).value.1 = .refused f →
    (s.call k).value.2 = s ∧ ∀ ks, s.replies (k :: ks) = ⟨.refused f, (s.call k).lines⟩ :: s.replies ks
  done : (s.call k).value.1 = .done → ∃ r e, r.input = i ∧ r.output = o ∧ e.Runs s.method r ∧
    (s.call k).value.2 = { s with config := s.config.at i o, rates := r, engine := e }
  halted_iff : (∃ e, (s.call k).value.1 = .halted e) ↔
    (1 ≤ rate ∧ rate ≤ maxRate) ∧ ¬(i = s.config.input.rate ∧ o = s.config.output.rate) ∧
      s.method.supportsRates i o = true ∧ s.engine.crossover.isSome = true ∧ 49 * o < 100

theorem replies_refused {k : Call} {f : Fault} (h : (s.call k).value = (.refused f, s)) (ks : List Call) :
    s.replies (k :: ks) = ⟨.refused f, (s.call k).lines⟩ :: s.replies ks := by
  simp only [replies, h]

/-- A method that copies runs at equal rates, of which only one changes. -/
theorem Kept.unsupported_iff (h : Kept c s) {i o : Nat} (hside : i = s.rates.input ∨ o = s.rates.output)
    (hother : ¬(i = s.rates.input ∧ o = s.rates.output)) :
    s.method.supportsRates i o = false ↔ s.method = .copy ∨ s.method = .peaks ∧ i < o ∨
      s.method = .polyphaseFixed ∧ Rate.Cascade.find? i o = none := by
  have hcopy : s.method = .copy → i ≠ o := by
    intro hm
    have hcan := h.runs.supports
    rw [hm] at hcan
    have heq := Method.can_copy.mp hcan
    omega
  rw [Method.supportsRates_eq_false_iff]
  constructor
  · rintro (⟨hm, _⟩ | hrest)
    · exact .inl hm
    · exact .inr hrest
  · rintro (hm | hrest)
    · exact .inl ⟨hm, hcopy hm⟩
    · exact .inr hrest

theorem atomic_of_outcome {k : Call} {rate i o : Nat} (hs : Sound b c s) (hk : Kept c s)
    (hside : i = s.rates.input ∨ o = s.rates.output) (h : Outcome s rate i o (s.call k).value) :
    Atomic s k rate i o := by
  obtain ⟨hin, hout⟩ := hs.shown
  have hunsupported := hk.unsupported_iff hside
  have hrefused {f : Fault} (hv : (s.call k).value = (.refused f, s)) : ∀ f', (s.call k).value.1 = .refused f' →
      (s.call k).value.2 = s ∧ ∀ ks, s.replies (k :: ks) = ⟨.refused f', (s.call k).lines⟩ :: s.replies ks := by
    intro f' hf
    rw [hv] at hf ⊢
    cases hf
    exact ⟨rfl, replies_refused hv⟩
  generalize hv : (s.call k).value = v at h
  cases h with
  | invalid hbad =>
    refine ⟨by simp [hv], ?_, hrefused hv, by simp [hv], by simp [hv, hbad]⟩
    have hwhy : rate = 0 ∨ maxRate < rate := by omega
    rcases hwhy with hz | hm
    · simp [hv, hz]
    · simp [hv, hm]
  | unsupported hvalid hother hno =>
    refine ⟨by simp [hv], ?_, hrefused hv, by simp [hv], by simp [hv, hno]⟩
    rw [hin, hout]
    have hwhy := (hunsupported hother).mp hno
    exact ⟨fun _ => .inr (.inr ⟨hother, hwhy⟩), fun _ => ⟨_, congrArg Prod.fst hv⟩⟩
  | same hvalid hsame =>
    refine ⟨by simp [hv], ?_, by simp [hv], fun _ => ?_, by simp [hv, hin, hout, hsame]⟩
    · rw [hin, hout]
      simp only [hv, reduceCtorEq, exists_false, false_iff]
      omega
    · refine ⟨s.rates, s.engine, hsame.1.symm, hsame.2.symm, hk.runs, ?_⟩
      have hat : s.config.at i o = s.config := by
        rw [hsame.1, hsame.2, hs.config]
        rfl
      rw [hv, hat]
  | moved hvalid hother hcan hx hi ho hr =>
    refine ⟨by simp [hv], ?_, by simp [hv], fun _ => ⟨_, _, hi, ho, hr, by rw [hv]⟩, ?_⟩
    · rw [hin, hout, ← hunsupported hother, hcan]
      simp only [hv, reduceCtorEq, Bool.true_eq_false, and_false, or_false, exists_false, false_iff]
      omega
    · simp [hv, hcan, hx]
  | halted hvalid hother hcan hx =>
    refine ⟨by simp [hv], ?_, by simp [hv], by simp [hv], ?_⟩
    · rw [hin, hout, ← hunsupported hother, hcan]
      simp only [hv, reduceCtorEq, Bool.true_eq_false, and_false, or_false, exists_false, false_iff]
      omega
    · rw [hin, hout]
      exact ⟨fun _ => ⟨hvalid, hother, hcan, hx⟩, fun _ => ⟨_, congrArg Prod.fst hv⟩⟩

/-- In every state that calls lead to, a change of either rate is all or nothing. -/
theorem atomic_of_reachable (h : Reachable b c s) (rate : Nat) :
    Atomic s (.setInputRate rate) rate rate s.config.output.rate ∧
      Atomic s (.setOutputRate rate) rate s.config.input.rate rate := by
  have hs := sound_of_reachable h
  have hk := kept_of_reachable h
  obtain ⟨hin, hout⟩ := hs.shown
  rw [hin, hout]
  constructor
  · exact atomic_of_outcome hs hk (.inr rfl) (outcome_of_change (change_setInputRate _ _ rate) hs hk)
  · exact atomic_of_outcome hs hk (.inl rfl) (outcome_of_change (change_setOutputRate _ _ rate) hs hk)

/-- After a frame: an output rate that `peaks` refuses, and an input rate that it takes. -/
theorem atomic_of_reachable_monoDown :
    ∃ s, Reachable ⟨true⟩ (monoDown .peaks) s ∧ s.rates.input = 48000 ∧
      (∃ f, (s.call (.setOutputRate 200000)).value = (.refused f, s)) ∧
      ∃ r e, r.input = 96000 ∧ r.output = 44100 ∧ e.Runs .peaks r ∧
        (s.call (.setInputRate 96000)).value.2 =
          { s with config := s.config.at 96000 44100, rates := r, engine := e } := by
  obtain ⟨s, hs⟩ : ∃ s, (create ⟨true⟩ (monoDown .peaks)).value = .ok s := ⟨_, rfl⟩
  have hr := Reachable.call (.run true [1, 0]) (Reachable.create hs) fun h => ?_
  · obtain ⟨hin, _⟩ := atomic_of_reachable hr 96000
    obtain ⟨_, hout⟩ := atomic_of_reachable hr 200000
    cases hs
    obtain ⟨f, hf⟩ := hout.refused_iff.mpr (.inr (.inr ⟨by decide, .inr (.inl ⟨rfl, by decide⟩)⟩))
    exact ⟨_, hr, rfl, ⟨f, Prod.ext hf (hout.refused f hf).1⟩, hin.done rfl⟩
  · cases hs
    intro hh
    cases hh

end Resampler

end PcmConvert
