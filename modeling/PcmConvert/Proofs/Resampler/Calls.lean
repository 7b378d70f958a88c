/-
  PcmConvert.Proofs.Resampler.Calls — what can be asked of a resampler, and what it answers.
  Two resamplers of one configuration whose pipelines are alike answer every sequence of
  calls the same (`replies_eq_of_alike`): each call answers the same, and leaves them alike
  (`agree_call`).
-/

import PcmConvert.Proofs.Pipeline.Alike
import PcmConvert.Proofs.Rate.Converter
import PcmConvert.Resampler

namespace PcmConvert

/-! ## Engines that do the same -/

namespace Engine

/-- The same kind of samples, and pipelines that are alike. -/
inductive Alike (c : Config) : Engine → Engine → Prop
  | s16 {p q : Pipeline FixedConverter Int16} :
      Pipeline.Alike c (FixedConverter.Fits c.width) FixedConverter.seen p q → Alike c (.s16 p) (.s16 q)
  | f32 {p q : Pipeline FloatConverter Float32} :
      Pipeline.Alike c (FloatConverter.Fits c.width) FloatConverter.seen p q → Alike c (.f32 p) (.f32 q)

variable {c : Config} {e e' : Engine}

theorem Alike.at (h : Alike c e e') (i o : Nat) : Alike (c.at i o) e e' := by
  cases h with
  | s16 h => exact .s16 (h.at i o)
  | f32 h => exact .f32 (h.at i o)

theorem Alike.carried_eq (h : Alike c e e') : e.carried = e'.carried := by
  cases h with
  | s16 h => exact h.carried_eq
  | f32 h => exact h.carried_eq

theorem Alike.delay_eq (h : Alike c e e') : e.delay = e'.delay := by
  cases h with
  | s16 h => exact h.delay_eq FixedConverter.sees
  | f32 h => exact h.delay_eq FloatConverter.sees

theorem Alike.reset (h : Alike c e e') : Alike c e.reset e'.reset := by
  cases h with
  | s16 h => exact .s16 (h.reset (FixedConverter.contract _) FixedConverter.sees)
  | f32 h => exact .f32 (h.reset (FloatConverter.contract _) FloatConverter.sees)

theorem rewind_eq_reset (e : Engine) : e.rewind = e.reset := by cases e <;> rfl

theorem Alike.rewind (h : Alike c e e') : Alike c e.rewind e'.rewind := by
  rw [rewind_eq_reset, rewind_eq_reset]
  exact h.reset

theorem Alike.run (hc : c.Shaped) (h : Alike c e e') (aligned : Bool) (bytes : List UInt8) :
    (e.run aligned bytes).lines = (e'.run aligned bytes).lines ∧
      (e.run aligned bytes).value.1 = (e'.run aligned bytes).value.1 ∧
      Alike c (e.run aligned bytes).value.2 (e'.run aligned bytes).value.2 := by
  cases h with
  | s16 h =>
    obtain ⟨hl, ho, ha⟩ := h.run hc (FixedConverter.contract _) FixedConverter.sees aligned bytes
    exact ⟨congrArg (· ++ []) hl, ho, .s16 ha⟩
  | f32 h =>
    obtain ⟨hl, ho, ha⟩ := h.run hc (FloatConverter.contract _) FloatConverter.sees aligned bytes
    exact ⟨congrArg (· ++ []) hl, ho, .f32 ha⟩

theorem Alike.retune (h : Alike c e e') (r : Rates) :
    (e.retune r).lines = (e'.retune r).lines ∧ (e.retune r).value.1 = (e'.retune r).value.1 ∧
      Alike c (e.retune r).value.2 (e'.retune r).value.2 := by
  cases h with
  | s16 h =>
    obtain ⟨hl, ho, ha⟩ := h.retune (FixedConverter.contract _) FixedConverter.sees r
    exact ⟨congrArg (· ++ []) hl, ho, .s16 ha⟩
  | f32 h =>
    obtain ⟨hl, ho, ha⟩ := h.retune (FloatConverter.contract _) FloatConverter.sees r
    exact ⟨congrArg (· ++ []) hl, ho, .f32 ha⟩

end Engine

namespace Resampler

/-! ## Calls -/

inductive Call where
  | run (aligned : Bool) (bytes : List UInt8)
  | reset
  | rewind (frames : Nat)
  | setInputRate (rate : Nat)
  | setOutputRate (rate : Nat)
  | request (bytes : Nat)
  | result (bytes : Nat)
  | maxBlock
  | carried
  | delay

inductive Answer where
  | bytes (out : List UInt8)
  | done
  | refused (f : Fault)
  | size (n : Nat)
  /-- The call ended without an answer, and no other can follow. -/
  | halted (h : Halt)

/-- The answer to a change of rates. -/
def Answer.ofChange : Except Refusal Unit → Answer
  | .ok () => .done
  | .error (.fault f) => .refused f
  | .error (.halt h) => .halted h

def call (s : Resampler) : Call → Logged (Answer × Resampler)
  | .run aligned bytes => do
    match ← s.run aligned bytes with
    | .ok r => return (.bytes r.1, r.2)
    | .error h => return (.halted h, s)
  | .reset => do return (.done, ← s.reset)
  | .rewind frames => do return (.done, ← s.rewind frames)
  | .setInputRate rate => do let x ← s.setInputRate rate; return (.ofChange x.1, x.2)
  | .setOutputRate rate => do let x ← s.setOutputRate rate; return (.ofChange x.1, x.2)
  | .request bytes => pure (.size (s.request bytes), s)
  | .result bytes => pure (.size (s.result bytes), s)
  | .maxBlock => match s.maxBlock with
    | .ok n => pure (.size n, s)
    | .error h => pure (.halted h, s)
  | .carried => pure (.size s.engine.carried, s)
  | .delay => pure (.size s.engine.delay, s)

/-- The answers to calls one after the other, each with its lines. -/
def replies (s : Resampler) : List Call → List (Logged Answer)
  | [] => []
  | k :: ks =>
    let x := s.call k
    ⟨x.value.1, x.lines⟩ :: match x.value.1 with
      | .halted _ => []
      | _ => replies x.value.2 ks

/-! ## Runs -/

/-- What a run of whole frames gives and leaves. -/
def ran (s : Resampler) (aligned : Bool) (bytes : List UInt8) : List UInt8 × Resampler :=
  if s.passthrough then (bytes, s)
  else
    let r := (s.engine.run aligned bytes).value
    (r.1, { s with engine := r.2 })

variable {s t : Resampler}

theorem run_value (aligned : Bool) {bytes : List UInt8} (h : s.config.input.frameSize ∣ bytes.length) :
    (s.run aligned bytes).value = .ok (s.ran aligned bytes) := by
  have hz : ¬bytes.length % s.config.input.frameSize ≠ 0 := not_not_intro (Nat.mod_eq_zero_of_dvd h)
  simp only [run, ran]
  rw [if_neg hz]
  split <;> rfl

theorem config_ran (s : Resampler) (aligned : Bool) (bytes : List UInt8) :
    (s.ran aligned bytes).2.config = s.config := by
  unfold ran
  split <;> rfl

theorem replies_run (x : Bool) {bytes : List UInt8} (h : s.config.input.frameSize ∣ bytes.length) (ks : List Call) :
    s.replies (.run x bytes :: ks) =
      ⟨.bytes (s.ran x bytes).1, (s.run x bytes).lines⟩ :: (s.ran x bytes).2.replies ks := by
  simp only [replies, call, bind, run_value x h, pure, List.append_nil]

theorem replies_partial (x : Bool) {bytes : List UInt8} (h : ¬s.config.input.frameSize ∣ bytes.length)
    (ks : List Call) :
    s.replies (.run x bytes :: ks) = [⟨.halted (.partialFrame bytes.length s.config.input.frameSize), []⟩] := by
  have hz : bytes.length % s.config.input.frameSize ≠ 0 := fun hz => h (Nat.dvd_of_mod_eq_zero hz)
  simp only [replies, call, run]
  rw [if_pos hz]
  rfl

/-! ## Changes of rates -/

/-- What a change of both rates answers and leaves, from what the engine answers and leaves. -/
theorem setRates_value (s : Resampler) (r : Rates) (config : Config) (side : String) :
    (s.setRates r config side).value =
      match (s.engine.retune r).value.1 with
      | .error e => (.error e, { s with engine := (s.engine.retune r).value.2 })
      | .ok () => (.ok (), { s with engine := (s.engine.retune r).value.2, rates := r, config }) := by
  simp only [setRates, bind]
  cases (s.engine.retune r).value.1 with
  | error e => rfl
  | ok => rfl

/-- What a change of one rate to `rate`, and so of both to `i` and `o`, comes to, for
    resamplers at some rates and of one configuration: nothing, or a change of both rates. -/
inductive Change (rates : Rates) (c : Config) (rate i o : Nat)
    (g : Resampler → Logged (Except Refusal Unit × Resampler)) : Prop
  | refused (f : Fault) : checkRate rate = .error f → (∀ s, g s = pure (.error (.fault f), s)) →
      Change rates c rate i o g
  | same : checkRate rate = .ok () → i = rates.input ∧ o = rates.output →
      (∀ s, s.rates = rates → g s = pure (.ok (), s)) → Change rates c rate i o g
  | other (r : Rates) (ci co : Nat) (side : String) : checkRate rate = .ok () →
      ¬(i = rates.input ∧ o = rates.output) → r.input = i ∧ r.output = o →
      (c.input.rate = rates.input → c.output.rate = rates.output → ci = r.input ∧ co = r.output) →
      (∀ s, s.rates = rates → s.config = c → g s = s.setRates r (c.at ci co) side) → Change rates c rate i o g

theorem change_setInputRate (rates : Rates) (c : Config) (rate : Nat) :
    Change rates c rate rate rates.output (setInputRate · rate) := by
  cases hr : checkRate rate with
  | error f =>
    refine .refused f hr fun s => ?_
    unfold setInputRate
    split
    · next h => rw [hr] at h; cases h; rfl
    · next h => rw [hr] at h; cases h
  | ok =>
    by_cases hsame : rate = rates.input
    · refine .same hr ⟨hsame, rfl⟩ fun s hs => ?_
      unfold setInputRate
      split
      · next h => rw [hr] at h; cases h
      · rw [if_pos (hs ▸ hsame)]
    · refine .other { rates with input := rate, input_pos := pos_of_checkRate hr } rate c.output.rate
        ("input rate " ++ change rates.input rate) hr (fun h => hsame h.1) ⟨rfl, rfl⟩ (fun _ ho => ⟨rfl, ho⟩)
        fun s hs hc => ?_
      subst hs hc
      unfold setInputRate
      split
      · next h => rw [hr] at h; cases h
      · rw [if_neg hsame]
        rfl

theorem change_setOutputRate (rates : Rates) (c : Config) (rate : Nat) :
    Change rates c rate rates.input rate (setOutputRate · rate) := by
  cases hr : checkRate rate with
  | error f =>
    refine .refused f hr fun s => ?_
    unfold setOutputRate
    split
    · next h => rw [hr] at h; cases h; rfl
    · next h => rw [hr] at h; cases h
  | ok =>
    by_cases hsame : rate = rates.output
    · refine .same hr ⟨rfl, hsame⟩ fun s hs => ?_
      unfold setOutputRate
      split
      · next h => rw [hr] at h; cases h
      · rw [if_pos (hs ▸ hsame)]
    · refine .other { rates with output := rate, output_pos := pos_of_checkRate hr } c.input.rate rate
        ("output rate " ++ change rates.output rate) hr (fun h => hsame h.2) ⟨rfl, rfl⟩ (fun hi _ => ⟨hi, rfl⟩)
        fun s hs hc => ?_
      subst hs hc
      unfold setOutputRate
      split
      · next h => rw [hr] at h; cases h
      · rw [if_neg hsame]
        rfl

/-! ## Resamplers that do the same -/

/-- All is the same but the engines, and these are alike. -/
structure Alike (s t : Resampler) : Prop where
  shaped : s.config.Shaped
  rest : t = { s with engine := t.engine }
  engine : Engine.Alike s.config s.engine t.engine

/-- The same answer, and resamplers that are alike. -/
def Agree {α : Type} (x y : Logged (α × Resampler)) : Prop :=
  x.lines = y.lines ∧ x.value.1 = y.value.1 ∧ Alike x.value.2 y.value.2

theorem agree_run (h : Alike s t) (aligned : Bool) (bytes : List UInt8) :
    Agree (s.call (.run aligned bytes)) (t.call (.run aligned bytes)) := by
  obtain ⟨hs, hr, he⟩ := h
  generalize t.engine = e at hr he
  subst hr
  obtain ⟨hl, ho, ha⟩ := he.run hs aligned bytes
  simp only [call, run]
  by_cases hp : bytes.length % s.config.input.frameSize ≠ 0
  · rw [if_pos hp, if_pos hp]
    exact ⟨rfl, rfl, hs, rfl, he⟩
  · rw [if_neg hp, if_neg hp]
    by_cases hpass : s.passthrough = true
    · rw [if_pos hpass, if_pos hpass]
      exact ⟨rfl, rfl, hs, rfl, he⟩
    · rw [if_neg hpass, if_neg hpass]
      exact ⟨congrArg (fun l => (l ++ []) ++ []) hl, congrArg Answer.bytes ho, hs, rfl, ha⟩

theorem agree_setRates (h : Alike s t) (r : Rates) (i o : Nat) (side : String) :
    Agree (s.setRates r (s.config.at i o) side) (t.setRates r (s.config.at i o) side) := by
  obtain ⟨hs, hr, he⟩ := h
  generalize t.engine = e at hr he
  subst hr
  obtain ⟨hl, ho, ha⟩ := he.retune r
  simp only [setRates, bind]
  rw [← ho]
  cases (s.engine.retune r).value.1 with
  | error f => exact ⟨congrArg (· ++ []) hl, rfl, hs, rfl, ha⟩
  | ok => exact ⟨congrArg (· ++ _) hl, rfl, hs.at _ _, rfl, ha.at _ _⟩

theorem agree_change {rate i o : Nat} {g : Resampler → Logged (Except Refusal Unit × Resampler)}
    (hg : Change s.rates s.config rate i o g) (h : Alike s t) : Agree (g s) (g t) := by
  have hrates : t.rates = s.rates := by rw [h.rest]
  have hconfig : t.config = s.config := by rw [h.rest]
  cases hg with
  | refused f _ hf =>
    rw [hf, hf]
    exact ⟨rfl, rfl, h⟩
  | same _ _ hf =>
    rw [hf s rfl, hf t hrates]
    exact ⟨rfl, rfl, h⟩
  | other r ci co side _ _ _ _ hf =>
    rw [hf s rfl rfl, hf t hrates hconfig]
    exact agree_setRates h r ci co side

theorem maxBlock_eq (h : Alike s t) : s.maxBlock = t.maxBlock := by
  rw [h.rest]
  unfold maxBlock
  rw [h.engine.carried_eq]
  rfl

theorem result_eq (h : Alike s t) (bytes : Nat) : s.result bytes = t.result bytes := by
  rw [h.rest]
  simp only [result, h.engine.carried_eq]

theorem request_eq (h : Alike s t) (bytes : Nat) : s.request bytes = t.request bytes := by
  rw [h.rest]
  rfl

/-- A call changes resamplers that are alike in the same way. -/
theorem agree_call (h : Alike s t) (k : Call) : Agree (s.call k) (t.call k) := by
  cases k with
  | run aligned bytes => exact agree_run h aligned bytes
  | reset => exact ⟨rfl, rfl, h.shaped, by rw [h.rest]; rfl, h.engine.reset⟩
  | rewind frames => exact ⟨rfl, rfl, h.shaped, by rw [h.rest]; rfl, h.engine.rewind⟩
  | setInputRate rate =>
    obtain ⟨hl, ho, ha⟩ := agree_change (change_setInputRate _ _ rate) h
    exact ⟨congrArg (· ++ []) hl, congrArg Answer.ofChange ho, ha⟩
  | setOutputRate rate =>
    obtain ⟨hl, ho, ha⟩ := agree_change (change_setOutputRate _ _ rate) h
    exact ⟨congrArg (· ++ []) hl, congrArg Answer.ofChange ho, ha⟩
  | request bytes => exact ⟨rfl, congrArg Answer.size (request_eq h bytes), h⟩
  | result bytes => exact ⟨rfl, congrArg Answer.size (result_eq h bytes), h⟩
  | maxBlock =>
    simp only [call, maxBlock_eq h]
    cases t.maxBlock with
    | ok n => exact ⟨rfl, rfl, h⟩
    | error e => exact ⟨rfl, rfl, h⟩
  | carried => exact ⟨rfl, congrArg Answer.size h.engine.carried_eq, h⟩
  | delay => exact ⟨rfl, congrArg Answer.size h.engine.delay_eq, h⟩

/-- Resamplers that are alike answer every sequence of calls the same. -/
theorem replies_eq_of_alike (h : Alike s t) (ks : List Call) : s.replies ks = t.replies ks := by
  induction ks generalizing s t with
  | nil => rfl
  | cons k ks ih =>
    obtain ⟨hl, ha, hn⟩ := agree_call h k
    simp only [replies, hl, ha, ih hn]

end Resampler

end PcmConvert
