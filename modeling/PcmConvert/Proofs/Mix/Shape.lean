/-
  PcmConvert.Proofs.Mix.Shape — how many samples the frames have that a mix and a crossover
  give, and what a crossover keeps. A matrix has a row for each output by each of its rules,
  so that a remapper gives frames of the output's size; and where a matrix changes nothing
  both sides have the same number of channels. A crossover gives frames of the size it is
  for, and a reset undoes what was run through it.
-/

import PcmConvert.Mix.Crossover
import PcmConvert.Mix.Remapper
import PcmConvert.Proofs.Lists
import PcmConvert.Proofs.Sample.Frames

namespace PcmConvert

/-! ## Matrix -/

namespace Mix

variable {α : Type} [Gain α]

theorem length_scan_rows (mono : MonoRoute α) (f : Flags) (sources : List Source) (outputs : List Position) :
    (scan mono f sources outputs).rows.length = outputs.length := by
  induction outputs generalizing sources with
  | nil => rfl
  | cons b outputs ih => simp only [scan, List.length_cons, ih]

end Mix

namespace Matrix

variable {α : Type} [Gain α]

theorem inputs_build (i o : ChannelMap) (f : Flags) : (build i o f : Matrix α).inputs = i.length := by
  unfold build rules
  split
  · rfl
  · split <;> rfl

theorem length_rows_build (i o : ChannelMap) (f : Flags) : (build i o f : Matrix α).rows.length = o.length := by
  unfold build rules
  split
  · simp
  · split
    · simp
    · simp [Mix.remix, Mix.length_scan_rows]

theorem length_shown_build {i : ChannelMap} (o : ChannelMap) (f : Flags) (hi : 0 < i.length) :
    (build i o f : Matrix α).shown.length = o.length := by
  rw [shown, if_neg (by rw [inputs_build]; omega), length_rows_build]

/-- A mix that changes nothing has as many inputs as outputs. -/
theorem length_eq_of_isIdentity {i o : ChannelMap} {f : Flags} (h : (build i o f : Matrix α).isIdentity = true) :
    i.length = o.length := by
  unfold isIdentity at h
  simp only [Bool.and_eq_true, beq_iff_eq] at h
  have := h.1
  rwa [outputs, inputs_build, length_rows_build] at this

end Matrix

/-! ## Remapper -/

namespace Remapper

variable {S : Type} [Sample S]

theorem length_frame (m : Matrix Float32) (f : Frame S) : ((ofMatrix m).frame f).length = m.shown.length := by
  unfold frame ofMatrix
  dsimp only
  split
  · next sources h => rw [copyFrame, List.length_map, length_of_mapM_eq_some h]
  · rw [mixFrame, List.length_zipWith, List.length_map, Nat.min_self]

theorem apply_uniform {m : Matrix Float32} {n : Nat} (h : m.shown.length = n) (fs : List (Frame S)) :
    Uniform n ((ofMatrix m).apply fs) := Uniform.map fs fun f => (length_frame m f).trans h

end Remapper

/-! ## Crossover -/

namespace Crossover

theorem create?_eq_some {map : ChannelMap} {f r : Nat} {x : Crossover} (h : create? map f r = some x) :
    ∃ c, Coefficients.ofCutoff? f r = some c ∧ x = ⟨f, c, map.map fun p => { keepsLow := p.isLfe }⟩ := by
  obtain ⟨c, hc, rfl⟩ := Option.map_eq_some_iff.mp h
  exact ⟨c, hc, rfl⟩

theorem length_channels_of_create? {map : ChannelMap} {f r : Nat} {x : Crossover} (h : create? map f r = some x) :
    x.channels.length = map.length := by
  obtain ⟨c, _, rfl⟩ := create?_eq_some h
  exact List.length_map ..

theorem reset_of_create? {map : ChannelMap} {f r : Nat} {x : Crossover} (h : create? map f r = some x) :
    x.reset = x := by
  obtain ⟨c, _, rfl⟩ := create?_eq_some h
  simp only [reset, List.map_map]
  rfl

/-- Below 1 Hz or above 0.49 of the rate there is no cutoff, so none at 1 or 2 Hz. -/
theorem setRate?_eq_none_iff (x : Crossover) (r : Nat) : x.setRate? r = none ↔ 49 * r < 100 := by
  unfold setRate? Coefficients.ofCutoff?
  by_cases h : 49 * r < 100
  · simp [h]
  · simp [h]

theorem length_channels_setRate? {x y : Crossover} {r : Nat} (h : x.setRate? r = some y) :
    y.channels.length = x.channels.length := by
  obtain ⟨c, _, rfl⟩ := Option.map_eq_some_iff.mp h
  rfl

/-- Another rate and a reset give what is made for that rate. -/
theorem create?_of_setRate? {map : ChannelMap} {f r r' : Nat} {x y : Crossover} (h : create? map f r = some x.reset)
    (hy : x.setRate? r' = some y) : create? map f r' = some y.reset := by
  obtain ⟨c, _, hx⟩ := create?_eq_some h
  obtain ⟨c', hc', rfl⟩ := Option.map_eq_some_iff.mp hy
  have hf : x.frequency = f := (Crossover.mk.inj hx).1
  have hch := (Crossover.mk.inj hx).2.2
  rw [hf] at hc'
  simp only [create?, hc', Option.map_some, ← hch]
  rw [← hf]
  rfl

@[simp] theorem reset_reset (x : Crossover) : x.reset.reset = x.reset := by
  simp only [reset, List.map_map]
  rfl

@[simp] theorem length_channels_reset (x : Crossover) :
    x.reset.channels.length = x.channels.length := List.length_map ..

variable {S : Type} [Sample S]

theorem length_frame {x : Crossover} {f : Frame S} (h : f.length = x.channels.length) :
    (x.frame f).1.length = x.channels.length ∧ (x.frame f).2.channels.length = x.channels.length := by
  simp [frame, h]

/-- Each channel keeps the part it keeps, whatever its filters hold. -/
theorem reset_frame {x : Crossover} {f : Frame S} (h : f.length = x.channels.length) :
    (x.frame f).2.reset = x.reset := by
  obtain ⟨frequency, c, channels⟩ := x
  simp only [frame, reset, List.map_map, Crossover.mk.injEq, true_and]
  dsimp only at h
  induction channels generalizing f with
  | nil => simp
  | cons ch channels ih =>
    obtain ⟨s, g, rfl⟩ := List.exists_cons_of_length_eq_add_one h
    rw [List.zipWith_cons_cons, List.map_cons, List.map_cons, ih (by simpa using h)]
    rfl

theorem process_append (x : Crossover) (a b : List (Frame S)) :
    x.process (a ++ b) = ((x.process a).1 ++ ((x.process a).2.process b).1, ((x.process a).2.process b).2) := by
  induction a generalizing x with
  | nil => rfl
  | cons f a ih => simp only [List.cons_append, process, ih]

theorem process_channels {x : Crossover} {fs : List (Frame S)} (h : Uniform x.channels.length fs) :
    Uniform x.channels.length (x.process fs).1 ∧ (x.process fs).2.channels.length = x.channels.length ∧
      (x.process fs).2.reset = x.reset := by
  induction fs generalizing x with
  | nil => exact ⟨Uniform.nil, rfl, rfl⟩
  | cons f fs ih =>
    have hf := h f List.mem_cons_self
    obtain ⟨h1, h2⟩ := length_frame hf
    obtain ⟨hu, hl, hr⟩ := ih (x := (x.frame f).2) fun g hg => h2 ▸ h g (List.mem_cons_of_mem _ hg)
    rw [h2] at hu hl
    exact ⟨hu.cons h1, hl, hr.trans (reset_frame hf)⟩

@[simp] theorem length_process (x : Crossover) (fs : List (Frame S)) : (x.process fs).1.length = fs.length := by
  induction fs generalizing x with
  | nil => rfl
  | cons f fs ih => simp only [process, List.length_cons, ih]

end Crossover

end PcmConvert
