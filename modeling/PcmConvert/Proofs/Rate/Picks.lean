/-
  PcmConvert.Proofs.Rate.Picks — channels do not interfere in a converter. A pick makes of a
  frame another, each sample of which is one of the frame's or silence; the same sample may
  be picked more than once, or not at all.

  The converters that use all they are fed, fed the picks of frames, give the picks of what
  they give, in every state and through every reset and change of rates. For each kind the
  two states differ by nothing but the pick of the frames they hold (`Peaks.pick`,
  `Stage.pick`, `SincFixed.pick`): a maximum and a weighted sum are taken channel by channel,
  and silence stays silence. A converter to the nearest frame holds none, and there any
  change of frames may come before or after.

  The picks of a single channel say what comes out in it: what a converter of one channel
  gives for that channel alone (`Converter.channel_alone`).
-/

import Mathlib.Data.List.GetD
import PcmConvert.Mix.Remapper
import PcmConvert.Proofs.Rate.Converter
import PcmConvert.Proofs.Rate.Follows

namespace PcmConvert

open RateConverter Rate

/-! ## Picks -/

/-- Silence is no peak. -/
def Sample.Quiet (S : Type) [Sample S] : Prop :=
  Sample.exceeds (Sample.magnitude (Sample.silence : S)) Sample.silence = false

theorem Sample.quiet_int16 : Sample.Quiet Int16 := by
  unfold Sample.Quiet
  decide +kernel

theorem Sample.quiet_float32 : Sample.Quiet Float32 := by
  unfold Sample.Quiet
  decide +kernel

namespace Remapper

variable {S : Type} [Sample S] {n : Nat} {sources : List (Option Nat)}

/-- The channels that are picked are among `n`. -/
def Within (n : Nat) (sources : List (Option Nat)) : Prop := ∀ i, some i ∈ sources → i < n

@[simp] theorem length_copyFrame (sources : List (Option Nat)) (f : Frame S) :
    (copyFrame sources f).length = sources.length := List.length_map ..

theorem copyFrame_silentFrame (sources : List (Option Nat)) (n : Nat) :
    copyFrame sources (silentFrame n : Frame S) = silentFrame sources.length := by
  unfold copyFrame silentFrame
  rw [List.eq_replicate_iff]
  refine ⟨List.length_map .., ?_⟩
  intro x hx
  obtain ⟨s, _, rfl⟩ := List.mem_map.mp hx
  cases s with
  | none => rfl
  | some i =>
    by_cases hi : i < n
    · simp [List.getD_eq_getElem?_getD, hi]
    · simp [List.getD_eq_getElem?_getD, hi]

/-- What a source says of an output. -/
def sample (s : Option Nat) (f : Frame S) : S := s.elim Sample.silence fun i => f.getD i Sample.silence

theorem getElem_copyFrame (f : Frame S) {j : Nat} (hj : j < sources.length) (hf : j < (copyFrame sources f).length) :
    (copyFrame sources f)[j] = sample sources[j] f := by
  simp only [copyFrame, List.getElem_map]
  cases sources[j] with
  | none => rfl
  | some i => rfl

/-- An operation on samples that leaves silence silent may as well come before the pick. -/
theorem copyFrame_zipWith (h : Within n sources) {q : S → S → S} (hq : q Sample.silence Sample.silence = Sample.silence)
    {f g : Frame S} (hf : f.length = n) (hg : g.length = n) :
    copyFrame sources (f.zipWith q g) = (copyFrame sources f).zipWith q (copyFrame sources g) := by
  apply List.ext_getElem
  · simp
  · intro j hj _
    have hj : j < sources.length := by simpa using hj
    rw [List.getElem_zipWith]
    simp only [getElem_copyFrame, hj]
    cases hs : sources[j] with
    | none => exact hq.symm
    | some i =>
      have hi : i < n := h i (hs ▸ List.getElem_mem hj)
      have hif : i < f.length := hf ▸ hi
      have hig : i < g.length := hg ▸ hi
      have hifg : i < (f.zipWith q g).length := List.length_zipWith ▸ Nat.lt_min.mpr ⟨hif, hig⟩
      simp only [sample, Option.elim_some, List.getD_eq_getElem, hif, hig, hifg, List.getElem_zipWith]

theorem dot_zeros (w : List (Frame Int16)) (ws : List Int) : dot (w.map fun _ => 0) ws = 0 := by
  unfold dot
  induction w generalizing ws with
  | nil => simp
  | cons f w ih =>
    cases ws with
    | nil => simp
    | cons v ws => simpa using ih ws

/-- Weighing goes channel by channel. -/
theorem weigh_copyFrame (h : Within n sources) (ws : List Int) (w : List (Frame Int16)) :
    weigh sources.length ws (w.map (copyFrame sources)) = copyFrame sources (weigh n ws w) := by
  apply List.ext_getElem
  · simp [weigh]
  · intro j hj _
    have hj : j < sources.length := by simpa [weigh] using hj
    have hread (f : Frame Int16) : (copyFrame sources f).getD j 0 = sample sources[j] f := by
      rw [List.getD_eq_getElem _ _ (by simpa using hj), getElem_copyFrame f hj _]
    rw [getElem_copyFrame _ hj _]
    simp only [weigh, List.getElem_map, List.getElem_range, List.map_map, Function.comp_def, hread]
    cases hs : sources[j] with
    | none =>
      -- a silent output weighs zeros
      show clamp16 (dot (w.map fun _ => 0) ws / 32768) = 0
      rw [dot_zeros]
      decide
    | some i =>
      have hi : i < n := h i (hs ▸ List.getElem_mem hj)
      have hir : i < ((List.range n).map fun c => clamp16 (dot (w.map fun f => (f.getD c 0).toInt) ws / 32768)).length := by
        simpa using hi
      simp only [sample, Option.elim_some, List.getD_eq_getElem _ _ hir, List.getElem_map, List.getElem_range]
      rfl

end Remapper

open Remapper

/-! ## The nearest frame -/

namespace Nearest

variable {S : Type}

theorem emit_map (g : Frame S → Frame S) (r : Rates) (i : Nat) (frames : Array (Frame S)) (o : Nat) :
    emit r i (frames.map g) o = ((emit r i frames o).1.map g, (emit r i frames o).2) := by
  fun_induction emit r i frames o with
  | case1 o h rest ih =>
    rw [emit, dif_pos (by simpa using h), ih]
    simp only [Array.getElem_map, List.map_cons, rest]
  | case2 o h =>
    rw [emit, dif_neg (by simpa using h)]
    rfl

/-- It holds no frame, and what becomes of each is no matter. -/
theorem follows (n : Nat) (g : Frame S → Frame S) : Follows S n g Tracks id where
  convert {s fs} _ _ := by
    have h := emit_map g s.rates s.consumed fs.toArray s.produced
    simp only [List.map_toArray] at h
    simp only [RateConverter.convert, convert, h, List.length_map, id]
  reset _ := rfl
  retune _ _ := rfl

end Nearest

variable {n : Nat} {sources : List (Option Nat)}

/-! ## Window maxima -/

namespace Peaks

variable {S : Type} [Sample S]

/-- The picks of the open window's maximum. -/
def pick (sources : List (Option Nat)) (s : Peaks S) : Peaks S := { s with peak := copyFrame sources s.peak }

/-- The greater magnitude is taken channel by channel, and silence has none. -/
theorem raise_copyFrame (hq : Sample.Quiet S) (h : Within n sources) {peak f : Frame S} (hp : peak.length = n)
    (hf : f.length = n) : raise (copyFrame sources peak) (copyFrame sources f) = copyFrame sources (raise peak f) := by
  refine (copyFrame_zipWith h ?_ hp hf).symm
  rw [if_neg]
  exact Bool.not_eq_true _ ▸ hq

theorem accumulate_copyFrame (hq : Sample.Quiet S) (h : Within n sources) {peak : Frame S} (hp : peak.length = n)
    {fs : List (Frame S)} (hf : Uniform n fs) :
    accumulate (copyFrame sources peak) (fs.map (copyFrame sources)) = copyFrame sources (accumulate peak fs) := by
  induction fs generalizing peak with
  | nil => rfl
  | cons f fs ih =>
    have hhead := hf f List.mem_cons_self
    simp only [accumulate, List.map_cons, List.foldl_cons, raise_copyFrame hq h hp hhead]
    exact ih (length_raise hp hhead) fun g hg => hf g (List.mem_cons_of_mem f hg)

theorem emit_copyFrame (hq : Sample.Quiet S) (h : Within n sources) (r : Rates) (i k start o : Nat)
    {rest : List (Frame S)} (hr : Uniform n rest) {peak : Frame S} (hp : peak.length = n) :
    emit r i k start o (rest.map (copyFrame sources)) (copyFrame sources peak) =
      let e := emit r i k start o rest peak
      ⟨e.frames.map (copyFrame sources), e.produced, copyFrame sources e.peak⟩ := by
  fun_induction emit r i k start o rest peak with
  | case1 start o rest peak stop hle closed later ih =>
    have hclosed := accumulate_copyFrame hq h hp (hr.take (stop - start))
    have hlater := ih (hr.drop _) ((length_silentFrame _).trans hp)
    rw [copyFrame_silentFrame] at hlater
    rw [emit, if_pos hle]
    simp only [stop] at hclosed hlater
    simp only [length_copyFrame, ← List.map_take, ← List.map_drop, hclosed, hlater, closed, later, stop, List.map_cons]
  | case2 start o rest peak hgt =>
    rw [emit, if_neg hgt, accumulate_copyFrame hq h hp hr]
    rfl

theorem create_pick (n : Nat) (sources : List (Option Nat)) (r : Rates) :
    (create sources.length r : Peaks S) = (create n r).pick sources := by
  simp only [create, pick, copyFrame_silentFrame]

theorem make_pick (n : Nat) (sources : List (Option Nat)) (r : Rates) :
    (make sources.length r : Except Fault (Peaks S)) = (make n r).map (pick sources) := by
  unfold make
  by_cases h : r.input < r.output
  · rw [if_pos h, if_pos h]
    rfl
  · rw [if_neg h, if_neg h, create_pick n]
    rfl

theorem follows (hq : Sample.Quiet S) (h : Within n sources) :
    Follows S n (copyFrame sources) (Tracks n) (pick (S := S) sources) where
  convert {s fs} hs hf := by
    have he := emit_copyFrame hq h s.rates s.consumed fs.length 0 s.produced hf hs.length_peak
    simp only [RateConverter.convert, convert, pick, List.length_map, he]
    rfl
  reset {s} _ := by
    show create (copyFrame sources s.peak).length s.rates = _
    rw [length_copyFrame]
    exact create_pick _ _ _
  retune {s} r _ := by
    show make (copyFrame sources s.peak).length r = _
    rw [length_copyFrame]
    exact make_pick _ _ _

end Peaks

/-! ## Cascades of filters -/

namespace Rate.Stage

/-- The picks of the frames in the line. -/
def pick (sources : List (Option Nat)) (s : Stage) : Stage :=
  { s with channels := sources.length, line := s.line.map (copyFrame sources), last := copyFrame sources s.last }

theorem create_pick (n : Nat) (sources : List (Option Nat)) (f : Filter) :
    create sources.length f = (create n f).pick sources := by
  simp only [create, pick, List.map_replicate, copyFrame_silentFrame]

theorem insert_pick (s : Stage) (f : Frame Int16) :
    (s.pick sources).insert (copyFrame sources f) = (s.insert f).pick sources := by
  simp only [insert, pick, ← List.map_cons, List.map_take]

theorem compute_pick {s : Stage} (h : Within s.channels sources) :
    (s.pick sources).compute = s.compute.pick sources := by
  simp only [compute, pick, weigh_copyFrame h]

theorem emit_pick {s : Stage} (h : Within s.channels sources) :
    (s.pick sources).emit = (s.emit.1.map (copyFrame sources), s.emit.2.pick sources) := by
  fun_induction emit s with
  | case1 s hlt rest ih =>
    rw [emit, if_pos (show (s.pick sources).phase < (s.pick sources).filter.up from hlt), compute_pick h, ih h]
    rfl
  | case2 s hge =>
    rw [emit, if_neg (show ¬ (s.pick sources).phase < (s.pick sources).filter.up from hge)]
    rfl

theorem push_pick {s : Stage} (h : Within s.channels sources) (f : Frame Int16) :
    (s.pick sources).push (copyFrame sources f) =
      ((s.push f).1.map (copyFrame sources), (s.push f).2.pick sources) := by
  simp only [push, insert_pick, emit_pick (s := s.insert f) h]
  rfl

theorem run_pick {s : Stage} (h : Within s.channels sources) (fs : List (Frame Int16)) :
    (s.pick sources).run (fs.map (copyFrame sources)) =
      ((s.run fs).1.map (copyFrame sources), (s.run fs).2.pick sources) := by
  induction fs generalizing s with
  | nil => rfl
  | cons f fs ih =>
    have hnext : Within (s.push f).2.channels sources := (s.push_channels f).symm ▸ h
    simp only [List.map_cons, run, push_pick h, ih hnext, List.map_append]

theorem runAll_pick (h : Within n sources) {ss : List Stage} (hs : ∀ s ∈ ss, s.channels = n)
    (fs : List (Frame Int16)) :
    runAll (ss.map (pick sources)) (fs.map (copyFrame sources)) =
      ((runAll ss fs).1.map (copyFrame sources), (runAll ss fs).2.map (pick sources)) := by
  induction ss generalizing fs with
  | nil => rfl
  | cons s ss ih =>
    have hhead : Within s.channels sources := (hs s List.mem_cons_self).symm ▸ h
    have hrest := ih (fun t ht => hs t (List.mem_cons_of_mem s ht)) (s.run fs).1
    simp only [List.map_cons, runAll, run_pick hhead, hrest]

theorem reset_pick (s : Stage) : (s.pick sources).reset = s.reset.pick sources := by
  simp only [reset, pick, List.map_replicate, copyFrame_silentFrame]

end Rate.Stage

namespace Polyphase

def pick (sources : List (Option Nat)) (s : Polyphase) : Polyphase :=
  { s with channels := sources.length, stages := s.stages.map (Stage.pick sources) }

theorem create_pick (n : Nat) (sources : List (Option Nat)) (input output : Nat) :
    create sources.length input output = (create n input output).map (pick sources) := by
  unfold create
  cases Cascade.find? input output with
  | none => rfl
  | some c =>
    simp only [Except.map, pick, List.map_map, Function.comp_def, ← Stage.create_pick]

theorem follows (h : Within n sources) : Follows Int16 n (copyFrame sources) (Fits n) (pick sources) where
  convert {s fs} hs _ := by
    have hr := Stage.runAll_pick h hs.stages fs
    simp only [RateConverter.convert, convert, pick, hr]
  reset {s} _ := by
    simp only [RateConverter.reset, pick, List.map_map, Function.comp_def, Stage.reset_pick]
  retune {s} r _ := create_pick s.channels sources r.input r.output

end Polyphase

/-! ## Band limited interpolation -/

namespace SincFixed

def pick (sources : List (Option Nat)) (s : SincFixed) : SincFixed :=
  { s with channels := sources.length, history := s.history.map (copyFrame sources) }

theorem create_pick (n : Nat) (sources : List (Option Nat)) (r : Rates) :
    create sources.length r = (create n r).pick sources := by
  simp only [create, pick, List.map_replicate, copyFrame_silentFrame]

theorem emit_copyFrame (h : Within n sources) (r : Rates) (hs : List (Frame Int16)) (position fraction : Nat) :
    emit sources.length r (hs.map (copyFrame sources)).toArray position fraction =
      let e := emit n r hs.toArray position fraction
      ⟨e.frames.map (copyFrame sources), e.position, e.fraction⟩ := by
  generalize ha : hs.toArray = as
  fun_induction emit n r as position fraction with
  | case1 position fraction hlt y rest ih =>
    subst ha
    rw [emit, if_pos (by simpa using hlt), ih]
    simp only [window_toArray, ← List.map_drop, ← List.map_take, weigh_copyFrame h, y, rest, List.map_cons]
  | case2 position fraction hge =>
    subst ha
    rw [emit, if_neg (by simpa using hge)]
    rfl

theorem follows (h : Within n sources) : Follows Int16 n (copyFrame sources) (Fits n) (pick sources) where
  convert {s fs} hs _ := by
    have he := emit_copyFrame (hs.channels.symm ▸ h) s.rates (s.history ++ fs) s.position s.fraction
    simp only [RateConverter.convert, convert, pick, ← List.map_append, he, List.length_map, List.map_drop]
    rfl
  reset {s} _ := create_pick s.channels sources s.rates
  retune {s} r _ := by
    show Except.ok (retune (s.pick sources) r) = .ok ((retune s r).pick sources)
    simp only [retune, pick, List.map_append, List.map_replicate, copyFrame_silentFrame]

end SincFixed

/-! ## The converters of a method -/

namespace FixedPoint

theorem holds_polyphase : Holds Int16 polyphase := ⟨fun _ _ => rfl, fun _ => rfl, fun _ _ => rfl⟩

theorem holds_sinc : Holds Int16 sinc := ⟨fun _ _ => rfl, fun _ => rfl, fun _ _ => rfl⟩

theorem commutes_of_create (h : Within n sources) {m : Method} {r : Rates} {a : FixedPoint}
    (ha : create n r m = .ok a) :
    ∃ b, create sources.length r m = .ok b ∧ Commutes n (·.map (copyFrame (S := Int16) sources)) a b := by
  cases m with
  | polyphaseFixed =>
    obtain ⟨p, hp, rfl⟩ := exists_of_map_eq_ok (f := polyphase) ha
    refine ⟨.polyphase (p.pick sources), ?_, ?_⟩
    · simp only [create, Polyphase.create_pick n, hp]
      rfl
    · exact holds_polyphase.commutes ((Polyphase.follows h).commutes (Polyphase.contract n) (Polyphase.fits_create hp))
  | sincFixed =>
    cases ha
    refine ⟨.sinc ((SincFixed.create n r).pick sources), ?_, ?_⟩
    · simp only [create, SincFixed.create_pick n]
    · exact holds_sinc.commutes ((SincFixed.follows h).commutes (SincFixed.contract n) (SincFixed.fits_create n r))
  | _ => cases ha

end FixedPoint

namespace Converter

variable {ν S : Type} [Sample S] [RateConverter ν S]

theorem holds_nearest : Holds S (nearest (ν := ν) (S := S)) := ⟨fun _ _ => rfl, fun _ => rfl, fun _ _ => rfl⟩

theorem holds_peaks : Holds S (peaks (ν := ν) (S := S)) := ⟨fun _ _ => rfl, fun _ => rfl, fun _ _ => rfl⟩

theorem holds_native : Holds S (native (ν := ν) (S := S)) := ⟨fun _ _ => rfl, fun _ => rfl, fun _ _ => rfl⟩

/-- What becomes of each frame is no matter to one that passes them on, either. -/
theorem commutes_copy (n : Nat) (g : Frame S → Frame S) (r : Rates) :
    Commutes n (·.map g) (copy r : Converter ν S) (copy r) := by
  intro orders ho
  induction orders generalizing r with
  | nil => rfl
  | cons o os ih =>
    have hrest := fun q hq => ho q (List.mem_cons_of_mem o hq)
    cases o with
    | convert fs => exact congrArg (Reply.converted (fs.map g) 0 :: ·) (ih r hrest)
    | reset => exact congrArg (Reply.done :: ·) (ih r hrest)
    | retune r' =>
      simp only [List.map_cons, obeyAll, Order.map_retune]
      by_cases h : r'.input = r'.output
      · have hobey : obey (copy r : Converter ν S) (.retune r') = (Reply.done (S := S), copy r') := by
          simp only [obey, retune, pure, createCopy, if_pos h]
        rw [hobey]
        exact congrArg (Reply.done :: ·) (ih r' hrest)
      · have hobey : obey (copy r : Converter ν S) (.retune r') =
            (Reply.refused (S := S) (.unsupportedMethod .copy), copy r) := by
          simp only [obey, retune, pure, createCopy, if_neg h]
        rw [hobey]
        exact congrArg (Reply.refused _ :: ·) (ih r hrest)

theorem commutes_nearest (n : Nat) (g : Frame S → Frame S) (r : Rates) :
    Commutes n (·.map g) (nearest (Nearest.create r) : Converter ν S) (nearest (Nearest.create r)) :=
  holds_nearest.commutes ((Nearest.follows n g).commutes (Nearest.contract n) (Nearest.tracks_create r))

/-- A converter of picks is made where one of all channels is, and gives the picks of what it
    gives, if that is so of the samples' own. -/
theorem commutes_of_create (hq : Sample.Quiet S) (h : Within n sources) {native native' : Method → Except Fault ν}
    {m : Method} {r : Rates}
    (hnative : ∀ {x}, native m = .ok x → ∃ y, native' m = .ok y ∧ Commutes n (·.map (copyFrame (S := S) sources)) x y)
    {a : Converter ν S} (ha : create native m n r = .ok a) :
    ∃ b, create native' m sources.length r = .ok b ∧ Commutes n (·.map (copyFrame (S := S) sources)) a b := by
  cases made_of_create ha with
  | copy hm heq =>
    subst hm
    exact ⟨.copy r, if_pos heq, commutes_copy n _ r⟩
  | nearest hm =>
    subst hm
    exact ⟨.nearest (Nearest.create r), rfl, commutes_nearest n _ r⟩
  | peaks hm hle =>
    subst hm
    refine ⟨.peaks ((Peaks.create n r).pick sources), ?_, ?_⟩
    · simp only [create, Peaks.make, if_neg (Nat.not_lt.mpr hle), Peaks.create_pick n]
      rfl
    · exact holds_peaks.commutes ((Peaks.follows hq h).commutes (Peaks.contract n) (Peaks.tracks_create hle))
  | native hm hx =>
    obtain ⟨y, hy, hxy⟩ := hnative hx
    refine ⟨.native y, ?_, holds_native.commutes hxy⟩
    cases m with
    | auto => cases ha
    | copy => exact absurd List.mem_cons_self hm
    | trivial => exact absurd (by decide) hm
    | peaks => exact absurd (by decide) hm
    | _ => exact congrArg (Except.map Converter.native) hy

end Converter

theorem FixedConverter.fits_of_create {m : Method} {r : Rates} {a : FixedConverter} (h : create m n r = .ok a) :
    Fits n a := ((remakes m n).made h).1

theorem FixedConverter.commutes_of_create (h : Within n sources) {m : Method} {r : Rates} {a : FixedConverter}
    (ha : create m n r = .ok a) :
    ∃ b, create m sources.length r = .ok b ∧ Commutes n (·.map (copyFrame (S := Int16) sources)) a b :=
  Converter.commutes_of_create Sample.quiet_int16 h (FixedPoint.commutes_of_create h) ha

theorem FloatConverter.commutes_of_create (h : Within n sources) {b : Build} {v : Bool} {m : Method}
    (hm : m ≠ .sinc ∧ m ≠ .fft) {r : Rates} {a : FloatConverter} (ha : create b v m n r = .ok a) :
    ∃ a', create b v m sources.length r = .ok a' ∧ Commutes n (·.map (copyFrame (S := Float32) sources)) a a' := by
  refine Converter.commutes_of_create Sample.quiet_float32 h ?_ ha
  intro x hx
  rcases (Chunked.ofMethod_eq_ok hx).1 with h | h
  · exact absurd h hm.1
  · exact absurd h hm.2

/-! ## One channel -/

namespace Converter

/-- The frame of channel `c` alone. -/
def lane {S : Type} [Sample S] (c : Nat) (f : Frame S) : Frame S := [f.getD c Sample.silence]

theorem within_lane {c : Nat} (h : c < n) : Within n [some c] := by
  intro i hi
  cases List.mem_singleton.mp hi
  exact h

/-- Channels do not interfere: whatever is asked of a converter of `n` channels, whole frames
    come out, and in channel `c` of them what a converter of one channel gives that is asked
    the same of channel `c`. That holds of all methods of 16-bit integers and, of binary32
    numbers, of those that do not take whole chunks. -/
theorem channel_alone {n c : Nat} (hc : c < n) :
    (∀ {m : Method} {r : Rates} {a : FixedConverter}, FixedConverter.create m n r = .ok a →
      (∀ orders, (∀ o ∈ orders, o.Whole n) → ∀ x ∈ (obeyAll (S := Int16) a orders).1, x.Whole n) ∧
        ∃ b, FixedConverter.create m 1 r = .ok b ∧ Commutes n (·.map (lane (S := Int16) c)) a b) ∧
    (∀ {d : Build} {v : Bool} {m : Method} {r : Rates} {a : FloatConverter}, m ≠ .sinc ∧ m ≠ .fft →
      FloatConverter.create d v m n r = .ok a →
      (∀ orders, (∀ o ∈ orders, o.Whole n) → ∀ x ∈ (obeyAll (S := Float32) a orders).1, x.Whole n) ∧
        ∃ b, FloatConverter.create d v m 1 r = .ok b ∧ Commutes n (·.map (lane (S := Float32) c)) a b) := by
  have hw := within_lane hc
  refine ⟨?_, ?_⟩
  · intro m r a ha
    refine ⟨?_, FixedConverter.commutes_of_create hw ha⟩
    intro orders ho
    exact (FixedConverter.contract n).obeyAll (FixedConverter.fits_of_create ha) ho
  · intro d v m r a hm ha
    refine ⟨?_, FloatConverter.commutes_of_create hw hm ha⟩
    intro orders ho
    exact (FloatConverter.plain_contract n).obeyAll (FloatConverter.plain_of_create hm ha).1 ho

/-- Frames of two channels, with other rates and a reset in between. -/
def stereoOrders {S : Type} (x y : S) : List (Order S) :=
  [.convert [[x, y], [y, y], [y, x]], .retune ⟨32000, 16000, by decide, by decide⟩, .convert [[x, x]], .reset,
    .convert [[y, x]]]

theorem whole_stereoOrders {S : Type} (x y : S) : ∀ o ∈ stereoOrders x y, o.Whole 2 := by
  simp [stereoOrders, Order.Whole, Uniform]

/-- The second of two channels: band limited interpolation, and window maxima of numbers. -/
theorem channel_alone_stereo :
    ∃ (r : Rates) (a b : FixedConverter) (c d : FloatConverter), r.input = 48000 ∧ r.output = 44100 ∧
      FixedConverter.create .sincFixed 2 r = .ok a ∧ FixedConverter.create .sincFixed 1 r = .ok b ∧
      (obeyAll b ((stereoOrders 3 (-5)).map (·.map (·.map (lane 1))))).1 =
        (obeyAll a (stereoOrders 3 (-5))).1.map (·.map (·.map (lane (S := Int16) 1))) ∧
      FloatConverter.create ⟨true⟩ false .peaks 2 r = .ok c ∧ FloatConverter.create ⟨true⟩ false .peaks 1 r = .ok d ∧
      (obeyAll d ((stereoOrders 0.5 (-1)).map (·.map (·.map (lane 1))))).1 =
        (obeyAll c (stereoOrders 0.5 (-1))).1.map (·.map (·.map (lane (S := Float32) 1))) := by
  obtain ⟨hfixed, hfloat⟩ := channel_alone (show 1 < 2 by decide)
  obtain ⟨_, b, hb, hab⟩ := hfixed (m := .sincFixed) (r := ⟨48000, 44100, by decide, by decide⟩) rfl
  obtain ⟨_, d, hd, hcd⟩ := hfloat (d := ⟨true⟩) (v := false) (m := .peaks)
    (r := ⟨48000, 44100, by decide, by decide⟩) (by decide) rfl
  exact ⟨_, _, b, _, d, rfl, rfl, rfl, hb, hab _ (whole_stereoOrders _ _), rfl, hd, hcd _ (whole_stereoOrders _ _)⟩

end Converter

end PcmConvert
