/-
  PcmConvert.Proofs.Rate.Converter — the laws of the converters of a method, from the laws of
  each. The converters of any samples come first, with the laws of those of the samples
  alone taken for granted; then the two kinds of samples, whose own converters keep them.
-/

import PcmConvert.Proofs.Rate.Chunked
import PcmConvert.Proofs.Rate.Nearest
import PcmConvert.Proofs.Rate.Peaks
import PcmConvert.Proofs.Rate.Sinc
import PcmConvert.Rate.Converter

namespace PcmConvert

open Number RateConverter

/-! ## Any samples -/

namespace Converter

variable {ν S : Type}

/-- The states of a converter of frames of `n` samples; `Ok` are those of the samples' own. -/
def Fits (Ok : ν → Prop) (n : Nat) : Converter ν S → Prop
  | .copy _ => True
  | .nearest s => s.Tracks
  | .peaks s => s.Tracks n
  | .native x => Ok x

/-- What is seen of a converter; `f` tells what is of the samples' own. -/
def seen (f : ν → ν) : Converter ν S → Converter ν S
  | .native x => .native (f x)
  | c => c

/-- How many frames a call with so many gives. -/
def yield (f : ν → Nat → Nat) : Converter ν S → Nat → Nat
  | .copy _, k => k
  | .nearest s, k => s.yield k
  | .peaks s, k => s.yield k
  | .native x, k => f x k

/-- The converter runs at the rates `r`; `g` tells what of the samples' own does. -/
def At (g : Rates → ν → Prop) (r : Rates) : Converter ν S → Prop
  | .copy _ => r.input = r.output
  | .nearest s => s.rates = r
  | .peaks s => s.rates = r
  | .native x => g r x

/-- The rates bound what a call gives; `g` tells of which of the samples' own. -/
def Steady (g : ν → Prop) : Converter ν S → Prop
  | .native x => g x
  | _ => True

/-- A steady converter gives no more than the rates promise for the frames of a call. -/
theorem yield_le {n : Nat} {Ok g : ν → Prop} {y : ν → Nat → Nat} {q : Rates → ν → Prop} {r : Rates}
    (h : ∀ {x : ν} (k : Nat), Ok x → q r x → g x → y x k ≤ ceilDiv (k * r.output) r.input)
    {c : Converter ν S} (hc : Fits Ok n c) (hr : At q r c) (hg : Steady g c) (k : Nat) :
    c.yield y k ≤ ceilDiv (k * r.output) r.input := by
  cases c with
  | copy r₀ =>
    have heq : r.input = r.output := hr
    rw [← heq, ceilDiv_mul_right _ r.input_pos]
    exact Nat.le_refl k
  | nearest s => exact hr ▸ Nearest.yield_le hc k
  | peaks s => exact hr ▸ Peaks.yield_le hc k
  | native x => exact h k hc hr hg

/-- It gives no more than a frame beyond that if the samples' own do not. -/
theorem yield_le_succ {n : Nat} {Ok g : ν → Prop} {y : ν → Nat → Nat} {q : Rates → ν → Prop} {r : Rates}
    (h : ∀ {x : ν} (k : Nat), Ok x → q r x → g x → y x k ≤ ceilDiv (k * r.output) r.input + 1)
    {c : Converter ν S} (hc : Fits Ok n c) (hr : At q r c) (hg : Steady g c) (k : Nat) :
    c.yield y k ≤ ceilDiv (k * r.output) r.input + 1 := by
  have hnone {c : Converter ν S} (hc : Fits Ok n c) (hr : At q r c) (hg : Steady (fun _ => False) c) :
      c.yield y k ≤ ceilDiv (k * r.output) r.input + 1 :=
    Nat.le_succ_of_le (yield_le (fun _ _ _ hf => hf.elim) hc hr hg k)
  cases c with
  | copy r₀ => exact hnone hc hr trivial
  | nearest s => exact hnone hc hr trivial
  | peaks s => exact hnone hc hr trivial
  | native x => exact h k hc hr hg

/-- The converters of any samples give no less than the whole part of it. -/
theorem le_yield {n : Nat} {Ok : ν → Prop} {y : ν → Nat → Nat} {q : Rates → ν → Prop} {r : Rates} {c : Converter ν S}
    (hc : Fits Ok n c) (hr : At q r c) (hg : Steady (fun _ => False) c) (k : Nat) :
    k * r.output / r.input ≤ c.yield y k := by
  cases c with
  | copy r₀ =>
    have heq : r.input = r.output := hr
    rw [← heq, Nat.mul_div_cancel k r.input_pos]
    exact Nat.le_refl k
  | nearest s => exact hr ▸ Nearest.le_yield hc k
  | peaks s => exact hr ▸ Peaks.le_yield hc k
  | native x => exact hg.elim

theorem map_native_seen {f : ν → ν} (x : Except Fault ν) :
    (x.map native).map (seen (S := S) f) = (x.map f).map native := by
  cases x <;> rfl

theorem eq_or_native_of_seen {f : ν → ν} {a b : Converter ν S} (h : seen f a = seen f b) :
    a = b ∨ ∃ x z, a = .native x ∧ b = .native z ∧ f x = f z := by
  cases a with
  | native x =>
    cases b with
    | native z => exact .inr ⟨x, z, rfl, rfl, Converter.native.inj h⟩
    | _ => cases h
  | _ =>
    cases b with
    | native z => cases h
    | _ => exact .inl h

theorem createCopy_eq_ok {r : Rates} {c : Converter ν S} (h : createCopy r = .ok c) :
    r.input = r.output ∧ c = .copy r := by
  unfold createCopy at h
  split at h
  · cases h
    exact ⟨‹_›, rfl⟩
  · cases h

variable [Sample S] {n : Nat} {Ok : ν → Prop} {f : ν → ν} {y : ν → Nat → Nat} {make : Rates → Method → Except Fault ν}

/-- The converters that are made for a method, with `native` for those of the samples' own. -/
inductive Made (native : Method → Except Fault ν) (m : Method) (n : Nat) (r : Rates) : Converter ν S → Prop
  | copy : m = .copy → r.input = r.output → Made native m n r (.copy r)
  | nearest : m = .trivial → Made native m n r (.nearest (Nearest.create r))
  | peaks : m = .peaks → r.output ≤ r.input → Made native m n r (.peaks (Peaks.create n r))
  | native {x : ν} : m ∉ [Method.copy, .trivial, .peaks] → native m = .ok x → Made native m n r (.native x)

theorem made_of_create {native : Method → Except Fault ν} {m : Method} {r : Rates} {c : Converter ν S}
    (h : create native m n r = .ok c) : Made native m n r c := by
  have hnative : m ∉ [Method.copy, .trivial, .peaks] → (native m).map .native = .ok c → Made native m n r c := by
    intro hm h
    obtain ⟨x, hx, rfl⟩ := exists_of_map_eq_ok h
    exact .native hm hx
  cases m with
  | auto => cases h
  | copy =>
    obtain ⟨heq, rfl⟩ := createCopy_eq_ok h
    exact .copy rfl heq
  | trivial =>
    cases h
    exact .nearest rfl
  | peaks =>
    obtain ⟨p, hp, rfl⟩ := exists_of_map_eq_ok (f := Converter.peaks) h
    obtain ⟨hle, rfl⟩ := Peaks.make_eq_ok hp
    exact .peaks rfl hle
  | polyphaseFixed => exact hnative (by decide) h
  | sincFixed => exact hnative (by decide) h
  | sinc => exact hnative (by decide) h
  | fft => exact hnative (by decide) h

variable [RateConverter ν S]

theorem contract (h : Contract S n Ok) : Contract S n (Fits (S := S) Ok n) where
  next {c fs} hc hf := by
    cases c with
    | copy r => trivial
    | nearest s => exact (Nearest.contract n).next hc hf
    | peaks s => exact (Peaks.contract n).next hc hf
    | native x => exact h.next hc hf
  whole {c fs} hc hf := by
    cases c with
    | copy r => exact hf
    | nearest s => exact (Nearest.contract n).whole hc hf
    | peaks s => exact (Peaks.contract n).whole hc hf
    | native x => exact h.whole hc hf
  tail {c fs} hc hf := by
    cases c with
    | copy r => exact Nat.zero_le _
    | nearest s => exact (Nearest.contract n).tail hc hf
    | peaks s => exact (Peaks.contract n).tail hc hf
    | native x => exact h.tail hc hf
  reset {c} hc := by
    cases c with
    | copy r => trivial
    | nearest s => exact (Nearest.contract (S := S) n).reset hc
    | peaks s => exact (Peaks.contract n).reset hc
    | native x => exact h.reset hc
  retune {c c' r} hc hr := by
    cases c with
    | copy r₀ =>
      simp only [retune, createCopy, pure] at hr
      split at hr
      · cases hr; trivial
      · cases hr
    | nearest s =>
      cases hr
      exact Nearest.tracks_create r
    | peaks s =>
      obtain ⟨t, ht, rfl⟩ := exists_of_map_eq_ok (f := Converter.peaks) hr
      exact (Peaks.contract n).retune hc ht
    | native x =>
      obtain ⟨t, ht, rfl⟩ := exists_of_map_eq_ok (f := Converter.native) hr
      exact h.retune hc ht
  passing {c} fs hc := by
    cases c with
    | copy r => rfl
    | nearest s => cases hc
    | peaks s => cases hc
    | native x => cases hc
  passes_next {c} fs := by cases c <;> rfl
  passes_reset c := by cases c <;> rfl
  passes_retune {c c' r} hr := by
    cases c with
    | copy r₀ =>
      simp only [retune, createCopy, pure] at hr
      split at hr
      · cases hr; rfl
      · cases hr
    | nearest s => cases hr; rfl
    | peaks s => obtain ⟨t, _, rfl⟩ := exists_of_map_eq_ok (f := Converter.peaks) hr; rfl
    | native x => obtain ⟨t, _, rfl⟩ := exists_of_map_eq_ok (f := Converter.native) hr; rfl

theorem splits (h : Splits S n Ok) : Splits S n (Fits (S := S) Ok n) where
  append {c fs gs} hc hf hg := by
    cases c with
    | copy r => rfl
    | nearest s =>
      have := (Nearest.splits n).append hc hf hg
      exact congrArg (fun x => (⟨nearest x.next, x.frames, x.unconsumed⟩ : Converted (Converter ν S) S)) this
    | peaks s =>
      have := (Peaks.splits n).append hc hf hg
      exact congrArg (fun x => (⟨peaks x.next, x.frames, x.unconsumed⟩ : Converted (Converter ν S) S)) this
    | native x =>
      have := h.append hc hf hg
      exact congrArg (fun x => (⟨native x.next, x.frames, x.unconsumed⟩ : Converted (Converter ν S) S)) this
  all {c fs} hc hf := by
    cases c with
    | copy r => rfl
    | nearest s => rfl
    | peaks s => rfl
    | native x => exact h.all hc hf

theorem length_convert (h : ∀ {x : ν} {fs : List (Frame S)}, Ok x → Uniform n fs →
      (RateConverter.convert x fs).frames.length = y x fs.length)
    {c : Converter ν S} {fs : List (Frame S)} (hc : Fits Ok n c) (hf : Uniform n fs) :
    (RateConverter.convert c fs).frames.length = c.yield y fs.length := by
  cases c with
  | copy r => rfl
  | nearest s => exact Nearest.length_convert hc fs
  | peaks s => exact Peaks.length_convert hc fs
  | native x => exact h hc hf

/-- A converter just made gives nothing for nothing. -/
theorem convert_nil {native : Method → Except Fault ν} {m : Method} {r : Rates}
    (h : ∀ {x}, native m = .ok x → (RateConverter.convert x ([] : List (Frame S))).frames = [])
    {c : Converter ν S} (hm : create native m n r = .ok c) :
    (RateConverter.convert c ([] : List (Frame S))).frames = [] := by
  cases made_of_create hm with
  | copy _ _ => rfl
  | nearest _ =>
    apply List.eq_nil_of_length_eq_zero
    refine (Nearest.length_convert (Nearest.tracks_create r) ([] : List (Frame S))).trans (Nat.eq_zero_of_le_zero ?_)
    simpa using Nearest.yield_le (Nearest.tracks_create r) 0
  | peaks _ hle =>
    have ht := Peaks.tracks_create (S := S) (k := n) hle
    apply List.eq_nil_of_length_eq_zero
    refine (Peaks.length_convert ht []).trans (Nat.eq_zero_of_le_zero ?_)
    simpa using Peaks.yield_le ht 0
  | native _ hx => exact h hx

theorem sees (h : Sees S f) : Sees S (seen (S := S) f) where
  convert {a b} fs hab := by
    rcases eq_or_native_of_seen hab with rfl | ⟨x, z, rfl, rfl, hxz⟩
    · exact ⟨rfl, rfl, rfl⟩
    · obtain ⟨h1, h2, h3⟩ := h.convert fs hxz
      exact ⟨h1, h2, congrArg native h3⟩
  reset {a b} hab := by
    rcases eq_or_native_of_seen hab with rfl | ⟨x, z, rfl, rfl, hxz⟩
    · rfl
    · exact congrArg native (h.reset hxz)
  retune {a b} r hab := by
    rcases eq_or_native_of_seen hab with rfl | ⟨x, z, rfl, rfl, hxz⟩
    · exact ⟨rfl, rfl⟩
    · obtain ⟨h1, h2⟩ := h.retune r hxz
      refine ⟨congrArg (· ++ []) h1, ?_⟩
      exact (map_native_seen _).trans ((congrArg (Except.map native) h2).trans (map_native_seen _).symm)
  delay {a b} hab := by
    rcases eq_or_native_of_seen hab with rfl | ⟨x, z, rfl, rfl, hxz⟩
    · rfl
    · exact h.delay hxz
  passes {a b} hab := by
    rcases eq_or_native_of_seen hab with rfl | ⟨x, z, rfl, rfl, hxz⟩
    · rfl
    · rfl

theorem forgets (h : Forgets S n Ok f) : Forgets S n (Fits (S := S) Ok n) (seen f) where
  run {c fs} hc hf := by
    cases c with
    | copy r => rfl
    | nearest s => exact congrArg nearest ((Nearest.forgets n).run hc hf)
    | peaks s => exact congrArg peaks ((Peaks.forgets n).run hc hf)
    | native x => exact congrArg native (h.run hc hf)
  twice {c} hc := by
    cases c with
    | copy r => rfl
    | nearest s => rfl
    | peaks s => exact congrArg peaks ((Peaks.forgets n).twice hc)
    | native x => exact congrArg native (h.twice hc)

theorem embeds_nearest : Embeds S (nearest (ν := ν)) Nearest.Tracks (Fits (S := S) Ok n) id (seen f) where
  inj h := Converter.nearest.inj h
  ok := Iff.rfl
  seen _ := rfl
  reset _ := rfl
  retune _ _ := rfl
  kind {a b} h := by cases b <;> first | exact ⟨_, rfl⟩ | cases h

theorem embeds_peaks : Embeds S (peaks (ν := ν)) (Peaks.Tracks n) (Fits (S := S) Ok n) id (seen f) where
  inj h := Converter.peaks.inj h
  ok := Iff.rfl
  seen _ := rfl
  reset _ := rfl
  retune _ _ := rfl
  kind {a b} h := by cases b <;> first | exact ⟨_, rfl⟩ | cases h

theorem embeds_native : Embeds S (native (S := S)) Ok (Fits (S := S) Ok n) f (seen f) where
  inj h := Converter.native.inj h
  ok := Iff.rfl
  seen _ := rfl
  reset _ := rfl
  retune _ _ := rfl
  kind {a b} h := by cases b <;> first | exact ⟨_, rfl⟩ | cases h

theorem remakes {m : Method} (h : Remakes S Ok f fun r => make r m) :
    Remakes S (Fits (S := S) Ok n) (seen f) fun r => create (make r) m n r := by
  cases m with
  | auto => exact ⟨fun hm => (by cases hm), fun _ hm => (by cases hm)⟩
  | copy =>
    refine ⟨fun hm => ?_, fun {a b b' r r'} hb hm hs ht => ?_⟩
    · obtain ⟨_, rfl⟩ := createCopy_eq_ok hm
      exact ⟨trivial, rfl⟩
    · obtain ⟨_, rfl⟩ := createCopy_eq_ok hm
      cases b with
      | copy r₀ =>
        have hc : createCopy r' = .ok b' := ht
        obtain ⟨_, rfl⟩ := createCopy_eq_ok hc
        exact ⟨_, hc, rfl⟩
      | nearest s => cases hs
      | peaks s => cases hs
      | native x => cases hs
  | trivial => exact Nearest.remakes.embed embeds_nearest
  | peaks => exact (Peaks.remakes n).embed embeds_peaks
  | polyphaseFixed => exact h.embed embeds_native
  | sincFixed => exact h.embed embeds_native
  | sinc => exact h.embed embeds_native
  | fft => exact h.embed embeds_native

theorem yield_of_passes (y : ν → Nat → Nat) {c : Converter ν S} (h : passes S c = true) (k : Nat) :
    c.yield y k = k := by
  cases c with
  | copy r => rfl
  | _ => cases h

theorem passes_of_remade {native : Method → Except Fault ν} {r : Rates} {c a : Converter ν S}
    (hm : create native .copy n r = .ok a) (hs : seen f (RateConverter.reset S c) = seen f a) : passes S c = true := by
  obtain ⟨_, rfl⟩ := createCopy_eq_ok hm
  cases c with
  | copy => rfl
  | _ => cases hs

theorem steady_of_remade {native : Method → Except Fault ν} {g : ν → Prop} {m : Method}
    (hm : m ∈ [Method.copy, .trivial, .peaks]) {r : Rates} {c a : Converter ν S} (ha : create native m n r = .ok a)
    (hs : seen f (RateConverter.reset S c) = seen f a) : Steady g c := by
  cases c with
  | native x =>
    cases made_of_create ha with
    | native hn _ => exact absurd hm hn
    | _ => cases hs
  | _ => exact trivial

/-- A converter that is reset to one just made runs at its rates. -/
theorem at_of_remade {g : Rates → ν → Prop} {r : Rates}
    (h : ∀ {m : Method} {x a : ν}, make r m = .ok a → f (RateConverter.reset S x) = f a → g r x)
    {m : Method} {c a : Converter ν S} (hm : create (make r) m n r = .ok a)
    (hs : seen f (RateConverter.reset S c) = seen f a) : At g r c := by
  cases made_of_create hm with
  | copy _ heq =>
    cases c with
    | copy => exact heq
    | _ => cases hs
  | nearest _ =>
    cases c with
    | nearest s => exact congrArg Nearest.rates (Converter.nearest.inj hs)
    | _ => cases hs
  | peaks _ _ =>
    cases c with
    | peaks s => exact congrArg Peaks.rates (Converter.peaks.inj hs)
    | _ => cases hs
  | native _ hx =>
    cases c with
    | native z => exact h hx (Converter.native.inj hs)
    | _ => cases hs

end Converter

/-! ## 16-bit integers -/

namespace FixedPoint

def Fits (n : Nat) : FixedPoint → Prop
  | .polyphase p => p.Fits n
  | .sinc s => s.Fits n

def seen : FixedPoint → FixedPoint
  | .polyphase p => .polyphase p.seen
  | .sinc s => .sinc s

def yield : FixedPoint → Nat → Nat
  | .polyphase p, k => Rate.Stage.yieldAll p.stages k
  | .sinc s, k => s.yield k

def At (r : Rates) : FixedPoint → Prop
  | .polyphase p => p.cascade.input = r.input ∧ p.cascade.output = r.output
  | .sinc s => s.rates = r

/-- One filter, or no window left in the history. -/
def Steady : FixedPoint → Prop
  | .polyphase p => ∃ t, p.stages = [t]
  | .sinc s => s.IsSpent

theorem yield_le {n : Nat} {r : Rates} {x : FixedPoint} (k : Nat) (hx : Fits n x) (hr : At r x) (hg : Steady x) :
    x.yield k ≤ ceilDiv (k * r.output) r.input := by
  cases x with
  | polyphase p =>
    obtain ⟨t, ht⟩ := hg
    obtain ⟨hi, ho⟩ := hr
    exact hi ▸ ho ▸ Polyphase.yieldAll_single_le hx ht k
  | sinc s => exact hr ▸ SincFixed.yield_le hg k

/-- No window is left in the history, whatever the filters. -/
def Spent : FixedPoint → Prop
  | .polyphase _ => True
  | .sinc s => s.IsSpent

theorem spent_create {n : Nat} {r : Rates} {m : Method} {x : FixedPoint} (h : create n r m = .ok x) : Spent x := by
  cases m with
  | polyphaseFixed =>
    obtain ⟨p, _, rfl⟩ := exists_of_map_eq_ok (f := FixedPoint.polyphase) h
    trivial
  | sincFixed =>
    cases h
    exact SincFixed.isSpent_create n r
  | _ => cases h

theorem spent_convert (x : FixedPoint) (fs : List (Frame Int16)) : Spent (RateConverter.convert x fs).next := by
  cases x with
  | polyphase p => trivial
  | sinc s => exact SincFixed.isSpent_convert s fs

theorem spent_reset (x : FixedPoint) : Spent (RateConverter.reset Int16 x) := by
  cases x with
  | polyphase p => trivial
  | sinc s => exact SincFixed.isSpent_create s.channels s.rates

theorem yield_le_succ {n : Nat} {r : Rates} {x : FixedPoint} (k : Nat) (hx : Fits n x) (hr : At r x) (hg : Spent x) :
    x.yield k ≤ ceilDiv (k * r.output) r.input + 1 := by
  cases x with
  | polyphase p =>
    obtain ⟨hi, ho⟩ := hr
    exact hi ▸ ho ▸ Polyphase.yieldAll_le_succ hx k
  | sinc s => exact Nat.le_succ_of_le (hr ▸ SincFixed.yield_le hg k)

theorem length_convert {n : Nat} {x : FixedPoint} {fs : List (Frame Int16)} (hx : Fits n x) :
    (RateConverter.convert x fs).frames.length = x.yield fs.length := by
  cases x with
  | polyphase p => exact Polyphase.length_convert p fs
  | sinc s => exact SincFixed.length_convert hx fs

theorem contract (n : Nat) : Contract Int16 n (Fits n) where
  next {x fs} hx hf := by
    cases x with
    | polyphase p => exact (Polyphase.contract n).next hx hf
    | sinc s => exact (SincFixed.contract n).next hx hf
  whole {x fs} hx hf := by
    cases x with
    | polyphase p => exact (Polyphase.contract n).whole hx hf
    | sinc s => exact (SincFixed.contract n).whole hx hf
  tail {x fs} _ _ := by cases x <;> exact Nat.zero_le _
  reset {x} hx := by
    cases x with
    | polyphase p => exact (Polyphase.contract n).reset hx
    | sinc s => exact (SincFixed.contract n).reset hx
  retune {x x' r} hx hr := by
    cases x with
    | polyphase p =>
      obtain ⟨t, ht, rfl⟩ := exists_of_map_eq_ok (f := FixedPoint.polyphase) hr
      exact (Polyphase.contract n).retune hx ht
    | sinc s =>
      cases hr
      exact SincFixed.fits_retune hx r
  passing _ h := by cases h
  passes_next _ := rfl
  passes_reset _ := rfl
  passes_retune _ := rfl

theorem splits (n : Nat) : Splits Int16 n (Fits n) where
  append {x fs gs} hx hf hg := by
    cases x with
    | polyphase p =>
      have := (Polyphase.splits n).append hx hf hg
      exact congrArg (fun c => (⟨polyphase c.next, c.frames, c.unconsumed⟩ : Converted FixedPoint Int16)) this
    | sinc s =>
      have := (SincFixed.splits n).append hx hf hg
      exact congrArg (fun c => (⟨sinc c.next, c.frames, c.unconsumed⟩ : Converted FixedPoint Int16)) this
  all {x fs} _ _ := by cases x <;> rfl

theorem eq_or_polyphase_of_seen {a b : FixedPoint} (h : seen a = seen b) :
    a = b ∨ ∃ p q, a = .polyphase p ∧ b = .polyphase q ∧ p.seen = q.seen := by
  cases a with
  | polyphase p =>
    cases b with
    | polyphase q => exact .inr ⟨p, q, rfl, rfl, FixedPoint.polyphase.inj h⟩
    | sinc t => cases h
  | sinc s =>
    cases b with
    | polyphase q => cases h
    | sinc t => exact .inl h

theorem sees : Sees Int16 seen where
  convert {a b} fs hab := by
    rcases eq_or_polyphase_of_seen hab with rfl | ⟨p, q, rfl, rfl, hpq⟩
    · exact ⟨rfl, rfl, rfl⟩
    · obtain ⟨h1, h2, h3⟩ := Polyphase.sees.convert fs hpq
      exact ⟨h1, h2, congrArg polyphase h3⟩
  reset {a b} hab := by
    rcases eq_or_polyphase_of_seen hab with rfl | ⟨p, q, rfl, rfl, hpq⟩
    · rfl
    · exact congrArg polyphase (Polyphase.sees.reset hpq)
  retune {a b} r hab := by
    rcases eq_or_polyphase_of_seen hab with rfl | ⟨p, q, rfl, rfl, hpq⟩
    · exact ⟨rfl, rfl⟩
    · have hmap (x : Except Fault Polyphase) : (x.map polyphase).map seen = (x.map Polyphase.seen).map polyphase := by
        cases x <;> rfl
      refine ⟨rfl, ?_⟩
      exact (hmap _).trans ((congrArg (Except.map polyphase) (Polyphase.sees.retune r hpq).2).trans (hmap _).symm)
  delay {a b} hab := by
    rcases eq_or_polyphase_of_seen hab with rfl | ⟨p, q, rfl, rfl, hpq⟩
    · rfl
    · exact Polyphase.sees.delay hpq
  passes _ := rfl

theorem forgets (n : Nat) : Forgets Int16 n (Fits n) seen where
  run {x fs} hx hf := by
    cases x with
    | polyphase p => exact congrArg polyphase ((Polyphase.forgets n).run hx hf)
    | sinc s => exact congrArg sinc ((SincFixed.forgets n).run hx hf)
  twice {x} hx := by
    cases x with
    | polyphase p => exact congrArg polyphase ((Polyphase.forgets n).twice hx)
    | sinc s => exact congrArg sinc ((SincFixed.forgets n).twice hx)

theorem embeds_polyphase (n : Nat) : Embeds Int16 polyphase (Polyphase.Fits n) (Fits n) Polyphase.seen seen where
  inj h := FixedPoint.polyphase.inj h
  ok := Iff.rfl
  seen _ := rfl
  reset _ := rfl
  retune _ _ := rfl
  kind {a b} h := by cases b <;> first | exact ⟨_, rfl⟩ | cases h

theorem embeds_sinc (n : Nat) : Embeds Int16 sinc (SincFixed.Fits n) (Fits n) id seen where
  inj h := FixedPoint.sinc.inj h
  ok := Iff.rfl
  seen _ := rfl
  reset _ := rfl
  retune _ _ := rfl
  kind {a b} h := by cases b <;> first | exact ⟨_, rfl⟩ | cases h

theorem remakes (n : Nat) (m : Method) : Remakes Int16 (Fits n) seen fun r => create n r m := by
  cases m with
  | polyphaseFixed => exact (Polyphase.remakes n).embed (embeds_polyphase n)
  | sincFixed => exact (SincFixed.remakes n).embed (embeds_sinc n)
  | _ => exact ⟨fun hm => (by cases hm), fun _ hm => (by cases hm)⟩

theorem convert_nil {n : Nat} {r : Rates} {m : Method} {x : FixedPoint} (hm : create n r m = .ok x) :
    (RateConverter.convert x ([] : List (Frame Int16))).frames = [] := by
  apply List.eq_nil_of_length_eq_zero
  cases m with
  | polyphaseFixed =>
    obtain ⟨p, _, rfl⟩ := exists_of_map_eq_ok (f := FixedPoint.polyphase) hm
    exact (Polyphase.length_convert p []).trans (Rate.Stage.yieldAll_zero p.stages)
  | sincFixed =>
    cases hm
    refine (SincFixed.length_convert (SincFixed.fits_create n r) []).trans (Nat.eq_zero_of_le_zero ?_)
    simpa using SincFixed.yield_le (SincFixed.isSpent_create n r) 0
  | _ => cases hm

theorem at_of_remade {n : Nat} {r : Rates} {m : Method} {x a : FixedPoint} (hm : create n r m = .ok a)
    (hs : seen (RateConverter.reset Int16 x) = seen a) : At r x := by
  cases m with
  | polyphaseFixed =>
    obtain ⟨p, hp, rfl⟩ := exists_of_map_eq_ok (f := FixedPoint.polyphase) hm
    obtain ⟨c, hc, rfl⟩ := Polyphase.create_eq_ok hp
    cases x with
    | polyphase q =>
      have hq : q.cascade = c := (Polyphase.mk.inj (FixedPoint.polyphase.inj hs)).2.1
      obtain ⟨_, hi, ho⟩ := Rate.Cascade.find?_eq_some hc
      exact ⟨hq ▸ hi, hq ▸ ho⟩
    | sinc t => cases hs
  | sincFixed =>
    cases hm
    cases x with
    | polyphase q => cases hs
    | sinc t => exact congrArg SincFixed.rates (FixedPoint.sinc.inj hs)
  | _ => cases hm

end FixedPoint

/-! ## Binary32 numbers -/

namespace Chunked

theorem ofMethod_eq_ok {b : Build} {v : Bool} {n : Nat} {r : Rates} {m : Method} {x : Chunked}
    (h : ofMethod b v n r m = .ok x) : (m = .sinc ∨ m = .fft) ∧ x = create m n r v := by
  unfold ofMethod at h
  split at h
  · cases h
  · split at h
    · cases h
      exact ⟨‹_›, rfl⟩
    · cases h

theorem held_of_ofMethod {b : Build} {v : Bool} {n : Nat} {r : Rates} {m : Method} {x : Chunked}
    (h : ofMethod b v n r m = .ok x) : b.chunked = true := by
  unfold ofMethod at h
  split at h
  · cases h
  · next hb => simpa using hb

theorem remakes_ofMethod (b : Build) (v : Bool) (n : Nat) (m : Method) :
    Remakes Float32 (Fits n) id fun r => ofMethod b v n r m := by
  by_cases h : b.chunked = true ∧ (m = .sinc ∨ m = .fft)
  · have : (fun r => ofMethod b v n r m) = fun r => .ok (create m n r v) := by
      funext r
      simp [ofMethod, h.1, h.2]
    exact this ▸ remakes m n v
  · have : ∀ r x, ofMethod b v n r m ≠ .ok x := by
      intro r x hx
      obtain ⟨hm, _⟩ := ofMethod_eq_ok hx
      simp only [hm, and_true, Bool.not_eq_true] at h
      simp [ofMethod, h] at hx
    exact ⟨fun hm => absurd hm (this _ _), fun _ hm => absurd hm (this _ _)⟩

def At (r : Rates) (x : Chunked) : Prop := x.rates = r

theorem yield_le_at {n : Nat} {r : Rates} {x : Chunked} (k : Nat) (_ : Fits n x) (hr : At r x) (hg : Steady x) :
    x.yield k ≤ ceilDiv (k * r.output) r.input := by
  cases hr
  exact yield_le hg k

theorem at_of_remade {b : Build} {v : Bool} {n : Nat} {r : Rates} {m : Method} {x a : Chunked}
    (hm : ofMethod b v n r m = .ok a) (hs : id (RateConverter.reset Float32 x) = id a) : At r x := by
  obtain ⟨_, rfl⟩ := ofMethod_eq_ok hm
  exact congrArg Chunked.rates hs

end Chunked

/-! ## Together -/

namespace FixedConverter

def Fits (n : Nat) : FixedConverter → Prop := Converter.Fits (FixedPoint.Fits n) n

def seen : FixedConverter → FixedConverter := Converter.seen FixedPoint.seen

theorem contract (n : Nat) : Contract Int16 n (Fits n) := Converter.contract (FixedPoint.contract n)

theorem splits (n : Nat) : Splits Int16 n (Fits n) := Converter.splits (FixedPoint.splits n)

theorem convert_nil {m : Method} {n : Nat} {r : Rates} {c : FixedConverter} (h : create m n r = .ok c) :
    (RateConverter.convert c ([] : List (Frame Int16))).frames = [] :=
  Converter.convert_nil FixedPoint.convert_nil h

theorem sees : Sees Int16 seen := Converter.sees FixedPoint.sees

theorem forgets (n : Nat) : Forgets Int16 n (Fits n) seen := Converter.forgets (FixedPoint.forgets n)

theorem remakes (m : Method) (n : Nat) : Remakes Int16 (Fits n) seen fun r => create m n r :=
  Converter.remakes (FixedPoint.remakes n m)

def yield (c : FixedConverter) : Nat → Nat := Converter.yield FixedPoint.yield c

def Steady (c : FixedConverter) : Prop := Converter.Steady FixedPoint.Steady c

theorem length_convert {n : Nat} {c : FixedConverter} {fs : List (Frame Int16)} (hc : Fits n c) (hf : Uniform n fs) :
    (RateConverter.convert c fs).frames.length = yield c fs.length :=
  Converter.length_convert (fun hx _ => FixedPoint.length_convert hx) hc hf

theorem yield_le {m : Method} {n : Nat} {r : Rates} {c a : FixedConverter} (hc : Fits n c) (hm : create m n r = .ok a)
    (hs : seen (RateConverter.reset Int16 c) = seen a) (hg : Steady c) (k : Nat) :
    yield c k ≤ ceilDiv (k * r.output) r.input :=
  Converter.yield_le FixedPoint.yield_le hc (Converter.at_of_remade FixedPoint.at_of_remade hm hs) hg k

/-- No window is left in the history of `sincFixed`. -/
def Spent (c : FixedConverter) : Prop := Converter.Steady FixedPoint.Spent c

theorem spent_create {m : Method} {n : Nat} {r : Rates} {c : FixedConverter} (h : create m n r = .ok c) : Spent c := by
  cases Converter.made_of_create h with
  | native _ hx => exact FixedPoint.spent_create hx
  | _ => trivial

theorem spent_convert (c : FixedConverter) (fs : List (Frame Int16)) : Spent (RateConverter.convert c fs).next := by
  cases c with
  | native x => exact FixedPoint.spent_convert x fs
  | _ => trivial

theorem spent_reset (c : FixedConverter) : Spent (RateConverter.reset Int16 c) := by
  cases c with
  | native x => exact FixedPoint.spent_reset x
  | _ => trivial

theorem yield_le_succ {m : Method} {n : Nat} {r : Rates} {c a : FixedConverter} (hc : Fits n c)
    (hm : create m n r = .ok a) (hs : seen (RateConverter.reset Int16 c) = seen a) (hg : Spent c) (k : Nat) :
    yield c k ≤ ceilDiv (k * r.output) r.input + 1 :=
  Converter.yield_le_succ FixedPoint.yield_le_succ hc (Converter.at_of_remade FixedPoint.at_of_remade hm hs) hg k

/-- After a call no window is left to `sincFixed`. -/
theorem steady_next {n : Nat} {r : Rates} {c a : FixedConverter} (hm : create .sincFixed n r = .ok a)
    (hs : seen (RateConverter.reset Int16 c) = seen a) (fs : List (Frame Int16)) :
    Steady (RateConverter.convert c fs).next := by
  cases hm
  cases c with
  | native x =>
    cases x with
    | polyphase p => cases hs
    | sinc s => exact SincFixed.isSpent_convert s fs
  | _ => cases hs

end FixedConverter

namespace FloatConverter

def Fits (n : Nat) : FloatConverter → Prop := Converter.Fits (Chunked.Fits n) n

def seen : FloatConverter → FloatConverter := Converter.seen id

theorem contract (n : Nat) : Contract Float32 n (Fits n) := Converter.contract (Chunked.contract n)

theorem sees : Sees Float32 seen := Converter.sees Sees.all

theorem forgets (n : Nat) : Forgets Float32 n (Fits n) seen := Converter.forgets (Chunked.forgets n)

theorem remakes (b : Build) (v : Bool) (m : Method) (n : Nat) :
    Remakes Float32 (Fits n) seen fun r => create b v m n r :=
  Converter.remakes (Chunked.remakes_ofMethod b v n m)

/-- Not a converter that takes whole chunks. -/
def Plain (n : Nat) : FloatConverter → Prop := Converter.Fits (fun _ => False) n

theorem fits_of_plain {n : Nat} {c : FloatConverter} (h : Plain n c) : Fits n c := by
  cases c with
  | native x => exact h.elim
  | _ => exact h

theorem plain_contract (n : Nat) : Contract Float32 n (Plain n) := by
  have hk := Chunked.contract n
  exact Converter.contract ⟨fun h => h.elim, fun h => h.elim, fun h => h.elim, fun h => h.elim, fun h => h.elim,
    hk.passing, hk.passes_next, hk.passes_reset, hk.passes_retune⟩

theorem plain_splits (n : Nat) : Splits Float32 n (Plain n) := Converter.splits ⟨fun h => h.elim, fun h => h.elim⟩

theorem plain_of_create {b : Build} {v : Bool} {m : Method} (hm : m ≠ .sinc ∧ m ≠ .fft) {n : Nat} {r : Rates}
    {c : FloatConverter} (h : create b v m n r = .ok c) :
    Plain n c ∧ (RateConverter.convert c ([] : List (Frame Float32))).frames = [] := by
  have hnone : ∀ {r x}, Chunked.ofMethod b v n r m ≠ .ok x := by
    intro r x hx
    rcases (Chunked.ofMethod_eq_ok hx).1 with h | h
    · exact hm.1 h
    · exact hm.2 h
  refine ⟨?_, Converter.convert_nil (fun hx => absurd hx hnone) h⟩
  cases Converter.made_of_create h with
  | copy _ _ => trivial
  | nearest _ => exact Nearest.tracks_create r
  | peaks _ hle => exact Peaks.tracks_create hle
  | native _ hx => exact absurd hx hnone

def yield (c : FloatConverter) : Nat → Nat := Converter.yield Chunked.yield c

def Steady (c : FloatConverter) : Prop := Converter.Steady Chunked.Steady c

theorem length_convert {n : Nat} {c : FloatConverter} {fs : List (Frame Float32)} (hc : Fits n c) (hf : Uniform n fs) :
    (RateConverter.convert c fs).frames.length = yield c fs.length :=
  Converter.length_convert Chunked.length_convert hc hf

theorem yield_le {b : Build} {v : Bool} {m : Method} {n : Nat} {r : Rates} {c a : FloatConverter} (hc : Fits n c)
    (hm : create b v m n r = .ok a) (hs : seen (RateConverter.reset Float32 c) = seen a) (hg : Steady c) (k : Nat) :
    yield c k ≤ ceilDiv (k * r.output) r.input :=
  Converter.yield_le Chunked.yield_le_at hc (Converter.at_of_remade Chunked.at_of_remade hm hs) hg k

end FloatConverter

end PcmConvert
