/-
  PcmConvert.Proofs.Rate.Tuning — the rates that a converter runs at. Each kind has its own
  place for them: in itself, in the filters of a table entry, in a clock. Calls leave them;
  a change of rates is refused exactly where the method does not support the new ones, and
  sets them otherwise (`Tunes`). So of a method's converter in any state the method and the
  rates can be told (`Converter.Runs`), and the rates are ones that the method supports.
-/

import PcmConvert.Method.Resolve
import PcmConvert.Proofs.Rate.Converter

namespace PcmConvert

open RateConverter

/-- Converters of which `Runs` says at which rates they run; `can` says which they take. -/
structure RateConverter.Tunes {β : Type} (S : Type) [RateConverter β S] (can : Rates → Bool)
    (Runs : Rates → β → Prop) : Prop where
  supports : ∀ {b : β} {r : Rates}, Runs r b → can r = true
  convert : ∀ {b : β} {r : Rates} (fs : List (Frame S)), Runs r b → Runs r (RateConverter.convert b fs).next
  reset : ∀ {b : β} {r : Rates}, Runs r b → Runs r (RateConverter.reset S b)
  retune : ∀ {b b' : β} {r r' : Rates}, Runs r b → (RateConverter.retune S b r').value = .ok b' → Runs r' b'
  refuses : ∀ {b : β} {r : Rates} (r' : Rates), Runs r b →
    ((∃ f, (RateConverter.retune S b r').value = .error f) ↔ can r' = false)

theorem exists_map_eq_error {ε α β : Type} (f : α → β) (x : Except ε α) :
    (∃ e, x.map f = .error e) ↔ ∃ e, x = .error e := by
  cases x with
  | error e => simp [Except.map]
  | ok a => simp [Except.map]

theorem exists_eq_error_of_ok {ε α : Type} {x : Except ε α} {a : α} {can : Bool} (hx : x = .ok a) (hc : can = true) :
    (∃ e, x = .error e) ↔ can = false := by
  simp [hx, hc]

namespace Method

/-- Whether the method supports the rates. -/
def can (m : Method) (r : Rates) : Bool := m.supportsRates r.input r.output

theorem can_copy {r : Rates} : copy.can r = true ↔ r.input = r.output := beq_iff_eq

theorem can_peaks {r : Rates} : peaks.can r = true ↔ r.output ≤ r.input := decide_eq_true_iff

theorem can_polyphaseFixed {r : Rates} :
    polyphaseFixed.can r = true ↔ ∃ c, Rate.Cascade.find? r.input r.output = some c := Option.isSome_iff_exists

theorem can_of_chunked {m : Method} (hm : m = .sinc ∨ m = .fft) (r : Rates) : m.can r = true := by
  rcases hm with rfl | rfl <;> rfl

end Method

/-! ## Each kind -/

namespace Nearest

theorem tunes (S : Type) : Tunes S Method.trivial.can fun r (s : Nearest) => s.rates = r where
  supports _ := rfl
  convert _ h := h
  reset h := h
  retune _ h := by
    cases h
    rfl
  refuses _ _ := exists_eq_error_of_ok rfl rfl

end Nearest

namespace Peaks

variable {S : Type} [Sample S]

def Runs (r : Rates) (s : Peaks S) : Prop := s.rates = r ∧ r.output ≤ r.input

theorem make_eq_error_iff (n : Nat) (r : Rates) :
    (∃ f, (make n r : Except Fault (Peaks S)) = .error f) ↔ Method.peaks.can r = false := by
  rw [← Bool.not_eq_true, Method.can_peaks, Nat.not_le]
  unfold make
  by_cases h : r.input < r.output
  · simp [h]
  · simp [h]

theorem tunes : Tunes S Method.peaks.can (Runs (S := S)) where
  supports h := Method.can_peaks.mpr h.2
  convert _ h := h
  reset h := h
  retune _ h := by
    obtain ⟨hle, rfl⟩ := make_eq_ok h
    exact ⟨rfl, hle⟩
  refuses _ _ := make_eq_error_iff _ _

end Peaks

namespace Polyphase

/-- The filters are those of the table for the rates. -/
def Runs (r : Rates) (s : Polyphase) : Prop :=
  Rate.Cascade.find? r.input r.output = some s.cascade ∧ s.stages.map Rate.Stage.filter = s.cascade.filters

theorem runs_create {n : Nat} {r : Rates} {s : Polyphase} (h : create n r.input r.output = .ok s) : Runs r s := by
  have hfits := fits_create h
  obtain ⟨c, hc, rfl⟩ := create_eq_ok h
  exact ⟨hc, hfits.filters⟩

theorem create_eq_error_iff (n : Nat) (r : Rates) :
    (∃ f, create n r.input r.output = .error f) ↔ Method.polyphaseFixed.can r = false := by
  show _ ↔ (Rate.Cascade.find? r.input r.output).isSome = false
  unfold create
  cases Rate.Cascade.find? r.input r.output with
  | none => simp
  | some c => simp

theorem tunes : Tunes Int16 Method.polyphaseFixed.can Runs where
  supports h := Method.can_polyphaseFixed.mpr ⟨_, h.1⟩
  convert fs h := ⟨h.1, (Rate.Stage.map_runAll _ Rate.Stage.run_filter _ fs).trans h.2⟩
  reset h := ⟨h.1, (List.map_map ..).trans h.2⟩
  retune _ h := runs_create h
  refuses _ _ := create_eq_error_iff _ _

end Polyphase

namespace SincFixed

theorem tunes : Tunes Int16 Method.sincFixed.can fun r (s : SincFixed) => s.rates = r where
  supports _ := rfl
  convert _ h := h
  reset h := h
  retune _ h := by
    cases h
    rfl
  refuses _ _ := exists_eq_error_of_ok rfl rfl

end SincFixed

namespace Chunked

/-- The clock steps by the ratio of the rates. -/
def Engine.Runs (r : Rates) : Engine → Prop
  | .sinc clock _ => clock.ratio = ratioOf r
  | .fft .. => True

/-- A converter of the method `m` at the rates `r`. -/
structure Runs (m : Method) (r : Rates) (s : Chunked) : Prop where
  chunked : m = .sinc ∨ m = .fft
  method : s.method = m
  rates : s.rates = r
  engine : s.engine.Runs r

theorem runs_create {m : Method} (hm : m = .sinc ∨ m = .fft) (n : Nat) (r : Rates) (v : Bool) :
    Runs m r (create m n r v) := by
  refine ⟨hm, rfl, rfl, ?_⟩
  simp only [create, Engine.create]
  split
  · trivial
  · exact rfl

variable {m : Method} {r : Rates} {s : Chunked}

theorem Runs.process (h : Runs m r s) (fs : List (Frame Float32)) : Runs m r (s.process fs).2 := by
  have he := h.engine
  unfold Chunked.process
  split
  · next clock past hs =>
    rw [hs] at he
    exact ⟨h.chunked, h.method, h.rates, he⟩
  · exact ⟨h.chunked, h.method, h.rates, trivial⟩

theorem Runs.convert (h : Runs m r s) (fs : List (Frame Float32)) : Runs m r (s.convert fs).next := by
  fun_induction Chunked.convert s fs with
  | case1 s fs hc head rest ih => exact ih (h.process _)
  | case2 s fs hc => exact h

/-- Moved or built anew, the clock steps by the new ratio. -/
theorem Runs.retune (h : Runs m r s) (r' : Rates) : Runs m r' (s.retune r').value := by
  have hanew : Runs m r' (create s.method s.channels r' s.variableRate) :=
    h.method.symm ▸ runs_create h.chunked s.channels r' s.variableRate
  unfold Chunked.retune
  cases he : s.engine with
  | fft filled begun before => exact hanew
  | sinc clock past =>
    dsimp only
    cases hv : s.variableRate with
    | false =>
      rw [hv] at hanew
      exact hanew
    | true =>
      rw [hv] at hanew
      cases hc : clock.setRatio? (ratioOf r') with
      | none => exact hanew
      | some c =>
        refine ⟨h.chunked, h.method, rfl, ?_⟩
        unfold SincClock.setRatio? at hc
        split at hc
        · cases hc
          exact rfl
        · cases hc

theorem tunes (m : Method) : Tunes Float32 m.can (Runs m) where
  supports h := Method.can_of_chunked h.chunked _
  convert fs h := h.convert fs
  reset h := by
    have := runs_create h.chunked
    rw [← h.rates]
    exact h.method ▸ this _ _ _
  retune h hr := by
    cases hr
    exact h.retune _
  refuses r' h := exists_eq_error_of_ok rfl (Method.can_of_chunked h.chunked r')

end Chunked

/-! ## Any samples -/

namespace Converter

variable {ν S : Type}

theorem createCopy_eq_error_iff (r : Rates) :
    (∃ f, (createCopy r : Except Fault (Converter ν S)) = .error f) ↔ Method.copy.can r = false := by
  rw [← Bool.not_eq_true, Method.can_copy]
  unfold createCopy
  by_cases h : r.input = r.output
  · simp [h]
  · simp [h]

variable [Sample S] {g : Method → Rates → ν → Prop} {m : Method}

/-- A converter of the method `m` at the rates `r`; `g` tells which of the samples' own are. -/
def Runs (g : Method → Rates → ν → Prop) (m : Method) (r : Rates) : Converter ν S → Prop
  | .copy r₀ => m = .copy ∧ r₀ = r ∧ r.input = r.output
  | .nearest s => m = .trivial ∧ s.rates = r
  | .peaks s => m = .peaks ∧ s.Runs r
  | .native x => g m r x

theorem runs_of_create {native : Method → Except Fault ν} {n : Nat} {r : Rates}
    (h : ∀ {x}, native m = .ok x → g m r x) {c : Converter ν S} (hc : create native m n r = .ok c) : Runs g m r c := by
  cases made_of_create hc with
  | copy hm heq => exact ⟨hm, rfl, heq⟩
  | nearest hm => exact ⟨hm, rfl⟩
  | peaks hm hle => exact ⟨hm, rfl, hle⟩
  | native _ hx => exact h hx

theorem tunes [RateConverter ν S] (h : ∀ m, Tunes S m.can (g m)) : Tunes S m.can (Runs (S := S) g m) where
  supports {c r} hc := by
    cases c with
    | copy r₀ =>
      obtain ⟨rfl, -, heq⟩ := hc
      exact Method.can_copy.mpr heq
    | nearest s =>
      obtain ⟨rfl, hs⟩ := hc
      exact (Nearest.tunes S).supports hs
    | peaks s =>
      obtain ⟨rfl, hs⟩ := hc
      exact Peaks.tunes.supports hs
    | native x => exact (h m).supports hc
  convert {c r} fs hc := by
    cases c with
    | native x => exact (h m).convert fs hc
    | _ => exact hc
  reset {c r} hc := by
    cases c with
    | native x => exact (h m).reset hc
    | _ => exact hc
  retune {c c' r r'} hc hr := by
    cases c with
    | copy r₀ =>
      obtain ⟨heq, rfl⟩ := createCopy_eq_ok (ν := ν) (S := S) hr
      exact ⟨hc.1, rfl, heq⟩
    | nearest s =>
      cases hr
      exact ⟨hc.1, rfl⟩
    | peaks s =>
      obtain ⟨t, ht, rfl⟩ := exists_of_map_eq_ok (f := Converter.peaks) hr
      exact ⟨hc.1, Peaks.tunes.retune hc.2 ht⟩
    | native x =>
      obtain ⟨t, ht, rfl⟩ := exists_of_map_eq_ok (f := Converter.native) hr
      exact (h m).retune hc ht
  refuses {c r} r' hc := by
    cases c with
    | copy r₀ =>
      obtain ⟨rfl, -, -⟩ := hc
      exact createCopy_eq_error_iff r'
    | nearest s =>
      obtain ⟨rfl, hs⟩ := hc
      exact (exists_map_eq_error nearest _).trans ((Nearest.tunes S).refuses r' hs)
    | peaks s =>
      obtain ⟨rfl, hs⟩ := hc
      exact (exists_map_eq_error peaks _).trans (Peaks.tunes.refuses r' hs)
    | native x => exact (exists_map_eq_error native _).trans ((h m).refuses r' hc)

end Converter

/-! ## The two kinds of samples -/

namespace FixedPoint

def Runs (m : Method) (r : Rates) : FixedPoint → Prop
  | .polyphase p => m = .polyphaseFixed ∧ p.Runs r
  | .sinc s => m = .sincFixed ∧ s.rates = r

theorem runs_of_create {m : Method} {n : Nat} {r : Rates} {x : FixedPoint} (h : create n r m = .ok x) : Runs m r x := by
  cases m with
  | polyphaseFixed =>
    obtain ⟨p, hp, rfl⟩ := exists_of_map_eq_ok (f := FixedPoint.polyphase) h
    exact ⟨rfl, Polyphase.runs_create hp⟩
  | sincFixed =>
    cases h
    exact ⟨rfl, rfl⟩
  | _ => cases h

theorem tunes (m : Method) : Tunes Int16 m.can (Runs m) where
  supports {x r} hx := by
    cases x with
    | polyphase p =>
      obtain ⟨rfl, hp⟩ := hx
      exact Polyphase.tunes.supports hp
    | sinc s =>
      obtain ⟨rfl, hs⟩ := hx
      exact SincFixed.tunes.supports hs
  convert {x r} fs hx := by
    cases x with
    | polyphase p => exact ⟨hx.1, Polyphase.tunes.convert fs hx.2⟩
    | sinc s => exact hx
  reset {x r} hx := by
    cases x with
    | polyphase p => exact ⟨hx.1, Polyphase.tunes.reset hx.2⟩
    | sinc s => exact hx
  retune {x x' r r'} hx hr := by
    cases x with
    | polyphase p =>
      obtain ⟨t, ht, rfl⟩ := exists_of_map_eq_ok (f := FixedPoint.polyphase) hr
      exact ⟨hx.1, Polyphase.tunes.retune hx.2 ht⟩
    | sinc s =>
      cases hr
      exact ⟨hx.1, rfl⟩
  refuses {x r} r' hx := by
    cases x with
    | polyphase p =>
      obtain ⟨rfl, hp⟩ := hx
      exact (exists_map_eq_error polyphase _).trans (Polyphase.tunes.refuses r' hp)
    | sinc s =>
      obtain ⟨rfl, hs⟩ := hx
      exact (exists_map_eq_error sinc _).trans (SincFixed.tunes.refuses r' hs)

end FixedPoint

namespace FixedConverter

def Runs (m : Method) (r : Rates) (c : FixedConverter) : Prop := Converter.Runs FixedPoint.Runs m r c

theorem runs_of_create {m : Method} {n : Nat} {r : Rates} {c : FixedConverter} (h : create m n r = .ok c) :
    Runs m r c :=
  Converter.runs_of_create FixedPoint.runs_of_create h

theorem tunes (m : Method) : Tunes Int16 m.can (Runs m) := Converter.tunes FixedPoint.tunes

end FixedConverter

namespace FloatConverter

def Runs (m : Method) (r : Rates) (c : FloatConverter) : Prop := Converter.Runs Chunked.Runs m r c

theorem runs_of_create {b : Build} {v : Bool} {m : Method} {n : Nat} {r : Rates} {c : FloatConverter}
    (h : create b v m n r = .ok c) : Runs m r c := by
  refine Converter.runs_of_create ?_ h
  intro x hx
  obtain ⟨hm, rfl⟩ := Chunked.ofMethod_eq_ok hx
  exact Chunked.runs_create hm n r v

theorem tunes (m : Method) : Tunes Float32 m.can (Runs m) := Converter.tunes Chunked.tunes

end FloatConverter

end PcmConvert
