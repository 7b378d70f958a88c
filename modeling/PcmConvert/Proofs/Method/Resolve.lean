/-
  PcmConvert.Proofs.Method.Resolve — the method that is resolved can do what is asked of it.
  Whatever was asked for, it is one that the build holds, it supports the rates, and changing
  ones if need be (`serves_of_resolve`). Each step of the resolution keeps the method or puts
  another in its place (`elseUse_eq_ok`); the steps that ask what a method can do put `auto`
  there, and `auto` gives way to the best method of the build in the end.

  A method that can do it is not replaced, so what was resolved is resolved again
  (`resolve_again`). One that cannot fails a check, and there are three of them, in an order:
  without fallback the first that it fails is the fault (`resolve_eq_error_iff`), and a
  choice that passes them is the one with fallback (`resolve_minimal_and_stable`).
-/

import PcmConvert.Method.Resolve

namespace PcmConvert

theorem exists_of_bind_eq_ok {ε α β : Type} {x : Except ε α} {g : α → Except ε β} {b : β} (h : x >>= g = .ok b) :
    ∃ a, x = .ok a ∧ g a = .ok b := by
  cases x with
  | error e => cases h
  | ok a => exact ⟨a, rfl, h⟩

theorem exists_bind_eq_ok {ε α β : Type} {x : Except ε α} {g : α → Except ε β} (hx : ∃ a, x = .ok a)
    (hg : ∀ a, ∃ b, g a = .ok b) : ∃ b, x >>= g = .ok b := by
  obtain ⟨a, rfl⟩ := hx
  exact hg a

namespace Method

/-- A method that runs: it is in the build, and does what it must. -/
structure Serves (b : Build) (d : Demand) (m : Method) : Prop where
  concrete : m ≠ .auto
  available : m.isAvailable b = true
  capable : m.isCapable d = true

theorem Serves.supportsRates {b : Build} {d : Demand} {m : Method} (h : Serves b d m) :
    m.supportsRates d.input d.output = true := by
  have hc := h.capable
  simp only [isCapable, Bool.and_eq_true] at hc
  exact hc.1

/-! ## Steps -/

/-- The step keeps the choice, or, where it may, puts another method in its place. -/
theorem elseUse_eq_ok {c x : Choice} {keep fallback : Bool} {f : Fault} {m : Method} {n : Note}
    (h : c.elseUse keep fallback f m n = .ok x) :
    keep = true ∧ x = c ∨ keep = false ∧ x = ⟨m, c.notes ++ [n]⟩ := by
  unfold Choice.elseUse at h
  by_cases hk : keep = true
  · rw [if_pos hk] at h
    cases h
    exact .inl ⟨hk, rfl⟩
  · rw [if_neg hk] at h
    by_cases hf : fallback = true
    · rw [if_pos hf] at h
      cases h
      exact .inr ⟨eq_false_of_ne_true hk, rfl⟩
    · rw [if_neg hf] at h
      cases h

theorem elseUse_of_keep {c : Choice} {keep : Bool} (h : keep = true) (fallback : Bool) (f : Fault) (m : Method)
    (n : Note) : c.elseUse keep fallback f m n = .ok c := if_pos h

theorem elseUse_of_refused {c : Choice} {keep : Bool} (h : keep = false) (f : Fault) (m : Method) (n : Note) :
    c.elseUse keep false f m n = .error f := by
  rw [h]
  rfl

/-- A step without fallback keeps the choice or refuses it, and one with it keeps it then, too. -/
theorem elseUse_of_strict {c x : Choice} {keep : Bool} {f : Fault} {m : Method} {n : Note}
    (h : c.elseUse keep false f m n = .ok x) : c.elseUse keep true f m n = .ok x := by
  rcases elseUse_eq_ok h with ⟨hk, rfl⟩ | ⟨rfl, -⟩
  · exact elseUse_of_keep hk ..
  · cases h

theorem exists_elseUse (c : Choice) (keep : Bool) (f : Fault) (m : Method) (n : Note) :
    ∃ x, c.elseUse keep true f m n = .ok x := by
  cases keep with
  | true => exact ⟨c, rfl⟩
  | false => exact ⟨_, rfl⟩

/-! ## What runs -/

/-- The best method runs at any rates. -/
theorem serves_best (b : Build) (d : Demand) : Serves b d (best b d.variableRate) := by
  obtain ⟨input, output, v⟩ := d
  obtain ⟨chunked⟩ := b
  cases chunked <;> cases v <;> exact ⟨(nomatch ·), rfl, rfl⟩

theorem serves_copy (b : Build) {d : Demand} (h : d.isIdle = true) : Serves b d .copy := by
  simp only [Demand.isIdle, Bool.and_eq_true, Bool.not_eq_true'] at h
  refine ⟨by decide, rfl, ?_⟩
  simp only [isCapable, supportsRates, h.1, h.2, Bool.not_false, Bool.true_or, Bool.and_self]

/-- What is resolved runs. -/
theorem serves_of_resolve {b : Build} {m : Method} {d : Demand} {fallback : Bool} {c : Choice}
    (h : m.resolve b d fallback = .ok c) : Serves b d c.method := by
  obtain ⟨c₁, -, h⟩ := exists_of_bind_eq_ok h
  by_cases hi : d.isIdle = true
  · rw [if_pos hi] at h
    cases h
    exact serves_copy b hi
  · rw [if_neg hi] at h
    obtain ⟨c₂, h₂, h⟩ := exists_of_bind_eq_ok h
    obtain ⟨c₃, h₃, h⟩ := exists_of_bind_eq_ok h
    by_cases ha : c₃.method = .auto
    · rw [if_pos ha] at h
      cases h
      exact serves_best b d
    · rw [if_neg ha] at h
      cases h
      -- neither of the last two steps has put `auto` in, so both kept what they were given
      rcases elseUse_eq_ok h₃ with ⟨hcapable, rfl⟩ | ⟨-, rfl⟩
      · rcases elseUse_eq_ok h₂ with ⟨havailable, rfl⟩ | ⟨-, rfl⟩
        · exact ⟨ha, havailable, hcapable⟩
        · exact absurd rfl ha
      · exact absurd rfl ha

variable {b : Build} {m : Method} {d : Demand} {f : Fault}

/-! ## Whole resolutions -/

theorem Demand.isIdle_iff : d.isIdle = true ↔ d.input = d.output ∧ d.variableRate = false := by
  simp [isIdle]

/-- With fallback there is always a choice. -/
theorem exists_resolve (b : Build) (m : Method) (d : Demand) : ∃ c, m.resolve b d true = .ok c := by
  refine exists_bind_eq_ok (exists_elseUse ..) fun c => ?_
  by_cases hi : d.isIdle = true
  · exact ⟨_, if_pos hi⟩
  · rw [if_neg hi]
    refine exists_bind_eq_ok (exists_elseUse ..) fun c' => exists_bind_eq_ok (exists_elseUse ..) fun c'' => ?_
    by_cases ha : c''.method = auto
    · exact ⟨_, if_pos ha⟩
    · exact ⟨_, if_neg ha⟩

/-- Rates that are equal and stay so are copied, whatever was asked for. -/
theorem resolve_of_isIdle (b : Build) (m : Method) (h : d.isIdle = true) (fallback : Bool) :
    m.resolve b d fallback = .ok ⟨copy, if m = copy then [] else [.equalRates m]⟩ := by
  unfold resolve
  rw [elseUse_of_keep (by simp [h])]
  exact if_pos h

/-- A method that fails no check is kept; `auto` becomes the best one. -/
theorem resolve_of_capable (ha : m.isAvailable b = true) (hc : m.isCapable d = true) (hi : d.isIdle = false)
    (fallback : Bool) : m.resolve b d fallback =
      .ok (if m = auto then ⟨best b d.variableRate, [.picked (best b d.variableRate)]⟩ else ⟨m, []⟩) := by
  have hrates : m.supportsRates d.input d.output = true := (Bool.and_eq_true_iff.mp hc).1
  unfold resolve
  rw [elseUse_of_keep (by simp [hrates])]
  refine (if_neg (ne_true_of_eq_false hi)).trans ?_
  rw [elseUse_of_keep ha]
  show (Choice.elseUse ⟨m, []⟩ _ _ _ _ _ >>= _) = _
  rw [elseUse_of_keep hc]
  exact (apply_ite Except.ok _ _ _).symm

/-- A method that does what it must is kept. -/
theorem Serves.resolve (h : Serves b d m) (hi : d.isIdle = false) (fallback : Bool) :
    m.resolve b d fallback = .ok ⟨m, []⟩ := by
  rw [resolve_of_capable h.available h.capable hi, if_neg h.concrete]

/-- What was resolved is kept when it is asked for. -/
theorem resolve_again {fallback : Bool} {c : Choice} (h : m.resolve b d fallback = .ok c) (fallback' : Bool) :
    c.method.resolve b d fallback' = .ok ⟨c.method, []⟩ := by
  cases hi : d.isIdle with
  | true =>
    rw [resolve_of_isIdle b m hi] at h
    cases h
    exact resolve_of_isIdle b copy hi fallback'
  | false => exact (serves_of_resolve h).resolve hi fallback'

/-- A choice that is found without fallback is the one with it. -/
theorem resolve_of_strict {c : Choice} (h : m.resolve b d false = .ok c) : m.resolve b d true = .ok c := by
  obtain ⟨c₁, h₁, h⟩ := exists_of_bind_eq_ok h
  unfold resolve
  rw [elseUse_of_strict h₁]
  by_cases hi : d.isIdle = true
  · rw [if_pos hi] at h
    exact (if_pos hi).trans h
  · rw [if_neg hi] at h
    obtain ⟨c₂, h₂, h⟩ := exists_of_bind_eq_ok h
    obtain ⟨c₃, h₃, h⟩ := exists_of_bind_eq_ok h
    refine (if_neg hi).trans ?_
    rw [elseUse_of_strict h₂]
    show (c₂.elseUse _ _ _ _ _ >>= _) = _
    rw [elseUse_of_strict h₃]
    exact h

/-! ## What is refused -/

/-- The rates are in the table, if the method has one. -/
def OnTable (d : Demand) (m : Method) : Prop := m = polyphaseFixed → m.supportsRates d.input d.output = true

/-- The first check that a method fails: of its table, of the build, of what it can do. -/
inductive Fails (b : Build) (d : Demand) : Method → Fault → Prop
  | offTable {m : Method} : ¬OnTable d m → Fails b d m (.rateUnsupported m d.input d.output)
  | unavailable {m : Method} : OnTable d m → m.isAvailable b = false → Fails b d m (.backendUnavailable m)
  | incapable {m : Method} : OnTable d m → m.isAvailable b = true → m.isCapable d = false →
      Fails b d m (.unsupportedMethod m)

theorem onTable_iff (hi : d.isIdle = false) :
    (m ≠ polyphaseFixed || d.isIdle || m.supportsRates d.input d.output) = true ↔ OnTable d m := by
  rw [hi, Bool.or_false, Bool.or_eq_true, decide_eq_true_iff]
  exact Decidable.imp_iff_not_or.symm

/-- A method fails a check or passes them all. -/
theorem fails_or_capable (b : Build) (d : Demand) (m : Method) :
    (∃ f, Fails b d m f) ∨ m.isAvailable b = true ∧ m.isCapable d = true := by
  by_cases ht : OnTable d m
  · cases ha : m.isAvailable b with
    | false => exact .inl ⟨_, .unavailable ht ha⟩
    | true =>
      cases hc : m.isCapable d with
      | false => exact .inl ⟨_, .incapable ht ha hc⟩
      | true => exact .inr ⟨rfl, rfl⟩
  · exact .inl ⟨_, .offTable ht⟩

theorem Fails.resolve (h : Fails b d m f) (hi : d.isIdle = false) : m.resolve b d false = .error f := by
  have hbusy : ¬d.isIdle = true := ne_true_of_eq_false hi
  unfold Method.resolve
  cases h with
  | offTable ht =>
    rw [elseUse_of_refused (eq_false_of_ne_true (mt (onTable_iff hi).mp ht))]
    rfl
  | unavailable ht ha =>
    rw [elseUse_of_keep ((onTable_iff hi).mpr ht)]
    refine (if_neg hbusy).trans ?_
    rw [elseUse_of_refused ha]
    rfl
  | incapable ht ha hc =>
    rw [elseUse_of_keep ((onTable_iff hi).mpr ht)]
    refine (if_neg hbusy).trans ?_
    rw [elseUse_of_keep ha]
    show (Choice.elseUse ⟨m, []⟩ _ _ _ _ _ >>= _) = _
    rw [elseUse_of_refused hc]
    rfl

theorem resolve_eq_error_iff : m.resolve b d false = .error f ↔ d.isIdle = false ∧ Fails b d m f := by
  constructor
  · intro h
    cases hi : d.isIdle with
    | true =>
      rw [resolve_of_isIdle b m hi] at h
      cases h
    | false =>
      rcases fails_or_capable b d m with ⟨f', hf⟩ | ⟨ha, hc⟩
      · rw [hf.resolve hi] at h
        cases h
        exact ⟨rfl, hf⟩
      · rw [resolve_of_capable ha hc hi] at h
        cases h
  · rintro ⟨hi, hf⟩
    exact hf.resolve hi

theorem isIdle_eq_false_iff : d.isIdle = false ↔ d.input ≠ d.output ∨ d.variableRate = true := by
  rw [← Bool.not_eq_true, Demand.isIdle_iff, Decidable.not_and_iff_or_not, Bool.not_eq_false]

/-- With fallback something is always resolved. What is resolved runs. It copies where the rates
    are equal and stay so, and is else what was asked for, if that runs; and it stays if it is
    asked for in turn. Without fallback the choice is the same, or there is none: then there is
    something to convert, and the fault is of the first check that the method asked for fails. -/
theorem resolve_minimal_and_stable (b : Build) (m : Method) (d : Demand) :
    (∃ c, m.resolve b d true = .ok c) ∧
      (∀ fallback c, m.resolve b d fallback = .ok c →
        Serves b d c.method ∧
        (d.input = d.output ∧ d.variableRate = false → c.method = copy) ∧
        (Serves b d m → d.input ≠ d.output ∨ d.variableRate = true → c = ⟨m, []⟩) ∧
        ∀ fallback', c.method.resolve b d fallback' = .ok ⟨c.method, []⟩) ∧
      (∀ c, m.resolve b d false = .ok c → m.resolve b d true = .ok c) ∧
      ∀ f, m.resolve b d false = .error f ↔ (d.input ≠ d.output ∨ d.variableRate = true) ∧ Fails b d m f := by
  refine ⟨exists_resolve b m d, ?_, fun c => resolve_of_strict, ?_⟩
  · intro fallback c h
    refine ⟨serves_of_resolve h, ?_, ?_, resolve_again h⟩
    · intro hi
      rw [resolve_of_isIdle b m (Demand.isIdle_iff.mpr hi)] at h
      cases h
      rfl
    · intro hs hi
      rw [hs.resolve (isIdle_eq_false_iff.mpr hi)] at h
      cases h
      rfl
  · intro f
    rw [resolve_eq_error_iff, isIdle_eq_false_iff]

/-- Peaks of a stream that gets faster, in a build without the chunked methods. -/
theorem resolve_minimal_and_stable_faster :
    let b : Build := ⟨false⟩
    let d : Demand := ⟨44100, 48000, false⟩
    (∃ c, peaks.resolve b d true = .ok c ∧ c.method = sincFixed ∧ Serves b d sincFixed) ∧
      sincFixed.resolve b d false = .ok ⟨sincFixed, []⟩ ∧
      peaks.resolve b d false = .error (.unsupportedMethod peaks) := by
  intro b d
  obtain ⟨⟨c, hc⟩, hall, -, hfault⟩ := resolve_minimal_and_stable b peaks d
  obtain ⟨hserves, -, -, hagain⟩ := hall true c hc
  have hmethod : c.method = sincFixed := by
    cases hc
    rfl
  rw [hmethod] at hserves hagain
  refine ⟨⟨c, hc, hmethod, hserves⟩, hagain false, (hfault _).mpr ⟨.inl (by decide), .incapable ?_ rfl rfl⟩⟩
  intro h
  cases h

end Method

end PcmConvert
