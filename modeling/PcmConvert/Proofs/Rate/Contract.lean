/-
  PcmConvert.Proofs.Rate.Contract — what every rate converter promises, for all the states
  that it can be in, and what more can be said of some.

  - `Contract`: fed whole frames it gives whole frames; what it does not use is a tail of
    what it was fed; and one that passes frames on gives just those, and is never another.
  - `Splits`: nothing is left unused, and two calls give what one call with all the frames
    gives.
  - `Sees`: part of a state may be left out, and all that it does is the same.
  - `Forgets` and `Remakes`: after a reset it is seen as one made anew, at the rates it has by
    then.

  The states are those that calls lead to (`Reached`), and there a contract holds if it does
  in the ones made (`Contract.of_reached`).
-/

import PcmConvert.Proofs.Sample.Frames
import PcmConvert.Rate.Basic

namespace PcmConvert.RateConverter

variable {β : Type} (S : Type) [RateConverter β S]

/-- The promises of a converter of frames of `n` samples, in the states `Ok`. -/
structure Contract (n : Nat) (Ok : β → Prop) : Prop where
  next : ∀ {b : β} {fs : List (Frame S)}, Ok b → Uniform n fs → Ok (convert b fs).next
  whole : ∀ {b : β} {fs : List (Frame S)}, Ok b → Uniform n fs → Uniform n (convert b fs).frames
  tail : ∀ {b : β} {fs : List (Frame S)}, Ok b → Uniform n fs → (convert b fs).unconsumed ≤ fs.length
  reset : ∀ {b : β}, Ok b → Ok (reset S b)
  retune : ∀ {b b' : β} {r : Rates}, Ok b → (retune S b r).value = .ok b' → Ok b'
  passing : ∀ {b : β} (fs : List (Frame S)), passes S b = true → convert b fs = ⟨b, fs, 0⟩
  passes_next : ∀ {b : β} (fs : List (Frame S)), passes S (convert b fs).next = passes S b
  passes_reset : ∀ b : β, passes S (RateConverter.reset S b) = passes S b
  passes_retune : ∀ {b b' : β} {r : Rates}, (RateConverter.retune S b r).value = .ok b' → passes S b' = passes S b

/-- The outcome of two calls, one after the other. -/
def convertTwice {S : Type} [RateConverter β S] (b : β) (fs gs : List (Frame S)) : Converted β S :=
  let x := convert b fs
  let y := convert x.next gs
  ⟨y.next, x.frames ++ y.frames, y.unconsumed⟩

/-- The frames of calls one after the other, and the converter after them. -/
def convertAll {S : Type} [RateConverter β S] (b : β) : List (List (Frame S)) → List (List (Frame S)) × β
  | [] => ([], b)
  | fs :: r =>
    let x := convert b fs
    let rest := convertAll x.next r
    (x.frames :: rest.1, rest.2)

/-- In the states `Ok` it does not matter how the input is cut. -/
structure Splits (n : Nat) (Ok : β → Prop) : Prop where
  append : ∀ {b : β} {fs gs : List (Frame S)}, Ok b → Uniform n fs → Uniform n gs →
    convert b (fs ++ gs) = convertTwice b fs gs
  all : ∀ {b : β} {fs : List (Frame S)}, Ok b → Uniform n fs → (convert b fs).unconsumed = 0

/-- A converter does the same in states of which `seen` keeps the same. -/
structure Sees (seen : β → β) : Prop where
  convert : ∀ {a b : β} (fs : List (Frame S)), seen a = seen b →
    (convert a fs).frames = (convert b fs).frames ∧ (convert a fs).unconsumed = (convert b fs).unconsumed ∧
      seen (convert a fs).next = seen (convert b fs).next
  reset : ∀ {a b : β}, seen a = seen b → seen (reset S a) = seen (reset S b)
  retune : ∀ {a b : β} (r : Rates), seen a = seen b →
    (retune S a r).lines = (retune S b r).lines ∧ (retune S a r).value.map seen = (retune S b r).value.map seen
  delay : ∀ {a b : β}, seen a = seen b → delay S a = delay S b
  passes : ∀ {a b : β}, seen a = seen b → passes S a = passes S b

/-- Of a state `Ok` a reset leaves nothing that was run. -/
structure Forgets (n : Nat) (Ok : β → Prop) (seen : β → β) : Prop where
  run : ∀ {b : β} {fs : List (Frame S)}, Ok b → Uniform n fs → seen (reset S (convert b fs).next) = seen (reset S b)
  twice : ∀ {b : β}, Ok b → seen (reset S (reset S b)) = seen (reset S b)

/-- `make` makes converters for given rates. One made is as after a reset; and one that a
    reset makes what `make` makes is so at other rates, if it can take them. -/
structure Remakes (Ok : β → Prop) (seen : β → β) (make : Rates → Except Fault β) : Prop where
  made : ∀ {b : β} {r : Rates}, make r = .ok b → Ok b ∧ seen (reset S b) = seen b
  retune : ∀ {a b b' : β} {r r' : Rates}, Ok b → make r = .ok a → seen (reset S b) = seen a →
    (retune S b r').value = .ok b' → ∃ a', make r' = .ok a' ∧ seen (reset S b') = seen a'

variable {S}

/-- All of a state may be looked at. -/
theorem Sees.all : Sees (β := β) S id where
  convert _ h := by cases h; exact ⟨rfl, rfl, rfl⟩
  reset h := by cases h; rfl
  retune _ h := by cases h; exact ⟨rfl, rfl⟩
  delay h := by cases h; rfl
  passes h := by cases h; rfl

theorem exists_of_map_eq_ok {ε α β : Type} {f : α → β} {x : Except ε α} {b : β} (h : x.map f = .ok b) :
    ∃ a, x = .ok a ∧ f a = b := by
  cases x with
  | error e => cases h
  | ok a =>
    cases h
    exact ⟨a, rfl, rfl⟩

/-- The states that calls lead to, from a converter that `make` makes for some rates. Rates
    that are refused leave the converter as it was. -/
inductive Reached (S : Type) [RateConverter β S] (n : Nat) (make : Rates → Except Fault β) : β → Prop
  | made {b : β} {r : Rates} : make r = .ok b → Reached S n make b
  | convert {b : β} {fs : List (Frame S)} : Reached S n make b → Uniform n fs →
      Reached S n make (convert b fs).next
  | reset {b : β} : Reached S n make b → Reached S n make (reset S b)
  | retune {b b' : β} {r : Rates} : Reached S n make b → (retune S b r).value = .ok b' → Reached S n make b'

theorem Contract.of_reached {n : Nat} {Ok : β → Prop} (hk : Contract S n Ok) {make : Rates → Except Fault β}
    (hm : ∀ {r b}, make r = .ok b → Ok b) {b : β} (h : Reached S n make b) : Ok b := by
  induction h with
  | made h => exact hm h
  | convert _ hf ih => exact hk.next ih hf
  | reset _ ih => exact hk.reset ih
  | retune _ hr ih => exact hk.retune ih hr

/-- One kind of the states of `β` is a converter by itself. -/
structure Embeds (S : Type) {α β : Type} [RateConverter α S] [RateConverter β S] (i : α → β) (Ok : α → Prop)
    (Ok' : β → Prop) (seen : α → α) (seen' : β → β) : Prop where
  inj : ∀ {a b : α}, i a = i b → a = b
  ok : ∀ {a : α}, Ok' (i a) ↔ Ok a
  seen : ∀ a : α, seen' (i a) = i (seen a)
  reset : ∀ a : α, reset S (i a) = i (reset S a)
  retune : ∀ (a : α) (r : Rates), (retune S (i a) r).value = (RateConverter.retune S a r).value.map i
  kind : ∀ {a : α} {b : β}, seen' (RateConverter.reset S b) = i a → ∃ c, b = i c

theorem Remakes.embed {α : Type} [RateConverter α S] {i : α → β} {Ok : α → Prop} {Ok' : β → Prop} {seen : α → α}
    {seen' : β → β} (hi : Embeds S i Ok Ok' seen seen') {make : Rates → Except Fault α} (h : Remakes S Ok seen make) :
    Remakes S Ok' seen' fun r => (make r).map i where
  made hm := by
    obtain ⟨a, ha, rfl⟩ := exists_of_map_eq_ok hm
    obtain ⟨hok, hs⟩ := h.made ha
    exact ⟨hi.ok.mpr hok, by rw [hi.reset, hi.seen, hi.seen, hs]⟩
  retune hb hm hs ht := by
    obtain ⟨a, ha, rfl⟩ := exists_of_map_eq_ok hm
    obtain ⟨c, rfl⟩ := hi.kind (hs.trans (hi.seen a))
    rw [hi.reset, hi.seen, hi.seen] at hs
    rw [hi.retune] at ht
    obtain ⟨t, hct, rfl⟩ := exists_of_map_eq_ok ht
    obtain ⟨a', ha', hs'⟩ := h.retune (hi.ok.mp hb) ha (hi.inj hs) hct
    refine ⟨i a', by rw [ha']; rfl, ?_⟩
    rw [hi.reset, hi.seen, hi.seen, hs']

end PcmConvert.RateConverter
