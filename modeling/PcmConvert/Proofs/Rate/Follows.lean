/-
  PcmConvert.Proofs.Rate.Follows — two converters, the second fed what a function makes of
  the frames that the first is fed.

  A converter is asked to convert frames, to forget, or to run at other rates (`Order`). What
  matters is whether the second then gives what the function makes of what the first gives,
  through any number of orders (`Commutes`). It does if its state is made of the first one's,
  before and after each single order, in the states that calls lead to (`Follows`,
  `Follows.commutes`); and where two converters do, so do those that hold them (`Holds`).
-/

import PcmConvert.Proofs.Rate.Contract

namespace PcmConvert.RateConverter

variable {β S : Type}

/-! ## Orders -/

/-- What a converter is asked. -/
inductive Order (S : Type) where
  | convert (fs : List (Frame S))
  | reset
  | retune (r : Rates)

/-- What it answers. -/
inductive Reply (S : Type) where
  | converted (fs : List (Frame S)) (unconsumed : Nat)
  | done
  | refused (f : Fault)

namespace Order

/-- The frames to convert, changed by `f`. -/
def map (f : List (Frame S) → List (Frame S)) : Order S → Order S
  | convert fs => convert (f fs)
  | reset => reset
  | retune r => retune r

@[simp] theorem map_retune (f : List (Frame S) → List (Frame S)) (r : Rates) : (retune r : Order S).map f = retune r := rfl

/-- The frames to convert have `n` samples. -/
def Whole (n : Nat) : Order S → Prop
  | convert fs => Uniform n fs
  | _ => True

end Order

namespace Reply

/-- The frames given, changed by `f`. -/
def map (f : List (Frame S) → List (Frame S)) : Reply S → Reply S
  | converted fs k => converted (f fs) k
  | done => done
  | refused e => refused e

/-- The frames given have `n` samples. -/
def Whole (n : Nat) : Reply S → Prop
  | converted fs _ => Uniform n fs
  | _ => True

end Reply

variable [RateConverter β S]

/-- The answer to an order, and the converter after it. Rates that are refused leave it. -/
def obey (b : β) : Order S → Reply S × β
  | .convert fs => let x := convert b fs; (.converted x.frames x.unconsumed, x.next)
  | .reset => (.done, reset S b)
  | .retune r => match (retune S b r).value with
    | .ok b' => (.done, b')
    | .error f => (.refused f, b)

/-- The answers to orders one after the other, and the converter after them. -/
def obeyAll (b : β) : List (Order S) → List (Reply S) × β
  | [] => ([], b)
  | o :: os =>
    let x := obey b o
    let rest := obeyAll x.2 os
    (x.1 :: rest.1, rest.2)

theorem Contract.obey {n : Nat} {Ok : β → Prop} (hk : Contract S n Ok) {b : β} (hb : Ok b) {o : Order S}
    (ho : o.Whole n) : (RateConverter.obey b o).1.Whole n ∧ Ok (RateConverter.obey b o).2 := by
  cases o with
  | convert fs => exact ⟨hk.whole hb ho, hk.next hb ho⟩
  | reset => exact ⟨trivial, hk.reset hb⟩
  | retune r =>
    simp only [RateConverter.obey]
    cases hr : (RateConverter.retune S b r).value with
    | error f => exact ⟨trivial, hb⟩
    | ok b' => exact ⟨trivial, hk.retune hb hr⟩

/-- Asked to convert whole frames, a converter gives whole frames. -/
theorem Contract.obeyAll {n : Nat} {Ok : β → Prop} (hk : Contract S n Ok) {b : β} (hb : Ok b) {os : List (Order S)}
    (ho : ∀ o ∈ os, o.Whole n) : ∀ x ∈ (RateConverter.obeyAll b os).1, x.Whole n := by
  induction os generalizing b with
  | nil =>
    intro x hx
    exact absurd hx List.not_mem_nil
  | cons o os ih =>
    obtain ⟨hhead, hnext⟩ := hk.obey hb (ho o List.mem_cons_self)
    intro x hx
    rcases List.mem_cons.mp hx with rfl | hx
    · exact hhead
    · exact ih hnext (fun q hq => ho q (List.mem_cons_of_mem o hq)) x hx

/-! ## One following the other -/

/-- Whatever whole frames they are asked to convert, `b` gives what `f` makes of what `a`
    gives, if it is fed what `f` makes of what `a` is fed. -/
def Commutes (n : Nat) (f : List (Frame S) → List (Frame S)) (a b : β) : Prop :=
  ∀ orders : List (Order S), (∀ o ∈ orders, o.Whole n) →
    (obeyAll b (orders.map (·.map f))).1 = (obeyAll a orders).1.map (·.map f)

/-- What `p` makes of a state `Ok` answers an order as the state does, but for what `g` makes
    of each frame, and is what `p` makes of it after the order, too. -/
structure Follows (S : Type) [RateConverter β S] (n : Nat) (g : Frame S → Frame S) (Ok : β → Prop) (p : β → β) :
    Prop where
  convert : ∀ {b : β} {fs : List (Frame S)}, Ok b → Uniform n fs →
    convert (p b) (fs.map g) = ⟨p (convert b fs).next, (convert b fs).frames.map g, (convert b fs).unconsumed⟩
  reset : ∀ {b : β}, Ok b → reset S (p b) = p (reset S b)
  retune : ∀ {b : β} (r : Rates), Ok b → (retune S (p b) r).value = (retune S b r).value.map p

variable {n : Nat} {g : Frame S → Frame S} {Ok : β → Prop} {p : β → β}

theorem Follows.obey (h : Follows S n g Ok p) {b : β} (hb : Ok b) {o : Order S} (ho : o.Whole n) :
    RateConverter.obey (p b) (o.map (·.map g)) = ((RateConverter.obey b o).1.map (·.map g), p (RateConverter.obey b o).2) := by
  cases o with
  | convert fs => simp only [RateConverter.obey, Order.map, Reply.map, h.convert hb ho]
  | reset => simp only [RateConverter.obey, Order.map, Reply.map, h.reset hb]
  | retune r =>
    simp only [RateConverter.obey, Order.map, h.retune r hb]
    cases (RateConverter.retune S b r).value with
    | error f => rfl
    | ok b' => rfl

/-- By induction on the orders: each leaves a state `Ok` and what `p` makes of it. -/
theorem Follows.commutes (h : Follows S n g Ok p) (hk : Contract S n Ok) {b : β} (hb : Ok b) :
    Commutes n (·.map g) b (p b) := by
  intro orders ho
  induction orders generalizing b with
  | nil => rfl
  | cons o os ih =>
    have hhead := ho o List.mem_cons_self
    simp only [List.map_cons, RateConverter.obeyAll, h.obey hb hhead]
    rw [ih (hk.obey hb hhead).2 fun q hq => ho q (List.mem_cons_of_mem o hq)]

/-! ## Converters in one another -/

variable {α : Type} [RateConverter α S]

/-- One kind of the states of `β` answers as the converter that it holds. -/
structure Holds (S : Type) {α β : Type} [RateConverter α S] [RateConverter β S] (i : α → β) : Prop where
  convert : ∀ (a : α) (fs : List (Frame S)),
    convert (i a) fs = ⟨i (convert a fs).next, (convert a fs).frames, (convert a fs).unconsumed⟩
  reset : ∀ a : α, reset S (i a) = i (reset S a)
  retune : ∀ (a : α) (r : Rates), (retune S (i a) r).value = (retune S a r).value.map i

theorem Holds.obey {i : α → β} (h : Holds S i) (a : α) (o : Order S) :
    RateConverter.obey (i a) o = ((RateConverter.obey a o).1, i (RateConverter.obey a o).2) := by
  cases o with
  | convert fs => simp only [RateConverter.obey, h.convert]
  | reset => simp only [RateConverter.obey, h.reset]
  | retune r =>
    simp only [RateConverter.obey, h.retune]
    cases (RateConverter.retune S a r).value with
    | error f => rfl
    | ok b' => rfl

theorem Holds.obeyAll {i : α → β} (h : Holds S i) (a : α) (os : List (Order S)) :
    (RateConverter.obeyAll (i a) os).1 = (RateConverter.obeyAll a os).1 := by
  induction os generalizing a with
  | nil => rfl
  | cons o os ih => simp only [RateConverter.obeyAll, h.obey, ih]

theorem Holds.commutes {i : α → β} (hi : Holds S i) {f : List (Frame S) → List (Frame S)} {a c : α}
    (h : Commutes n f a c) : Commutes n f (i a) (i c) := by
  intro orders ho
  rw [hi.obeyAll, hi.obeyAll]
  exact h orders ho

end PcmConvert.RateConverter
