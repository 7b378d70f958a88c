/-
  PcmConvert.Proofs.Rate.Stream — a converter as a function of the whole stream. A stream
  begins with a converter that was just made or reset (`Begun`), or, where other rates mean
  a new start, was just given them (`Anew`). What it gives is defined by all the frames fed
  since: how many frames there are by then, and which one each of them is (`Defined`).

  Two things make calls give that: a frame that was given stays what it is when more are
  fed, and each call goes on with the number after the last one. Then it does not matter
  how the stream is cut into calls (`Defined.convertAll`).
-/

import PcmConvert.Proofs.Rate.Contract

namespace PcmConvert.RateConverter

variable {β : Type} (S : Type) [RateConverter β S]

/-! ## Where a stream begins -/

/-- Made for the rates `r`, or reset when it is at them. -/
inductive Begun (n : Nat) (make : Rates → Except Fault β) (rates : β → Rates) (r : Rates) : β → Prop
  | made {b : β} : make r = .ok b → Begun n make rates r b
  | reset {b : β} : Reached S n make b → rates b = r → Begun n make rates r (reset S b)

/-- Or given the rates `r`. -/
inductive Anew (n : Nat) (make : Rates → Except Fault β) (rates : β → Rates) (r : Rates) : β → Prop
  | begun {b : β} : Begun S n make rates r b → Anew n make rates r b
  | retune {b b' : β} : Reached S n make b → (retune S b r).value = .ok b' → Anew n make rates r b'

/-! ## What it gives -/

/-- After the frames `x` the states are those of `Fed x`; `count x.length` frames are given by
    then, and frame number `k` is `frame x k`. -/
structure Defined (n : Nat) (count : Nat → Nat) (frame : List (Frame S) → Nat → Frame S)
    (Fed : List (Frame S) → β → Prop) : Prop where
  count_zero : count 0 = 0
  count_mono : ∀ {i j : Nat}, i ≤ j → count i ≤ count j
  /-- What was given stays what it is. -/
  stable : ∀ {x : List (Frame S)} (z : List (Frame S)) {k : Nat}, Uniform n x → k < count x.length →
    frame (x ++ z) k = frame x k
  next : ∀ {x fs : List (Frame S)} {b : β}, Uniform n x → Uniform n fs → Fed x b → Fed (x ++ fs) (convert b fs).next
  frames : ∀ {x fs : List (Frame S)} {b : β}, Uniform n x → Uniform n fs → Fed x b →
    (convert b fs).frames =
      (List.range' (count x.length) (count (x ++ fs).length - count x.length)).map (frame (x ++ fs))

variable {S} {n : Nat} {count : Nat → Nat} {frame : List (Frame S) → Nat → Frame S} {Fed : List (Frame S) → β → Prop}

/-- The frames of a call are those numbered from the last call's on, and stay so with all
    that is fed later. -/
theorem Defined.frames_later (h : Defined S n count frame Fed) {x fs : List (Frame S)} {b : β} (hx : Uniform n x)
    (hf : Uniform n fs) (hb : Fed x b) (z : List (Frame S)) :
    (convert b fs).frames =
      (List.range' (count x.length) (count (x ++ fs).length - count x.length)).map (frame (x ++ fs ++ z)) := by
  rw [h.frames hx hf hb]
  refine List.map_congr_left fun k hk => ?_
  have hlt := (List.mem_range'_1.mp hk).2
  have hmono : count x.length ≤ count (x ++ fs).length := h.count_mono (by simp)
  rw [h.stable z (hx.append hf) (by omega)]

/-- Calls that go on after the frames `x`. -/
theorem Defined.convertAll_after (h : Defined S n count frame Fed) {x : List (Frame S)} {b : β} (hx : Uniform n x)
    (hb : Fed x b) {calls : List (List (Frame S))} (hc : ∀ fs ∈ calls, Uniform n fs) :
    (convertAll b calls).1.flatten =
        (List.range' (count x.length) (count (x ++ calls.flatten).length - count x.length)).map
          (frame (x ++ calls.flatten)) ∧
      Fed (x ++ calls.flatten) (convertAll b calls).2 := by
  induction calls generalizing x b with
  | nil =>
    rw [List.flatten_nil, List.append_nil, Nat.sub_self]
    exact ⟨rfl, hb⟩
  | cons fs calls ih =>
    obtain ⟨hf, hc⟩ := List.forall_mem_cons.mp hc
    obtain ⟨hrest, hend⟩ := ih (hx.append hf) (h.next hx hf hb) hc
    have hfirst := h.frames_later hx hf hb calls.flatten
    have hmono : count x.length ≤ count (x ++ fs).length := h.count_mono (by simp)
    have hmono' : count (x ++ fs).length ≤ count (x ++ fs ++ calls.flatten).length := h.count_mono (by simp)
    rw [List.flatten_cons, ← List.append_assoc]
    refine ⟨?_, hend⟩
    -- the numbers of the first call, and those of the calls after it
    have hsplit : count (x ++ fs ++ calls.flatten).length - count x.length =
        (count (x ++ fs).length - count x.length) +
          (count (x ++ fs ++ calls.flatten).length - count (x ++ fs).length) := by omega
    have hnext : count x.length + (count (x ++ fs).length - count x.length) = count (x ++ fs).length := by omega
    rw [hsplit, ← List.range'_append_1, hnext, List.map_append, ← hfirst, ← hrest]
    rfl

/-- However a stream is cut into calls, all that they give is what it is defined to be. -/
theorem Defined.convertAll (h : Defined S n count frame Fed) {b : β} (hb : Fed [] b) {calls : List (List (Frame S))}
    (hc : ∀ fs ∈ calls, Uniform n fs) :
    (RateConverter.convertAll b calls).1.flatten =
        (List.range (count calls.flatten.length)).map (frame calls.flatten) ∧
      Fed calls.flatten (RateConverter.convertAll b calls).2 := by
  have hall := h.convertAll_after Uniform.nil hb hc
  rw [List.nil_append, List.length_nil, h.count_zero, Nat.sub_zero, ← List.range_eq_range'] at hall
  exact hall

theorem uniform_flatten {calls : List (List (Frame S))} (hc : ∀ fs ∈ calls, Uniform n fs) :
    Uniform n calls.flatten := by
  intro f hf
  obtain ⟨fs, hfs, hf⟩ := List.mem_flatten.mp hf
  exact hc fs hfs f hf

end PcmConvert.RateConverter
