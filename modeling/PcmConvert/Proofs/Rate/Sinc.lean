/-
  PcmConvert.Proofs.Rate.Sinc — the interpolating converter. Its clock counts in units of an
  input frame over the output rate, and moves by the input rate for each frame out; so a
  call gives a number of frames that the clock and the history's length decide
  (`length_convert`). Windows never reach before the history (`Fits`), whatever the rates
  were before; hence frames that no window reaches any more may be forgotten, and cutting
  the input changes nothing (`convert_append`).
-/

import PcmConvert.Number.Rounding
import PcmConvert.Proofs.Rate.Polyphase
import PcmConvert.Proofs.Rate.Sinc.Kernel
import PcmConvert.Rate.Sinc

namespace PcmConvert

open Number Rate

namespace SincFixed

/-! ## The clock -/

theorem advance_clock (r : Rates) (position : Nat) {fraction : Nat} (h : fraction < r.output) :
    (advance r position fraction).1 * r.output + (advance r position fraction).2 =
        position * r.output + fraction + r.input ∧
      (advance r position fraction).2 < r.output := by
  have hdm := Nat.div_add_mod' r.input r.output
  have hm := Nat.mod_lt r.input r.output_pos
  unfold advance
  dsimp only
  split <;> dsimp only <;> simp only [Nat.add_mul, Nat.one_mul] <;> omega

theorem le_advance (r : Rates) (position fraction : Nat) : position ≤ (advance r position fraction).1 := by
  rcases advance_lt r position fraction with h | h
  · exact Nat.le_of_lt h
  · exact Nat.le_of_eq h.1.symm

theorem advance_sub (r : Rates) {d position : Nat} (fraction : Nat) (h : d ≤ position) :
    advance r (position - d) fraction = ((advance r position fraction).1 - d, (advance r position fraction).2) := by
  unfold advance
  dsimp only
  rw [← Nat.sub_add_comm h]
  split
  · rw [← Nat.sub_add_comm (Nat.le_trans h (Nat.le_add_right _ _))]
  · rfl

/-! ## The loop -/

variable (channels : Nat) (r : Rates)

theorem le_emit_position (history : Array (Frame Int16)) (position fraction : Nat) :
    position ≤ (emit channels r history position fraction).position := by
  fun_induction emit channels r history position fraction with
  | case1 position fraction h y rest ih => exact Nat.le_trans (le_advance r _ _) ih
  | case2 position fraction h => exact Nat.le_refl _

/-- The loop ends when a window would reach past the history. -/
theorem size_le_emit_position (history : Array (Frame Int16)) (position fraction : Nat) :
    history.size ≤ (emit channels r history position fraction).position + Kernel.half r := by
  fun_induction emit channels r history position fraction with
  | case1 position fraction h y rest ih => exact ih
  | case2 position fraction h => exact Nat.le_of_not_lt h

theorem emit_fraction_lt (history : Array (Frame Int16)) {position fraction : Nat} (hf : fraction < r.output) :
    (emit channels r history position fraction).fraction < r.output := by
  fun_induction emit channels r history position fraction with
  | case1 position fraction h y rest ih => exact ih (advance_clock r _ hf).2
  | case2 position fraction h => exact hf

theorem emit_uniform (history : Array (Frame Int16)) (position fraction : Nat) :
    Uniform channels (emit channels r history position fraction).frames := by
  fun_induction emit channels r history position fraction with
  | case1 position fraction h y rest ih => exact ih.cons (length_weigh _ _ _)
  | case2 position fraction h => exact Uniform.nil

theorem length_emit (history : Array (Frame Int16)) (position : Nat) {fraction : Nat} (hf : fraction < r.output) :
    (emit channels r history position fraction).frames.length =
      ceilDiv ((history.size - Kernel.half r) * r.output - (position * r.output + fraction)) r.input := by
  fun_induction emit channels r history position fraction with
  | case1 position fraction h y rest ih =>
    obtain ⟨hclock, hlt⟩ := advance_clock r position hf
    have hroom : (position + 1) * r.output ≤ (history.size - Kernel.half r) * r.output :=
      Nat.mul_le_mul_right _ (by omega)
    rw [Nat.add_mul, Nat.one_mul] at hroom
    have hpos : 0 < ceilDiv ((history.size - Kernel.half r) * r.output - (position * r.output + fraction)) r.input := by
      rw [lt_ceilDiv_iff r.input_pos]
      omega
    have hsub : (history.size - Kernel.half r) * r.output - (position * r.output + fraction + r.input) =
        (history.size - Kernel.half r) * r.output - (position * r.output + fraction) - 1 * r.input := by omega
    have hrest := ih hlt
    rw [hclock, hsub, ceilDiv_sub_mul _ _ r.input_pos] at hrest
    simp only [List.length_cons, rest, hrest]
    omega
  | case2 position fraction h =>
    have hroom : (history.size - Kernel.half r) * r.output ≤ position * r.output := Nat.mul_le_mul_right _ (by omega)
    rw [Nat.sub_eq_zero_of_le (by omega), ceilDiv_zero_left, List.length_nil]

theorem window_toArray (half : Nat) (hs : List (Frame Int16)) (position : Nat) :
    window half hs.toArray position = (hs.drop (position + 1 - half)).take (2 * half) := by
  unfold window
  simp only [List.extract_toArray, List.extract_eq_take_drop]
  rw [Nat.add_sub_cancel_left]

/-- A window within the first frames is the same if more follow. -/
theorem window_append {half position : Nat} {a : List (Frame Int16)} (b : List (Frame Int16)) (hh : half ≤ position + 1)
    (h : position + half < a.length) : window half (a ++ b).toArray position = window half a.toArray position := by
  rw [window_toArray, window_toArray, List.drop_append_of_le_length (by omega), List.take_append_of_le_length]
  rw [List.length_drop]
  omega

theorem emit_append {a : List (Frame Int16)} (b : List (Frame Int16)) {position : Nat} (fraction : Nat)
    (hh : Kernel.half r ≤ position + 1) :
    emit channels r (a ++ b).toArray position fraction =
      let x := emit channels r a.toArray position fraction
      let y := emit channels r (a ++ b).toArray x.position x.fraction
      ⟨x.frames ++ y.frames, y.position, y.fraction⟩ := by
  generalize ha : a.toArray = as
  fun_induction emit channels r as position fraction with
  | case1 position fraction h y rest ih =>
    subst ha
    have hlt : position + Kernel.half r < a.length := by simpa using h
    rw [emit, if_pos (by simp; omega), ih (Nat.le_trans hh (Nat.succ_le_succ (le_advance r _ _)))]
    simp only [window_append b hh hlt, List.cons_append, y, rest]
  | case2 position fraction h => rfl

/-- Frames before every window that is still to come may be forgotten. -/
theorem emit_drop (hs : List (Frame Int16)) {d position : Nat} (fraction : Nat)
    (hd : d ≤ position + 1 - Kernel.half r) :
    emit channels r (hs.drop d).toArray (position - d) fraction =
      let e := emit channels r hs.toArray position fraction
      ⟨e.frames, e.position - d, e.fraction⟩ := by
  have hpos := Kernel.half_pos r
  generalize ha : hs.toArray = as
  fun_induction emit channels r as position fraction with
  | case1 position fraction h y rest ih =>
    subst ha
    have hlt : position + Kernel.half r < hs.length := by simpa using h
    have hadv := advance_sub r fraction (show d ≤ position by omega)
    have hwindow : window (Kernel.half r) (hs.drop d).toArray (position - d) =
        window (Kernel.half r) hs.toArray position := by
      rw [window_toArray, window_toArray, List.drop_drop]
      congr 2
      omega
    have hmono := le_advance r position fraction
    rw [emit, if_pos (by simp; omega), hadv, ih (by omega)]
    simp only [hwindow, y, rest]
  | case2 position fraction h =>
    subst ha
    rw [emit, if_neg (by simp at h ⊢; omega)]

/-! ## Between calls -/

/-- The fraction is one, and the first frame of the next window is in the history. -/
structure Fits (n : Nat) (s : SincFixed) : Prop where
  channels : s.channels = n
  fraction_lt : s.fraction < s.rates.output
  half_le : s.half ≤ s.position + 1

variable {channels r}

theorem fits_create (n : Nat) (r : Rates) : Fits n (create n r) :=
  ⟨rfl, r.output_pos, Nat.le_succ _⟩

theorem fits_convert {n : Nat} {s : SincFixed} (h : Fits n s) (fs : List (Frame Int16)) :
    Fits n (convert s fs).next := by
  have hle := le_emit_position s.channels s.rates (s.history ++ fs).toArray s.position s.fraction
  refine ⟨h.channels, emit_fraction_lt _ _ _ h.fraction_lt, ?_⟩
  have := h.half_le
  show s.half ≤ _ - min (_ + 1 - s.half) _ + 1
  omega

theorem fits_retune {n : Nat} {s : SincFixed} (h : Fits n s) (r : Rates) : Fits n (retune s r) := by
  refine ⟨h.channels, ?_, ?_⟩
  · show s.fraction * r.output / s.rates.output < r.output
    rw [Nat.div_lt_iff_lt_mul s.rates.output_pos, Nat.mul_comm]
    exact Nat.mul_lt_mul_of_pos_left h.fraction_lt r.output_pos
  · show Kernel.half r ≤ s.position + (Kernel.half r - (s.position + 1)) + 1
    omega

/-- How many frames a call with `n` frames gives. -/
def yield (s : SincFixed) (n : Nat) : Nat :=
  ceilDiv ((s.history.length + n - s.half) * s.rates.output - (s.position * s.rates.output + s.fraction)) s.rates.input

theorem length_convert {n : Nat} {s : SincFixed} (h : Fits n s) (fs : List (Frame Int16)) :
    (convert s fs).frames.length = s.yield fs.length := by
  have := length_emit s.channels s.rates (s.history ++ fs).toArray s.position h.fraction_lt
  simpa [convert, yield, half] using this

/-- No window is left within the history: every frame out needs a new frame in. -/
def IsSpent (s : SincFixed) : Prop := s.history.length ≤ s.position + s.half

theorem isSpent_create (n : Nat) (r : Rates) : IsSpent (create n r) := by
  simp [IsSpent, create, half]

theorem isSpent_convert (s : SincFixed) (fs : List (Frame Int16)) : IsSpent (convert s fs).next := by
  have := size_le_emit_position s.channels s.rates (s.history ++ fs).toArray s.position s.fraction
  simp only [List.size_toArray] at this
  simp only [IsSpent, convert, List.length_drop, half]
  omega

/-- With no window left a call gives no more than the rates promise for its frames. -/
theorem yield_le {s : SincFixed} (h : IsSpent s) (n : Nat) :
    s.yield n ≤ ceilDiv (n * s.rates.output) s.rates.input := by
  apply ceilDiv_mono
  have : s.history.length + n - s.half ≤ s.position + n := by unfold IsSpent at h; omega
  have := Nat.mul_le_mul_right s.rates.output this
  rw [Nat.add_mul] at this
  omega

theorem convert_append {n : Nat} {s : SincFixed} (h : Fits n s) (a b : List (Frame Int16)) :
    convert s (a ++ b) = RateConverter.convertTwice s a b := by
  obtain ⟨channels, r, history, position, fraction⟩ := s
  have hh : Kernel.half r ≤ position + 1 := h.half_le
  have hpos := Kernel.half_pos r
  simp only [RateConverter.convertTwice, RateConverter.convert, convert, half, ← List.append_assoc]
  rw [emit_append channels r b fraction hh]
  dsimp only
  generalize hx : emit channels r (history ++ a).toArray position fraction = x
  generalize hd : min (x.position + 1 - Kernel.half r) (history ++ a).length = d
  have hle := le_emit_position channels r (history ++ a ++ b).toArray x.position x.fraction
  have hdrop := emit_drop channels r (history ++ a ++ b) x.fraction (show d ≤ x.position + 1 - Kernel.half r by omega)
  generalize hy : emit channels r (history ++ a ++ b).toArray x.position x.fraction = y at hle hdrop ⊢
  rw [← List.drop_append_of_le_length (by omega : d ≤ (history ++ a).length), hdrop]
  -- both clocks stand at `y`; what is forgotten in two parts is forgotten in one
  have hmin : min (y.position + 1 - Kernel.half r) (history ++ a ++ b).length =
      d + min (y.position - d + 1 - Kernel.half r) ((history ++ a ++ b).length - d) := by
    have hlen : d ≤ (history ++ a ++ b).length := by
      rw [List.length_append]
      omega
    omega
  simp only [List.length_drop, List.drop_drop, hmin, Nat.sub_sub]

/-! ## The laws -/

theorem contract (n : Nat) : RateConverter.Contract Int16 n (Fits n) where
  next h _ := fits_convert h _
  whole h _ := h.channels ▸ emit_uniform _ _ _ _ _
  tail _ _ := Nat.zero_le _
  reset {s} h := h.channels ▸ fits_create _ _
  retune {s t r} h hr := by
    cases hr
    exact fits_retune h r
  passing _ h := by cases h
  passes_next _ := rfl
  passes_reset _ := rfl
  passes_retune _ := rfl

theorem splits (n : Nat) : RateConverter.Splits Int16 n (Fits n) where
  append h _ _ := convert_append h _ _
  all _ _ := rfl

theorem forgets (n : Nat) : RateConverter.Forgets Int16 n (Fits n) id where
  run _ _ := rfl
  twice _ := rfl

theorem remakes (n : Nat) : RateConverter.Remakes Int16 (Fits n) id fun r => .ok (create n r) where
  made h := by
    cases h
    exact ⟨fits_create _ _, rfl⟩
  retune {a s t r r'} h _ _ ht := by
    cases ht
    exact ⟨_, rfl, by rw [← h.channels]; rfl⟩

end SincFixed

end PcmConvert
