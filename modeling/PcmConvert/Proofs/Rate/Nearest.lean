/-
  PcmConvert.Proofs.Rate.Nearest — the nearest neighbour converter. Between calls
  (`Tracks`) the output frames given are those at or before the input frames taken, counted
  from the last whole second; so a call gives a number of frames that the counters alone
  decide (`length_convert`), and cutting the input changes nothing (`convert_append`).
-/

import PcmConvert.Number.Rounding
import PcmConvert.Proofs.Rate.Contract
import PcmConvert.Rate.Nearest

namespace PcmConvert.Nearest

open Number

variable {S : Type} {r : Rates} {i o : Nat} {frames : Array (Frame S)}

/-! ## The loop -/

theorem index_mono (r : Rates) (i : Nat) {o p : Nat} (h : o ≤ p) : index r i o ≤ index r i p :=
  Nat.sub_le_sub_right (Nat.div_le_div_right (Nat.mul_le_mul_right _ h)) _

/-- Once frames are at hand, the outputs that one of them is are those numbered below a
    bound. -/
theorem index_lt_iff {n : Nat} (hn : 0 < n) : index r i o < n ↔ o < ceilDiv ((i + n) * r.output) r.input := by
  rw [lt_ceilDiv_iff r.input_pos, ← Nat.div_lt_iff_lt_mul r.output_pos]
  unfold index
  omega

theorem length_emit (r : Rates) (i : Nat) (frames : Array (Frame S)) (o : Nat) :
    (emit r i frames o).1.length + o = (emit r i frames o).2 := by
  fun_induction emit r i frames o with
  | case1 o h rest ih => simp only [List.length_cons, rest]; omega
  | case2 o h => simp

theorem mem_of_mem_emit (r : Rates) (i : Nat) (frames : Array (Frame S)) (o : Nat) :
    ∀ f ∈ (emit r i frames o).1, f ∈ frames := by
  fun_induction emit r i frames o with
  | case1 o h rest ih =>
    intro f hf
    rcases List.mem_cons.mp hf with rfl | hf
    · exact Array.getElem_mem _
    · exact ih f hf
  | case2 o h => intro f hf; exact absurd hf List.not_mem_nil

theorem emit_next (r : Rates) (i : Nat) (frames : Array (Frame S)) (o : Nat) (hn : 0 < frames.size) :
    (emit r i frames o).2 = max o (ceilDiv ((i + frames.size) * r.output) r.input) := by
  fun_induction emit r i frames o with
  | case1 o h rest ih =>
    have := (index_lt_iff hn).mp h
    rw [ih]
    omega
  | case2 o h =>
    rw [index_lt_iff hn] at h
    omega

/-- Where the outputs given are exactly those at or before the inputs taken, they are so
    afterwards. -/
theorem emit_next_of_eq (frames : Array (Frame S)) (h : o = ceilDiv (i * r.output) r.input) :
    (emit r i frames o).2 = ceilDiv ((i + frames.size) * r.output) r.input := by
  rcases Nat.eq_zero_or_pos frames.size with hz | hn
  · have : ¬ index r i o < frames.size := by omega
    rw [emit, dif_neg this, hz, Nat.add_zero, h]
  · rw [emit_next r i frames o hn]
    have hm : ceilDiv (i * r.output) r.input ≤ ceilDiv ((i + frames.size) * r.output) r.input :=
      ceilDiv_mono _ (Nat.mul_le_mul_right _ (Nat.le_add_right _ _))
    omega

/-- Whole seconds in both counters are no matter. -/
theorem emit_add_seconds (r : Rates) (i : Nat) (frames : Array (Frame S)) (o q : Nat) :
    emit r (i + q * r.input) frames (o + q * r.output) =
      ((emit r i frames o).1, (emit r i frames o).2 + q * r.output) := by
  have hindex : ∀ o, index r (i + q * r.input) (o + q * r.output) = index r i o := by
    intro o
    unfold index
    have : (o + q * r.output) * r.input = o * r.input + q * r.input * r.output := by
      rw [Nat.add_mul, Nat.mul_right_comm]
    rw [this, Nat.add_mul_div_right _ _ r.output_pos]
    omega
  fun_induction emit r i frames o with
  | case1 o h rest ih =>
    have hadd : o + q * r.output + 1 = o + 1 + q * r.output := by omega
    rw [emit, dif_pos (by rw [hindex]; exact h)]
    simp only [hindex, hadd, ih]
    rfl
  | case2 o h => rw [emit, dif_neg (by rw [hindex]; exact h)]

/-- Outputs past the first frames are found among the later ones. -/
theorem emit_skip (r : Rates) (i : Nat) (a b : List (Frame S)) (o : Nat) (h : a.length ≤ index r i o) :
    emit r i (a ++ b).toArray o = emit r (i + a.length) b.toArray o := by
  have hindex : ∀ o, index r (i + a.length) o = index r i o - a.length := fun o => by unfold index; omega
  generalize hb : b.toArray = bs
  fun_induction emit r (i + a.length) bs o with
  | case1 o hlt rest ih =>
    subst hb
    rw [hindex] at hlt
    have hlt' : index r i o < (a ++ b).toArray.size := by simp at hlt ⊢; omega
    rw [emit, dif_pos hlt', ih (Nat.le_trans h (index_mono r i (Nat.le_succ o)))]
    simp only [List.getElem_toArray, List.getElem_append_right h, hindex]
    rfl
  | case2 o hge =>
    subst hb
    rw [hindex] at hge
    rw [emit, dif_neg (by simp at hge ⊢; omega)]

theorem emit_append (r : Rates) (i : Nat) (a b : List (Frame S)) (o : Nat) :
    emit r i (a ++ b).toArray o =
      ((emit r i a.toArray o).1 ++ (emit r (i + a.length) b.toArray (emit r i a.toArray o).2).1,
        (emit r (i + a.length) b.toArray (emit r i a.toArray o).2).2) := by
  generalize ha : a.toArray = as
  fun_induction emit r i as o with
  | case1 o h rest ih =>
    subst ha
    have hlt : index r i o < a.length := by simpa using h
    rw [emit, dif_pos (by simp; omega), ih]
    simp only [List.getElem_toArray, List.getElem_append_left hlt, List.cons_append]
    rfl
  | case2 o h =>
    subst ha
    rw [emit_skip r i a b o (by simpa using h), List.nil_append]

/-! ## Calls -/

/-- Less than a second is counted, and the outputs given are those at or before the inputs
    taken. -/
def Tracks (s : Nearest) : Prop :=
  s.consumed < s.rates.input ∧ s.produced = ceilDiv (s.consumed * s.rates.output) s.rates.input

theorem tracks_create (r : Rates) : Tracks (create r) := by
  refine ⟨r.input_pos, ?_⟩
  simp [create]

theorem normalize_tracks {s : Nearest} (h : s.produced = ceilDiv (s.consumed * s.rates.output) s.rates.input) :
    Tracks (normalize s) := by
  refine ⟨Nat.mod_lt _ s.rates.input_pos, ?_⟩
  have hmod : s.consumed % s.rates.input * s.rates.output =
      s.consumed * s.rates.output - s.consumed / s.rates.input * s.rates.output * s.rates.input := by
    have hdm := Nat.mod_add_div' s.consumed s.rates.input
    have : s.consumed % s.rates.input = s.consumed - s.consumed / s.rates.input * s.rates.input := by omega
    rw [this, Nat.sub_mul, Nat.mul_right_comm]
  simp only [normalize]
  rw [hmod, ceilDiv_sub_mul _ _ s.rates.input_pos, h]

theorem convert_tracks {s : Nearest} (h : Tracks s) (fs : List (Frame S)) : Tracks (convert s fs).next := by
  apply normalize_tracks
  simpa using emit_next_of_eq fs.toArray h.2

/-- How many frames a call with `n` frames gives. -/
def yield (s : Nearest) (n : Nat) : Nat := ceilDiv ((s.consumed + n) * s.rates.output) s.rates.input - s.produced

theorem length_convert {s : Nearest} (h : Tracks s) (fs : List (Frame S)) :
    (convert s fs).frames.length = s.yield fs.length := by
  have hl := length_emit s.rates s.consumed fs.toArray s.produced
  rw [emit_next_of_eq fs.toArray h.2] at hl
  simp only [convert, yield]
  simp only [List.size_toArray] at hl
  omega

/-- No call gives more than the rates promise for its frames. -/
theorem yield_le {s : Nearest} (h : Tracks s) (n : Nat) : s.yield n ≤ ceilDiv (n * s.rates.output) s.rates.input := by
  have := ceilDiv_add_le (s.consumed * s.rates.output) (n * s.rates.output) s.rates.input_pos
  rw [yield, h.2, Nat.add_mul]
  omega

/-- Nor less than the whole part of it. -/
theorem le_yield {s : Nearest} (h : Tracks s) (n : Nat) : n * s.rates.output / s.rates.input ≤ s.yield n := by
  have := ceilDiv_add_div_le (s.consumed * s.rates.output) (n * s.rates.output) s.rates.input_pos
  rw [yield, h.2, Nat.add_mul]
  omega

/-- The frames out reach as far as the whole seconds taken. -/
theorem seconds_le_emit {s : Nearest} (h : Tracks s) (fs : List (Frame S)) :
    (s.consumed + fs.length) / s.rates.input * s.rates.output ≤
      (emit s.rates s.consumed fs.toArray s.produced).2 := by
  rw [emit_next_of_eq fs.toArray h.2, List.size_toArray]
  apply Nat.le_of_mul_le_mul_right _ s.rates.input_pos
  refine Nat.le_trans ?_ (le_ceilDiv_mul _ s.rates.input_pos)
  rw [Nat.mul_right_comm]
  exact Nat.mul_le_mul_right _ (Nat.div_mul_le_self _ _)

theorem convert_append {s : Nearest} (h : Tracks s) (a b : List (Frame S)) :
    convert s (a ++ b) = RateConverter.convertTwice s a b := by
  have hq := seconds_le_emit h a
  obtain ⟨r, i, o⟩ := s
  dsimp only at hq
  have hi : (i + a.length) % r.input + (i + a.length) / r.input * r.input = i + a.length := Nat.mod_add_div' _ _
  have hs := emit_add_seconds r ((i + a.length) % r.input) b.toArray
    ((emit r i a.toArray o).2 - (i + a.length) / r.input * r.output) ((i + a.length) / r.input)
  -- the second call begins as many whole seconds later as the first counters lose
  rw [hi, Nat.sub_add_cancel hq] at hs
  simp only [RateConverter.convertTwice, RateConverter.convert, convert, normalize, emit_append, hs, List.length_append]
  -- and the counters lose in two parts what those of the one call lose at once
  rw [← Nat.add_assoc i, add_div_eq (i + a.length) b.length r.input_pos, Nat.mod_add_mod, Nat.add_mul,
    Nat.add_comm ((i + a.length) / r.input * r.output), ← Nat.sub_sub]
  congr 2
  omega

/-! ## The laws -/

theorem contract (n : Nat) : RateConverter.Contract S n Tracks where
  next h _ := convert_tracks h _
  whole _ hf f hm := hf f (by simpa using mem_of_mem_emit _ _ _ _ f hm)
  tail _ _ := Nat.zero_le _
  reset _ := tracks_create _
  retune _ h := by cases h; exact tracks_create _
  passing _ h := by cases h
  passes_next _ := rfl
  passes_reset _ := rfl
  passes_retune _ := rfl

theorem splits (n : Nat) : RateConverter.Splits S n Tracks where
  append h _ _ := convert_append h _ _
  all _ _ := rfl

theorem forgets (n : Nat) : RateConverter.Forgets S n Tracks id where
  run _ _ := rfl
  twice _ := rfl

theorem remakes : RateConverter.Remakes S Tracks id fun r => .ok (create r) where
  made h := by
    cases h
    exact ⟨tracks_create _, rfl⟩
  retune _ _ _ ht := by
    cases ht
    exact ⟨_, rfl, rfl⟩

end PcmConvert.Nearest
