/-
  PcmConvert.Proofs.Rate.Peaks — the converter to window maxima. Between calls (`Tracks`)
  every window that has ended is given and the next has not ended; so a call gives a number
  of frames that the counters alone decide (`length_convert`), and cutting the input changes
  nothing (`convert_append`): the open window's maximum goes over to the next call.
-/

import PcmConvert.Number.Rounding
import PcmConvert.Proofs.Rate.Contract
import PcmConvert.Rate.Peaks

namespace PcmConvert.Peaks

open Number

variable {S : Type} {k : Nat}

/-! ## Between calls -/

/-- Less than a second is counted, the windows given are those that have ended, and the
    output is not the faster. -/
structure Tracks (k : Nat) (s : Peaks S) : Prop where
  slower : s.rates.output ≤ s.rates.input
  consumed_lt : s.consumed < s.rates.input
  produced_eq : s.produced + 1 = ceilDiv ((s.consumed + 1) * s.rates.output) s.rates.input
  length_peak : s.peak.length = k

/-- How many frames a call with `n` frames gives. -/
def yield (s : Peaks S) (n : Nat) : Nat :=
  ceilDiv ((s.consumed + n + 1) * s.rates.output) s.rates.input - (s.produced + 1)

/-- No call gives more than the rates promise for its frames. -/
theorem yield_le {s : Peaks S} (h : Tracks k s) (n : Nat) : s.yield n ≤ ceilDiv (n * s.rates.output) s.rates.input := by
  have := ceilDiv_add_le ((s.consumed + 1) * s.rates.output) (n * s.rates.output) s.rates.input_pos
  rw [yield, h.produced_eq, Nat.add_right_comm, Nat.add_mul]
  omega

/-- Nor less than the whole part of it. -/
theorem le_yield {s : Peaks S} (h : Tracks k s) (n : Nat) : n * s.rates.output / s.rates.input ≤ s.yield n := by
  have := ceilDiv_add_div_le ((s.consumed + 1) * s.rates.output) (n * s.rates.output) s.rates.input_pos
  rw [yield, h.produced_eq, Nat.add_right_comm, Nat.add_mul]
  omega

variable [Sample S]

/-! ## The maximum -/

theorem length_raise {peak f : Frame S} (hp : peak.length = k) (hf : f.length = k) : (raise peak f).length = k := by
  rw [raise, List.length_zipWith, hp, hf, Nat.min_self]

theorem length_accumulate {peak : Frame S} {fs : List (Frame S)} (hp : peak.length = k) (hf : Uniform k fs) :
    (accumulate peak fs).length = k := by
  induction fs generalizing peak with
  | nil => exact hp
  | cons f fs ih =>
    exact ih (length_raise hp (hf f List.mem_cons_self)) fun g hg => hf g (List.mem_cons_of_mem _ hg)

theorem accumulate_append (peak : Frame S) (a b : List (Frame S)) :
    accumulate peak (a ++ b) = accumulate (accumulate peak a) b := List.foldl_append

/-! ## The loop -/

theorem windowEnd_mono (r : Rates) (i : Nat) {o p : Nat} (h : o ≤ p) : windowEnd r i o ≤ windowEnd r i p :=
  Nat.sub_le_sub_right (Nat.div_le_div_right (Nat.mul_le_mul_right _ (Nat.succ_le_succ h))) _

/-- The windows that end within the frames at hand are those numbered below a bound. -/
theorem windowEnd_le_iff {r : Rates} {i n o : Nat} :
    windowEnd r i o ≤ n ↔ o + 1 < ceilDiv ((i + n + 1) * r.output) r.input := by
  rw [lt_ceilDiv_iff r.input_pos, ← Nat.div_lt_iff_lt_mul r.output_pos]
  unfold windowEnd
  omega

theorem length_emit (r : Rates) (i n start o : Nat) (rest : List (Frame S)) (peak : Frame S) :
    (emit r i n start o rest peak).frames.length + o = (emit r i n start o rest peak).produced := by
  fun_induction emit r i n start o rest peak with
  | case1 start o rest peak stop h closed later ih => simp only [List.length_cons, later]; omega
  | case2 => simp

theorem emit_produced (r : Rates) (i n start o : Nat) (rest : List (Frame S)) (peak : Frame S) :
    (emit r i n start o rest peak).produced + 1 = max (o + 1) (ceilDiv ((i + n + 1) * r.output) r.input) := by
  fun_induction emit r i n start o rest peak with
  | case1 start o rest peak stop h closed later ih =>
    rw [windowEnd_le_iff] at h
    simp only [later]
    omega
  | case2 start o rest peak h =>
    rw [windowEnd_le_iff] at h
    dsimp only
    omega

theorem emit_uniform (r : Rates) (i n start o : Nat) (rest : List (Frame S)) (peak : Frame S)
    (hp : peak.length = k) (hr : Uniform k rest) :
    Uniform k (emit r i n start o rest peak).frames ∧ (emit r i n start o rest peak).peak.length = k := by
  fun_induction emit r i n start o rest peak with
  | case1 start o rest peak stop h closed later ih =>
    obtain ⟨hu, hl⟩ := ih ((Rate.length_silentFrame _).trans hp) (hr.drop _)
    exact ⟨hu.cons (length_accumulate hp (hr.take _)), hl⟩
  | case2 start o rest peak h => exact ⟨Uniform.nil, length_accumulate hp hr⟩

/-- Whole seconds in both counters are no matter. -/
theorem emit_add_seconds (r : Rates) (i n start o q : Nat) (rest : List (Frame S)) (peak : Frame S) :
    emit r (i + q * r.input) n start (o + q * r.output) rest peak =
      let e := emit r i n start o rest peak
      ⟨e.frames, e.produced + q * r.output, e.peak⟩ := by
  have hend : ∀ o, windowEnd r (i + q * r.input) (o + q * r.output) = windowEnd r i o := by
    intro o
    unfold windowEnd
    have : (o + q * r.output + 1) * r.input = (o + 1) * r.input + q * r.input * r.output := by
      rw [Nat.add_right_comm, Nat.add_mul, Nat.mul_right_comm]
    rw [this, Nat.add_mul_div_right _ _ r.output_pos]
    omega
  fun_induction emit r i n start o rest peak with
  | case1 start o rest peak stop h closed later ih =>
    have hadd : o + q * r.output + 1 = o + 1 + q * r.output := by omega
    simp only [stop] at ih
    rw [emit, if_pos (by rw [hend]; exact h)]
    simp only [hend, hadd, ih, closed, later, stop]
  | case2 start o rest peak h => rw [emit, if_neg (by rw [hend]; exact h)]

/-- The frames at hand may be counted from a later one. -/
theorem emit_from (r : Rates) (i c m start o : Nat) (rest : List (Frame S)) (peak : Frame S) (h : c ≤ windowEnd r i o) :
    emit r i (c + m) (c + start) o rest peak = emit r (i + c) m start o rest peak := by
  have hend : ∀ o, windowEnd r (i + c) o = windowEnd r i o - c := fun o => by unfold windowEnd; omega
  fun_induction emit r (i + c) m start o rest peak with
  | case1 start o rest peak stop hle closed later ih =>
    have hstop : windowEnd r i o = c + stop := by simp only [stop, hend]; omega
    have hsub : c + stop - (c + start) = stop - start := by omega
    rw [emit, if_pos (by rw [hend] at hle; omega)]
    simp only [hstop, hsub, ih (Nat.le_trans h (windowEnd_mono r i (Nat.le_add_right o 1)))]
    rfl
  | case2 start o rest peak hgt => rw [emit, if_neg (by rw [hend] at hgt; omega)]

/-- A window that does not end within the first frames goes on with the later ones. -/
theorem emit_skip (r : Rates) {i n m start o : Nat} {rest b : List (Frame S)} {peak : Frame S} (hp : peak.length = k)
    (hr : Uniform k rest) (hs : start ≤ n) (hn : rest.length = n - start) (hgt : n < windowEnd r i o) :
    emit r i (n + m) start o (rest ++ b) peak = emit r (i + n) m 0 o b (accumulate peak rest) := by
  have hend : windowEnd r (i + n) o = windowEnd r i o - n := by unfold windowEnd; omega
  have hlen := (length_accumulate hp hr).trans hp.symm
  rw [emit]
  conv => rhs; rw [emit]
  by_cases hle : windowEnd r i o ≤ n + m
  · have htake : windowEnd r i o - start - rest.length = windowEnd r i o - n := by omega
    have hshort : rest.length ≤ windowEnd r i o - start := by omega
    have hmono := windowEnd_mono r i (Nat.le_add_right o 1)
    have hlater := emit_from r i n m (windowEnd r i o - n) (o + 1) (b.drop (windowEnd r i o - n))
      (Rate.silentFrame peak.length) (by omega)
    rw [Nat.add_sub_cancel' (Nat.le_of_lt hgt)] at hlater
    rw [if_pos hle, if_pos (by omega)]
    simp only [hend, Nat.sub_zero, List.take_append, List.drop_append, List.take_of_length_le hshort,
      List.drop_of_length_le hshort, htake, accumulate_append, hlen, List.nil_append, hlater]
  · rw [if_neg hle, if_neg (by omega), accumulate_append]

theorem emit_append (r : Rates) {i n start o : Nat} {rest : List (Frame S)} (b : List (Frame S)) {peak : Frame S}
    (hp : peak.length = k) (hr : Uniform k rest) (hs : start ≤ n) (hn : rest.length = n - start)
    (hle : start ≤ windowEnd r i o) :
    emit r i (n + b.length) start o (rest ++ b) peak =
      let x := emit r i n start o rest peak
      let y := emit r (i + n) b.length 0 x.produced b x.peak
      ⟨x.frames ++ y.frames, y.produced, y.peak⟩ := by
  fun_induction emit r i n start o rest peak with
  | case1 start o rest peak stop h closed later ih =>
    have hshort : stop - start ≤ rest.length := by omega
    have hrest : (rest.drop (stop - start)).length = n - stop := by rw [List.length_drop]; omega
    have := ih ((Rate.length_silentFrame _).trans hp) (hr.drop _) h hrest (windowEnd_mono r i (Nat.le_add_right o 1))
    simp only [stop] at this hshort
    rw [emit, if_pos (by omega)]
    simp only [List.take_append_of_le_length hshort, List.drop_append_of_le_length hshort, this, closed, later, stop,
      List.cons_append]
  | case2 start o rest peak h =>
    rw [emit_skip r hp hr hs hn (by omega)]
    rfl

/-! ## Calls -/

theorem tracks_create {r : Rates} (h : r.output ≤ r.input) : Tracks k (create k r : Peaks S) := by
  refine ⟨h, r.input_pos, ?_, Rate.length_silentFrame k⟩
  show 0 + 1 = ceilDiv ((0 + 1) * r.output) r.input
  have hpos := r.output_pos
  apply Nat.le_antisymm
  · exact (lt_ceilDiv_iff r.input_pos).mpr (by omega)
  · exact (ceilDiv_le_iff r.input_pos).mpr (by omega)

theorem emit_produced_of_tracks {s : Peaks S} (h : Tracks k s) (n : Nat) (fs : List (Frame S)) :
    (emit s.rates s.consumed n 0 s.produced fs s.peak).produced + 1 =
      ceilDiv ((s.consumed + n + 1) * s.rates.output) s.rates.input := by
  rw [emit_produced, h.produced_eq]
  have hm : ceilDiv ((s.consumed + 1) * s.rates.output) s.rates.input ≤
      ceilDiv ((s.consumed + n + 1) * s.rates.output) s.rates.input :=
    ceilDiv_mono _ (Nat.mul_le_mul_right _ (by omega))
  omega

/-- The windows given reach as far as the whole seconds taken. -/
theorem seconds_le_produced {s : Peaks S} (h : Tracks k s) (n : Nat) (fs : List (Frame S)) :
    (s.consumed + n) / s.rates.input * s.rates.output ≤
      (emit s.rates s.consumed n 0 s.produced fs s.peak).produced := by
  have he := emit_produced_of_tracks h n fs
  have hq := Nat.div_mul_le_self (s.consumed + n) s.rates.input
  have hlt : (s.consumed + n) / s.rates.input * s.rates.output <
      ceilDiv ((s.consumed + n + 1) * s.rates.output) s.rates.input := by
    rw [lt_ceilDiv_iff s.rates.input_pos, Nat.mul_right_comm]
    exact Nat.mul_lt_mul_of_pos_right (Nat.lt_succ_of_le hq) s.rates.output_pos
  omega

theorem convert_tracks {s : Peaks S} (h : Tracks k s) {fs : List (Frame S)} (hf : Uniform k fs) :
    Tracks k (convert s fs).next where
  slower := h.slower
  consumed_lt := Nat.mod_lt _ s.rates.input_pos
  produced_eq := by
    have he := emit_produced_of_tracks h fs.length fs
    have hq := seconds_le_produced h fs.length fs
    have hdm := Nat.mod_add_div' (s.consumed + fs.length) s.rates.input
    have hc := ceilDiv_sub_mul ((s.consumed + fs.length + 1) * s.rates.output)
      ((s.consumed + fs.length) / s.rates.input * s.rates.output) s.rates.input_pos
    rw [Nat.mul_right_comm, ← Nat.sub_mul, ← he] at hc
    simp only [convert, normalize]
    rw [show (s.consumed + fs.length) % s.rates.input + 1 =
      s.consumed + fs.length + 1 - (s.consumed + fs.length) / s.rates.input * s.rates.input by omega, hc]
    omega
  length_peak := (emit_uniform _ _ _ _ _ _ _ h.length_peak hf).2

theorem length_convert {s : Peaks S} (h : Tracks k s) (fs : List (Frame S)) :
    (convert s fs).frames.length = s.yield fs.length := by
  have hl := length_emit s.rates s.consumed fs.length 0 s.produced fs s.peak
  have he := emit_produced_of_tracks h fs.length fs
  simp only [convert, yield]
  omega

theorem convert_append {s : Peaks S} (h : Tracks k s) {a : List (Frame S)} (b : List (Frame S)) (ha : Uniform k a) :
    convert s (a ++ b) = RateConverter.convertTwice s a b := by
  have hq := seconds_le_produced h a.length a
  have happ := emit_append s.rates b h.length_peak ha (Nat.zero_le _) (Nat.sub_zero a.length).symm
    (Nat.zero_le (windowEnd s.rates s.consumed s.produced))
  obtain ⟨r, i, o, peak⟩ := s
  dsimp only at hq happ
  have hi : (i + a.length) % r.input + (i + a.length) / r.input * r.input = i + a.length := Nat.mod_add_div' _ _
  generalize hx : emit r i a.length 0 o a peak = x at hq happ
  -- the second call begins as many whole seconds later as the first counters lose
  have hs := emit_add_seconds r ((i + a.length) % r.input) b.length 0
    (x.produced - (i + a.length) / r.input * r.output) ((i + a.length) / r.input) b x.peak
  rw [hi, Nat.sub_add_cancel hq] at hs
  simp only [RateConverter.convertTwice, RateConverter.convert, convert, normalize, List.length_append, happ, hs, hx]
  -- and the counters lose in two parts what those of the one call lose at once
  rw [← Nat.add_assoc i, add_div_eq (i + a.length) b.length r.input_pos, Nat.mod_add_mod, Nat.add_mul,
    Nat.add_comm ((i + a.length) / r.input * r.output), ← Nat.sub_sub]
  congr 2
  omega

/-! ## The laws -/

theorem make_eq_ok {n : Nat} {r : Rates} {s : Peaks S} (h : make n r = .ok s) :
    r.output ≤ r.input ∧ s = create n r := by
  unfold make at h
  split at h
  · cases h
  · cases h
    exact ⟨by omega, rfl⟩

theorem reset_create (n : Nat) (r : Rates) : RateConverter.reset S (create n r : Peaks S) = create n r := by
  show create (create n r : Peaks S).peak.length r = create n r
  rw [show (create n r : Peaks S).peak.length = n from Rate.length_silentFrame n]

theorem contract (n : Nat) : RateConverter.Contract S n (Tracks (S := S) n) where
  next h hf := convert_tracks h hf
  whole h hf := (emit_uniform _ _ _ _ _ _ _ h.length_peak hf).1
  tail _ _ := Nat.zero_le _
  reset {s} h := h.length_peak ▸ tracks_create h.slower
  retune {s t r} h hr := by
    obtain ⟨hle, rfl⟩ := make_eq_ok hr
    exact h.length_peak ▸ tracks_create hle
  passing _ h := by cases h
  passes_next _ := rfl
  passes_reset _ := rfl
  passes_retune _ := rfl

theorem splits (n : Nat) : RateConverter.Splits S n (Tracks (S := S) n) where
  append h ha _ := convert_append h _ ha
  all _ _ := rfl

theorem forgets (n : Nat) : RateConverter.Forgets S n (Tracks (S := S) n) id where
  run {s fs} h hf := by
    show create (convert s fs).next.peak.length s.rates = create s.peak.length s.rates
    rw [(convert_tracks h hf).length_peak, h.length_peak]
  twice {s} _ := reset_create s.peak.length s.rates

theorem remakes (n : Nat) : RateConverter.Remakes S (Tracks (S := S) n) id (make n) where
  made {s r} h := by
    obtain ⟨hle, rfl⟩ := make_eq_ok h
    exact ⟨tracks_create hle, reset_create n r⟩
  retune {a s t r r'} h _ _ ht := by
    have hm : make n r' = .ok t := h.length_peak ▸ ht
    obtain ⟨_, rfl⟩ := make_eq_ok hm
    exact ⟨_, hm, reset_create n r'⟩

end PcmConvert.Peaks
