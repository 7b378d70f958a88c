/-
  PcmConvert.Proofs.Rate.Sinc.Direct — what the interpolating converter computes. By its
  definition output frame `k` lies `k · input / output` frames after the first input frame.
  It is weighed with the weights of the fraction `k · input mod output`, from the frames
  around `⌊k · input / output⌋`: half a kernel up to there and half a kernel after it, silence
  before the first (`direct`). So it is out once half a kernel more has been fed (`count`),
  and that is the delay.

  A call has forgotten the frames that no window reaches any more, and counts its clock from
  there. With what is forgotten the clock is that of the stream (`Fed`), however much a call
  could forget; so every call goes on where the last one ended (`defined`).
-/

import PcmConvert.Proofs.Rate.Polyphase.Direct
import PcmConvert.Proofs.Rate.Sinc.Windows
import PcmConvert.Proofs.Rate.Stream

namespace PcmConvert

open Number Rate RateConverter

namespace SincFixed

variable {n : Nat} {r : Rates} {s : SincFixed} {x fs : List (Frame Int16)}

/-! ## The definition -/

/-- How many frames are out after `m` frames in. -/
def count (r : Rates) (m : Nat) : Nat := ceilDiv ((m - Kernel.half r) * r.output) r.input

/-- Channel `c` of output frame `k`: weight `j` is that of input frame
    `⌊k · input / output⌋ + 1 - half + j`. -/
def direct (r : Rates) (x : List (Frame Int16)) (k c : Nat) : Int16 :=
  clamp16 ((∑ j ∈ Finset.range (2 * Kernel.half r),
    sampleAt x c ((k * r.input / r.output : Nat) + 1 - Kernel.half r + j) *
      (Kernel.taps r (k * r.input % r.output)).getD j 0) / 2 ^ 15)

/-- Output frame `k` of `n` channels. -/
def directFrame (n : Nat) (r : Rates) (x : List (Frame Int16)) (k : Nat) : Frame Int16 :=
  (List.range n).map (direct r x k)

/-- A frame is out once all that its window holds was fed. -/
theorem lt_count_iff {k m : Nat} : k < count r m ↔ k * r.input / r.output + Kernel.half r < m := by
  rw [count, lt_ceilDiv_iff r.input_pos, ← Nat.div_lt_iff_lt_mul r.output_pos]
  exact Nat.lt_sub_iff_add_lt

theorem direct_append (z : List (Frame Int16)) {k : Nat} (h : k * r.input / r.output + Kernel.half r < x.length)
    (c : Nat) : direct r (x ++ z) k c = direct r x k c := by
  unfold direct
  congr 2
  refine Finset.sum_congr rfl fun j hj => ?_
  have hj := Finset.mem_range.mp hj
  rw [sampleAt_append z c (by omega)]

/-! ## The clock of the stream -/

/-- All frames so far, and half a kernel of silence before them. -/
def past (n : Nat) (r : Rates) (x : List (Frame Int16)) : List (Frame Int16) :=
  List.replicate (Kernel.half r) (silentFrame n) ++ x

theorem length_past (n : Nat) (r : Rates) (x : List (Frame Int16)) : (past n r x).length = Kernel.half r + x.length := by
  simp [past]

/-- When output frame `k` is due, from the start of the silence. -/
def due (r : Rates) (k : Nat) : Nat := Kernel.half r * r.output + k * r.input

theorem due_div (r : Rates) (k : Nat) : due r k / r.output = Kernel.half r + k * r.input / r.output := by
  rw [due, Nat.add_comm, Nat.add_mul_div_right _ _ r.output_pos, Nat.add_comm]

theorem due_mod (r : Rates) (k : Nat) : due r k % r.output = k * r.input % r.output := by
  rw [due, Nat.add_comm, Nat.add_mul_mod_self_right]

theorem getD_past (n : Nat) (r : Rates) (x : List (Frame Int16)) (c i : Nat) :
    (((past n r x).getD i []).getD c 0).toInt = sampleAt x c ((i : Int) - Kernel.half r) := by
  unfold past sampleAt
  by_cases hi : i < Kernel.half r
  · have hsilent : (silentFrame n : Frame Int16).getD c 0 = 0 := getD_silentFrame n c
    rw [if_pos (by omega), List.getD_append _ _ _ _ (by simpa using hi), List.getD_replicate _ hi, hsilent]
    rfl
  · rw [if_neg (by omega), List.getD_append_right _ _ _ _ (by simpa using hi), List.length_replicate]
    congr 3
    omega

/-- A window of the stream, weighed, is the frame out that the definition says. -/
theorem frameAt_due {k : Nat} (h : k * r.input / r.output + Kernel.half r < x.length) :
    frameAt n r (past n r x) (due r k) = directFrame n r x k := by
  unfold frameAt weigh directFrame
  refine List.map_congr_left fun c _ => ?_
  unfold direct
  rw [due_div, due_mod]
  generalize k * r.input / r.output = p at h ⊢
  generalize hw : ((past n r x).drop (Kernel.half r + p + 1 - Kernel.half r)).take (2 * Kernel.half r) = window
  have hlen : window.length = 2 * Kernel.half r := by
    rw [← hw, List.length_take, List.length_drop, length_past]
    omega
  rw [dot_eq_sum (by rw [List.length_map, hlen]) (Kernel.length_taps r _)]
  show clamp16 (_ / 32768) = clamp16 (_ / 32768)
  congr 2
  refine Finset.sum_congr rfl fun j hj => ?_
  have hj := Finset.mem_range.mp hj
  have hmap : (window.map fun f => (f.getD c 0).toInt).getD j 0 = ((window.getD j []).getD c 0).toInt := by
    simp [List.getD_eq_getElem?_getD, hlen, hj]
  have hget : window.getD j [] = (past n r x).getD (p + 1 + j) [] := by
    rw [← hw, List.getD_eq_getElem?_getD, List.getElem?_take_of_lt hj, List.getElem?_drop, ← List.getD_eq_getElem?_getD]
    congr 1
    omega
  rw [hmap, hget, getD_past]
  congr 2
  omega

/-! ## Between calls -/

/-- After the frames `x` at the rates `r`, for `n` channels: `d` frames are forgotten. -/
structure Fed (n : Nat) (r : Rates) (x : List (Frame Int16)) (s : SincFixed) : Prop where
  fits : Fits n s
  rates : s.rates = r
  clock : ∃ d, d ≤ (past n r x).length ∧ s.history = (past n r x).drop d ∧
    s.time 0 + d * r.output = due r (count r x.length)

theorem fed_create (n : Nat) (r : Rates) : Fed n r [] (create n r) where
  fits := fits_create n r
  rates := rfl
  clock := by
    refine ⟨0, Nat.zero_le _, ?_, ?_⟩
    · simp [create, past]
    · simp [create, time, due, count]

/-- Frames are counted from a later one, and the clock is, too. -/
theorem frameAt_drop (hs : List (Frame Int16)) (d : Nat) {t : Nat} (h : Kernel.half r ≤ t / r.output + 1) :
    frameAt n r (hs.drop d) t = frameAt n r hs (t + d * r.output) := by
  unfold frameAt
  rw [List.drop_drop, Nat.add_mul_div_right _ _ r.output_pos, Nat.add_mul_mod_self_right]
  congr 3
  omega

/-- The times of the next frames, from where the stream began. -/
theorem Fed.time_add (h : Fed n r x s) {d : Nat} (hd : s.time 0 + d * r.output = due r (count r x.length)) (k : Nat) :
    s.time k + d * r.output = due r (count r x.length + k) := by
  have hrates := h.rates
  unfold time due at *
  rw [hrates] at hd ⊢
  rw [Nat.add_mul (count r x.length)]
  omega

theorem Fed.history_append {d : Nat} (hd : d ≤ (past n r x).length) (hh : s.history = (past n r x).drop d)
    (fs : List (Frame Int16)) : s.history ++ fs = (past n r (x ++ fs)).drop d := by
  have hpast : past n r (x ++ fs) = past n r x ++ fs := by simp [past]
  rw [hpast, hh, List.drop_append_of_le_length hd]

/-- A call gives the frames due since the last one. -/
theorem Fed.length_convert (h : Fed n r x s) (fs : List (Frame Int16)) :
    (convert s fs).frames.length = count r (x ++ fs).length - count r x.length := by
  obtain ⟨d, hd, hh, hclock⟩ := h.clock
  have hlen : s.history.length + d = Kernel.half r + x.length := by
    rw [hh, List.length_drop]
    rw [length_past] at hd ⊢
    omega
  have hhalf : s.half = Kernel.half r := by rw [half, h.rates]
  have hroom : s.history.length + fs.length - Kernel.half r = x.length + fs.length - d := by omega
  have hstart : s.position * r.output + s.fraction + d * r.output = due r (count r x.length) := by
    rw [← hclock, time, h.rates]
    omega
  rw [SincFixed.length_convert h.fits, yield, hhalf, h.rates, hroom, Nat.sub_mul, Nat.sub_sub, Nat.add_comm (d * r.output),
    hstart, due, ← Nat.sub_sub, ← Nat.sub_mul, ceilDiv_sub_mul _ _ r.input_pos, List.length_append]
  rfl

theorem count_mono (r : Rates) {i j : Nat} (h : i ≤ j) : count r i ≤ count r j :=
  ceilDiv_mono _ (Nat.mul_le_mul_right _ (Nat.sub_le_sub_right h _))

theorem fed_convert (h : Fed n r x s) (fs : List (Frame Int16)) : Fed n r (x ++ fs) (convert s fs).next where
  fits := fits_convert h.fits fs
  rates := h.rates
  clock := by
    obtain ⟨d, hd, hh, hclock⟩ := h.clock
    obtain ⟨-, -, hnext⟩ := convert_eq h.fits fs
    have hgiven := h.length_convert fs
    have hmono := count_mono r (show x.length ≤ (x ++ fs).length by simp)
    have htime := h.time_add hclock (convert s fs).frames.length
    have hall := Fed.history_append hd hh fs
    have hlen : (s.history ++ fs).length + d = (past n r (x ++ fs)).length := by
      rw [hall, List.length_drop]
      rw [length_past] at hd ⊢
      rw [List.length_append]
      omega
    have hhalf : 0 < s.half := Kernel.half_pos s.rates
    rw [hnext]
    generalize hdrop : min (s.positionAt (convert s fs).frames.length + 1 - s.half) (s.history ++ fs).length = drop
    refine ⟨d + drop, by omega, ?_, ?_⟩
    · rw [← List.drop_drop, ← hall]
    · -- what is forgotten now, and what was before
      have hback : (s.positionAt (convert s fs).frames.length - drop) * s.rates.output + drop * s.rates.output =
          s.positionAt (convert s fs).frames.length * s.rates.output := by
        rw [← Nat.add_mul, Nat.sub_add_cancel (by omega)]
      have hdm : s.positionAt (convert s fs).frames.length * s.rates.output +
          s.fractionAt (convert s fs).frames.length = s.time (convert s fs).frames.length := Nat.div_add_mod' _ _
      rw [hgiven, Nat.add_sub_cancel' hmono, ← hgiven] at htime
      rw [time, Nat.zero_mul, Nat.add_zero, ← htime, ← hdm, Nat.add_mul, ← h.rates]
      show (s.positionAt _ - drop) * s.rates.output + s.fractionAt _ + (d * s.rates.output + drop * s.rates.output) = _
      omega

theorem frames_convert (h : Fed n r x s) (fs : List (Frame Int16)) :
    (convert s fs).frames =
      (List.range' (count r x.length) (count r (x ++ fs).length - count r x.length)).map (directFrame n r (x ++ fs)) := by
  obtain ⟨d, hd, hh, hclock⟩ := h.clock
  obtain ⟨hframes, -, -⟩ := convert_eq h.fits fs
  rw [hframes, ← h.length_convert fs, List.range'_eq_map_range, List.map_map, Fed.history_append hd hh, h.rates]
  refine List.map_congr_left fun k hk => ?_
  have hout : count r x.length + k < count r (x ++ fs).length := by
    have hlt := List.mem_range.mp hk
    rw [h.length_convert fs] at hlt
    omega
  have hreach : Kernel.half r ≤ s.time k / r.output + 1 := by
    have hfirst := h.fits.half_le
    have hle := s.le_positionAt k
    rw [half, h.rates] at hfirst
    rw [positionAt, h.rates] at hle
    omega
  rw [frameAt_drop _ d hreach, h.time_add hclock, frameAt_due (lt_count_iff.mp hout)]
  rfl

/-- The calls of a stream give the frames of the definition, in order. -/
theorem defined (n : Nat) (r : Rates) : Defined Int16 n (count r) (directFrame n r) (Fed n r) where
  count_zero := by simp [count]
  count_mono := count_mono r
  stable z k _ hk := List.map_congr_left fun c _ => direct_append z (lt_count_iff.mp hk) c
  next _ _ h := fed_convert h _
  frames _ _ h := frames_convert h _

theorem eq_create_of_begun (h : Begun Int16 n (fun r => .ok (create n r)) SincFixed.rates r s) : s = create n r := by
  cases h with
  | made h => exact (Except.ok.inj h).symm
  | reset ht h =>
    subst h
    rw [← (sound_of_reached ht).channels]
    rfl

/-! ## The frames -/

/-- However a stream is cut into calls since it began, `⌈(N - delay) · output / input⌉` frames
    are out after `N` frames in. Frame `k` is weighed for the fraction `k · input mod output`,
    and weight `j` is that of input frame `⌊k · input / output⌋ + 1 - delay + j`; the last one
    of them is in by then. -/
theorem convertAll_interpolated (h : Begun Int16 n (fun r => .ok (create n r)) SincFixed.rates r s)
    {calls : List (List (Frame Int16))} (hc : ∀ fs ∈ calls, Uniform n fs) :
    let x := calls.flatten
    let y := (convertAll s calls).1.flatten
    let t := (convertAll s calls).2
    let half := delay Int16 t
    (t.rates = r ∧ half = Kernel.half r) ∧
      y.length = ceilDiv ((x.length - half) * r.output) r.input ∧
      Uniform n y ∧
      (∀ fraction, (Kernel.taps r fraction).length = 2 * half) ∧
      ∀ k < y.length, k * r.input / r.output + half < x.length ∧ ∀ c < n,
        (y.getD k []).getD c 0 =
          clamp16 ((∑ j ∈ Finset.range (2 * half),
            sampleAt x c ((k * r.input / r.output : Nat) + 1 - half + j) *
              (Kernel.taps r (k * r.input % r.output)).getD j 0) / 2 ^ 15) := by
  intro x y t half
  obtain rfl := eq_create_of_begun h
  obtain ⟨hframes, hfed⟩ := (defined n r).convertAll (fed_create n r) hc
  have hy : y = (List.range (count r x.length)).map (directFrame n r x) := hframes
  have hlen : y.length = count r x.length := by rw [hy, List.length_map, List.length_range]
  have ht : Fed n r x t := hfed
  have hhalf : half = Kernel.half r := congrArg Kernel.half ht.rates
  rw [hhalf]
  refine ⟨⟨ht.rates, rfl⟩, hlen, ?_, Kernel.length_taps r, ?_⟩
  · rw [hy]
    exact Uniform.map _ fun k => by rw [directFrame, List.length_map, List.length_range]
  · intro k hk
    rw [hlen] at hk
    refine ⟨lt_count_iff.mp hk, fun c hc => ?_⟩
    have hframe : y.getD k [] = directFrame n r x k := by
      rw [hy]
      simp [List.getD_eq_getElem?_getD, hk]
    rw [hframe, directFrame]
    simp [List.getD_eq_getElem?_getD, hc, direct]

/-- Reset after other rates: nothing while half a kernel is not full, then two frames for three. -/
theorem convertAll_interpolated_reset :
    let r : Rates := ⟨3, 2, by decide, by decide⟩
    let calls : List (List (Frame Int16)) := [List.replicate (Kernel.half r) [5], [], [[5], [-7], [9]]]
    ∃ s, Begun Int16 1 (fun r => .ok (create 1 r)) SincFixed.rates r s ∧ (∀ fs ∈ calls, Uniform 1 fs) ∧
      (convertAll s calls).1.flatten.length = 2 ∧
      ((convertAll s calls).1.flatten.getD 1 []).getD 0 0 =
        clamp16 ((∑ j ∈ Finset.range (2 * Kernel.half r),
          sampleAt calls.flatten 0 (1 + 1 - Kernel.half r + j) * (Kernel.taps r 1).getD j 0) / 2 ^ 15) := by
  intro r calls
  have hmade : RateConverter.Reached Int16 1 (fun r => .ok (create 1 r)) (create 1 ⟨48000, 8000, by decide, by decide⟩) :=
    .made rfl
  have hran := RateConverter.Reached.convert hmade (show Uniform 1 [[(9 : Int16)]] from Uniform.cons rfl Uniform.nil)
  have hretuned := RateConverter.Reached.retune (r := r) hran rfl
  have hbegun : Begun Int16 1 (fun r => .ok (create 1 r)) SincFixed.rates r _ := .reset hretuned rfl
  have hc : ∀ fs ∈ calls, Uniform 1 fs := by
    intro fs hfs
    simp only [calls, List.mem_cons, List.not_mem_nil, or_false] at hfs
    rcases hfs with rfl | rfl | rfl
    · exact Uniform.replicate _ rfl
    · exact Uniform.nil
    · exact Uniform.cons rfl (Uniform.cons rfl (Uniform.cons rfl Uniform.nil))
  obtain ⟨⟨_, hdelay⟩, hlen, _, _, hframe⟩ := convertAll_interpolated hbegun hc
  have htwo : ceilDiv ((calls.flatten.length - Kernel.half r) * r.output) r.input = 2 := by
    have hthree : calls.flatten.length - Kernel.half r = 3 := by simp [calls]
    rw [hthree]
    decide
  rw [hdelay] at hlen hframe
  rw [htwo] at hlen
  have hsecond := (hframe 1 (by rw [hlen]; decide)).2 0 (by decide)
  rw [show 1 * r.input / r.output = 1 by decide, show 1 * r.input % r.output = 1 by decide, Int.natCast_one] at hsecond
  exact ⟨_, hbegun, hc, hlen, hsecond⟩

end SincFixed

end PcmConvert
