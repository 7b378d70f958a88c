/-
  PcmConvert.Proofs.Rate.Peaks.Direct — what the converter to window maxima computes. By its
  definition window `k` holds the input frames from `⌊k · input / output⌋` up to but without
  `⌊(k + 1) · input / output⌋` (`border`), and output frame `k` their largest magnitudes, of
  each channel (`largest`). A frame is out once its window has ended (`count`).

  A call knows neither number. Its counters are those of the stream less the same number of
  seconds, and what it keeps of the window that is open is its maximum so far (`Fed`); so
  every call goes on where the last one ended (`defined`), and a maximum over a window is
  the maximum of its parts. A call computed in 64-bit words (`Call`) cuts no window out of
  what is not there (`call_convert`), for none of them is empty: the output is not the
  faster.
-/

import Mathlib.Data.Finset.Lattice.Fold
import Mathlib.Data.List.GetD
import Mathlib.Order.Interval.Finset.Nat
import Mathlib.Order.Lattice.Nat
import PcmConvert.Proofs.Rate.Counters
import PcmConvert.Proofs.Rate.Peaks
import PcmConvert.Proofs.Rate.Stream

namespace PcmConvert.Peaks

open Number RateConverter

variable {S : Type} {n : Nat} {r : Rates} {s : Peaks S} {x fs : List (Frame S)}

/-! ## The definition -/

/-- Where window `k` begins. -/
def border (r : Rates) (k : Nat) : Nat := k * r.input / r.output

/-- How many windows have ended after `m` frames in. -/
def count (r : Rates) (m : Nat) : Nat := ceilDiv ((m + 1) * r.output) r.input - 1

/-- The frames from number `a` up to but without number `b`. -/
def between (x : List (Frame S)) (a b : Nat) : List (Frame S) := (x.take b).drop a

theorem border_mono (r : Rates) {j k : Nat} (h : j ≤ k) : border r j ≤ border r k :=
  Nat.div_le_div_right (Nat.mul_le_mul_right _ h)

theorem count_add_one (r : Rates) (m : Nat) : count r m + 1 = ceilDiv ((m + 1) * r.output) r.input := by
  have hpos : 0 < ceilDiv ((m + 1) * r.output) r.input := by
    rw [lt_ceilDiv_iff r.input_pos, Nat.zero_mul]
    exact Nat.mul_pos (Nat.succ_pos m) r.output_pos
  unfold count
  omega

theorem lt_count_iff {k m : Nat} : k < count r m ↔ border r (k + 1) ≤ m := by
  rw [← Nat.add_lt_add_iff_right (k := 1), count_add_one, lt_ceilDiv_iff r.input_pos,
    ← Nat.div_lt_iff_lt_mul r.output_pos, border, Nat.lt_succ_iff]

/-- The open window has begun, and has not ended. -/
theorem border_count (r : Rates) (m : Nat) : border r (count r m) ≤ m ∧ m < border r (count r m + 1) := by
  constructor
  · rcases hc : count r m with _ | k
    · simp [border]
    · exact lt_count_iff.mp (by omega)
  · apply Nat.lt_of_not_le
    intro hle
    exact Nat.lt_irrefl _ (lt_count_iff.mpr hle)

theorem between_append {x : List (Frame S)} (z : List (Frame S)) (a : Nat) {b : Nat} (h : b ≤ x.length) :
    between (x ++ z) a b = between x a b := by
  unfold between
  rw [List.take_append_of_le_length h]

/-- What is between two numbers may be cut at one between them. -/
theorem between_split (x : List (Frame S)) {a m b : Nat} (ha : a ≤ m) (hb : m ≤ b) (hm : m ≤ x.length) :
    (x.take m).drop a ++ (x.drop m).take (b - m) = (x.take b).drop a := by
  have hlen : a ≤ (x.take m).length := by rw [List.length_take]; omega
  rw [← List.drop_append_of_le_length hlen, ← List.take_add, Nat.add_sub_cancel' hb]

/-- The open window ends after the last frame taken. -/
theorem consumed_lt_border (h : Tracks n s) : s.consumed < border s.rates (s.produced + 1) := by
  have hround := le_ceilDiv_mul ((s.consumed + 1) * s.rates.output) s.rates.input_pos
  rw [← h.produced_eq] at hround
  rw [border, Nat.lt_iff_add_one_le, Nat.le_div_iff_mul_le s.rates.output_pos]
  exact hround

variable [Sample S]

/-- Output frame `k` of `n` channels. -/
def window (n : Nat) (r : Rates) (x : List (Frame S)) (k : Nat) : Frame S :=
  accumulate (Rate.silentFrame n) (between x (border r k) (border r (k + 1)))

/-- What is kept of the window that is open. -/
def opened (n : Nat) (r : Rates) (x : List (Frame S)) : Frame S :=
  accumulate (Rate.silentFrame n) (x.drop (border r (count r x.length)))

/-! ## The loop over the stream -/

/-- With counters that have lost nothing, the loop closes the windows one after the other,
    `i` frames of `z` being gone before the call. -/
theorem emit_windows {z : List (Frame S)} (hz : Uniform n z) {i start o : Nat} {rest : List (Frame S)} {peak : Frame S}
    (hrest : rest = z.drop (i + start)) (hstart : i + start ≤ z.length) (hfrom : border r o ≤ i + start)
    (hto : i + start ≤ border r (o + 1))
    (hpeak : peak = accumulate (Rate.silentFrame n) (between z (border r o) (i + start))) :
    let e := emit r i (z.length - i) start o rest peak
    e.frames = (List.range' o e.frames.length).map (window n r z) ∧
      e.peak = accumulate (Rate.silentFrame n) (z.drop (border r e.produced)) := by
  have hlen : ∀ a b, (accumulate (Rate.silentFrame n) (between z a b) : Frame S).length = n := fun a b =>
    length_accumulate (Rate.length_silentFrame n) ((hz.take b).drop a)
  fun_induction emit r i (z.length - i) start o rest peak with
  | case1 start o rest peak stop h closed later ih =>
    have hstop : i + stop = border r (o + 1) := by
      simp only [stop, windowEnd, border] at hto ⊢
      omega
    have hmono := border_mono r (Nat.le_add_right (o + 1) 1)
    have hnext : rest.drop (stop - start) = z.drop (i + stop) := by
      rw [hrest, List.drop_drop]
      congr 1
      omega
    have hsilent : (Rate.silentFrame peak.length : Frame S) =
        accumulate (Rate.silentFrame n) (between z (border r (o + 1)) (i + stop)) := by
      have hnone : between z (border r (o + 1)) (i + stop) = [] := by
        apply List.drop_eq_nil_of_le
        rw [List.length_take]
        omega
      rw [hnone, hpeak, hlen]
      rfl
    obtain ⟨hframes, hkept⟩ := ih hnext (by omega) (by omega) (by omega) hsilent
    refine ⟨?_, hkept⟩
    have hclosed : closed = window n r z o := by
      simp only [closed]
      rw [hpeak, hrest, ← accumulate_append, between, show stop - start = border r (o + 1) - (i + start) by omega,
        between_split z hfrom hto hstart]
      rfl
    rw [List.length_cons, List.range'_succ, List.map_cons, ← hframes, ← hclosed]
  | case2 start o rest peak h =>
    refine ⟨rfl, ?_⟩
    have hwhole : (z.drop (i + start)).take (z.length - (i + start)) = z.drop (i + start) := by
      rw [← List.length_drop, List.take_length]
    have hall := between_split z hfrom hstart hstart
    rw [hwhole, List.take_length] at hall
    dsimp only
    rw [hpeak, hrest, ← accumulate_append, between, hall]

/-! ## Between calls -/

/-- After the frames `x` at the rates `r`, for `n` channels. -/
structure Fed (n : Nat) (r : Rates) (x : List (Frame S)) (s : Peaks S) : Prop where
  rates : s.rates = r
  tracks : Tracks n s
  seconds : ∃ q, s.consumed + q * r.input = x.length
  peak : s.peak = opened n r x

theorem fed_create (h : r.output ≤ r.input) : Fed n r ([] : List (Frame S)) (create n r) where
  rates := rfl
  tracks := tracks_create h
  seconds := ⟨0, by simp [create]⟩
  peak := by
    unfold opened
    rw [List.drop_nil]
    rfl

/-- The windows given have lost the same seconds. -/
theorem Fed.produced_add (h : Fed n r x s) {q : Nat} (hq : s.consumed + q * r.input = x.length) :
    s.produced + q * r.output = count r x.length := by
  have hproduced := h.tracks.produced_eq
  have hcount := count_add_one r x.length
  have hsplit : (x.length + 1) * r.output = (s.consumed + 1) * r.output + q * r.output * r.input := by
    rw [← hq, Nat.add_right_comm, Nat.add_mul (s.consumed + 1), Nat.mul_right_comm]
  rw [hsplit, ceilDiv_add_mul _ _ r.input_pos] at hcount
  rw [h.rates] at hproduced
  omega

/-- A call as the loop over the stream has it. -/
theorem convert_windows (h : Fed n r x s) (hx : Uniform n x) (hf : Uniform n fs) :
    (convert s fs).frames = (List.range' (count r x.length) (count r (x ++ fs).length - count r x.length)).map
        (window n r (x ++ fs)) ∧
      (convert s fs).next.peak = opened n r (x ++ fs) := by
  obtain ⟨q, hq⟩ := h.seconds
  have hproduced := h.produced_add hq
  have hloop := emit_add_seconds r s.consumed fs.length 0 s.produced q fs s.peak
  rw [hq, hproduced] at hloop
  dsimp only at hloop
  obtain ⟨hbegun, hopen⟩ := border_count r x.length
  have hkept : s.peak =
      accumulate (Rate.silentFrame n) (between (x ++ fs) (border r (count r x.length)) (x.length + 0)) := by
    have htake : between (x ++ fs) (border r (count r x.length)) (x.length + 0) =
        x.drop (border r (count r x.length)) := by
      simp [between]
    rw [htake]
    exact h.peak
  have hnew : fs = (x ++ fs).drop (x.length + 0) := by simp
  obtain ⟨hframes, hpeak⟩ := emit_windows (hx.append hf) hnew (by simp) (by omega) (by omega) hkept
  have hlen := length_emit r x.length fs.length 0 (count r x.length) fs s.peak
  have hnext := emit_produced r x.length fs.length 0 (count r x.length) fs s.peak
  have hcount := count_add_one r (x ++ fs).length
  have hmono : count r x.length ≤ count r (x ++ fs).length :=
    Nat.sub_le_sub_right (ceilDiv_mono _ (Nat.mul_le_mul_right _ (by simp))) 1
  have hsize : (x ++ fs).length - x.length = fs.length := by rw [List.length_append]; omega
  rw [List.length_append] at hcount
  rw [← hcount] at hnext
  rw [hsize] at hframes hpeak
  have hproduced' : (emit r x.length fs.length 0 (count r x.length) fs s.peak).produced = count r (x ++ fs).length := by
    rw [List.length_append] at hmono ⊢
    omega
  rw [hproduced'] at hpeak hlen
  have hcall : (convert s fs).frames = (emit r x.length fs.length 0 (count r x.length) fs s.peak).frames ∧
      (convert s fs).next.peak = (emit r x.length fs.length 0 (count r x.length) fs s.peak).peak := by
    rw [hloop, ← h.rates]
    exact ⟨rfl, rfl⟩
  rw [hcall.1, hcall.2, hframes, hpeak]
  refine ⟨?_, rfl⟩
  congr 2
  omega

theorem fed_convert (h : Fed n r x s) (hx : Uniform n x) (hf : Uniform n fs) :
    Fed n r (x ++ fs) (convert s fs).next where
  rates := h.rates
  tracks := convert_tracks h.tracks hf
  seconds := by
    obtain ⟨q, hq⟩ := h.seconds
    refine ⟨q + (s.consumed + fs.length) / r.input, ?_⟩
    have hleft : (convert s fs).next.consumed = (s.consumed + fs.length) % r.input := by
      rw [← h.rates]
      rfl
    rw [hleft, List.length_append, Rates.seconds_add hq]
  peak := (convert_windows h hx hf).2

theorem defined (n : Nat) (h : r.output ≤ r.input) : Defined S n (count r) (window n r) (Fed n r) where
  count_zero := by
    have hone : ceilDiv ((0 + 1) * r.output) r.input ≤ 1 := (ceilDiv_le_iff r.input_pos).mpr (by omega)
    unfold count
    omega
  count_mono h := Nat.sub_le_sub_right (ceilDiv_mono _ (Nat.mul_le_mul_right _ (by omega))) 1
  stable z k _ hk := congrArg _ (between_append z _ (lt_count_iff.mp hk))
  next hx hf h := fed_convert h hx hf
  frames hx hf h := (convert_windows h hx hf).1

/-- Other rates are a new start. -/
theorem eq_create_of_anew (h : Anew S n (make n) Peaks.rates r s) : r.output ≤ r.input ∧ s = create n r := by
  have hlen {t : Peaks S} (ht : Reached S n (make n) t) : Tracks n t :=
    (contract n).of_reached (fun hm => by
      obtain ⟨hle, rfl⟩ := make_eq_ok hm
      exact tracks_create hle) ht
  cases h with
  | begun h =>
    cases h with
    | made h => exact make_eq_ok h
    | reset ht h =>
      have htracks := hlen ht
      subst h
      refine ⟨htracks.slower, ?_⟩
      rw [← htracks.length_peak]
      rfl
  | retune ht h =>
    have htracks := hlen ht
    obtain ⟨hle, heq⟩ := make_eq_ok (show make _ r = .ok s from h)
    rw [htracks.length_peak] at heq
    exact ⟨hle, heq⟩

/-! ## A call in words -/

/-- The loop of a call with the frames `fs`, computed in 64-bit words: the window that is open
    is numbered `o` and goes on with the frames from `start` on. No product is larger than a
    word, no more is taken from a number than it is, and a window is cut out of frames that
    are there. -/
inductive Loop (n : Nat) (r : Rates) (i : Nat) (fs : List (Frame S)) :
    Nat → Nat → Frame S → List (Frame S) → Nat → Frame S → Prop
  | stop {start o : Nat} {peak : Frame S} : (o + 1) * r.input < 2 ^ 64 → i ≤ (o + 1) * r.input / r.output →
      fs.length < (o + 1) * r.input / r.output - i → start ≤ fs.length → fs.length * n < 2 ^ 64 →
      Loop n r i fs start o peak [] o (accumulate peak (fs.drop start))
  | close {start o p : Nat} {peak last : Frame S} {ys : List (Frame S)} : (o + 1) * r.input < 2 ^ 64 →
      i ≤ (o + 1) * r.input / r.output → start ≤ (o + 1) * r.input / r.output - i →
      (o + 1) * r.input / r.output - i ≤ fs.length → ((o + 1) * r.input / r.output - i) * n < 2 ^ 64 →
      Loop n r i fs ((o + 1) * r.input / r.output - i) (o + 1) (Rate.silentFrame peak.length) ys p last →
      Loop n r i fs start o peak (accumulate peak (between fs start ((o + 1) * r.input / r.output - i)) :: ys) p last

/-- A call for `n` channels, the counters' seconds taken off last. -/
inductive Call (n : Nat) (s : Peaks S) (fs ys : List (Frame S)) : Peaks S → Prop
  | mk {o i p : Nat} {last : Frame S} : Loop n s.rates s.consumed fs 0 s.produced s.peak ys o last →
      s.consumed + fs.length < 2 ^ 64 → s.rates.Shed (s.consumed + fs.length) o i p → Call n s fs ys ⟨s.rates, i, p, last⟩

theorem loop_emit {fs : List (Frame S)} {i start o : Nat} {peak : Frame S} (hn : fs.length * n < 2 ^ 64)
    (hword : ∀ p ≤ (emit r i fs.length start o (fs.drop start) peak).produced, (p + 1) * r.input < 2 ^ 64)
    (hi : i ≤ border r (o + 1)) (hstart : start ≤ fs.length) (hle : start ≤ windowEnd r i o) :
    let e := emit r i fs.length start o (fs.drop start) peak
    Loop n r i fs start o peak e.frames e.produced e.peak := by
  generalize hr : fs.drop start = rest at hword ⊢
  fun_induction emit r i fs.length start o rest peak with
  | case1 start o rest peak stop h closed later ih =>
    subst hr
    have hnext : fs.drop stop = (fs.drop start).drop (stop - start) := by
      rw [List.drop_drop]
      congr 1
      omega
    have hcut : closed = accumulate peak (between fs start stop) := by
      simp only [closed, between]
      rw [List.drop_take]
    have hproduced : o ≤ later.produced := by
      have := length_emit r i fs.length stop (o + 1) ((fs.drop start).drop (stop - start))
        (Rate.silentFrame peak.length)
      simp only [later]
      omega
    have hrow : stop * n ≤ fs.length * n := Nat.mul_le_mul_right n h
    have hrest := ih (Nat.le_trans hi (border_mono r (Nat.le_succ _))) h (windowEnd_mono r i (Nat.le_succ o)) hnext hword
    rw [hcut]
    exact .close (hword o hproduced) hi hle h (Nat.lt_of_le_of_lt hrow hn) hrest
  | case2 start o rest peak h =>
    subst hr
    exact .stop (hword o (Nat.le_refl o)) hi (Nat.lt_of_not_le h) hstart hn

theorem call_convert (hn : n ≤ maxChannels) (hi : s.rates.input ≤ maxRate) (h : Tracks n s)
    (hf : fs.length < 2 ^ 32) : Call n s fs (convert s fs).frames (convert s fs).next := by
  have hin := h.consumed_lt
  have hflat : fs.length * n ≤ 2 ^ 32 * maxChannels := Nat.mul_le_mul (Nat.le_of_lt hf) hn
  have hflat' : 2 ^ 32 * maxChannels < 2 ^ 64 := by decide
  have hproduced := emit_produced_of_tracks h fs.length fs
  have hword : ∀ p ≤ (emit s.rates s.consumed fs.length 0 s.produced (fs.drop 0) s.peak).produced,
      (p + 1) * s.rates.input < 2 ^ 64 := by
    intro p hp
    rw [List.drop_zero] at hp
    exact Rates.mul_input_lt hi (Nat.le_trans h.slower hi) hin hf (by omega)
  have hloop := loop_emit (Nat.lt_of_le_of_lt hflat hflat') hword (Nat.le_of_lt (consumed_lt_border h)) (Nat.zero_le _)
    (Nat.zero_le _)
  rw [List.drop_zero] at hloop
  have hmax : maxRate + 2 ^ 32 < 2 ^ 64 := by decide
  exact .mk hloop (by omega) (Rates.shed_seconds s.rates (seconds_le_produced h fs.length fs))

/-! ## Magnitudes of 16-bit integers -/

/-- The largest magnitude on channel `c` from frame `a` up to but without frame `b`. The
    lowest sample counts as the highest. -/
def largest (x : List (Frame Int16)) (a b c : Nat) : Nat :=
  (Finset.Ico a b).sup fun i => min 32767 ((x.getD i []).getD c 0).toInt.natAbs

theorem largest_succ (x : List (Frame Int16)) {a b : Nat} (h : a ≤ b) (c : Nat) :
    largest x a (b + 1) c = max (min 32767 ((x.getD b []).getD c 0).toInt.natAbs) (largest x a b c) := by
  unfold largest
  rw [Nat.Ico_succ_right_eq_insert_Ico h, Finset.sup_insert]

theorem getD_raise {peak f : Frame Int16} (hp : peak.length = n) (hf : f.length = n) {c : Nat} (hc : c < n) :
    ((raise peak f).getD c 0).toInt =
      max ((min 32767 (f.getD c 0).toInt.natAbs : Nat) : Int) (peak.getD c 0).toInt := by
  have hmagnitude (v : Int16) : (Sample.magnitude v).toInt = min 32767 v.toInt.natAbs := by
    show (clamp16 v.toInt.natAbs).toInt = _
    rw [toInt_clamp16]
    omega
  have hlen := length_raise hp hf
  rw [List.getD_eq_getElem _ _ (by omega), List.getD_eq_getElem _ _ (by omega), List.getD_eq_getElem _ _ (by omega)]
  simp only [raise, List.getElem_zipWith]
  by_cases hlt : Sample.exceeds (Sample.magnitude f[c]) peak[c] = true
  · have hlt' : peak[c].toInt < (Sample.magnitude f[c]).toInt :=
      Int16.lt_iff_toInt_lt.mp (of_decide_eq_true hlt)
    rw [if_pos hlt, hmagnitude] at *
    omega
  · have hle : ¬peak[c].toInt < (Sample.magnitude f[c]).toInt := by
      intro h
      exact hlt (decide_eq_true (Int16.lt_iff_toInt_lt.mpr h))
    rw [if_neg hlt]
    rw [hmagnitude] at hle
    omega

/-- What is kept of some frames is the largest magnitude on each channel. -/
theorem getD_accumulate {x : List (Frame Int16)} (hx : Uniform n x) {a b c : Nat} (ha : a ≤ b) (hb : b ≤ x.length)
    (hc : c < n) :
    ((accumulate (Rate.silentFrame n) (between x a b)).getD c 0).toInt = largest x a b c := by
  induction b, ha using Nat.le_induction with
  | base =>
    have hnone : between x a a = [] := List.drop_eq_nil_of_le (by rw [List.length_take]; omega)
    have hsilent : (Rate.silentFrame n : Frame Int16).getD c 0 = 0 := Rate.getD_silentFrame n c
    rw [hnone]
    show ((Rate.silentFrame n : Frame Int16).getD c 0).toInt = _
    rw [hsilent]
    simp [largest]
  | succ b hle ih =>
    have hone : between x a (b + 1) = between x a b ++ [x[b]] := by
      unfold between
      rw [← List.take_append_getElem (by omega), List.drop_append_of_le_length (by rw [List.length_take]; omega)]
    have hlen : (accumulate (Rate.silentFrame n) (between x a b) : Frame Int16).length = n :=
      length_accumulate (Rate.length_silentFrame n) ((hx.take b).drop a)
    rw [hone, accumulate_append]
    show ((raise _ x[b]).getD c 0).toInt = _
    rw [getD_raise hlen (hx _ (List.getElem_mem _)) hc, ih (by omega), largest_succ x hle, List.getD_eq_getElem _ _ hb]
    omega

/-! ## The windows -/

/-- However a stream is cut into calls since it began, frame `k` that comes out holds the
    largest magnitudes of the frames from `⌊k · input / output⌋` up to but without
    `⌊(k + 1) · input / output⌋`, and it is out once those are in; what is kept are the
    largest magnitudes since the last of these borders. Between calls less than a second is
    counted, and the open window ends later; so a call in words computes what it should. -/
theorem convertAll_windows {n : Nat} {r : Rates} {s : Peaks Int16} (h : Anew Int16 n (make n) Peaks.rates r s)
    {calls : List (List (Frame Int16))} (hc : ∀ fs ∈ calls, Uniform n fs) :
    let x := calls.flatten
    let y := (convertAll s calls).1.flatten
    let t := (convertAll s calls).2
    (∀ k, k < y.length ↔ (k + 1) * r.input / r.output ≤ x.length) ∧
      (Uniform n y ∧ ∀ k < y.length, ∀ c < n,
        ((y.getD k []).getD c 0).toInt = largest x (k * r.input / r.output) ((k + 1) * r.input / r.output) c) ∧
      (t.peak.length = n ∧ ∀ c < n,
        (t.peak.getD c 0).toInt = largest x (y.length * r.input / r.output) x.length c) ∧
      (t.rates = r ∧ t.consumed < r.input ∧ t.consumed < (t.produced + 1) * r.input / r.output) ∧
      (n ≤ maxChannels → r.input ≤ maxRate → ∀ fs : List (Frame Int16), Uniform n fs → fs.length < 2 ^ 32 →
        Call n t fs (convert t fs).frames (convert t fs).next) := by
  intro x y t
  obtain ⟨hle, rfl⟩ := eq_create_of_anew h
  obtain ⟨hframes, hfed⟩ := (defined n hle).convertAll (fed_create hle) hc
  have hx : Uniform n x := uniform_flatten hc
  have hy : y = (List.range (count r x.length)).map (window n r x) := hframes
  have hlen : y.length = count r x.length := by rw [hy, List.length_map, List.length_range]
  have ht : Fed n r x t := hfed
  have hbegun := (border_count r x.length).1
  refine ⟨?_, ⟨?_, ?_⟩, ⟨ht.tracks.length_peak, ?_⟩, ?_, ?_⟩
  · intro k
    rw [hlen]
    exact lt_count_iff
  · rw [hy]
    exact Uniform.map _ fun k => length_accumulate (Rate.length_silentFrame n) ((hx.take _).drop _)
  · intro k hk c hc
    rw [hlen] at hk
    have hframe : y.getD k [] = window n r x k := by
      rw [hy]
      simp [List.getD_eq_getElem?_getD, hk]
    rw [hframe]
    exact getD_accumulate hx (border_mono r (Nat.le_succ k)) (lt_count_iff.mp hk) hc
  · intro c hc
    have hrest : opened n r x = accumulate (Rate.silentFrame n) (between x (border r y.length) x.length) := by
      rw [opened, between, List.take_length, hlen]
    rw [ht.peak, hrest]
    exact getD_accumulate hx (by rw [hlen]; exact hbegun) (Nat.le_refl _) hc
  · have hlater := consumed_lt_border ht.tracks
    have hless := ht.tracks.consumed_lt
    rw [ht.rates] at hlater hless
    exact ⟨ht.rates, hless, hlater⟩
  · intro hn hi fs _ hf
    rw [← ht.rates] at hi
    exact call_convert hn hi ht.tracks hf

/-- Given other rates, and reset after a frame: two windows of two and of three frames, the second
    over two calls, and one that is open. -/
theorem convertAll_windows_reset :
    let r : Rates := ⟨5, 2, by decide, by decide⟩
    let calls : List (List (Frame Int16)) := [[[1], [-7], [3]], [], [[-32768], [2], [-4]]]
    ∃ s, Anew Int16 1 (make 1) Peaks.rates r s ∧ (∀ fs ∈ calls, Uniform 1 fs) ∧
      (convertAll s calls).1.flatten.length = 2 ∧
      (((convertAll s calls).1.flatten.getD 1 []).getD 0 0).toInt = 32767 ∧
      (((convertAll s calls).2.peak).getD 0 0).toInt = 4 ∧ (convertAll s calls).2.consumed < 5 ∧
      ∃ ys t, Call 1 (convertAll s calls).2 [[(9 : Int16)]] ys t := by
  intro r calls
  obtain ⟨s, hanew⟩ : ∃ s, Anew Int16 1 (make 1) Peaks.rates r s := by
    have hmade : Reached Int16 1 (make 1) (create 1 ⟨48000, 8000, by decide, by decide⟩ : Peaks Int16) :=
      .made (r := ⟨48000, 8000, by decide, by decide⟩) rfl
    have hretuned : Reached Int16 1 (make 1) (create 1 r : Peaks Int16) := .retune (r := r) hmade rfl
    have hran := Reached.convert hretuned (show Uniform 1 [[(9 : Int16)]] from Uniform.cons rfl Uniform.nil)
    exact ⟨_, .begun (.reset hran rfl)⟩
  have hc : ∀ fs ∈ calls, Uniform 1 fs := by
    intro fs hfs f hf
    simp only [calls, List.mem_cons, List.not_mem_nil, or_false] at hfs
    rcases hfs with rfl | rfl | rfl <;> simp at hf <;> rcases hf with rfl | rfl | rfl <;> rfl
  obtain ⟨hcount, ⟨_, hlargest⟩, ⟨_, hopen⟩, ⟨_, hless, _⟩, hwords⟩ := convertAll_windows hanew hc
  have hlen : (convertAll s calls).1.flatten.length = 2 := by
    apply Nat.le_antisymm
    · exact Nat.le_of_not_lt fun h => absurd ((hcount 2).mp h) (by decide)
    · exact (hcount 1).mpr (by decide)
  have hcall := hwords (by decide) (by decide) [[9]] (Uniform.cons rfl Uniform.nil) (by decide)
  refine ⟨_, hanew, hc, hlen, ?_, ?_, hless, _, _, hcall⟩
  · rw [hlargest 1 (by rw [hlen]; decide) 0 (by decide)]
    decide
  · rw [hopen 0 (by decide), hlen]
    decide

end PcmConvert.Peaks
