/-
  PcmConvert.Proofs.Resampler.SizeArithmetic — `request` and `result` for every size. Both are
  one computation (`scaled`): the bytes make frames, rounded up, what is carried over is added,
  and the frames are brought to the other rate, rounded up. A quotient that is rounded up is the
  least number whose product is no less (`isLeast_ceilDiv`), and the bytes of the frames are
  their product or, if no size can say that, the most whole frames that one can
  (`bytesOf_eq_min`). So both grow with the bytes, and rounding up twice loses nothing on the way
  there and back (`le_scaled_scaled`).

  A size is below 2⁶⁴, fewer than a chunk of frames are carried over (`carried_lt`), a rate is
  below 2²⁰ and a frame at most 2⁷ bytes. No product on the way exceeds 2⁹², and 128 bits hold
  all of them (`wideBytes?_eq_some`).
-/

import Mathlib.Order.Bounds.Basic
import Mathlib.Order.Monotone.Basic
import PcmConvert.Proofs.Resampler.Books
import PcmConvert.Proofs.Resampler.Requests

namespace PcmConvert

namespace Number

variable {a b : Nat}

theorem isLeast_ceilDiv (a : Nat) (hb : 0 < b) : IsLeast {k | a ≤ k * b} (ceilDiv a b) :=
  ⟨le_ceilDiv_mul a hb, fun _ hk => (ceilDiv_le_iff hb).mpr hk⟩

theorem ceilDiv_le_self (a : Nat) (hb : 0 < b) : ceilDiv a b ≤ a :=
  (ceilDiv_le_iff hb).mpr (Nat.le_mul_of_pos_right a hb)

/-- Without the sum that might be too large. -/
theorem ceilDiv_eq_div_add (a : Nat) (hb : 0 < b) : ceilDiv a b = a / b + if a % b = 0 then 0 else 1 := by
  have hdiv := Nat.div_add_mod' a b
  have hmod := Nat.mod_lt a hb
  split
  · rw [Nat.add_zero]
    exact ceilDiv_eq (by omega) (by omega)
  · apply ceilDiv_eq
    · rw [Nat.add_mul]
      omega
    · rw [Nat.add_mul]
      omega

/-! ## Numbers of 128 bits -/

/-- The number, if it is one of 128 bits. -/
def wide? (n : Nat) : Option Nat := if n < 2 ^ 128 then some n else none

theorem wide?_eq_some (h : a < 2 ^ 128) : wide? a = some a := if_pos h

/-- The quotient rounded up, as it is computed: one more than the quotient if something is left. -/
def wideCeilDiv? (a b : Nat) : Option Nat :=
  if b = 0 then none else wide? (a / b + if a % b = 0 then 0 else 1)

theorem wideCeilDiv?_eq_some (hb : 0 < b) (ha : a < 2 ^ 128) : wideCeilDiv? a b = some (ceilDiv a b) := by
  rw [wideCeilDiv?, if_neg (Nat.ne_of_gt hb), ← ceilDiv_eq_div_add a hb]
  exact wide?_eq_some (Nat.lt_of_le_of_lt (ceilDiv_le_self a hb) ha)

end Number

namespace Resampler

open Number

variable {b : Build} {c : Config} {s : Resampler}

/-! ## Frames -/

/-- The frames at the rate `q` that last as long as the frames of `bytes` and `more` at the rate `p`. -/
def scaled (size more q p bytes : Nat) : Nat := ceilDiv ((ceilDiv bytes size + more) * q) p

section

variable {size more q p : Nat}

theorem scaled_mono : Monotone (scaled size more q p) := fun _ _ h =>
  ceilDiv_mono p (Nat.mul_le_mul_right q (Nat.add_le_add_right (ceilDiv_mono size h) more))

/-- What is scaled there and back is no less than it was, whatever is added on either way. -/
theorem le_scaled_scaled {size' more' : Nat} (bytes : Nat) (hsize : 0 < size) (hsize' : 0 < size') (hq : 0 < q)
    (hp : 0 < p) : bytes ≤ scaled size' more' p q (scaled size more q p bytes * size') * size := by
  have hthere : (ceilDiv bytes size + more) * q ≤ scaled size more q p bytes * p := le_ceilDiv_mul _ hp
  have hback : (ceilDiv (scaled size more q p bytes * size') size' + more') * p ≤
      scaled size' more' p q (scaled size more q p bytes * size') * q := le_ceilDiv_mul _ hq
  rw [ceilDiv_mul_right _ hsize'] at hback
  have hframes : ceilDiv bytes size ≤ scaled size' more' p q (scaled size more q p bytes * size') := by
    refine Nat.le_of_mul_le_mul_right ?_ hq
    calc ceilDiv bytes size * q ≤ (ceilDiv bytes size + more) * q := Nat.mul_le_mul_right q (Nat.le_add_right ..)
      _ ≤ scaled size more q p bytes * p := hthere
      _ ≤ (scaled size more q p bytes + more') * p := Nat.mul_le_mul_right p (Nat.le_add_right ..)
      _ ≤ scaled size' more' p q (scaled size more q p bytes * size') * q := hback
  exact Nat.le_trans (le_ceilDiv_mul bytes hsize) (Nat.mul_le_mul_right size hframes)

/-! ## Bytes -/

/-- The most bytes in whole frames that a size can say. -/
def mostBytes (size : Nat) : Nat := sizeLimit - 1 - (sizeLimit - 1) % size

theorem isGreatest_mostBytes (size : Nat) : IsGreatest {n | size ∣ n ∧ n < sizeLimit} (mostBytes size) := by
  have hlimit : 0 < sizeLimit := by decide
  refine ⟨⟨Nat.dvd_sub_mod _, ?_⟩, ?_⟩
  · unfold mostBytes
    omega
  · rintro n ⟨hdvd, hlt⟩
    calc n = n / size * size := (Nat.div_mul_cancel hdvd).symm
      _ ≤ (sizeLimit - 1) / size * size := Nat.mul_le_mul_right size (Nat.div_le_div_right (Nat.le_sub_one_of_lt hlt))
      _ = mostBytes size := Nat.div_mul_self_eq_mod_sub_self

/-- The bytes of the frames, or the most that a size can say. -/
theorem bytesOf_eq_min (frames size : Nat) : bytesOf frames size = min (frames * size) (mostBytes size) := by
  obtain ⟨⟨_, hlt⟩, hmost⟩ := isGreatest_mostBytes size
  unfold bytesOf
  split
  · next h => exact (Nat.min_eq_left (hmost ⟨Nat.dvd_mul_left .., h⟩)).symm
  · next h => exact (Nat.min_eq_right (Nat.le_of_lt (Nat.lt_of_lt_of_le hlt (Nat.not_lt.mp h)))).symm

theorem bytesOf_mono {frames frames' : Nat} (size : Nat) (h : frames ≤ frames') :
    bytesOf frames size ≤ bytesOf frames' size := by
  rw [bytesOf_eq_min, bytesOf_eq_min]
  exact min_le_min_right _ (Nat.mul_le_mul_right size h)

theorem dvd_bytesOf (frames size : Nat) : size ∣ bytesOf frames size := by
  unfold bytesOf
  split
  · exact Nat.dvd_mul_left ..
  · exact Nat.dvd_sub_mod _

theorem bytesOf_of_lt {frames size : Nat} (h : frames * size < sizeLimit) : bytesOf frames size = frames * size :=
  if_pos h

/-! ## On the way -/

/-- The bytes of the scaled frames as they are computed, where each sum, product and quotient must be
    a number of 128 bits. Nothing is added for `request`. -/
def wideBytes? (size more q p size' bytes : Nat) : Option Nat := do
  let whole ← wideCeilDiv? bytes size
  let frames ← wide? (whole + more)
  let product ← wide? (frames * q)
  let scaled ← wideCeilDiv? product p
  let total ← wide? (scaled * size')
  return if total < sizeLimit then total else mostBytes size'

/-- Nothing overflows for a size, as rates and frames are bounded. -/
theorem wideBytes?_eq_some {size' bytes : Nat} (hbytes : bytes < sizeLimit) (hmore : more < sizeLimit)
    (hsize : 0 < size) (hsize' : size' ≤ 128) (hq : q ≤ maxRate) (hp : 0 < p) :
    wideBytes? size more q p size' bytes = some (bytesOf (scaled size more q p bytes) size') := by
  have hlimit : sizeLimit = 2 ^ 64 := rfl
  have hwhole : ceilDiv bytes size < 2 ^ 64 := Nat.lt_of_le_of_lt (ceilDiv_le_self bytes hsize) hbytes
  have hproduct : (ceilDiv bytes size + more) * q ≤ 2 ^ 65 * 2 ^ 20 :=
    Nat.mul_le_mul (by omega) (Nat.le_trans hq (by decide))
  have hscaled : scaled size more q p bytes ≤ 2 ^ 85 := Nat.le_trans (ceilDiv_le_self _ hp) hproduct
  have htotal : scaled size more q p bytes * size' ≤ 2 ^ 85 * 2 ^ 7 := Nat.mul_le_mul hscaled hsize'
  unfold wideBytes?
  simp only [Option.bind_eq_bind, Option.pure_def]
  rw [wideCeilDiv?_eq_some hsize (by omega), Option.bind_some, wide?_eq_some (by omega), Option.bind_some,
    wide?_eq_some (by omega), Option.bind_some, wideCeilDiv?_eq_some hp (by omega), Option.bind_some]
  change (wide? (scaled size more q p bytes * size')).bind _ = _
  rw [wide?_eq_some (by omega), Option.bind_some]
  rfl

end

/-! ## Any state -/

/-- What is carried over is behind the last whole chunk of all that was passed to runs. -/
theorem carried_of_booked {l : Books} (h : Booked b c s l) (hm : s.method = .sinc ∨ s.method = .fft) :
    s.engine.carried = l.passed.length / c.input.frameSize % Chunked.chunk := by
  have hs := sound_of_reachable h.reachable
  obtain ⟨p, x, he, hp⟩ := balanced_of_booked h hm
  have hengine := hs.engine
  rw [he] at hengine ⊢
  cases hengine with
  | f32 _ hf _ =>
    calc p.carried = p.leftover.length := hf.length_leftover.symm
      _ = l.passed.length / c.input.frameSize % Chunked.chunk := by
        rw [hp.leftover, Chunked.length_tail, Config.length_feed hs.shaped]

theorem carried_lt (h : Reachable b c s) : s.engine.carried < Chunked.chunk := by
  by_cases hm : s.method = .sinc ∨ s.method = .fft
  · obtain ⟨l, hl⟩ := exists_booked h
    rw [carried_of_booked hl hm]
    exact Nat.mod_lt _ (by decide)
  · rw [((kept_of_reachable h).cuttable (not_or.mp hm)).carried]
    decide

theorem outputFrame_le (h : Reachable b c s) : s.config.output.frameSize ≤ 128 := by
  obtain ⟨_, _, hv⟩ := exists_of_bind_eq_ok (validate_of_reachable h)
  obtain ⟨_, ho, _⟩ := exists_of_bind_eq_ok hv
  have hout : s.config.output.frameSize = c.output.frameSize := by
    rw [(sound_of_reachable h).config]
    rfl
  exact hout ▸ StreamSpec.frameSize_le_of_validate ho

/-- The frames in that `request` answers with. -/
def requestFrames (s : Resampler) : Nat → Nat :=
  scaled s.config.output.frameSize 0 s.rates.input s.rates.output

/-- The frames out that `result` answers with. -/
def resultFrames (s : Resampler) : Nat → Nat :=
  scaled s.config.input.frameSize s.engine.carried s.rates.output s.rates.input

theorem request_eq_bytesOf (s : Resampler) (bytes : Nat) :
    s.request bytes = bytesOf (s.requestFrames bytes) s.config.input.frameSize := rfl

theorem result_eq_bytesOf (s : Resampler) (bytes : Nat) :
    s.result bytes = bytesOf (s.resultFrames bytes) s.config.output.frameSize := rfl

theorem isLeast_requestFrames (s : Resampler) (bytes : Nat) :
    IsLeast {f | ceilDiv bytes s.config.output.frameSize * s.rates.input ≤ f * s.rates.output}
      (s.requestFrames bytes) :=
  isLeast_ceilDiv _ s.rates.output_pos

theorem isLeast_resultFrames (s : Resampler) (bytes : Nat) :
    IsLeast {f | (ceilDiv bytes s.config.input.frameSize + s.engine.carried) * s.rates.output ≤ f * s.rates.input}
      (s.resultFrames bytes) :=
  isLeast_ceilDiv _ s.rates.input_pos

theorem monotone_request (s : Resampler) : Monotone s.request := by
  intro x y hle
  rw [request_eq_bytesOf, request_eq_bytesOf]
  exact bytesOf_mono _ (scaled_mono hle)

theorem monotone_result (s : Resampler) : Monotone s.result := by
  intro x y hle
  rw [result_eq_bytesOf, result_eq_bytesOf]
  exact bytesOf_mono _ (scaled_mono hle)

/-- `request` with numbers of 128 bits. -/
def wideRequest? (s : Resampler) : Nat → Option Nat :=
  wideBytes? s.config.output.frameSize 0 s.rates.input s.rates.output s.config.input.frameSize

/-- `result` with numbers of 128 bits. -/
def wideResult? (s : Resampler) : Nat → Option Nat :=
  wideBytes? s.config.input.frameSize s.engine.carried s.rates.output s.rates.input s.config.output.frameSize

/-- In every state and for every size `request` and `result` are the bytes of the fewest frames that last as
    long, what is carried over included for `result`, or the most whole frames that a size can say. No
    number on the way needs more than 128 bits. Both are whole frames and never fall as the size grows. Asked
    with the answer of the other, each answers no less than the other was asked with, as long as a size can
    say the bytes of both. -/
theorem sizes_spec (h : Reachable b c s) :
    let i := s.config.input.frameSize
    let o := s.config.output.frameSize
    (∀ bytes, IsLeast {k | bytes ≤ k * i} (ceilDiv bytes i) ∧ IsLeast {k | bytes ≤ k * o} (ceilDiv bytes o)) ∧
    (IsGreatest {n | i ∣ n ∧ n < sizeLimit} (mostBytes i) ∧ IsGreatest {n | o ∣ n ∧ n < sizeLimit} (mostBytes o)) ∧
    (∀ bytes, IsLeast {f | ceilDiv bytes o * s.rates.input ≤ f * s.rates.output} (s.requestFrames bytes) ∧
      s.request bytes = min (s.requestFrames bytes * i) (mostBytes i)) ∧
    (∀ bytes, IsLeast {f | (ceilDiv bytes i + s.engine.carried) * s.rates.output ≤ f * s.rates.input}
        (s.resultFrames bytes) ∧
      s.result bytes = min (s.resultFrames bytes * o) (mostBytes o)) ∧
    (∀ bytes, bytes < sizeLimit →
      s.wideRequest? bytes = some (s.request bytes) ∧ s.wideResult? bytes = some (s.result bytes)) ∧
    (Monotone s.request ∧ Monotone s.result) ∧
    (∀ bytes, i ∣ s.request bytes ∧ o ∣ s.result bytes) ∧
    (∀ bytes, s.requestFrames bytes * i < sizeLimit → s.resultFrames (s.request bytes) * o < sizeLimit →
      bytes ≤ s.result (s.request bytes)) ∧
    ∀ bytes, s.resultFrames bytes * o < sizeLimit → s.requestFrames (s.result bytes) * i < sizeLimit →
      bytes ≤ s.request (s.result bytes) := by
  obtain ⟨⟨hin, hin_le⟩, hout⟩ := frameSize_of_reachable h
  have hkept := kept_of_reachable h
  refine ⟨fun bytes => ⟨isLeast_ceilDiv bytes hin, isLeast_ceilDiv bytes hout⟩,
    ⟨isGreatest_mostBytes _, isGreatest_mostBytes _⟩,
    fun bytes => ⟨s.isLeast_requestFrames bytes, bytesOf_eq_min _ _⟩,
    fun bytes => ⟨s.isLeast_resultFrames bytes, bytesOf_eq_min _ _⟩, ?_,
    ⟨s.monotone_request, s.monotone_result⟩, fun bytes => ⟨dvd_bytesOf _ _, dvd_bytesOf _ _⟩, ?_, ?_⟩
  · intro bytes hbytes
    have hcarried : s.engine.carried < sizeLimit := Nat.lt_trans (carried_lt h) (by decide)
    exact ⟨wideBytes?_eq_some hbytes (by decide) hout hin_le hkept.input_le s.rates.output_pos,
      wideBytes?_eq_some hbytes hcarried hin (outputFrame_le h) hkept.output_le s.rates.input_pos⟩
  · intro bytes hthere hback
    rw [result_eq_bytesOf, bytesOf_of_lt hback, request_eq_bytesOf, bytesOf_of_lt hthere]
    exact le_scaled_scaled bytes hout hin s.rates.input_pos s.rates.output_pos
  · intro bytes hthere hback
    rw [request_eq_bytesOf, bytesOf_of_lt hback, result_eq_bytesOf, bytesOf_of_lt hthere]
    exact le_scaled_scaled bytes hin hout s.rates.output_pos s.rates.input_pos

/-- With a frame carried over; and for the largest size, for which more bytes are needed than a size can say. -/
theorem sizes_spec_monoDown :
    ∃ s, Reachable ⟨true⟩ (monoDown .fft) s ∧ s.engine.carried = 1 ∧
      (s.request 10 = 12 ∧ 10 ≤ s.result 12) ∧ (s.result 10 = 12 ∧ 10 ≤ s.request 12) ∧
      sizeLimit ≤ s.requestFrames (sizeLimit - 1) * 2 ∧ s.wideRequest? (sizeLimit - 1) = some (sizeLimit - 2) ∧
      s.result 10 ≤ s.result (sizeLimit - 1) ∧ 2 ∣ s.result (sizeLimit - 1) := by
  obtain ⟨s, l, hl, hm, hpassed, hconfig, hrates⟩ : ∃ s l, Booked ⟨true⟩ (monoDown .fft) s l ∧
      s.method = .fft ∧ l.passed.length = 2 ∧ s.config = monoDown .fft ∧
        s.rates = ⟨48000, 44100, by decide, by decide⟩ := by
    obtain ⟨s, hs⟩ : ∃ s, (create ⟨true⟩ (monoDown .fft)).value = .ok s := ⟨_, rfl⟩
    refine ⟨_, _, .call (.run true [1, 0]) (.create hs) ?_, ?_⟩
    · cases hs
      intro h hh
      cases hh
    · cases hs
      exact ⟨rfl, rfl, rfl, rfl⟩
  have hcarried : s.engine.carried = 1 := by
    rw [carried_of_booked hl (.inr hm), hpassed]
    rfl
  have hin : s.config.input.frameSize = 2 := by
    rw [hconfig]
    rfl
  have hout : s.config.output.frameSize = 2 := by
    rw [hconfig]
    rfl
  have hrequestFrames : s.requestFrames = scaled 2 0 48000 44100 := by rw [requestFrames, hout, hrates]
  have hresultFrames : s.resultFrames = scaled 2 1 44100 48000 := by rw [resultFrames, hin, hcarried, hrates]
  have hrequest : s.request 10 = 12 ∧ s.request (sizeLimit - 1) = sizeLimit - 2 := by
    rw [request_eq_bytesOf, request_eq_bytesOf, hin, hrequestFrames]
    decide
  have hresult : s.result 10 = 12 := by
    rw [result_eq_bytesOf, hout, hresultFrames]
    decide
  obtain ⟨-, -, -, -, hwide, ⟨-, hmono⟩, hwhole, hthere, hback⟩ := sizes_spec hl.reachable
  simp only [hin, hout, hrequestFrames, hresultFrames] at hwhole hthere hback
  refine ⟨s, hl.reachable, hcarried, ⟨hrequest.1, ?_⟩, ⟨hresult, ?_⟩, ?_, ?_, hmono (by decide), (hwhole _).2⟩
  · have hmet := hthere 10
    rw [hrequest.1] at hmet
    exact hmet (by decide) (by decide)
  · have hmet := hback 10
    rw [hresult] at hmet
    exact hmet (by decide) (by decide)
  · rw [hrequestFrames]
    decide
  · rw [(hwide _ (by decide)).1, hrequest.2]

end Resampler

end PcmConvert
