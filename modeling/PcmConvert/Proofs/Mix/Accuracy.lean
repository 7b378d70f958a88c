/-
  PcmConvert.Proofs.Mix.Accuracy — how far a mix of 16-bit integers is from the exact sum of
  its samples by their gains, for gains that are not negative and sum to one at most.

  Three things part the two. A gain is rounded to the nearest multiple of 2⁻¹⁶, which is off
  by half of one, so that a sample of no more than 32768 is off by a quarter
  (`abs_dot_sub_le`). The sum is divided and loses what is below one. And it is clamped; but
  the exact sum is within the samples by itself (`exactMix_bounds`), and a clamp moves nothing
  away from what it lets pass (`abs_clamp16_sub_le`).

  The rounded gains of a row may sum to more than one. They sum to one and half a unit for
  each at most, so that no sum on the way exceeds 32768 times that, and 64 bits hold it for
  2³² channels (`wideDot?_eq_some`).
-/

import PcmConvert.Mix.Remapper
import PcmConvert.Proofs.Number.Binary32

namespace PcmConvert

/-! ## Rounding -/

namespace Number

/-- The nearest integer is no further than a half. -/
theorem abs_halfAway_sub_le (q : Rat) : |(halfAway q : Rat) - q| ≤ 1 / 2 := by
  unfold halfAway
  by_cases h : q < 0
  · rw [if_pos h, abs_le]
    have hle : ((1 / 2 - q).floor : Rat) ≤ 1 / 2 - q := Int.floor_le (1 / 2 - q)
    have hlt : 1 / 2 - q < (1 / 2 - q).floor + 1 := Int.lt_floor_add_one (1 / 2 - q)
    push_cast
    constructor <;> linarith
  · rw [if_neg h, abs_le]
    have hle : ((q + 1 / 2).floor : Rat) ≤ q + 1 / 2 := Int.floor_le (q + 1 / 2)
    have hlt : q + 1 / 2 < (q + 1 / 2).floor + 1 := Int.lt_floor_add_one (q + 1 / 2)
    constructor <;> linarith

/-- What is between zero and an integer is rounded to one between them. -/
theorem halfAway_bounds {q : Rat} {n : Int} (h : 0 ≤ q) (hn : q ≤ n) : 0 ≤ halfAway q ∧ halfAway q ≤ n := by
  have hoff := abs_le.mp (abs_halfAway_sub_le q)
  constructor
  · have hlow : ((-1 : Int) : Rat) < halfAway q := by
      push_cast
      linarith
    exact Int.add_one_le_iff.mpr (Int.cast_lt.mp hlow)
  · have hhigh : (halfAway q : Rat) < ((n + 1 : Int) : Rat) := by
      push_cast
      linarith
    exact Int.lt_add_one_iff.mp (Int.cast_lt.mp hhigh)

end Number

open Number (exact)

theorem abs_q16_sub_le (g : Float32) : |(q16 g : Rat) - exact g * 65536| ≤ 1 / 2 :=
  Number.abs_halfAway_sub_le _

theorem q16_bounds {g : Float32} (h : 0 ≤ exact g) (hone : exact g ≤ 1) : 0 ≤ q16 g ∧ q16 g ≤ 65536 := by
  refine Number.halfAway_bounds (by linarith) ?_
  push_cast
  linarith

/-! ## Exact sums -/

theorem total_cons (q : Rat) (qs : List Rat) : Gain.total (q :: qs) = q + Gain.total qs := by
  show qs.foldl (· + ·) (0 + q) = q + qs.foldl (· + ·) 0
  rw [Rat.add_comm 0 q]
  exact List.foldl_assoc

theorem total_nonneg {qs : List Rat} (h : ∀ q ∈ qs, 0 ≤ q) : 0 ≤ Gain.total qs := by
  induction qs with
  | nil => exact le_refl 0
  | cons q qs ih =>
    obtain ⟨hq, hrest⟩ := List.forall_mem_cons.mp h
    rw [total_cons]
    exact add_nonneg hq (ih hrest)

/-- What is not negative is no more than a sum that it is part of. -/
theorem le_total {qs : List Rat} (h : ∀ q ∈ qs, 0 ≤ q) {q : Rat} (hq : q ∈ qs) : q ≤ Gain.total qs := by
  induction qs with
  | nil => cases hq
  | cons p qs ih =>
    obtain ⟨hp, hrest⟩ := List.forall_mem_cons.mp h
    rw [total_cons]
    rcases List.mem_cons.mp hq with rfl | hq
    · exact le_add_of_nonneg_right (total_nonneg hrest)
    · exact (ih hrest hq).trans (le_add_of_nonneg_left hp)

/-! ## Frames and gains -/

theorem toInt_bounds (x : Int16) : -32768 ≤ x.toInt ∧ x.toInt ≤ 32767 :=
  ⟨x.le_toInt, Int.lt_add_one_iff.mp x.toInt_lt⟩

variable {gains : List Float32}

/-- Rounding adds half a unit to each gain at most. -/
theorem sum_q16_le (gains : List Float32) :
    ((gains.map q16).sum : Rat) ≤ 65536 * Gain.total (gains.map exact) + gains.length / 2 := by
  induction gains with
  | nil => simp [Gain.total]
  | cons g gains ih =>
    have hg := abs_le.mp (abs_q16_sub_le g)
    rw [List.map_cons, List.map_cons, List.sum_cons, List.length_cons, total_cons, Int.cast_add, Nat.cast_succ]
    linarith

/-- The samples of a frame by their gains, summed exactly. -/
def exactMix (frame : Frame Int16) (gains : List Float32) : Rat :=
  Gain.total (List.zipWith (fun x g => x.toInt * exact g) frame gains)

theorem exactMix_cons (x : Int16) (frame : Frame Int16) (g : Float32) (gains : List Float32) :
    exactMix (x :: frame) (g :: gains) = x.toInt * exact g + exactMix frame gains := total_cons _ _

/-- Gains that sum to one at most keep a frame within the samples. -/
theorem exactMix_bounds (frame : Frame Int16) (hpos : ∀ g ∈ gains, 0 ≤ exact g) :
    -32768 * Gain.total (gains.map exact) ≤ exactMix frame gains ∧
      exactMix frame gains ≤ 32767 * Gain.total (gains.map exact) := by
  have htotal : 0 ≤ Gain.total (gains.map exact) := total_nonneg (List.forall_mem_map.mpr hpos)
  induction gains generalizing frame with
  | nil => simp [exactMix, Gain.total]
  | cons g gains ih =>
    cases frame with
    | nil =>
      have hnone : exactMix [] (g :: gains) = 0 := rfl
      rw [hnone]
      constructor <;> linarith
    | cons x frame =>
      obtain ⟨hg, hrest⟩ := List.forall_mem_cons.mp hpos
      obtain ⟨hlow, hhigh⟩ := ih frame hrest (total_nonneg (List.forall_mem_map.mpr hrest))
      obtain ⟨hxlow, hxhigh⟩ := toInt_bounds x
      have hxlow : (-32768 : Rat) ≤ x.toInt := by exact_mod_cast hxlow
      have hxhigh : (x.toInt : Rat) ≤ 32767 := by exact_mod_cast hxhigh
      have htermlow := mul_le_mul_of_nonneg_right hxlow hg
      have htermhigh := mul_le_mul_of_nonneg_right hxhigh hg
      rw [exactMix_cons, List.map_cons, total_cons]
      constructor <;> linarith

/-- With rounded gains each sample is off by a quarter at most. -/
theorem abs_dot_sub_le (frame : Frame Int16) (gains : List Float32) :
    |(dot (frame.map Int16.toInt) (gains.map q16) : Rat) - 65536 * exactMix frame gains| ≤ 16384 * gains.length := by
  induction gains generalizing frame with
  | nil => simp [dot, exactMix, Gain.total]
  | cons g gains ih =>
    cases frame with
    | nil =>
      have hnone : exactMix [] (g :: gains) = 0 := rfl
      have hdot : dot (([] : Frame Int16).map Int16.toInt) ((g :: gains).map q16) = 0 := rfl
      rw [hnone, hdot, Int.cast_zero, mul_zero, sub_zero, abs_zero]
      positivity
    | cons x frame =>
      have hx : |(x.toInt : Rat)| ≤ 32768 := by
        obtain ⟨hlow, hhigh⟩ := toInt_bounds x
        rw [abs_le]
        constructor
        · exact_mod_cast hlow
        · exact_mod_cast Int.le_trans hhigh (by decide)
      have hterm : |(x.toInt : Rat) * (q16 g - exact g * 65536)| ≤ 32768 * (1 / 2) := by
        rw [abs_mul]
        exact mul_le_mul hx (abs_q16_sub_le g) (abs_nonneg _) (by norm_num)
      have hrest := ih frame
      rw [List.map_cons, List.map_cons, dot_cons, exactMix_cons, List.length_cons]
      push_cast
      calc |(x.toInt : Rat) * q16 g + dot (frame.map Int16.toInt) (gains.map q16)
              - 65536 * (x.toInt * exact g + exactMix frame gains)|
          = |(x.toInt : Rat) * (q16 g - exact g * 65536)
              + (dot (frame.map Int16.toInt) (gains.map q16) - 65536 * exactMix frame gains)| := by
            congr 1
            ring
        _ ≤ _ := abs_add_le _ _
        _ ≤ 16384 * (gains.length + 1) := by linarith

/-! ## 64 bits -/

/-- A number of 64 bits, or none. -/
def int64? (v : Int) : Option Int := if -(2 ^ 63) ≤ v ∧ v < 2 ^ 63 then some v else none

/-- The sum of products as it is accumulated, where each product and each sum must be a number
    of 64 bits. -/
def wideDot? (sum : Int) : List Int → List Int → Option Int
  | x :: xs, w :: ws => do
    let p ← int64? (x * w)
    let next ← int64? (sum + p)
    wideDot? next xs ws
  | _, _ => some sum

theorem int64?_eq_some {v : Int} (h : |v| < 2 ^ 63) : int64? v = some v := by
  obtain ⟨hlow, hhigh⟩ := abs_lt.mp h
  exact if_pos ⟨Int.le_of_lt hlow, hhigh⟩

/-- Nothing overflows if the weights, times the largest sample, and what is there sum to less
    than 2⁶³. -/
theorem wideDot?_eq_some {xs ws : List Int} (hx : ∀ x ∈ xs, |x| ≤ 32768) (hw : ∀ w ∈ ws, 0 ≤ w) {sum : Int}
    (h : |sum| + 32768 * ws.sum < 2 ^ 63) : wideDot? sum xs ws = some (sum + dot xs ws) := by
  induction xs generalizing ws sum with
  | nil => simp [wideDot?, dot]
  | cons x xs ih =>
    cases ws with
    | nil => simp [wideDot?, dot]
    | cons w ws =>
      obtain ⟨hx1, hxs⟩ := List.forall_mem_cons.mp hx
      obtain ⟨hw1, hws⟩ := List.forall_mem_cons.mp hw
      rw [List.sum_cons] at h
      have hrest : 0 ≤ ws.sum := List.sum_nonneg hws
      have hproduct : |x * w| ≤ 32768 * w := by
        rw [abs_mul, abs_of_nonneg hw1]
        exact mul_le_mul_of_nonneg_right hx1 hw1
      have hsum : |sum + x * w| ≤ |sum| + 32768 * w := (abs_add_le _ _).trans (by linarith)
      have hpos := abs_nonneg sum
      rw [wideDot?, int64?_eq_some (by linarith), Option.bind_eq_bind, Option.bind_some,
        int64?_eq_some (by linarith), Option.bind_some, ih hxs hws (by linarith), dot_cons, Int.add_assoc]

/-! ## The mix -/

/-- A clamp moves nothing away from what it lets pass. -/
theorem abs_clamp16_sub_le {v : Int} {q : Rat} (hlow : -32768 ≤ q) (hhigh : q ≤ 32767) :
    |((clamp16 v).toInt : Rat) - q| ≤ |(v : Rat) - q| := by
  rw [toInt_clamp16]
  by_cases hv : v < -32768
  · have hclamp : max (-32768) (min 32767 v) = -32768 := by omega
    have hv : (v : Rat) < -32768 := by exact_mod_cast hv
    rw [hclamp, abs_of_nonpos (by push_cast; linarith), abs_of_nonpos (by linarith)]
    push_cast
    linarith
  · by_cases hv' : 32767 < v
    · have hclamp : max (-32768) (min 32767 v) = 32767 := by omega
      have hv' : 32767 < (v : Rat) := by exact_mod_cast hv'
      rw [hclamp, abs_of_nonneg (by push_cast; linarith), abs_of_nonneg (by linarith)]
      push_cast
      linarith
    · have hclamp : max (-32768) (min 32767 v) = v := by omega
      rw [hclamp]

/-- A whole quotient is less than one below the quotient. -/
theorem ediv_bounds (v : Int) : (v : Rat) / 65536 - 1 < (v / 65536 : Int) ∧ ((v / 65536 : Int) : Rat) ≤ v / 65536 := by
  have hle : (v / 65536 * 65536 : Int) ≤ v := Int.ediv_mul_le v (by decide)
  have hlt : v < (v / 65536 + 1) * 65536 := Int.lt_ediv_add_one_mul_self v (by decide)
  have hle : ((v / 65536 : Int) : Rat) * 65536 ≤ v := by exact_mod_cast hle
  have hlt : (v : Rat) < ((v / 65536 : Int) + 1) * 65536 := by exact_mod_cast hlt
  constructor <;> linarith

/-- By gains that are not negative and sum to one at most, a frame of up to 2³² samples is
    mixed without an overflow of 64 bits; the exact sum is within the samples, and the mix is
    less than one, and a quarter for each sample, from it. -/
theorem Remapper.mix_near_exact (frame : Frame Int16) (hn : gains.length ≤ 2 ^ 32)
    (hpos : ∀ g ∈ gains, 0 ≤ exact g) (hsum : Gain.total (gains.map exact) ≤ 1) :
    (∀ w ∈ gains.map q16, 0 ≤ w ∧ w ≤ 65536) ∧
      wideDot? 0 (frame.map Int16.toInt) (gains.map q16) = some (dot (frame.map Int16.toInt) (gains.map q16)) ∧
      (-32768 ≤ exactMix frame gains ∧ exactMix frame gains ≤ 32767) ∧
      |((Sample.mix frame gains (gains.map q16)).toInt : Rat) - exactMix frame gains| < 1 + gains.length / 4 := by
  have hweights : ∀ w ∈ gains.map q16, 0 ≤ w ∧ w ≤ 65536 := by
    intro w hw
    obtain ⟨g, hg, rfl⟩ := List.mem_map.mp hw
    have hle := le_total (List.forall_mem_map.mpr hpos) (List.mem_map_of_mem hg)
    exact q16_bounds (hpos g hg) (hle.trans hsum)
  obtain ⟨hlow, hhigh⟩ := exactMix_bounds frame hpos
  have hlow : -32768 ≤ exactMix frame gains := by linarith
  have hhigh : exactMix frame gains ≤ 32767 := by linarith
  refine ⟨hweights, ?_, ⟨hlow, hhigh⟩, ?_⟩
  · have hsamples : ∀ x ∈ frame.map Int16.toInt, |x| ≤ 32768 := by
      intro x hx
      obtain ⟨y, _, rfl⟩ := List.mem_map.mp hx
      obtain ⟨hylow, hyhigh⟩ := toInt_bounds y
      exact abs_le.mpr ⟨hylow, by omega⟩
    have hrounded : (gains.map q16).sum ≤ 65536 + 2 ^ 31 := by
      have hcount : (gains.length : Rat) ≤ 2 ^ 32 := by exact_mod_cast hn
      have hunits : ((65536 + 2 ^ 31 : Int) : Rat) = 65536 + 2 ^ 32 / 2 := by norm_num
      rw [← Int.cast_le (R := Rat), hunits]
      exact (sum_q16_le gains).trans (by linarith)
    rw [wideDot?_eq_some hsamples (fun w hw => (hweights w hw).1) (by rw [abs_zero]; omega), Int.zero_add]
  · generalize hv : dot (frame.map Int16.toInt) (gains.map q16) = v
    have hoff := abs_dot_sub_le frame gains
    rw [hv] at hoff
    obtain ⟨hdown, hup⟩ := ediv_bounds v
    have hmix : (Sample.mix frame gains (gains.map q16) : Int16) = clamp16 (v / 65536) :=
      congrArg (fun v => clamp16 (v / 65536)) hv
    rw [hmix]
    refine lt_of_le_of_lt (abs_clamp16_sub_le hlow hhigh) ?_
    obtain ⟨hoff1, hoff2⟩ := abs_le.mp hoff
    rw [abs_lt]
    constructor <;> linarith

/-- The gains sum to less than one, and to one and a unit when they are rounded: the clamp is
    needed. -/
theorem Remapper.mix_near_exact_over :
    ∃ gains : List Float32, (∀ g ∈ gains, 0 ≤ exact g) ∧ Gain.total (gains.map exact) < 1 ∧
      (gains.map q16).sum = 65537 ∧
      dot [-32768, -32768, -32768, -32768] (gains.map q16) / 65536 = -32769 ∧
      -32768 ≤ exactMix [-32768, -32768, -32768, -32768] gains ∧
      |((Sample.mix [(-32768 : Int16), -32768, -32768, -32768] gains (gains.map q16)).toInt : Rat) -
        exactMix [-32768, -32768, -32768, -32768] gains| < 1 + 4 / 4 := by
  have hpos : ∀ g ∈ [(0.7 : Float32), 0.1, 0.1, 0.1], 0 ≤ exact g := by decide +kernel
  have hsum : Gain.total ([(0.7 : Float32), 0.1, 0.1, 0.1].map exact) < 1 := by decide +kernel
  obtain ⟨_, _, ⟨hlow, _⟩, hnear⟩ := mix_near_exact [-32768, -32768, -32768, -32768] (by decide) hpos hsum.le
  exact ⟨_, hpos, hsum, by decide +kernel, by decide +kernel, hlow, hnear⟩

end PcmConvert
