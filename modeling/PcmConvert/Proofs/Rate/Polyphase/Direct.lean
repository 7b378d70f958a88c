/-
  PcmConvert.Proofs.Rate.Polyphase.Direct — what a filter computes. By its definition it
  raises the rate `up` times, sums, and keeps every `down`-th frame: output frame `k` comes
  after input frame `⌊k · down / up⌋`, and is the sum of the frames up to there, weighted by
  the phase `k · down mod up` (`Filter.direct`).

  A filter at work has neither index. What it holds after the frames `x` is the last `taps`
  of them, silence before the first, and a phase that says how far the next frame out is
  past the last frame in (`Stage.Fed`). Each frame in keeps that (`Stage.push_fed`), so any
  number of them give what the definition says (`Stage.run_fed`, `Stage.run_gives`).
-/

import Mathlib.Algebra.BigOperators.Intervals
import Mathlib.Data.List.GetD
import PcmConvert.Proofs.Rate.Polyphase

namespace PcmConvert

open Number

namespace Rate

/-! ## The definition -/

/-- Channel `c` of frame `i`; silence before the first frame. -/
def sampleAt (x : List (Frame Int16)) (c : Nat) (i : Int) : Int :=
  if i < 0 then 0 else ((x.getD i.toNat []).getD c 0).toInt

namespace Filter

/-- The weights, phase after phase. -/
def coefficients (f : Filter) : List Int := f.phases.flatten

/-- Channel `c` of output frame `k`, by definition. -/
def direct (f : Filter) (x : List (Frame Int16)) (k c : Nat) : Int16 :=
  clamp16 ((∑ j ∈ Finset.range f.taps, sampleAt x c ((k * f.down / f.up : Nat) - j) *
    f.coefficients.getD (k * f.down % f.up * f.taps + j) 0) / 2 ^ 15)

/-- Output frame `k` of `n` channels. -/
def directFrame (f : Filter) (n : Nat) (x : List (Frame Int16)) (k : Nat) : Frame Int16 :=
  (List.range n).map (f.direct x k)

/-- `y` is what the filter makes of `x`, for `n` channels: a frame for each `k` that comes
    after a frame of `x`. -/
structure Gives (f : Filter) (n : Nat) (x y : List (Frame Int16)) : Prop where
  lt_length_iff : ∀ k, k < y.length ↔ k * f.down / f.up < x.length
  whole : Uniform n y
  sample : ∀ k < y.length, ∀ c < n, (y.getD k []).getD c 0 = f.direct x k c

/-- How many frames come out of a filter for `n` frames in. -/
def count (f : Filter) (n : Nat) : Nat := ceilDiv (n * f.up) f.down

/-- A row of `taps` weights for each of the `up` phases. -/
structure Tabled (f : Filter) : Prop where
  up_pos : 0 < f.up
  length_phases : f.phases.length = f.up
  length_row : ∀ row ∈ f.phases, row.length = f.taps

theorem tabled_of_mem {c : Cascade} (hc : c ∈ Cascade.all) {f : Filter} (hf : f ∈ c.filters) : f.Tabled := by
  have hall : ∀ c ∈ Cascade.all, ∀ f ∈ c.filters,
      0 < f.up ∧ f.phases.length = f.up ∧ ∀ row ∈ f.phases, row.length = f.taps := by decide +kernel
  obtain ⟨hup, hlen, hrow⟩ := hall c hc f hf
  exact ⟨hup, hlen, hrow⟩

end Filter

/-! ## Rows of weights -/

theorem length_flatten_rows {rows : List (List Int)} {m : Nat} (h : ∀ row ∈ rows, row.length = m) :
    rows.flatten.length = rows.length * m := by
  induction rows with
  | nil => simp
  | cons row rows ih =>
    obtain ⟨hrow, hrows⟩ := List.forall_mem_cons.mp h
    rw [List.flatten_cons, List.length_append, ih hrows, hrow, List.length_cons, Nat.add_mul]
    omega

/-- Rows of one length lie in the flat list where their number says. -/
theorem getD_flatten_rows {rows : List (List Int)} {m p j : Nat} (h : ∀ row ∈ rows, row.length = m) (hj : j < m) :
    rows.flatten.getD (p * m + j) 0 = (rows.getD p []).getD j 0 := by
  induction rows generalizing p with
  | nil => simp
  | cons row rows ih =>
    obtain ⟨hrow, hrows⟩ := List.forall_mem_cons.mp h
    rw [List.flatten_cons]
    cases p with
    | zero =>
      rw [List.getD_append _ _ _ _ (by omega)]
      simp
    | succ p =>
      rw [List.getD_append_right _ _ _ _ (by rw [hrow, Nat.add_mul]; omega)]
      have hsub : (p + 1) * m + j - row.length = p * m + j := by
        rw [hrow, Nat.add_mul]
        omega
      rw [hsub, ih hrows]
      simp

theorem dot_eq_sum {m : Nat} {xs ws : List Int} (hx : xs.length = m) (hw : ws.length = m) :
    dot xs ws = ∑ j ∈ Finset.range m, xs.getD j 0 * ws.getD j 0 := by
  induction m generalizing xs ws with
  | zero =>
    rw [List.eq_nil_of_length_eq_zero hx, List.eq_nil_of_length_eq_zero hw]
    rfl
  | succ m ih =>
    obtain ⟨x, xs, rfl⟩ := List.exists_cons_of_length_eq_add_one hx
    obtain ⟨w, ws, rfl⟩ := List.exists_cons_of_length_eq_add_one hw
    rw [dot_cons, ih (by simpa using hx) (by simpa using hw), Finset.sum_range_succ', Int.add_comm]
    simp only [List.getD_cons_succ, List.getD_cons_zero]

/-! ## What a filter holds -/

theorem sampleAt_append {x : List (Frame Int16)} (z : List (Frame Int16)) (c : Nat) {i : Int} (h : i < x.length) :
    sampleAt (x ++ z) c i = sampleAt x c i := by
  unfold sampleAt
  by_cases hi : i < 0
  · rw [if_pos hi, if_pos hi]
  · rw [if_neg hi, if_neg hi, List.getD_append _ _ _ _ (by omega)]

/-- The definition looks no further than the input frame that a frame out comes after. -/
theorem Filter.direct_append {f : Filter} {x : List (Frame Int16)} (z : List (Frame Int16)) {k : Nat} (c : Nat)
    (h : k * f.down / f.up < x.length) : f.direct (x ++ z) k c = f.direct x k c := by
  unfold Filter.direct
  congr 2
  refine Finset.sum_congr rfl fun j _ => ?_
  rw [sampleAt_append z c (by omega)]

theorem Filter.directFrame_append {f : Filter} (n : Nat) {x : List (Frame Int16)} (z : List (Frame Int16)) {k : Nat}
    (h : k < f.count x.length) (hup : 0 < f.up) : f.directFrame n (x ++ z) k = f.directFrame n x k := by
  have hk : k * f.down / f.up < x.length := by
    rw [Nat.div_lt_iff_lt_mul hup]
    exact (lt_ceilDiv_iff f.down_pos).mp h
  unfold Filter.directFrame
  exact List.map_congr_left fun c _ => Filter.direct_append z c hk

/-- The last `m` frames of `x`, newest first, with silence before the first. -/
def recent (n m : Nat) (x : List (Frame Int16)) : List (Frame Int16) :=
  (x.reverse ++ List.replicate m (silentFrame n)).take m

theorem length_recent (n m : Nat) (x : List (Frame Int16)) : (recent n m x).length = m := by
  simp [recent]

theorem recent_snoc {n m : Nat} (x : List (Frame Int16)) (g : Frame Int16) :
    recent n m (x ++ [g]) = (g :: recent n m x).take m := by
  unfold recent
  rw [List.reverse_append, List.reverse_singleton, List.singleton_append, List.cons_append]
  cases m with
  | zero => rfl
  | succ m => rw [List.take_succ_cons, List.take_succ_cons, List.take_take, Nat.min_eq_left (Nat.le_succ m)]

theorem getD_recent {n m j : Nat} {x : List (Frame Int16)} (c : Nat) (hj : j < m) :
    (((recent n m x).getD j []).getD c 0).toInt = sampleAt x c ((x.length : Int) - 1 - j) := by
  unfold recent sampleAt
  rw [List.getD_eq_getElem?_getD (l := List.take m _), List.getElem?_take_of_lt hj]
  by_cases hlt : j < x.length
  · rw [if_neg (by omega), List.getElem?_append_left (by simpa using hlt), List.getElem?_reverse hlt]
    have hi : ((x.length : Int) - 1 - j).toNat = x.length - 1 - j := by omega
    rw [hi, List.getD_eq_getElem?_getD (l := x)]
  · rw [if_pos (by omega), List.getElem?_append_right (by simpa using hlt), List.getElem?_replicate,
      if_pos (by simp; omega), Option.getD_some]
    have hsilent : (silentFrame n : Frame Int16).getD c 0 = 0 := getD_silentFrame n c
    rw [hsilent]
    rfl

/-- The weighted sum over what is held is the frame out that the definition says. -/
theorem weigh_recent {f : Filter} (hf : f.Tabled) (n : Nat) {x : List (Frame Int16)} {k p i : Nat}
    (hx : x.length = i + 1) (hk : k * f.down = p + i * f.up) (hp : p < f.up) :
    weigh n (f.phases.getD p []) (recent n f.taps x) = f.directFrame n x k := by
  have hdiv : k * f.down / f.up = i := by
    rw [hk, Nat.add_mul_div_right _ _ hf.up_pos, Nat.div_eq_of_lt hp, Nat.zero_add]
  have hmod : k * f.down % f.up = p := by
    rw [hk, Nat.add_mul_mod_self_right, Nat.mod_eq_of_lt hp]
  have hrow : (f.phases.getD p []).length = f.taps := by
    rw [List.getD_eq_getElem _ _ (hf.length_phases.symm ▸ hp)]
    exact hf.length_row _ (List.getElem_mem _)
  unfold weigh Filter.directFrame
  refine List.map_congr_left fun c _ => ?_
  unfold Filter.direct
  rw [dot_eq_sum (by rw [List.length_map, length_recent]) hrow, hdiv, hmod]
  show clamp16 (_ / 32768) = clamp16 (_ / 32768)
  congr 2
  refine Finset.sum_congr rfl fun j hj => ?_
  have hj : j < f.taps := Finset.mem_range.mp hj
  have hsample := getD_recent (n := n) (x := x) c hj
  have hlast : (x.length : Int) - 1 - j = (i : Int) - j := by omega
  rw [hlast] at hsample
  have hheld : ((recent n f.taps x).map fun frame => (frame.getD c 0).toInt).getD j 0 =
      (((recent n f.taps x).getD j []).getD c 0).toInt := by
    simp [List.getD_eq_getElem?_getD, length_recent, hj]
  rw [← hsample, Filter.coefficients, getD_flatten_rows hf.length_row hj, hheld]

namespace Stage

/-- A filter at work after the frames `x`. -/
structure Fed (f : Filter) (n : Nat) (x : List (Frame Int16)) (s : Stage) : Prop where
  filter : s.filter = f
  channels : s.channels = n
  phase : s.phase + x.length * f.up = f.count x.length * f.down
  line : s.line = recent n f.taps x

theorem fed_create (f : Filter) (n : Nat) : Fed f n [] (create n f) where
  filter := rfl
  channels := rfl
  phase := by simp [create, Filter.count]
  line := by simp [create, recent]

variable {f : Filter} {n : Nat} {x : List (Frame Int16)} {s : Stage}

theorem fed_reset (hf : s.filter = f) (hn : s.channels = n) : Fed f n [] s.reset where
  filter := hf
  channels := hn
  phase := by simp [reset, Filter.count]
  line := by simp [reset, recent, hf, hn]

/-- Between two frames in, the phase is below `down`. -/
theorem Fed.phase_lt (h : Fed f n x s) : s.phase < f.down := by
  have hlt := ceilDiv_mul_lt (x.length * f.up) f.down_pos
  have hp := h.phase
  unfold Filter.count at hp
  omega

/-- The frames out until another frame in is due, each at its own phase. -/
theorem emit_frames (s : Stage) :
    s.emit.1 = (List.range s.emit.1.length).map
        (fun j => weigh s.channels (s.filter.phases.getD (s.phase + j * s.filter.down) []) s.line) ∧
      ∀ j < s.emit.1.length, s.phase + j * s.filter.down < s.filter.up := by
  fun_induction emit s with
  | case1 s h rest ih =>
    obtain ⟨hframes, hlt⟩ := ih
    have hshift : ∀ j, s.phase + s.filter.down + j * s.filter.down = s.phase + (j + 1) * s.filter.down := by
      intro j
      rw [Nat.add_mul]
      omega
    simp only [compute, hshift] at hframes hlt
    constructor
    · refine cons_eq_map_range ?_ hframes
      rw [Nat.zero_mul, Nat.add_zero]
      rfl
    · intro j hj
      cases j with
      | zero =>
        rw [Nat.zero_mul, Nat.add_zero]
        exact h
      | succ j => exact hlt j (Nat.lt_of_succ_lt_succ hj)
  | case2 s h => exact ⟨rfl, fun j hj => absurd hj (Nat.not_lt_zero j)⟩

/-- The phase after a frame in is below `down` again. -/
theorem push_phase_lt (s : Stage) (g : Frame Int16) (h : s.phase < s.filter.down) :
    (s.push g).2.phase < s.filter.down := by
  obtain ⟨hlen, hphase⟩ := s.length_push g
  have hlt := ceilDiv_mul_lt (s.filter.up - s.phase) s.filter.down_pos
  rw [← hlen] at hlt
  by_cases hup : s.phase < s.filter.up
  · omega
  · have hzero : (s.push g).1.length = 0 := by
      rw [hlen, Nat.sub_eq_zero_of_le (Nat.le_of_not_lt hup), ceilDiv_zero_left]
    rw [hzero, Nat.zero_mul] at hphase
    omega

theorem emit_line (s : Stage) : s.emit.2.line = s.line := by
  fun_induction emit s with
  | case1 s h rest ih => exact ih
  | case2 => rfl

/-- A frame in gives the frames out that come after it. -/
theorem push_fed (hf : f.Tabled) (h : Fed f n x s) (g : Frame Int16) :
    f.count x.length + (s.push g).1.length = f.count (x.length + 1) ∧
      (s.push g).1 = (List.range (s.push g).1.length).map (fun j => f.directFrame n (x ++ [g]) (f.count x.length + j)) ∧
      Fed f n (x ++ [g]) (s.push g).2 := by
  obtain ⟨hlen, hphase⟩ := s.length_push g
  obtain ⟨hframes, hlt⟩ := emit_frames (s.insert g)
  have hbelow := push_phase_lt s g (h.filter.symm ▸ h.phase_lt)
  have hbefore := h.phase
  rw [h.filter] at hphase hbelow
  have hline : (s.insert g).line = recent n f.taps (x ++ [g]) := by
    rw [recent_snoc, ← h.line, ← h.filter]
    rfl
  have hcount : f.count x.length + (s.push g).1.length = f.count (x.length + 1) := by
    symm
    apply ceilDiv_eq
    · rw [Nat.add_mul, Nat.add_mul]
      omega
    · rw [Nat.add_mul, Nat.add_mul]
      omega
  refine ⟨hcount, ?_, ?_, ?_, ?_, ?_⟩
  · show (s.insert g).emit.1 = (List.range (s.insert g).emit.1.length).map _
    rw [hframes, List.length_map, List.length_range]
    refine List.map_congr_left fun j hj => ?_
    have hj := hlt j (List.mem_range.mp hj)
    rw [hline]
    simp only [insert, h.filter, h.channels] at hj ⊢
    refine weigh_recent hf n (i := x.length) (by simp) ?_ hj
    rw [Nat.add_mul]
    omega
  · rw [push_filter, h.filter]
  · rw [push_channels, h.channels]
  · rw [List.length_append, List.length_singleton, ← hcount, Nat.add_mul, Nat.add_mul]
    omega
  · exact (emit_line _).trans hline

/-- So do frames in, whatever came before them. -/
theorem run_fed (hf : f.Tabled) (h : Fed f n x s) (fs : List (Frame Int16)) :
    f.count x.length + (s.run fs).1.length = f.count (x ++ fs).length ∧
      (s.run fs).1 = (List.range (s.run fs).1.length).map (fun j => f.directFrame n (x ++ fs) (f.count x.length + j)) ∧
      Fed f n (x ++ fs) (s.run fs).2 := by
  induction fs generalizing x s with
  | nil =>
    rw [List.append_nil]
    exact ⟨rfl, rfl, h⟩
  | cons g fs ih =>
    obtain ⟨hcount, hframes, hfed⟩ := push_fed hf h g
    obtain ⟨hcount', hframes', hfed'⟩ := ih hfed
    rw [List.append_assoc, List.singleton_append] at hcount' hframes' hfed'
    rw [List.length_append, List.length_singleton, ← hcount] at hcount' hframes'
    refine ⟨?_, ?_, hfed'⟩
    · rw [run, List.length_append]
      omega
    · have hhead : (s.push g).1 = (List.range (s.push g).1.length).map
          (fun j => f.directFrame n (x ++ g :: fs) (f.count x.length + j)) := by
        rw [hframes, List.length_map, List.length_range]
        refine List.map_congr_left fun j hj => ?_
        have hj := List.mem_range.mp hj
        have hsplit : x ++ g :: fs = (x ++ [g]) ++ fs := by simp
        rw [hsplit, Filter.directFrame_append n fs _ hf.up_pos]
        rw [List.length_append, List.length_singleton, ← hcount]
        omega
      simp only [run, List.length_append, List.range_add, List.map_append, List.map_map]
      rw [← hhead]
      congr 1
      rw [hframes', List.length_map, List.length_range]
      refine List.map_congr_left fun j _ => ?_
      rw [Function.comp_apply, Nat.add_assoc]

/-- From the first frame on, all that comes out is decided by the frames in. -/
theorem run_anew (hf : f.Tabled) (h : Fed f n [] s) (fs : List (Frame Int16)) :
    (s.run fs).1.length = f.count fs.length ∧
      (s.run fs).1 = (List.range (s.run fs).1.length).map (f.directFrame n fs) ∧ Fed f n fs (s.run fs).2 := by
  obtain ⟨hcount, hframes, hfed⟩ := run_fed hf h fs
  have hzero : f.count ([] : List (Frame Int16)).length = 0 := by simp [Filter.count]
  rw [hzero, Nat.zero_add, List.nil_append] at hcount
  simp only [hzero, Nat.zero_add, List.nil_append] at hframes
  exact ⟨hcount, hframes, hfed⟩

/-- It is what the definition says. -/
theorem run_gives (hf : f.Tabled) (h : Fed f n [] s) (fs : List (Frame Int16)) : f.Gives n fs (s.run fs).1 := by
  obtain ⟨hcount, hframes, -⟩ := run_anew hf h fs
  constructor
  · intro k
    rw [hcount, Nat.div_lt_iff_lt_mul hf.up_pos]
    exact lt_ceilDiv_iff f.down_pos
  · exact h.channels ▸ run_uniform s fs
  · intro k hk c hc
    rw [hframes]
    simp [List.getD_eq_getElem?_getD, hk, Filter.directFrame, hc]

end Stage

end Rate

end PcmConvert
