/-
  PcmConvert.Proofs.Rate.Nearest.Direct — what the nearest neighbour converter computes. By
  its definition output frame `k` is input frame `⌊k · input / output⌋` (`picked`), and there
  are `⌈N · output / input⌉` of them after `N` frames in (`count`).

  Its counters have lost whole seconds, and with them the numbers of the frames. They are
  those of the stream less a number of seconds (`Fed`), the same for both, and that is no
  matter to the loop; so every call goes on where the last one ended (`defined`). A call
  computed in 64-bit words (`Call`) never asks for a product that is too large or takes more
  from a counter than it holds (`call_convert`).
-/

import Mathlib.Data.List.GetD
import PcmConvert.Proofs.Rate.Counters
import PcmConvert.Proofs.Rate.Nearest
import PcmConvert.Proofs.Rate.Stream

namespace PcmConvert.Nearest

open Number RateConverter

variable {S : Type} {n : Nat} {r : Rates} {s : Nearest} {x fs : List (Frame S)}

/-! ## The definition -/

/-- How many frames are out after `m` frames in. -/
def count (r : Rates) (m : Nat) : Nat := ceilDiv (m * r.output) r.input

/-- Output frame `k`. -/
def picked (r : Rates) (x : List (Frame S)) (k : Nat) : Frame S := x.getD (k * r.input / r.output) []

/-- A frame is out once the frame in that it is was fed. -/
theorem lt_count_iff {k m : Nat} : k < count r m ↔ k * r.input / r.output < m := by
  rw [count, lt_ceilDiv_iff r.input_pos, Nat.div_lt_iff_lt_mul r.output_pos]

/-! ## The loop over the stream -/

/-- With counters that have lost nothing, the loop goes through the numbers. -/
theorem emit_picked (fs : List (Frame S)) {o : Nat} (h : x.length ≤ o * r.input / r.output) :
    (emit r x.length fs.toArray o).1 =
      (List.range' o (emit r x.length fs.toArray o).1.length).map (picked r (x ++ fs)) := by
  generalize ha : fs.toArray = as
  fun_induction emit r x.length as o with
  | case1 o hlt rest ih =>
    subst ha
    have hmono : o * r.input / r.output ≤ (o + 1) * r.input / r.output :=
      Nat.div_le_div_right (Nat.mul_le_mul_right _ (Nat.le_succ o))
    have hrest := ih (Nat.le_trans h hmono)
    rw [List.length_cons, List.range'_succ, List.map_cons, ← hrest]
    rw [picked, List.getD_append_right _ _ _ _ h, List.getD_eq_getElem _ _ (by simpa [index] using hlt)]
    rfl
  | case2 o hge => rfl

/-! ## Between calls -/

/-- After the frames `x` at the rates `r`. -/
structure Fed (r : Rates) (x : List (Frame S)) (s : Nearest) : Prop where
  rates : s.rates = r
  tracks : Tracks s
  seconds : ∃ q, s.consumed + q * r.input = x.length

theorem fed_create (r : Rates) : Fed r ([] : List (Frame S)) (create r) where
  rates := rfl
  tracks := tracks_create r
  seconds := ⟨0, by simp [create]⟩

/-- The frames out have lost the same seconds. -/
theorem Fed.produced_add (h : Fed r x s) {q : Nat} (hq : s.consumed + q * r.input = x.length) :
    s.produced + q * r.output = count r x.length := by
  rw [h.tracks.2, h.rates, count, ← hq, Nat.add_mul, Nat.mul_right_comm, ceilDiv_add_mul _ _ r.input_pos]

theorem fed_convert (h : Fed r x s) (fs : List (Frame S)) : Fed r (x ++ fs) (convert s fs).next where
  rates := h.rates
  tracks := convert_tracks h.tracks fs
  seconds := by
    obtain ⟨q, hq⟩ := h.seconds
    refine ⟨q + (s.consumed + fs.length) / r.input, ?_⟩
    have hleft : (convert s fs).next.consumed = (s.consumed + fs.length) % r.input := by
      rw [← h.rates]
      rfl
    rw [hleft, List.length_append, Rates.seconds_add hq]

theorem frames_convert (h : Fed r x s) (fs : List (Frame S)) :
    (convert s fs).frames =
      (List.range' (count r x.length) (count r (x ++ fs).length - count r x.length)).map (picked r (x ++ fs)) := by
  obtain ⟨q, hq⟩ := h.seconds
  have hproduced := h.produced_add hq
  have hloop := emit_add_seconds r s.consumed fs.toArray s.produced q
  rw [hq, hproduced] at hloop
  have hframes : (convert s fs).frames = (emit r x.length fs.toArray (count r x.length)).1 := by
    rw [hloop, ← h.rates]
    rfl
  have hbehind : x.length ≤ count r x.length * r.input / r.output := by
    rw [Nat.le_div_iff_mul_le r.output_pos]
    exact le_ceilDiv_mul _ r.input_pos
  have hlen := length_emit r x.length fs.toArray (count r x.length)
  have hnext : (emit r x.length fs.toArray (count r x.length)).2 = count r (x ++ fs).length := by
    rw [emit_next_of_eq fs.toArray (show count r x.length = ceilDiv (x.length * r.output) r.input from rfl),
      List.size_toArray, List.length_append]
    rfl
  rw [hframes, emit_picked fs hbehind]
  congr 2
  omega

theorem defined (n : Nat) (r : Rates) : Defined S n (count r) (picked r) (Fed r) where
  count_zero := by simp [count]
  count_mono h := ceilDiv_mono _ (Nat.mul_le_mul_right _ h)
  stable z k _ hk := List.getD_append _ _ _ _ (lt_count_iff.mp hk)
  next _ _ h := fed_convert h _
  frames _ _ h := frames_convert h _

/-- Other rates are a new start. -/
theorem eq_create_of_anew (h : Anew S n (fun r => .ok (create r)) Nearest.rates r s) : s = create r := by
  cases h with
  | begun h =>
    cases h with
    | made h =>
      cases h
      rfl
    | reset _ h =>
      rw [← h]
      rfl
  | retune _ h =>
    cases h
    rfl

/-! ## A call in words -/

/-- The loop of a call with the frames `fs`, computed in 64-bit words: no product is larger,
    no more is taken from a number than it is, and every frame looked up is there. -/
inductive Loop (n : Nat) (r : Rates) (i : Nat) (fs : List (Frame S)) : Nat → List (Frame S) → Nat → Prop
  | stop {o : Nat} : o * r.input < 2 ^ 64 → i ≤ o * r.input / r.output → fs.length ≤ o * r.input / r.output - i →
      Loop n r i fs o [] o
  | give {o p : Nat} {y : Frame S} {ys : List (Frame S)} : o * r.input < 2 ^ 64 → i ≤ o * r.input / r.output →
      (o * r.input / r.output - i + 1) * n < 2 ^ 64 → fs[o * r.input / r.output - i]? = some y →
      Loop n r i fs (o + 1) ys p → Loop n r i fs o (y :: ys) p

/-- A call for `n` channels, room made for the frames out first and the counters' seconds
    taken off last. -/
inductive Call (n : Nat) (s : Nearest) (fs ys : List (Frame S)) : Nearest → Prop
  | mk {o i p : Nat} : fs.length * s.rates.output < 2 ^ 64 →
      fs.length * s.rates.output / s.rates.input * n + n < 2 ^ 64 → Loop n s.rates s.consumed fs s.produced ys o →
      s.consumed + fs.length < 2 ^ 64 → s.rates.Shed (s.consumed + fs.length) o i p → Call n s fs ys ⟨s.rates, i, p⟩

theorem loop_emit {i o : Nat} (fs : List (Frame S)) (hn : fs.length * n < 2 ^ 64)
    (hword : ∀ p ≤ (emit r i fs.toArray o).2, p * r.input < 2 ^ 64) (h : i ≤ o * r.input / r.output) :
    Loop n r i fs o (emit r i fs.toArray o).1 (emit r i fs.toArray o).2 := by
  generalize ha : fs.toArray = as at hword ⊢
  fun_induction emit r i as o with
  | case1 o hlt rest ih =>
    subst ha
    have hlt' : o * r.input / r.output - i < fs.length := by simpa [index] using hlt
    have hle : o ≤ (emit r i fs.toArray (o + 1)).2 := by
      have := length_emit r i fs.toArray (o + 1)
      omega
    have hmono : o * r.input / r.output ≤ (o + 1) * r.input / r.output :=
      Nat.div_le_div_right (Nat.mul_le_mul_right _ (Nat.le_succ o))
    have hrow : (o * r.input / r.output - i + 1) * n ≤ fs.length * n := Nat.mul_le_mul_right n hlt'
    refine .give (hword o hle) h (Nat.lt_of_le_of_lt hrow hn) ?_ (ih (Nat.le_trans h hmono) hword)
    exact List.getElem?_eq_getElem hlt'
  | case2 o hge =>
    subst ha
    exact .stop (hword o (Nat.le_refl o)) h (by simpa [index] using hge)

/-- The next frame out comes from no frame that is gone. -/
theorem consumed_le (h : Tracks s) : s.consumed ≤ s.produced * s.rates.input / s.rates.output := by
  rw [Nat.le_div_iff_mul_le s.rates.output_pos, h.2]
  exact le_ceilDiv_mul _ s.rates.input_pos

theorem call_convert (hn : n ≤ maxChannels) (hi : s.rates.input ≤ maxRate) (ho : s.rates.output ≤ maxRate)
    (h : Tracks s) (hf : fs.length < 2 ^ 32) : Call n s fs (convert s fs).frames (convert s fs).next := by
  have hin := h.1
  have hlimit : 2 ^ 32 * maxRate * maxChannels + maxChannels < 2 ^ 64 := by decide
  have hproduct : 2 ^ 32 * maxRate < 2 ^ 64 := by decide
  have hroom := Rates.mul_output_lt ho hf
  have hdiv := Nat.div_le_self (fs.length * s.rates.output) s.rates.input
  have hsize : fs.length * s.rates.output / s.rates.input * n ≤ 2 ^ 32 * maxRate * maxChannels :=
    Nat.mul_le_mul (by omega) hn
  have hflat : fs.length * n ≤ 2 ^ 32 * maxChannels := Nat.mul_le_mul (Nat.le_of_lt hf) hn
  have hflat' : 2 ^ 32 * maxChannels < 2 ^ 64 := by decide
  have hword : ∀ p ≤ (emit s.rates s.consumed fs.toArray s.produced).2, p * s.rates.input < 2 ^ 64 := by
    intro p hp
    rw [emit_next_of_eq fs.toArray h.2, List.size_toArray] at hp
    refine Rates.mul_input_lt hi ho hin hf (Nat.le_trans hp ?_)
    exact ceilDiv_mono _ (Nat.mul_le_mul_right _ (Nat.le_succ _))
  have hmax : maxRate + 2 ^ 32 < 2 ^ 64 := by decide
  exact .mk (by omega) (by omega) (loop_emit fs (by omega) hword (consumed_le h)) (by omega)
    (Rates.shed_seconds s.rates (seconds_le_emit h fs))

/-! ## For ever -/

/-- However a stream is cut into calls since it began, its frame `k` is input frame
    `⌊k · input / output⌋`, and there are `⌈N · output / input⌉` of them after `N` frames in.
    Between calls less than a second is counted, and no frame that is still to come is gone;
    so a call in words computes what it should. -/
theorem convertAll_picked (h : Anew S n (fun r => .ok (create r)) Nearest.rates r s)
    {calls : List (List (Frame S))} (hc : ∀ fs ∈ calls, Uniform n fs) :
    let x := calls.flatten
    let y := (convertAll s calls).1.flatten
    let t := (convertAll s calls).2
    y.length = ceilDiv (x.length * r.output) r.input ∧
      (∀ k < y.length, k * r.input / r.output < x.length ∧ y[k]? = x[k * r.input / r.output]?) ∧
      (t.rates = r ∧ t.consumed < r.input ∧ t.consumed ≤ t.produced * r.input / r.output) ∧
      (n ≤ maxChannels → r.input ≤ maxRate → r.output ≤ maxRate →
        ∀ fs : List (Frame S), Uniform n fs → fs.length < 2 ^ 32 →
          Call n t fs (convert t fs).frames (convert t fs).next) := by
  intro x y t
  obtain rfl := eq_create_of_anew h
  obtain ⟨hframes, hfed⟩ := (defined n r).convertAll (fed_create r) hc
  have hy : y = (List.range (count r x.length)).map (picked r x) := hframes
  have hlen : y.length = count r x.length := by rw [hy, List.length_map, List.length_range]
  have ht : Fed r x t := hfed
  refine ⟨hlen, ?_, ?_, ?_⟩
  · intro k hk
    rw [hlen] at hk
    have hlt := lt_count_iff.mp hk
    refine ⟨hlt, ?_⟩
    rw [hy, List.getElem?_map, List.getElem?_range hk, Option.map_some, picked, List.getD_eq_getElem _ _ hlt,
      List.getElem?_eq_getElem hlt]
  · have hbehind := consumed_le ht.tracks
    have hless := ht.tracks.1
    rw [ht.rates] at hbehind hless
    exact ⟨ht.rates, hless, hbehind⟩
  · intro hn hi ho fs _ hf
    rw [← ht.rates] at hi ho
    exact call_convert hn hi ho ht.tracks hf

/-- Upwards, after a frame at other rates: four frames for three, and another call. -/
theorem convertAll_picked_retuned :
    let r : Rates := ⟨44100, 48000, by decide, by decide⟩
    let calls : List (List (Frame Int16)) := [[[1, -1]], [], [[2, -2], [3, -3]]]
    ∃ s, Anew Int16 2 (fun r => .ok (create r)) Nearest.rates r s ∧ (∀ fs ∈ calls, Uniform 2 fs) ∧
      (convertAll s calls).1.flatten.length = 4 ∧ (convertAll s calls).1.flatten[3]? = some [(3 : Int16), -3] ∧
      (convertAll s calls).2.consumed < 44100 ∧
      ∃ ys t, Call 2 (convertAll s calls).2 [[(4 : Int16), -4]] ys t := by
  intro r calls
  have hmade : Reached Int16 2 (fun r => .ok (create r)) (create ⟨8000, 96000, by decide, by decide⟩) := .made rfl
  have hran := Reached.convert hmade (show Uniform 2 [[(9 : Int16), 9]] from Uniform.cons rfl Uniform.nil)
  have hanew : Anew Int16 2 (fun r => .ok (create r)) Nearest.rates r _ := .retune hran rfl
  have hc : ∀ fs ∈ calls, Uniform 2 fs := by
    intro fs hfs f hf
    simp only [calls, List.mem_cons, List.not_mem_nil, or_false] at hfs
    rcases hfs with rfl | rfl | rfl <;> simp at hf <;> rcases hf with rfl | rfl <;> rfl
  obtain ⟨hlen, hpick, ⟨_, hless, _⟩, hwords⟩ := convertAll_picked hanew hc
  have hfour : ceilDiv (calls.flatten.length * r.output) r.input = 4 := by decide
  have hcall := hwords (by decide) (by decide) (by decide) [[4, -4]] (Uniform.cons rfl Uniform.nil) (by decide)
  rw [hfour] at hlen
  refine ⟨_, hanew, hc, hlen, ?_, hless, _, _, hcall⟩
  rw [(hpick 3 (by rw [hlen]; decide)).2]
  decide

end PcmConvert.Nearest
