/-
  PcmConvert.Proofs.Rate.Unity — a constant stays what it is. The weights of an output frame
  sum to 2¹⁵ exactly: in every phase of every filter of the table (`Filter.unity_of_mem`), and
  in every kernel, for what rounding leaves over goes to one of its weights
  (`Kernel.weightSum_quantize`). So frames that hold one value on a channel weigh to just that
  value, the least and the greatest sample included: there is nothing to cut off and nothing
  to clamp (`getElem?_weigh`).

  A cascade comes to hold such frames on its own. A filter holds only the last of the frames it
  was fed (`Stage.Full.run_line`), gives no other value from then on, and feeds the filter
  after it for as long as that needs (`Stage.level_runAll`).
-/

import PcmConvert.Proofs.Rate.Polyphase.Interleaved
import PcmConvert.Proofs.Rate.Sinc.Windows

namespace PcmConvert

open Number

namespace Rate

/-! ## Frames that hold one value -/

/-- Each of the frames holds `v` on channel `c`. -/
def Level (c : Nat) (v : Int16) (fs : List (Frame Int16)) : Prop := ∀ f ∈ fs, f[c]? = some v

namespace Level

variable {c : Nat} {v : Int16} {fs gs : List (Frame Int16)}

theorem nil : Level c v [] := fun _ h => absurd h List.not_mem_nil

theorem cons {f : Frame Int16} (hf : f[c]? = some v) (h : Level c v fs) : Level c v (f :: fs) :=
  List.forall_mem_cons.mpr ⟨hf, h⟩

theorem append (hf : Level c v fs) (hg : Level c v gs) : Level c v (fs ++ gs) := List.forall_mem_append.mpr ⟨hf, hg⟩

theorem take (k : Nat) (h : Level c v fs) : Level c v (fs.take k) := fun f hf => h f (List.mem_of_mem_take hf)

theorem reverse (h : Level c v fs) : Level c v fs.reverse := fun f hf => h f (List.mem_reverse.mp hf)

theorem replicate (k : Nat) {f : Frame Int16} (h : f[c]? = some v) : Level c v (List.replicate k f) := by
  intro g hg
  rw [List.eq_of_mem_replicate hg, h]

end Level

/-- The sum of weights. -/
def weightSum (ws : List Int) : Int := ws.foldl (· + ·) 0

theorem weightSum_cons (w : Int) (ws : List Int) : weightSum (w :: ws) = w + weightSum ws := by
  rw [weightSum, List.foldl_cons, Int.add_comm, List.foldl_assoc]
  rfl

theorem weightSum_modify {ws : List Int} {i : Nat} (hi : i < ws.length) (d : Int) :
    weightSum (ws.modify i (· + d)) = weightSum ws + d := by
  induction ws generalizing i with
  | nil => exact absurd hi (Nat.not_lt_zero i)
  | cons w ws ih =>
    cases i with
    | zero =>
      rw [List.modify_zero_cons, weightSum_cons, weightSum_cons]
      omega
    | succ i =>
      rw [List.modify_succ_cons, weightSum_cons, weightSum_cons, ih (Nat.lt_of_succ_lt_succ hi)]
      omega

theorem dot_of_eq {x : Int} {xs ws : List Int} (hlen : xs.length = ws.length) (h : ∀ y ∈ xs, y = x) :
    dot xs ws = x * weightSum ws := by
  induction xs generalizing ws with
  | nil =>
    rw [List.eq_nil_of_length_eq_zero hlen.symm]
    exact (Int.mul_zero x).symm
  | cons y xs ih =>
    obtain ⟨w, ws, rfl⟩ := List.exists_cons_of_length_eq_add_one hlen.symm
    obtain ⟨rfl, hxs⟩ := List.forall_mem_cons.mp h
    rw [dot_cons, weightSum_cons, ih (Nat.succ.inj hlen) hxs, Int.mul_add]

/-- Frames that hold one value weigh to it, by weights that sum to one. -/
theorem getElem?_weigh {n c : Nat} (hc : c < n) {v : Int16} {ws : List Int} {window : List (Frame Int16)}
    (hlen : window.length = ws.length) (hsum : weightSum ws = 2 ^ 15) (hv : Level c v window) :
    (weigh n ws window)[c]? = some v := by
  have heq : ∀ y ∈ window.map (fun f => (f.getD c 0).toInt), y = v.toInt := by
    intro y hy
    obtain ⟨f, hf, rfl⟩ := List.mem_map.mp hy
    rw [List.getD_eq_getElem?_getD, hv f hf, Option.getD_some]
  have hdot : dot _ ws = _ := dot_of_eq (by rw [List.length_map, hlen]) heq
  rw [weigh, List.getElem?_map, List.getElem?_range hc, Option.map_some, hdot, hsum]
  have hexact : v.toInt * 2 ^ 15 / 32768 = v.toInt := Int.mul_ediv_cancel _ (by decide)
  rw [hexact, clamp16_toInt]

/-! ## A filter -/

theorem Filter.unity_of_mem {c : Cascade} (hc : c ∈ Cascade.all) {f : Filter} (hf : f ∈ c.filters) :
    ∀ row ∈ f.phases, weightSum row = 2 ^ 15 := by
  have hall : ∀ c ∈ Cascade.all, ∀ f ∈ c.filters, ∀ row ∈ f.phases, weightSum row = 2 ^ 15 := by decide +kernel
  exact hall c hc f hf

namespace Stage

/-- A filter of the table at work between two frames in, for `n` channels. -/
structure Full (n : Nat) (s : Stage) : Prop extends Ready s where
  channels : s.channels = n
  length_line : s.line.length = s.filter.taps
  unity : ∀ row ∈ s.filter.phases, weightSum row = 2 ^ 15

variable {n c : Nat} {v : Int16} {s : Stage} {ss : List Stage} {fs : List (Frame Int16)}

theorem full_create {d : Cascade} (hd : d ∈ Cascade.all) {f : Filter} (hf : f ∈ d.filters) : Full n (create n f) where
  tabled := Filter.tabled_of_mem hd hf
  phase_lt := f.down_pos
  channels := rfl
  length_line := List.length_replicate
  unity := Filter.unity_of_mem hd hf

theorem Full.reset (h : Full n s) : Full n s.reset where
  tabled := h.tabled
  phase_lt := s.filter.down_pos
  channels := h.channels
  length_line := List.length_replicate
  unity := h.unity

theorem push_line (s : Stage) (g : Frame Int16) : (s.push g).2.line = (g :: s.line).take s.filter.taps :=
  emit_line (s.insert g)

theorem Full.insert (h : Full n s) (g : Frame Int16) : Full n (s.insert g) where
  tabled := h.tabled
  phase_lt := h.phase_lt
  channels := h.channels
  length_line := by
    have hlen := h.length_line
    simp only [Stage.insert, List.length_take, List.length_cons]
    omega
  unity := h.unity

theorem Full.push (h : Full n s) (g : Frame Int16) : Full n (s.push g).2 where
  toReady := h.toReady.run [g]
  channels := (s.push_channels g).trans h.channels
  length_line := by
    rw [push_line, push_filter]
    exact (h.insert g).length_line
  unity := by
    rw [push_filter]
    exact h.unity

theorem Full.run (h : Full n s) (fs : List (Frame Int16)) : Full n (s.run fs).2 := by
  induction fs generalizing s with
  | nil => exact h
  | cons g fs ih => exact ih (h.push g)

theorem full_runAll (h : ∀ s ∈ ss, Full n s) (fs : List (Frame Int16)) : ∀ s ∈ (runAll ss fs).2, Full n s := by
  induction ss generalizing fs with
  | nil => exact h
  | cons s ss ih =>
    obtain ⟨hs, hss⟩ := List.forall_mem_cons.mp h
    exact List.forall_mem_cons.mpr ⟨hs.run fs, ih hss _⟩

/-- What is held are the last frames in, newest first. -/
theorem Full.run_line (h : Full n s) (fs : List (Frame Int16)) :
    (s.run fs).2.line = (fs.reverse ++ s.line).take s.filter.taps := by
  induction fs generalizing s with
  | nil =>
    rw [List.reverse_nil, List.nil_append, ← h.length_line, List.take_length]
    rfl
  | cons g fs ih =>
    have hrest := ih (h.push g)
    rw [push_line, push_filter] at hrest
    rw [List.reverse_cons, List.append_assoc, List.singleton_append]
    refine hrest.trans ?_
    rw [List.take_append, List.take_append, List.take_take, Nat.min_eq_left (Nat.sub_le _ _)]

/-! ## One value through the stages -/

/-- Each frame out is weighed by a row of the filter. -/
theorem Full.level_emit (h : Full n s) (hc : c < n) (hv : Level c v s.line) : Level c v s.emit.1 := by
  obtain ⟨hframes, hlt⟩ := emit_frames s
  intro f hf
  rw [hframes] at hf
  obtain ⟨j, hj, rfl⟩ := List.mem_map.mp hf
  have hphase := hlt j (List.mem_range.mp hj)
  have hrow : s.filter.phases.getD (s.phase + j * s.filter.down) [] ∈ s.filter.phases := by
    rw [List.getD_eq_getElem _ _ (h.tabled.length_phases.symm ▸ hphase)]
    exact List.getElem_mem _
  exact getElem?_weigh (h.channels.symm ▸ hc) (h.length_line.trans (h.tabled.length_row _ hrow).symm)
    (h.unity _ hrow) hv

theorem Full.level_push (h : Full n s) (hc : c < n) (hv : Level c v s.line) {g : Frame Int16} (hg : g[c]? = some v) :
    Level c v (s.push g).1 ∧ Level c v (s.push g).2.line := by
  have hins : Level c v (s.insert g).line := (Level.cons hg hv).take _
  refine ⟨(h.insert g).level_emit hc hins, ?_⟩
  rw [push_line]
  exact hins

theorem Full.level_run (h : Full n s) (hc : c < n) (hv : Level c v s.line) (hf : Level c v fs) :
    Level c v (s.run fs).1 ∧ Level c v (s.run fs).2.line := by
  induction fs generalizing s with
  | nil => exact ⟨Level.nil, hv⟩
  | cons g fs ih =>
    obtain ⟨hg, hfs⟩ := List.forall_mem_cons.mp hf
    obtain ⟨hout, hline⟩ := h.level_push hc hv hg
    obtain ⟨hrest, hend⟩ := ih (h.push g) hline hfs
    exact ⟨hout.append hrest, hend⟩

/-- Stages that hold one value give it, and hold it on, while they are fed it. -/
theorem level_runAll_of_level (h : ∀ s ∈ ss, Full n s) (hc : c < n) (hv : ∀ s ∈ ss, Level c v s.line)
    (hf : Level c v fs) : Level c v (runAll ss fs).1 ∧ ∀ s ∈ (runAll ss fs).2, Level c v s.line := by
  induction ss generalizing fs with
  | nil => exact ⟨hf, hv⟩
  | cons s ss ih =>
    obtain ⟨hs, hss⟩ := List.forall_mem_cons.mp h
    obtain ⟨hvs, hvss⟩ := List.forall_mem_cons.mp hv
    obtain ⟨hout, hline⟩ := hs.level_run hc hvs hf
    obtain ⟨hlast, hlines⟩ := ih hss hvss hout
    exact ⟨hlast, List.forall_mem_cons.mpr ⟨hline, hlines⟩⟩

/-- After so many frames, filters one after the other hold none from before. -/
def settling : List Filter → Nat
  | [] => 0
  | f :: r => f.taps + f.down * (settling r + 1)

/-- A filter gives a frame for each `down` frames in at least, but for the first. -/
theorem Full.le_length_run (h : Full n s) {m : Nat} (hm : s.filter.down * (m + 1) ≤ fs.length) :
    m ≤ (s.run fs).1.length := by
  have hphase := h.phase_lt
  have hup := Nat.mul_le_mul_left fs.length h.tabled.up_pos
  have hround := le_ceilDiv_mul (fs.length * s.filter.up - s.phase) s.filter.down_pos
  rw [length_run, yield]
  rw [Nat.mul_comm, Nat.add_mul] at hm
  apply Nat.le_of_mul_le_mul_right _ s.filter.down_pos
  omega

/-- Whatever they were fed before, stages hold one value alone after enough frames of it. -/
theorem level_runAll (h : ∀ s ∈ ss, Full n s) (hc : c < n) (before : List (Frame Int16)) (hf : Level c v fs)
    (hlen : settling (ss.map filter) ≤ fs.length) : ∀ s ∈ (runAll ss (before ++ fs)).2, Level c v s.line := by
  induction ss generalizing before fs with
  | nil => exact fun s hs => absurd hs List.not_mem_nil
  | cons s ss ih =>
    obtain ⟨hs, hss⟩ := List.forall_mem_cons.mp h
    rw [List.map_cons, settling] at hlen
    -- the first frames fill the line of `s`; what it gives for the others is of the one value
    obtain ⟨x, y, rfl, hx⟩ : ∃ x y, fs = x ++ y ∧ x.length = s.filter.taps :=
      ⟨fs.take s.filter.taps, fs.drop s.filter.taps, (List.take_append_drop _ _).symm,
        List.length_take_of_le (by omega)⟩
    obtain ⟨hvx, hvy⟩ := List.forall_mem_append.mp hf
    have hfull : Full n (s.run (before ++ x)).2 := hs.run _
    have hfilled : Level c v (s.run (before ++ x)).2.line := by
      rw [hs.run_line, List.reverse_append, List.append_assoc, List.take_left' (by rw [List.length_reverse, hx])]
      exact Level.reverse hvx
    obtain ⟨hout, hline⟩ := hfull.level_run hc hfilled hvy
    have hmany : settling (ss.map filter) ≤ ((s.run (before ++ x)).2.run y).1.length := by
      apply hfull.le_length_run
      rw [run_filter]
      rw [List.length_append, hx] at hlen
      omega
    rw [← List.append_assoc, runAll, run_append]
    exact List.forall_mem_cons.mpr ⟨hline, ih hss _ hout hmany⟩

end Stage

/-! ## The kernel -/

namespace Kernel

theorem largest_lt {qs : List Int} (h : qs ≠ []) : largest qs < qs.length := by
  unfold largest
  apply List.foldlRecOn (motive := fun best : Nat × Nat => best.2 < qs.length)
  · exact List.length_pos_iff.mpr h
  · intro best hbest q hq
    split
    · exact List.snd_lt_of_mem_zipIdx hq
    · exact hbest

variable {ws : List Float}

/-- Whatever the weights were, rounded they sum to one. The sum is exact here, however large they are. -/
theorem weightSum_quantize (h : ws ≠ []) : weightSum (quantize ws) = 2 ^ 15 := by
  have hlargest : largest (ws.map rounded) < (ws.map rounded).length := largest_lt (mt List.map_eq_nil_iff.mp h)
  have hsum := weightSum_modify hlargest (32768 - weightSum (ws.map rounded))
  refine hsum.trans ?_
  omega

/-- And each is rounded on its own but for one. -/
theorem getElem?_quantize {j : Nat} (hj : j ≠ largest (ws.map rounded)) : (quantize ws)[j]? = ws[j]?.map rounded := by
  rw [quantize, List.getElem?_modify_ne _ _ (Ne.symm hj), List.getElem?_map]

theorem weightSum_taps (r : Rates) (fraction : Nat) : weightSum (taps r fraction) = 2 ^ 15 := by
  have hhalf := half_pos r
  apply weightSum_quantize
  apply List.ne_nil_of_length_pos
  rw [List.length_map, length_weights]
  omega

end Kernel

end Rate

open Rate

/-! ## In any state -/

theorem Polyphase.full_create {n input output : Nat} {s : Polyphase} (h : create n input output = .ok s) :
    ∀ t ∈ s.stages, Stage.Full n t := by
  obtain ⟨c, hfind, rfl⟩ := create_eq_ok h
  intro t ht
  obtain ⟨f, hf, rfl⟩ := List.mem_map.mp ht
  exact Stage.full_create (Cascade.find?_eq_some hfind).1 hf

theorem Polyphase.full_of_reached {n : Nat} {s : Polyphase}
    (h : RateConverter.Reached Int16 n (fun r => create n r.input r.output) s) : ∀ t ∈ s.stages, Stage.Full n t := by
  induction h with
  | made hm => exact full_create hm
  | convert _ _ ih => exact Stage.full_runAll ih _
  | reset _ ih =>
    intro t ht
    obtain ⟨u, hu, rfl⟩ := List.mem_map.mp ht
    exact (ih u hu).reset
  | retune hs ht _ => exact full_create (create_of_retune (fits_of_reached hs) ht)

/-- The window of a frame out is whole, and if it holds one value on a channel, so does the frame. -/
theorem SincFixed.level_convert {n c : Nat} (hc : c < n) {v : Int16} {s : SincFixed} (h : Fits n s)
    (fs : List (Frame Int16)) {k : Nat} (hk : k < (convert s fs).frames.length) :
    let w := window s.half (s.history ++ fs).toArray (s.positionAt k)
    w.length = 2 * s.half ∧ (Level c v w → ∃ f, (convert s fs).frames[k]? = some f ∧ f[c]? = some v) := by
  intro w
  obtain ⟨hframes, hcount, -⟩ := convert_eq h fs
  have hend := (hcount k).mp hk
  have hfirst : s.half ≤ s.position + 1 := h.half_le
  have hposition := s.le_positionAt k
  have hw : w = ((s.history ++ fs).drop (s.positionAt k + 1 - s.half)).take (2 * s.half) := window_toArray _ _ _
  have hlen : w.length = 2 * s.half := by
    rw [hw, List.length_take, List.length_drop]
    omega
  refine ⟨hlen, fun hv => ⟨frameAt n s.rates (s.history ++ fs) (s.time k), ?_, ?_⟩⟩
  · rw [hframes, List.getElem?_map, List.getElem?_range hk]
    rfl
  · rw [hw] at hlen hv
    exact getElem?_weigh hc (hlen.trans (Kernel.length_taps _ _).symm) (Kernel.weightSum_taps _ _) hv

namespace FixedPoint

/-- On every channel, whatever the others carry. A cascade whose filters hold nothing but `v`
    on it gives `v` for `v`, in all calls from then on; and it comes to hold nothing else after
    a number of such frames that its filters alone decide. A frame interpolated between frames
    of `v` is `v`, at any rates and any fraction: the weights sum to one whatever they were
    before they were rounded, and all but one are rounded on their own. -/
theorem level_kept {n c : Nat} (hc : c < n) (v : Int16) :
    (∀ s : Polyphase, RateConverter.Reached Int16 n (fun r => Polyphase.create n r.input r.output) s →
      (∀ t ∈ s.stages, t.line.length = t.filter.taps) ∧
        ∀ calls : List (List (Frame Int16)), Level c v calls.flatten →
          let y := (RateConverter.convertAll s calls).1
          let t := (RateConverter.convertAll s calls).2
          ((∀ u ∈ s.stages, Level c v u.line) → Level c v y.flatten ∧ ∀ u ∈ t.stages, Level c v u.line) ∧
            (Stage.settling s.cascade.filters ≤ calls.flatten.length → ∀ u ∈ t.stages, Level c v u.line)) ∧
      (∀ s : SincFixed, SincFixed.Reached n s → ∀ (fs : List (Frame Int16)) (k : Nat),
        k < (SincFixed.convert s fs).frames.length →
          let window := SincFixed.window s.half (s.history ++ fs).toArray (s.positionAt k)
          window.length = 2 * s.half ∧
            (Level c v window → ∃ f, (SincFixed.convert s fs).frames[k]? = some f ∧ f[c]? = some v)) ∧
      (∀ (r : Rates) (fraction : Nat), weightSum (Kernel.taps r fraction) = 2 ^ 15 ∧
        ∀ window : List (Frame Int16), window.length = 2 * Kernel.half r → Level c v window →
          (weigh n (Kernel.taps r fraction) window)[c]? = some v) ∧
      ∀ ws : List Float, ws ≠ [] → weightSum (Kernel.quantize ws) = 2 ^ 15 ∧
        (Kernel.quantize ws).length = ws.length ∧
        ∃ i : Nat, ∀ j : Nat, j ≠ i → (Kernel.quantize ws)[j]? = ws[j]?.map Kernel.rounded := by
  refine ⟨?_, ?_, ?_, ?_⟩
  · intro s hs
    have hfull := Polyphase.full_of_reached hs
    have hfits := Polyphase.fits_of_reached hs
    refine ⟨fun t ht => (hfull t ht).length_line, ?_⟩
    intro calls hcalls
    obtain ⟨hframes, hstages⟩ := Polyphase.convertAll_eq s calls
    simp only [hframes, hstages]
    refine ⟨fun hv => Stage.level_runAll_of_level hfull hc hv hcalls, ?_⟩
    intro hlen
    rw [← hfits.filters] at hlen
    exact Stage.level_runAll hfull hc [] hcalls hlen
  · intro s hs fs k hk
    exact SincFixed.level_convert hc (SincFixed.sound_of_reached hs).toFits fs hk
  · intro r fraction
    have hsum := Kernel.weightSum_taps r fraction
    exact ⟨hsum, fun window hlen hv => getElem?_weigh hc (hlen.trans (Kernel.length_taps r fraction).symm) hsum hv⟩
  · intro ws hws
    exact ⟨Kernel.weightSum_quantize hws, Kernel.length_quantize ws, Kernel.largest (ws.map Kernel.rounded),
      fun _ hj => Kernel.getElem?_quantize hj⟩

/-- The least sample on the second of two channels: through two filters that had run another
    frame, and between frames at other rates. -/
theorem level_kept_least :
    let d : Cascade := ⟨48000, 44100, [.up21down20, .up7down8]⟩
    let s : Polyphase := (Polyphase.convert ⟨2, d, d.filters.map (Stage.create 2)⟩ [[5, 6]]).next
    let calls : List (List (Frame Int16)) := [List.replicate 800 [7, -32768], List.replicate 44 [8, -32768]]
    let t := (RateConverter.convertAll s calls).2
    let r : Rates := ⟨8000, 48000, by decide, by decide⟩
    (1 : Nat) < 2 ∧ (∀ u ∈ t.stages, u.line.length = u.filter.taps ∧ Level 1 (-32768) u.line) ∧
      Level 1 (-32768) (RateConverter.convertAll t [[[9, -32768]], [[-9, -32768]]]).1.flatten ∧
      (weigh 2 (Kernel.taps r 12345) (List.replicate (2 * Kernel.half r) [9, -32768]))[(1 : Nat)]? = some (-32768) ∧
      weightSum (Kernel.quantize [0.1, 0.2, 0.40001, 0.2, 0.1]) = 2 ^ 15 := by
  intro d s calls t r
  have hc : (1 : Nat) < 2 := by decide
  obtain ⟨hcascade, -, hweigh, hquantize⟩ := level_kept hc (-32768)
  have hmade : RateConverter.Reached Int16 2 (fun r => Polyphase.create 2 r.input r.output) _ :=
    .made (r := ⟨48000, 44100, by decide, by decide⟩) rfl
  have hs : RateConverter.Reached Int16 2 (fun r => Polyphase.create 2 r.input r.output) s :=
    .convert hmade (Uniform.cons rfl Uniform.nil)
  have ht : RateConverter.Reached Int16 2 (fun r => Polyphase.create 2 r.input r.output) t :=
    .convert (.convert hs (Uniform.replicate 800 rfl)) (Uniform.replicate 44 rfl)
  have hcalls : Level 1 (-32768) calls.flatten :=
    (Level.replicate 800 rfl).append ((Level.replicate 44 rfl).append Level.nil)
  have hlen : calls.flatten.length = 844 := by
    simp only [calls, List.flatten_cons, List.flatten_nil, List.length_append, List.length_replicate, List.length_nil]
  obtain ⟨-, hheld⟩ := (hcascade s hs).2 calls hcalls
  have hsettled := hheld (Nat.le_of_eq hlen.symm)
  obtain ⟨hlines, hlater⟩ := hcascade t ht
  obtain ⟨hgiven, -⟩ := hlater [[[9, -32768]], [[-9, -32768]]] (Level.cons rfl (Level.cons rfl Level.nil))
  refine ⟨hc, fun u hu => ⟨hlines u hu, hsettled u hu⟩, (hgiven hsettled).1, ?_, ?_⟩
  · exact (hweigh r 12345).2 _ List.length_replicate (Level.replicate _ rfl)
  · exact (hquantize _ (List.cons_ne_nil _ _)).1

end FixedPoint

end PcmConvert
