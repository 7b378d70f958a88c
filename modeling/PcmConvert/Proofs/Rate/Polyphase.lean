/-
  PcmConvert.Proofs.Rate.Polyphase — the cascades of filters. A filter at work turns a
  number of frames into one that its phase alone decides (`Stage.length_run`), and so does
  a cascade, filter by filter (`Stage.length_runAll`). Cutting the input changes nothing. A
  cascade is one of the table at any time (`Fits`), so a single filter keeps the quotient of
  the rates.
-/

import PcmConvert.Number.Rounding
import PcmConvert.Proofs.Rate.Contract
import PcmConvert.Rate.Polyphase

namespace PcmConvert

open Number

namespace Rate

theorem length_weigh (channels : Nat) (ws : List Int) (window : List (Frame Int16)) :
    (weigh channels ws window).length = channels := by simp [weigh]

/-! ## One filter -/

namespace Stage

theorem length_emit (s : Stage) : s.emit.1.length = ceilDiv (s.filter.up - s.phase) s.filter.down := by
  fun_induction emit s with
  | case1 s h rest ih =>
    have hsub : s.filter.up - (s.phase + s.filter.down) = s.filter.up - s.phase - 1 * s.filter.down := by omega
    have hpos : 0 < ceilDiv (s.filter.up - s.phase) s.filter.down := by
      rw [lt_ceilDiv_iff s.filter.down_pos]
      omega
    simp only [compute] at ih
    rw [hsub, ceilDiv_sub_mul _ _ s.filter.down_pos] at ih
    simp only [List.length_cons, rest, compute, ih]
    omega
  | case2 s h => rw [Nat.sub_eq_zero_of_le (by omega), ceilDiv_zero_left, List.length_nil]

@[simp] theorem emit_filter (s : Stage) : s.emit.2.filter = s.filter := by
  fun_induction emit s with
  | case1 s h rest ih => exact ih
  | case2 => rfl

@[simp] theorem emit_channels (s : Stage) : s.emit.2.channels = s.channels := by
  fun_induction emit s with
  | case1 s h rest ih => exact ih
  | case2 => rfl

/-- The phase counts the frames out, and has passed the next frame in. -/
theorem emit_phase (s : Stage) :
    s.emit.2.phase = s.phase + s.emit.1.length * s.filter.down ∧ s.filter.up ≤ s.emit.2.phase := by
  fun_induction emit s with
  | case1 s h rest ih =>
    simp only [compute] at ih
    refine ⟨?_, ih.2⟩
    simp only [List.length_cons, Nat.add_mul, Nat.one_mul, rest, compute, ih.1]
    omega
  | case2 s h => simp; omega

theorem emit_uniform (s : Stage) : Uniform s.channels s.emit.1 := by
  fun_induction emit s with
  | case1 s h rest ih => exact ih.cons (length_weigh _ _ _)
  | case2 s h => exact Uniform.nil

@[simp] theorem push_filter (s : Stage) (f : Frame Int16) : (s.push f).2.filter = s.filter := emit_filter (s.insert f)
@[simp] theorem push_channels (s : Stage) (f : Frame Int16) : (s.push f).2.channels = s.channels :=
  emit_channels (s.insert f)

theorem length_push (s : Stage) (f : Frame Int16) :
    (s.push f).1.length = ceilDiv (s.filter.up - s.phase) s.filter.down ∧
      (s.push f).2.phase + s.filter.up = s.phase + (s.push f).1.length * s.filter.down := by
  obtain ⟨h, hle⟩ := emit_phase (s.insert f)
  refine ⟨length_emit (s.insert f), ?_⟩
  simp only [push, emit_filter]
  exact (Nat.sub_add_cancel hle).trans h

theorem run_filter (s : Stage) (fs : List (Frame Int16)) : (s.run fs).2.filter = s.filter := by
  induction fs generalizing s with
  | nil => rfl
  | cons f fs ih => exact (ih _).trans (s.push_filter f)

theorem run_channels (s : Stage) (fs : List (Frame Int16)) : (s.run fs).2.channels = s.channels := by
  induction fs generalizing s with
  | nil => rfl
  | cons f fs ih => exact (ih _).trans (s.push_channels f)

theorem run_uniform (s : Stage) (fs : List (Frame Int16)) : Uniform s.channels (s.run fs).1 := by
  induction fs generalizing s with
  | nil => exact Uniform.nil
  | cons f fs ih => exact (emit_uniform (s.insert f)).append (s.push_channels f ▸ ih _)

/-- How many frames come out for `n` frames in. -/
def yield (s : Stage) (n : Nat) : Nat := ceilDiv (n * s.filter.up - s.phase) s.filter.down

theorem length_run (s : Stage) (fs : List (Frame Int16)) : (s.run fs).1.length = s.yield fs.length := by
  induction fs generalizing s with
  | nil => simp [run, yield]
  | cons f fs ih =>
    obtain ⟨hl, hp⟩ := s.length_push f
    have hle : ceilDiv (s.filter.up - s.phase) s.filter.down ≤
        ceilDiv ((fs.length + 1) * s.filter.up - s.phase) s.filter.down := by
      apply ceilDiv_mono
      rw [Nat.add_mul]
      omega
    have hrest : fs.length * s.filter.up - (s.push f).2.phase =
        (fs.length + 1) * s.filter.up - s.phase - (s.push f).1.length * s.filter.down := by
      rw [Nat.add_mul]
      omega
    simp only [run, List.length_append, ih, yield, push_filter, List.length_cons]
    rw [hrest, ceilDiv_sub_mul _ _ s.filter.down_pos, hl]
    omega

/-- A filter rounds up by less than one frame. -/
theorem yield_mul_lt (s : Stage) (k : Nat) : s.yield k * s.filter.down < k * s.filter.up + s.filter.down := by
  have hlt := ceilDiv_mul_lt (k * s.filter.up - s.phase) s.filter.down_pos
  unfold yield
  omega

/-- What two filters round up: the first by less than a frame between them, and that makes
    no more than one frame out. -/
theorem yield_yield_le {t u : Stage} (hfirst : t.filter.down = 1 ∨ u.filter.up ≤ u.filter.down) {k m : Nat}
    (hm : k * (t.filter.up * u.filter.up) ≤ m * (t.filter.down * u.filter.down)) : u.yield (t.yield k) ≤ m + 1 := by
  have ht := t.yield_mul_lt k
  have hu := u.yield_mul_lt (t.yield k)
  have hd := t.filter.down_pos
  have hbetween : t.yield k * u.filter.up * t.filter.down ≤
      k * (t.filter.up * u.filter.up) + t.filter.down * u.filter.down := by
    rcases hfirst with hone | hslow
    · have hexact : t.yield k ≤ k * t.filter.up := by
        rw [hone] at ht
        omega
      have := Nat.mul_le_mul_right u.filter.up hexact
      rw [hone, Nat.mul_one, ← Nat.mul_assoc]
      omega
    · have hround := Nat.mul_le_mul_right u.filter.up (Nat.le_of_lt ht)
      have hslow' := Nat.mul_le_mul_left t.filter.down hslow
      rw [Nat.mul_right_comm, ← Nat.mul_assoc]
      rw [Nat.add_mul] at hround
      omega
  have hscaled := Nat.mul_lt_mul_of_pos_right hu hd
  rw [Nat.add_mul, Nat.mul_assoc (u.yield _), Nat.mul_comm u.filter.down] at hscaled
  have hpos := Nat.mul_pos hd u.filter.down_pos
  apply Nat.le_of_lt_succ
  apply Nat.lt_of_mul_lt_mul_right (a := t.filter.down * u.filter.down)
  rw [Nat.succ_mul, Nat.succ_mul]
  omega

theorem run_append (s : Stage) (a b : List (Frame Int16)) :
    s.run (a ++ b) = ((s.run a).1 ++ ((s.run a).2.run b).1, ((s.run a).2.run b).2) := by
  induction a generalizing s with
  | nil => rfl
  | cons f a ih => simp only [List.cons_append, run, ih, List.append_assoc]

/-! ## What a filter does not look at -/

/-- The filter without the frame last computed: none is read before it is computed anew. -/
def seen (s : Stage) : Stage := { s with last := [] }

theorem emit_seen (s : Stage) : s.seen.emit.1 = s.emit.1 ∧ s.seen.emit.2.seen = s.emit.2.seen := by
  have hc : s.seen.compute = s.compute := rfl
  rw [emit, emit.eq_def s, hc]
  by_cases h : s.phase < s.filter.up
  · rw [if_pos h, if_pos (show s.seen.phase < s.seen.filter.up from h)]
    exact ⟨rfl, rfl⟩
  · rw [if_neg h, if_neg (show ¬ s.seen.phase < s.seen.filter.up from h)]
    exact ⟨rfl, rfl⟩

theorem push_seen (s : Stage) (f : Frame Int16) :
    (s.seen.push f).1 = (s.push f).1 ∧ (s.seen.push f).2.seen = (s.push f).2.seen := by
  obtain ⟨h1, h2⟩ := emit_seen (s.insert f)
  refine ⟨h1, ?_⟩
  have := congrArg (fun t : Stage => { t with phase := t.phase - t.filter.up }) h2
  exact this

theorem run_seen (s : Stage) (fs : List (Frame Int16)) :
    (s.seen.run fs).1 = (s.run fs).1 ∧ (s.seen.run fs).2.seen = (s.run fs).2.seen := by
  induction fs generalizing s with
  | nil => exact ⟨rfl, rfl⟩
  | cons f fs ih =>
    obtain ⟨h1, h2⟩ := push_seen s f
    obtain ⟨a1, a2⟩ := ih (s.seen.push f).2
    obtain ⟨b1, b2⟩ := ih (s.push f).2
    rw [h2] at a1 a2
    simp only [run]
    exact ⟨by rw [h1, ← a1, b1], a2.symm.trans b2⟩

theorem reset_run (s : Stage) (fs : List (Frame Int16)) : (s.run fs).2.reset.seen = s.reset.seen := by
  simp only [reset, seen, run_filter, run_channels]

/-! ## A cascade -/

/-- How many frames come out of a cascade for `n` frames in. -/
def yieldAll : List Stage → Nat → Nat
  | [], n => n
  | s :: r, n => yieldAll r (s.yield n)

theorem yieldAll_zero (ss : List Stage) : yieldAll ss 0 = 0 := by
  induction ss with
  | nil => rfl
  | cons s ss ih => rwa [yieldAll, yield, Nat.zero_mul, Nat.zero_sub, ceilDiv_zero_left]

theorem length_runAll (ss : List Stage) (fs : List (Frame Int16)) :
    (runAll ss fs).1.length = yieldAll ss fs.length := by
  induction ss generalizing fs with
  | nil => rfl
  | cons s ss ih => simp only [runAll, ih, length_run, yieldAll]

theorem runAll_append (ss : List Stage) (a b : List (Frame Int16)) :
    runAll ss (a ++ b) =
      ((runAll ss a).1 ++ (runAll (runAll ss a).2 b).1, (runAll (runAll ss a).2 b).2) := by
  induction ss generalizing a b with
  | nil => rfl
  | cons s ss ih => simp only [runAll, run_append, ih]

theorem runAll_uniform {n : Nat} {ss : List Stage} {fs : List (Frame Int16)} (hs : ∀ s ∈ ss, s.channels = n)
    (hf : Uniform n fs) : Uniform n (runAll ss fs).1 := by
  induction ss generalizing fs with
  | nil => exact hf
  | cons s ss ih =>
    exact ih (fun t ht => hs t (List.mem_cons_of_mem _ ht)) (hs s List.mem_cons_self ▸ run_uniform s fs)

/-- The filters, their order and their channels stay. -/
theorem map_runAll {α : Type} (g : Stage → α) (hg : ∀ s fs, g (run s fs).2 = g s) (ss : List Stage)
    (fs : List (Frame Int16)) : (runAll ss fs).2.map g = ss.map g := by
  induction ss generalizing fs with
  | nil => rfl
  | cons s ss ih => simp only [runAll, List.map_cons, ih, hg]

theorem runAll_seen (ss : List Stage) (fs : List (Frame Int16)) :
    (runAll (ss.map seen) fs).1 = (runAll ss fs).1 ∧ (runAll (ss.map seen) fs).2.map seen =
    (runAll ss fs).2.map seen := by
  induction ss generalizing fs with
  | nil => exact ⟨rfl, rfl⟩
  | cons s ss ih =>
    obtain ⟨h1, h2⟩ := run_seen s fs
    simp only [List.map_cons, runAll, h1, h2, ih, and_self]

end Stage

/-- A table entry with one filter: it raises and lowers the rate as the rates say. -/
theorem Cascade.rates_of_single {c : Cascade} (hc : c ∈ Cascade.all) {f : Filter} (hf : c.filters = [f]) :
    c.input * f.up = c.output * f.down ∧ 0 < c.input := by
  have hall : ∀ c ∈ Cascade.all,
      0 < c.input ∧ (c.filters.length = 1 → ∀ f ∈ c.filters, c.input * f.up = c.output * f.down) := by decide
  obtain ⟨hi, hr⟩ := hall c hc
  rw [hf] at hr
  exact ⟨hr rfl f (List.mem_singleton_self f), hi⟩

theorem Cascade.one_or_two {c : Cascade} (hc : c ∈ Cascade.all) :
    (∃ f, c.filters = [f]) ∨ ∃ f g, c.filters = [f, g] := by
  have hall : ∀ c ∈ all, c.filters.length = 1 ∨ c.filters.length = 2 := by decide
  have hlen := hall c hc
  rcases hf : c.filters with _ | ⟨f, _ | ⟨g, _ | ⟨x, r⟩⟩⟩
  · simp [hf] at hlen
  · exact .inl ⟨f, rfl⟩
  · exact .inr ⟨f, g, rfl⟩
  · simp [hf] at hlen

/-- A table entry with two filters: both together raise and lower the rate as the rates say;
    and the first makes whole frames of each frame, or the second does not raise the rate. -/
theorem Cascade.rates_of_pair {c : Cascade} (hc : c ∈ Cascade.all) {f g : Filter} (hf : c.filters = [f, g]) :
    c.input * (f.up * g.up) = c.output * (f.down * g.down) ∧ 0 < c.input ∧ (f.down = 1 ∨ g.up ≤ g.down) := by
  have hall : ∀ c ∈ Cascade.all, ∀ f ∈ c.filters.head?, ∀ g ∈ c.filters.tail.head?,
      c.input * (f.up * g.up) = c.output * (f.down * g.down) ∧ 0 < c.input ∧ (f.down = 1 ∨ g.up ≤ g.down) := by decide
  have hpair := hall c hc
  rw [hf] at hpair
  exact hpair f rfl g rfl

theorem Cascade.find?_eq_some {input output : Nat} {c : Cascade} (h : Cascade.find? input output = some c) :
    c ∈ Cascade.all ∧ c.input = input ∧ c.output = output := by
  have hp := List.find?_some h
  simp only [Bool.and_eq_true, beq_iff_eq] at hp
  exact ⟨List.mem_of_find?_eq_some h, hp.1, hp.2⟩

end Rate

open Rate

namespace Polyphase

/-! ## Between calls -/

/-- The stages are the filters of an entry of the table, all for `n` channels. -/
structure Fits (n : Nat) (s : Polyphase) : Prop where
  channels : s.channels = n
  filters : s.stages.map Stage.filter = s.cascade.filters
  stages : ∀ t ∈ s.stages, t.channels = n
  listed : s.cascade ∈ Cascade.all

theorem create_eq_ok {n input output : Nat} {s : Polyphase} (h : create n input output = .ok s) :
    ∃ c, Cascade.find? input output = some c ∧ s = ⟨n, c, c.filters.map (Stage.create n)⟩ := by
  unfold create at h
  split at h
  · cases h
    exact ⟨_, ‹_›, rfl⟩
  · cases h

theorem fits_create {n input output : Nat} {s : Polyphase} (h : create n input output = .ok s) : Fits n s := by
  obtain ⟨c, hc, rfl⟩ := create_eq_ok h
  refine ⟨rfl, ?_, ?_, (Cascade.find?_eq_some hc).1⟩
  · rw [List.map_map]
    exact List.map_id _
  · intro t ht
    obtain ⟨f, _, rfl⟩ := List.mem_map.mp ht
    rfl

theorem fits_of_map {n : Nat} {s : Polyphase} (h : Fits n s) {ts : List Stage}
    (hf : ts.map Stage.filter = s.stages.map Stage.filter) (hc : ts.map Stage.channels = s.stages.map Stage.channels) :
    Fits n { s with stages := ts } where
  channels := h.channels
  filters := hf.trans h.filters
  stages t ht := by
    have := List.mem_map_of_mem (f := Stage.channels) ht
    rw [hc] at this
    obtain ⟨u, hu, he⟩ := List.mem_map.mp this
    rw [← he, h.stages u hu]
  listed := h.listed

theorem length_convert (s : Polyphase) (fs : List (Frame Int16)) :
    (convert s fs).frames.length = Stage.yieldAll s.stages fs.length := Stage.length_runAll _ _

/-- A single filter gives no more than the rates promise. -/
theorem yieldAll_single_le {n : Nat} {s : Polyphase} (h : Fits n s) {t : Stage} (ht : s.stages = [t]) (k : Nat) :
    Stage.yieldAll s.stages k ≤ ceilDiv (k * s.cascade.output) s.cascade.input := by
  have hf : s.cascade.filters = [t.filter] := by rw [← h.filters, ht]; rfl
  obtain ⟨hr, hi⟩ := Cascade.rates_of_single h.listed hf
  rw [ht]
  show ceilDiv (k * t.filter.up - t.phase) t.filter.down ≤ _
  refine Nat.le_trans (ceilDiv_mono _ (Nat.sub_le _ _)) ((ceilDiv_le_iff t.filter.down_pos).mpr ?_)
  have hle := Nat.mul_le_mul_right t.filter.down (le_ceilDiv_mul (k * s.cascade.output) hi)
  apply Nat.le_of_mul_le_mul_right _ hi
  calc k * t.filter.up * s.cascade.input
      = k * s.cascade.output * t.filter.down := by rw [Nat.mul_assoc, Nat.mul_comm t.filter.up, hr, Nat.mul_assoc]
    _ ≤ ceilDiv (k * s.cascade.output) s.cascade.input * s.cascade.input * t.filter.down := hle
    _ = ceilDiv (k * s.cascade.output) s.cascade.input * t.filter.down * s.cascade.input := Nat.mul_right_comm _ _ _

/-- A cascade gives no more than a frame beyond what the rates promise. -/
theorem yieldAll_le_succ {n : Nat} {s : Polyphase} (h : Fits n s) (k : Nat) :
    Stage.yieldAll s.stages k ≤ ceilDiv (k * s.cascade.output) s.cascade.input + 1 := by
  have hfilters := h.filters
  rcases Cascade.one_or_two h.listed with ⟨f, hf⟩ | ⟨f, g, hf⟩
  · obtain ⟨t, ht, _⟩ := List.map_eq_singleton_iff.mp (hfilters.trans hf)
    exact Nat.le_succ_of_le (yieldAll_single_le h ht k)
  · obtain ⟨hrates, hpos, hfirst⟩ := Cascade.rates_of_pair h.listed hf
    rw [hf] at hfilters
    obtain ⟨t, ts, hs, rfl, htail⟩ := List.map_eq_cons_iff.mp hfilters
    obtain ⟨u, rfl, rfl⟩ := List.map_eq_singleton_iff.mp htail
    rw [hs]
    apply Stage.yield_yield_le hfirst
    -- the rates are as the filters say, and the frames promised are enough at those
    apply Nat.le_of_mul_le_mul_right _ hpos
    have hceil := Nat.mul_le_mul_right (t.filter.down * u.filter.down) (le_ceilDiv_mul (k * s.cascade.output) hpos)
    calc k * (t.filter.up * u.filter.up) * s.cascade.input
        = k * s.cascade.output * (t.filter.down * u.filter.down) := by
          rw [Nat.mul_assoc, Nat.mul_comm _ s.cascade.input, hrates, Nat.mul_assoc]
      _ ≤ ceilDiv (k * s.cascade.output) s.cascade.input * s.cascade.input * (t.filter.down * u.filter.down) := hceil
      _ = ceilDiv (k * s.cascade.output) s.cascade.input * (t.filter.down * u.filter.down) * s.cascade.input :=
          Nat.mul_right_comm _ _ _

theorem convert_append (s : Polyphase) (a b : List (Frame Int16)) :
    convert s (a ++ b) = RateConverter.convertTwice s a b := by
  simp only [RateConverter.convertTwice, RateConverter.convert, convert, Stage.runAll_append]

/-- At other rates it is one made for them. -/
theorem create_of_retune {n : Nat} {s t : Polyphase} {r : Rates} (h : Fits n s)
    (ht : (RateConverter.retune Int16 s r).value = .ok t) : create n r.input r.output = .ok t := by
  rw [← h.channels]
  exact ht

/-! ## The laws -/

theorem contract (n : Nat) : RateConverter.Contract Int16 n (Fits n) where
  next h _ := fits_of_map h (Stage.map_runAll _ Stage.run_filter _ _) (Stage.map_runAll _ Stage.run_channels _ _)
  whole h hf := Stage.runAll_uniform h.stages hf
  tail _ _ := Nat.zero_le _
  reset h := fits_of_map h (List.map_map ..) (List.map_map ..)
  retune h hr := fits_create (create_of_retune h hr)
  passing _ h := by cases h
  passes_next _ := rfl
  passes_reset _ := rfl
  passes_retune _ := rfl

theorem fits_of_reached {n : Nat} {s : Polyphase}
    (h : RateConverter.Reached Int16 n (fun r => create n r.input r.output) s) : Fits n s :=
  (contract n).of_reached fits_create h

theorem splits (n : Nat) : RateConverter.Splits Int16 n (Fits n) where
  append _ _ _ := convert_append _ _ _
  all _ _ := rfl

/-- The cascade without the frames last computed. -/
def seen (s : Polyphase) : Polyphase := { s with stages := s.stages.map Stage.seen }

theorem sees : RateConverter.Sees Int16 seen where
  convert {a b} fs h := by
    obtain ⟨n, c, ss⟩ := a
    obtain ⟨m, d, ts⟩ := b
    injection h with hn hc hs
    obtain ⟨h1, h2⟩ := Stage.runAll_seen ss fs
    obtain ⟨h3, h4⟩ := Stage.runAll_seen ts fs
    rw [hs] at h1 h2
    refine ⟨h1.symm.trans h3, rfl, ?_⟩
    simp only [RateConverter.convert, convert, seen, hn, hc, ← h2, ← h4]
  reset {a b} h := by
    have := congrArg (fun s : Polyphase => { s with stages := s.stages.map Stage.reset }) h
    simp only [seen, List.map_map] at this
    simp only [RateConverter.reset, seen, List.map_map]
    exact this
  retune {a b} r h := by
    have hn : a.channels = b.channels := (Polyphase.mk.inj h).1
    refine ⟨rfl, ?_⟩
    show (create a.channels r.input r.output).map seen = (create b.channels r.input r.output).map seen
    rw [hn]
  delay {a b} h := by
    have hc : a.cascade = b.cascade := (Polyphase.mk.inj h).2.1
    show delayFrom a.cascade.input a.cascade.input a.cascade.filters = _
    rw [hc]
    rfl
  passes _ := rfl

theorem forgets (n : Nat) : RateConverter.Forgets Int16 n (Fits n) seen where
  run {s fs} _ _ := by
    have := Stage.map_runAll (fun t => t.reset.seen) Stage.reset_run s.stages fs
    simp only [RateConverter.convert, convert, RateConverter.reset, seen, List.map_map]
    exact congrArg (Polyphase.mk s.channels s.cascade) this
  twice {s} _ := by
    simp only [RateConverter.reset, seen, List.map_map]
    rfl

theorem remakes (n : Nat) : RateConverter.Remakes Int16 (Fits n) seen fun r => create n r.input r.output where
  made {s r} h := by
    refine ⟨fits_create h, ?_⟩
    obtain ⟨c, _, rfl⟩ := create_eq_ok h
    simp only [RateConverter.reset, List.map_map]
    rfl
  retune {a s t r r'} h _ _ ht := by
    have hc := create_of_retune h ht
    refine ⟨t, hc, ?_⟩
    obtain ⟨c, _, rfl⟩ := create_eq_ok hc
    simp only [RateConverter.reset, List.map_map]
    rfl

end Polyphase

end PcmConvert
