/-
  PcmConvert.Proofs.Rate.Polyphase.Interleaved — a cascade frame by frame. A frame that a
  filter gives need not wait for the filter to be done: it may pass the filters after it
  before the next one is computed (`Feed`). What such a course needs on its way is there,
  the weights of every phase that a frame out is computed at and a phase to take `up` off,
  and the cascade gives the same (`feed_runAll`).

  So from its first frame on, or from a reset, a cascade is the definition of each of its
  filters, the second applied to all that the first gives (`convertAll_direct`).
-/

import PcmConvert.Proofs.Rate.Polyphase.Direct

namespace PcmConvert

open Number

namespace Rate

namespace Stage

/-! ## A frame through the stages -/

mutual

/-- A frame through stages that wait for one, the frames that come out, and the stages after. -/
inductive Feed : List Stage → Frame Int16 → List (Frame Int16) → List Stage → Prop
  | out (g : Frame Int16) : Feed [] g [g] []
  | through {s t : Stage} {ss ts : List Stage} {g : Frame Int16} {y : List (Frame Int16)} :
      s.phase < s.filter.down → Drain (s.insert g) ss y t ts → t.filter.up ≤ t.phase →
      Feed (s :: ss) g y ({ t with phase := t.phase - t.filter.up } :: ts)

/-- A stage until another frame in is due, each frame that it gives through those after it. -/
inductive Drain : Stage → List Stage → List (Frame Int16) → Stage → List Stage → Prop
  | due {s : Stage} {ss : List Stage} : s.filter.up ≤ s.phase → Drain s ss [] s ss
  | give {s t : Stage} {ss ts us : List Stage} {y z : List (Frame Int16)} :
      s.phase < s.filter.up → (s.phase + 1) * s.filter.taps ≤ s.filter.coefficients.length →
      Feed ss s.compute.last y ts → Drain s.compute ts z t us → Drain s ss (y ++ z) t us

end

/-- Frames through the stages, one after the other. -/
inductive FeedAll : List Stage → List (Frame Int16) → List (Frame Int16) → List Stage → Prop
  | nil {ss : List Stage} : FeedAll ss [] [] ss
  | cons {ss ts us : List Stage} {g : Frame Int16} {x y z : List (Frame Int16)} :
      Feed ss g y ts → FeedAll ts x z us → FeedAll ss (g :: x) (y ++ z) us

/-- A stage between two frames in. -/
structure Ready (s : Stage) : Prop where
  tabled : s.filter.Tabled
  phase_lt : s.phase < s.filter.down

theorem Ready.run {s : Stage} (h : Ready s) (fs : List (Frame Int16)) : Ready (s.run fs).2 := by
  induction fs generalizing s with
  | nil => exact h
  | cons g fs ih =>
    have hpush : Ready (s.push g).2 := by
      constructor
      · rw [push_filter]
        exact h.tabled
      · rw [push_filter]
        exact push_phase_lt s g h.phase_lt
    exact ih hpush

theorem ready_runAll {ss : List Stage} (h : ∀ s ∈ ss, Ready s) (fs : List (Frame Int16)) :
    ∀ s ∈ (runAll ss fs).2, Ready s := by
  induction ss generalizing fs with
  | nil =>
    intro s hs
    cases hs
  | cons s ss ih =>
    obtain ⟨hs, hss⟩ := List.forall_mem_cons.mp h
    exact List.forall_mem_cons.mpr ⟨hs.run fs, ih hss _⟩

theorem runAll_nothing (ss : List Stage) : runAll ss [] = ([], ss) := by
  induction ss with
  | nil => rfl
  | cons s ss ih => simp only [runAll, run, ih]

/-- The weights of a phase that a frame out is computed at are there. -/
theorem coefficients_of_phase {s : Stage} (hs : s.filter.Tabled) (hp : s.phase < s.filter.up) :
    (s.phase + 1) * s.filter.taps ≤ s.filter.coefficients.length := by
  rw [Filter.coefficients, length_flatten_rows hs.length_row, hs.length_phases]
  exact Nat.mul_le_mul_right _ hp

/-- If `m` stages take frames one by one, so do they after another. -/
theorem drain_emit {m : Nat}
    (feed : ∀ ss : List Stage, ss.length = m → (∀ s ∈ ss, Ready s) →
      ∀ g, Feed ss g (runAll ss [g]).1 (runAll ss [g]).2)
    {s : Stage} (hs : s.filter.Tabled) {ss : List Stage} (hm : ss.length = m) (hss : ∀ s ∈ ss, Ready s) :
    Drain s ss (runAll ss s.emit.1).1 s.emit.2 (runAll ss s.emit.1).2 := by
  fun_induction emit s generalizing ss with
  | case1 s h rest ih =>
    have hlen : (runAll ss [s.compute.last]).2.length = m := by
      have := congrArg List.length (map_runAll filter run_filter ss [s.compute.last])
      rw [List.length_map, List.length_map] at this
      rw [this, hm]
    have hrest := ih hs hlen (ready_runAll hss _)
    have happ := runAll_append ss [s.compute.last] rest.1
    rw [List.singleton_append] at happ
    rw [happ]
    exact .give h (coefficients_of_phase hs h) (feed ss hm hss _) hrest
  | case2 s h =>
    rw [runAll_nothing]
    exact .due (Nat.le_of_not_lt h)

/-- One by one, the frames give what they give filter by filter. -/
theorem feed_runAll {ss : List Stage} (h : ∀ s ∈ ss, Ready s) (g : Frame Int16) :
    Feed ss g (runAll ss [g]).1 (runAll ss [g]).2 := by
  -- on the number of stages: those after a stage change with every frame that it gives
  induction hm : ss.length generalizing ss g with
  | zero =>
    rw [List.eq_nil_of_length_eq_zero hm]
    exact .out g
  | succ m ih =>
    obtain ⟨s, ss, rfl⟩ := List.exists_cons_of_length_eq_add_one hm
    obtain ⟨hs, hss⟩ := List.forall_mem_cons.mp h
    have hdrain := drain_emit (fun ss hm h g => ih h g hm) (s := s.insert g) hs.tabled (Nat.succ.inj hm) hss
    have hup : (s.insert g).emit.2.filter.up ≤ (s.insert g).emit.2.phase := by
      rw [emit_filter]
      exact (emit_phase (s.insert g)).2
    have hthrough := Feed.through hs.phase_lt hdrain hup
    simp only [runAll, run, List.append_nil]
    exact hthrough

theorem feedAll_runAll {ss : List Stage} (h : ∀ s ∈ ss, Ready s) (fs : List (Frame Int16)) :
    FeedAll ss fs (runAll ss fs).1 (runAll ss fs).2 := by
  induction fs generalizing ss with
  | nil =>
    rw [runAll_nothing]
    exact .nil
  | cons g fs ih =>
    have happ := runAll_append ss [g] fs
    rw [List.singleton_append] at happ
    rw [happ]
    exact .cons (feed_runAll h g) (ih (ready_runAll h _))

end Stage

/-! ## The table -/

namespace Cascade

variable {c : Cascade}

theorem find?_of_mem (hc : c ∈ all) : find? c.input c.output = some c := by
  simp only [all, List.mem_cons, List.not_mem_nil, or_false] at hc
  rcases hc with rfl | rfl | rfl | rfl | rfl | rfl | rfl | rfl | rfl | rfl | rfl | rfl | rfl | rfl <;> rfl

/-- After some number of frames, the phase of a filter that lowers the rate is not below
    its `up`, whether the filter is the first or the second. -/
theorem exists_phase_of_falling (hc : c ∈ all) :
    (∀ f ∈ c.filters.take 1, f.up < f.down → ∃ k < 8, f.up + k * f.up ≤ f.count k * f.down) ∧
      ∀ f ∈ c.filters.take 1, ∀ g ∈ c.filters.drop 1, g.up < g.down →
        ∃ k < 8, g.up + f.count k * g.up ≤ g.count (f.count k) * g.down := by
  revert c
  decide +kernel

end Cascade

end Rate

open Rate

namespace Polyphase

/-! ## Calls one after the other -/

/-- What calls give and leave, as one call with all the frames would. -/
theorem convertAll_eq (s : Polyphase) (calls : List (List (Frame Int16))) :
    (RateConverter.convertAll s calls).1.flatten = (Stage.runAll s.stages calls.flatten).1 ∧
      (RateConverter.convertAll s calls).2.stages = (Stage.runAll s.stages calls.flatten).2 := by
  induction calls generalizing s with
  | nil =>
    rw [List.flatten_nil, Stage.runAll_nothing]
    exact ⟨rfl, rfl⟩
  | cons fs calls ih =>
    obtain ⟨hframes, hstages⟩ := ih (convert s fs).next
    rw [List.flatten_cons, Stage.runAll_append]
    constructor
    · exact congrArg ((convert s fs).frames ++ ·) hframes
    · exact hstages

/-- Made for the pair of rates of `c`, or reset when it is set to that pair. -/
inductive AtStart (n : Nat) (c : Cascade) : Polyphase → Prop
  | made {s : Polyphase} : create n c.input c.output = .ok s → AtStart n c s
  | reset {s : Polyphase} : RateConverter.Reached Int16 n (fun r => create n r.input r.output) s → s.cascade = c →
      AtStart n c (RateConverter.reset Int16 s)

theorem AtStart.fed {n : Nat} {c : Cascade} (hc : c ∈ Cascade.all) {s : Polyphase} (h : AtStart n c s) :
    s.stages.map Stage.filter = c.filters ∧ ∀ t ∈ s.stages, Stage.Fed t.filter n [] t := by
  cases h with
  | made h =>
    have hfilters := (fits_create h).filters
    obtain ⟨c', hfind, rfl⟩ := create_eq_ok h
    rw [Cascade.find?_of_mem hc] at hfind
    cases hfind
    refine ⟨hfilters, ?_⟩
    intro t ht
    obtain ⟨f, _, rfl⟩ := List.mem_map.mp ht
    exact Stage.fed_create f n
  | reset h hcas =>
    have hfits := fits_of_reached h
    constructor
    · rw [← hcas, ← hfits.filters]
      exact List.map_map ..
    · intro t ht
      obtain ⟨u, hu, rfl⟩ := List.mem_map.mp ht
      exact Stage.fed_reset rfl (hfits.stages u hu)

theorem AtStart.one_or_two {n : Nat} {c : Cascade} (hc : c ∈ Cascade.all) {s : Polyphase} (h : AtStart n c s) :
    (∃ t, s.stages = [t] ∧ c.filters = [t.filter]) ∨
      ∃ t u, s.stages = [t, u] ∧ c.filters = [t.filter, u.filter] := by
  obtain ⟨hfilters, -⟩ := h.fed hc
  rcases Cascade.one_or_two hc with ⟨f, hf⟩ | ⟨f, g, hf⟩
  · rw [hf] at hfilters
    obtain ⟨t, hs, rfl⟩ := List.map_eq_singleton_iff.mp hfilters
    exact .inl ⟨t, hs, hf⟩
  · rw [hf] at hfilters
    obtain ⟨t, r, hs, rfl, hr⟩ := List.map_eq_cons_iff.mp hfilters
    obtain ⟨u, rfl, rfl⟩ := List.map_eq_singleton_iff.mp hr
    exact .inr ⟨t, u, hs, hf⟩

theorem AtStart.ready {n : Nat} {c : Cascade} (hc : c ∈ Cascade.all) {s : Polyphase} (h : AtStart n c s) :
    ∀ t ∈ s.stages, Stage.Ready t := by
  obtain ⟨hfilters, hfed⟩ := h.fed hc
  intro t ht
  constructor
  · apply Filter.tabled_of_mem hc
    rw [← hfilters]
    exact List.mem_map_of_mem ht
  · exact (hfed t ht).phase_lt

/-- A filter gives what its definition says, and one after it that of all it is given. -/
theorem AtStart.gives {n : Nat} {c : Cascade} (hc : c ∈ Cascade.all) {s : Polyphase} (h : AtStart n c s)
    (x : List (Frame Int16)) :
    (∃ f, c.filters = [f] ∧ f.Gives n x (Stage.runAll s.stages x).1) ∨
      ∃ f g z, c.filters = [f, g] ∧ f.Gives n x z ∧ g.Gives n z (Stage.runAll s.stages x).1 := by
  obtain ⟨-, hfed⟩ := h.fed hc
  have hready := h.ready hc
  rcases h.one_or_two hc with ⟨t, hs, hf⟩ | ⟨t, u, hs, hf⟩
  · rw [hs] at hfed hready ⊢
    have ht : t ∈ [t] := List.mem_singleton_self t
    exact .inl ⟨t.filter, hf, Stage.run_gives (hready t ht).tabled (hfed t ht) x⟩
  · rw [hs] at hfed hready ⊢
    have ht : t ∈ [t, u] := List.mem_cons_self
    have hu : u ∈ [t, u] := List.mem_cons_of_mem _ (List.mem_singleton_self u)
    exact .inr ⟨t.filter, u.filter, (t.run x).1, hf, Stage.run_gives (hready t ht).tabled (hfed t ht) x,
      Stage.run_gives (hready u hu).tabled (hfed u hu) _⟩

/-- Where a filter lowers the rate, its phase may be `up` or more between two frames in. -/
theorem AtStart.exists_up_le_phase {n : Nat} {c : Cascade} (hc : c ∈ Cascade.all) {s : Polyphase} (h : AtStart n c s)
    {f : Filter} (hf : f ∈ c.filters) (hlt : f.up < f.down) :
    ∃ x, Uniform n x ∧ ∃ t ∈ (convert s x).next.stages, t.filter = f ∧ f.up ≤ t.phase := by
  obtain ⟨-, hfed⟩ := h.fed hc
  have hready := h.ready hc
  obtain ⟨hfirst, hsecond⟩ := Cascade.exists_phase_of_falling hc
  have hrun {t : Stage} (ht : t ∈ s.stages) (x : List (Frame Int16)) := Stage.run_anew (hready t ht).tabled (hfed t ht) x
  let x (k : Nat) : List (Frame Int16) := List.replicate k (silentFrame n)
  have hx (k : Nat) : Uniform n (x k) := Uniform.replicate k (length_silentFrame n)
  have hlen (k : Nat) : (x k).length = k := List.length_replicate
  show ∃ x, Uniform n x ∧ ∃ t ∈ (Stage.runAll s.stages x).2, t.filter = f ∧ f.up ≤ t.phase
  -- the first filter, whether or not there is another
  have hhead {t : Stage} {ss : List Stage} (hs : s.stages = t :: ss) (hc : t.filter ∈ c.filters.take 1)
      (hlt : t.filter.up < t.filter.down) :
      ∃ x, Uniform n x ∧ ∃ t' ∈ (Stage.runAll s.stages x).2, t'.filter = t.filter ∧ t.filter.up ≤ t'.phase := by
    obtain ⟨k, -, hk⟩ := hfirst t.filter hc hlt
    obtain ⟨-, -, hend⟩ := hrun (hs ▸ List.mem_cons_self) (x k)
    have hphase := hend.phase
    rw [hlen] at hphase
    refine ⟨x k, hx k, (t.run (x k)).2, ?_, hend.filter, by omega⟩
    rw [hs]
    exact List.mem_cons_self
  rcases h.one_or_two hc with ⟨t, hs, hfs⟩ | ⟨t, u, hs, hfs⟩
  · rw [hfs] at hf
    obtain rfl := List.mem_singleton.mp hf
    exact hhead hs (by rw [hfs]; exact List.mem_singleton_self _) hlt
  · have htake : t.filter ∈ c.filters.take 1 := by
      rw [hfs]
      exact List.mem_singleton_self _
    have hdrop : u.filter ∈ c.filters.drop 1 := by
      rw [hfs]
      exact List.mem_singleton_self _
    rw [hfs] at hf
    rcases List.mem_cons.mp hf with rfl | hf
    · exact hhead hs htake hlt
    · obtain rfl := List.mem_singleton.mp hf
      obtain ⟨k, -, hk⟩ := hsecond t.filter htake u.filter hdrop hlt
      obtain ⟨hcount, -, -⟩ := hrun (hs ▸ List.mem_cons_self) (x k)
      obtain ⟨-, -, hend⟩ := hrun (hs ▸ List.mem_cons_of_mem _ (List.mem_singleton_self u)) (t.run (x k)).1
      have hphase := hend.phase
      rw [hcount, hlen] at hphase
      refine ⟨x k, hx k, (u.run (t.run (x k)).1).2, ?_, hend.filter, by omega⟩
      rw [hs]
      exact List.mem_cons_of_mem _ (List.mem_singleton_self _)

/-- A cascade made anew or reset computes the definition of its filters, however the input
    is cut into calls. On the way no filter looks for a weight that is not there or takes
    `up` off a smaller phase, and between two frames in each phase is below `down`, though
    it need not be below `up`. -/
theorem convertAll_direct (n : Nat) {c : Cascade} (hc : c ∈ Cascade.all) :
    create n c.input c.output = .ok ⟨n, c, c.filters.map (Stage.create n)⟩ ∧
      ∀ s, AtStart n c s →
        (∀ calls : List (List (Frame Int16)),
          let x := calls.flatten
          let y := (RateConverter.convertAll s calls).1.flatten
          let t := (RateConverter.convertAll s calls).2
          ((∃ f, c.filters = [f] ∧ f.Gives n x y) ∨
              ∃ f g z, c.filters = [f, g] ∧ f.Gives n x z ∧ g.Gives n z y) ∧
            Stage.FeedAll s.stages x y t.stages ∧ ∀ u ∈ t.stages, u.phase < u.filter.down) ∧
        ∀ f ∈ c.filters, f.up < f.down →
          ∃ x, Uniform n x ∧ ∃ u ∈ (convert s x).next.stages, u.filter = f ∧ f.up ≤ u.phase := by
  refine ⟨by rw [create, Cascade.find?_of_mem hc], ?_⟩
  intro s h
  refine ⟨?_, fun f hf hlt => h.exists_up_le_phase hc hf hlt⟩
  intro calls
  obtain ⟨hframes, hstages⟩ := convertAll_eq s calls
  simp only [hframes, hstages]
  refine ⟨h.gives hc _, Stage.feedAll_runAll (h.ready hc) _, ?_⟩
  intro u hu
  exact (Stage.ready_runAll (h.ready hc) _ u hu).phase_lt

/-- From 48000 to 44100, reset when frames had been run, then fed in pieces. -/
theorem convertAll_direct_after_reset :
    let c : Cascade := ⟨48000, 44100, [.up21down20, .up7down8]⟩
    let s : Polyphase := ⟨2, c, c.filters.map (Stage.create 2)⟩
    let r := RateConverter.reset Int16 (convert s [[1, -1], [2, -2]]).next
    let calls : List (List (Frame Int16)) := [[[300, 400]], [], [[500, 600], [700, 800]]]
    let t := (RateConverter.convertAll r calls).2
    c ∈ Cascade.all ∧ AtStart 2 c r ∧
      (∃ z, Filter.up21down20.Gives 2 calls.flatten z ∧
        Filter.up7down8.Gives 2 z (RateConverter.convertAll r calls).1.flatten) ∧
      Stage.FeedAll r.stages calls.flatten (RateConverter.convertAll r calls).1.flatten t.stages ∧
      (∀ u ∈ t.stages, u.phase < u.filter.down) ∧
      ∃ x, Uniform 2 x ∧ ∃ u ∈ (convert r x).next.stages,
        u.filter = Filter.up7down8 ∧ Filter.up7down8.up ≤ u.phase := by
  intro c s r calls t
  have hc : c ∈ Cascade.all := (Cascade.find?_eq_some (show Cascade.find? 48000 44100 = some c from rfl)).1
  have hs : create 2 c.input c.output = .ok s := (convertAll_direct 2 hc).1
  have hr : AtStart 2 c r := by
    refine .reset (.convert (.made (r := ⟨48000, 44100, by decide, by decide⟩) hs) ?_) rfl
    intro f hf
    simp only [List.mem_cons, List.not_mem_nil, or_false] at hf
    rcases hf with rfl | rfl <;> rfl
  obtain ⟨hrun, hfall⟩ := (convertAll_direct 2 hc).2 r hr
  obtain ⟨hgives, hfeed, hphase⟩ := hrun calls
  refine ⟨hc, hr, ?_, hfeed, hphase, ?_⟩
  · rcases hgives with ⟨f, hf, -⟩ | ⟨f, g, z, hf, hfirst, hsecond⟩
    · cases (List.cons.inj hf).2
    · cases hf
      exact ⟨z, hfirst, hsecond⟩
  · exact hfall _ (List.mem_cons_of_mem _ List.mem_cons_self) (by decide)

end Polyphase

end PcmConvert
