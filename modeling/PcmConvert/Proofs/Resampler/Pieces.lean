/-
  PcmConvert.Proofs.Resampler.Pieces — the input may come in pieces. A converter that uses
  all it is fed leaves nothing over (`Cuttable`), so two runs are one run with the bytes of
  both (`run_append`). Hence the bytes of any number of runs, empty ones and single frames
  included, are those of one run, whether the bytes of each are used in place or not, and
  every later run gives the same (`run_in_pieces`).
-/

import PcmConvert.Proofs.Resampler.Restart

namespace PcmConvert

open RateConverter

/-! ## Pipelines -/

namespace Pipeline

variable {β S : Type} [RateConverter β S] [Sample S] {c : Config} {Ok : β → Prop} {p : Pipeline β S}

/-- A run leaves nothing over, and it does not matter where its bytes lie. -/
theorem run_aligned (f : β → β) (hc : c.Shaped) (hk : Contract S c.width Ok) (h : p.Fits c Ok) (x y : Bool)
    (bytes : List UInt8) :
    (p.run x bytes).value.1 = (p.run y bytes).value.1 ∧ Alike c Ok f (p.run x bytes).value.2
    (p.run y bytes).value.2 := by
  obtain ⟨hout, hstages, hfit⟩ := run_stages hc hk h x bytes
  obtain ⟨hout', hstages', hfit'⟩ := run_stages hc hk h y bytes
  exact ⟨by rw [hout, hout'], hfit, hfit', by rw [hstages, hstages']⟩

theorem carried_run (hc : c.Shaped) (hk : Contract S c.width Ok) (hs : Splits S c.width Ok) (h : p.Fits c Ok)
    (aligned : Bool)
    (bytes : List UInt8) : (p.run aligned bytes).value.2.carried = 0 := by
  obtain ⟨_, hstages, hfit⟩ := run_stages hc hk h aligned bytes
  rw [← hfit.length_leftover, show leftover _ = _ from congrArg Stages.leftover hstages,
    Stages.leftover_run hc hs h.stages bytes]
  rfl

/-- Two runs are one run with the bytes of both. -/
theorem run_append (f : β → β) (hc : c.Shaped) (hk : Contract S c.width Ok) (hs : Splits S c.width Ok) (h : p.Fits c Ok)
    (h0 : p.carried = 0) (x y z : Bool) {a : List UInt8} (b : List UInt8) (ha : c.input.frameSize ∣ a.length) :
    let q := (p.run x a).value.2
    (p.run z (a ++ b)).value.1 = (p.run x a).value.1 ++ (q.run y b).value.1 ∧
      Alike c Ok f (q.run y b).value.2 (p.run z (a ++ b)).value.2 := by
  obtain ⟨hout, hstages, hfit⟩ := run_stages hc hk h x a
  obtain ⟨hout₂, hstages₂, hfit₂⟩ := run_stages hc hk hfit y b
  obtain ⟨hout', hstages', hfit'⟩ := run_stages hc hk h z (a ++ b)
  rw [hstages] at hout₂ hstages₂
  have happ := Stages.run_append hc hk hs h.stages (leftover_of_carried_eq_zero h0) b ha
  rw [happ] at hout' hstages'
  exact ⟨by rw [hout, hout₂, hout'], hfit₂, hfit', by rw [hstages₂, hstages']⟩

/-- A run without bytes gives none if the converter gives nothing for nothing. -/
theorem run_nil (hc : c.Shaped) (hk : Contract S c.width Ok) (h : p.Fits c Ok) (h0 : p.carried = 0)
    (hn : (RateConverter.convert p.converter ([] : List (Frame S))).frames = []) (aligned : Bool) :
    (p.run aligned []).value.1 = [] := by
  obtain ⟨hout, _⟩ := run_stages hc hk h aligned []
  have hfed : p.stages.fed c [] = [] := by
    apply List.eq_nil_of_length_eq_zero
    rw [Stages.length_fed hc, show p.stages.leftover = [] from leftover_of_carried_eq_zero h0]
    exact (Nat.zero_add _).trans (Nat.zero_div _)
  have hlen := Stages.run_whole hc hk h.stages []
  rw [hfed, show p.stages.converter = p.converter from rfl, hn, List.length_nil, Nat.zero_mul] at hlen
  rw [hout, List.eq_nil_of_length_eq_zero hlen]

end Pipeline

/-! ## Engines -/

namespace Engine

/-- The converter uses all it is fed, and nothing is left over. -/
inductive Cuttable (c : Config) : Engine → Prop
  | s16 {p : Pipeline FixedConverter Int16} :
      p.Fits c (FixedConverter.Fits c.width) → p.carried = 0 → Cuttable c (.s16 p)
  | f32 {p : Pipeline FloatConverter Float32} :
      p.Fits c (FloatConverter.Plain c.width) → p.carried = 0 → Cuttable c (.f32 p)

variable {b : Build} {m : Method} {c : Config} {r : Rates} {e : Engine}

theorem cuttable_create (hc : c.Shaped) (hm : m ≠ .sinc ∧ m ≠ .fft) (h : create b m r c c.matrix = .ok e) :
    Cuttable c e ∧ ∀ aligned, (e.run aligned []).value.1 = [] := by
  cases hp : m.precision c.input.encoding c.output.encoding with
  | s16 =>
    rw [create_s16 hp] at h
    obtain ⟨p, hp, rfl⟩ := exists_of_map_eq_ok h
    have hfit := Pipeline.fits_create hc (fun hx => ((FixedConverter.remakes m c.width).made hx).1) hp
    obtain ⟨x, _, hx, _, rfl⟩ := Pipeline.create_eq_ok.mp hp
    exact ⟨.s16 hfit rfl, Pipeline.run_nil hc (FixedConverter.contract _) hfit rfl (FixedConverter.convert_nil hx)⟩
  | f32 =>
    rw [create_f32 hp] at h
    obtain ⟨p, hp, rfl⟩ := exists_of_map_eq_ok h
    have hfit := Pipeline.fits_create hc (fun hx => (FloatConverter.plain_of_create hm hx).1) hp
    obtain ⟨x, _, hx, _, rfl⟩ := Pipeline.create_eq_ok.mp hp
    exact ⟨.f32 hfit rfl,
      Pipeline.run_nil hc (FloatConverter.plain_contract _) hfit rfl (FloatConverter.plain_of_create hm hx).2⟩

theorem Cuttable.run (hc : c.Shaped) (h : Cuttable c e) (aligned : Bool) (bytes : List UInt8) :
    Cuttable c (e.run aligned bytes).value.2 := by
  cases h with
  | s16 hf _ =>
    have hk := FixedConverter.contract c.width
    exact .s16 (Pipeline.run_stages hc hk hf aligned bytes).2.2
      (Pipeline.carried_run hc hk (FixedConverter.splits _) hf aligned bytes)
  | f32 hf _ =>
    have hk := FloatConverter.plain_contract c.width
    exact .f32 (Pipeline.run_stages hc hk hf aligned bytes).2.2
      (Pipeline.carried_run hc hk (FloatConverter.plain_splits _) hf aligned bytes)

theorem Cuttable.reset (h : Cuttable c e) : Cuttable c e.reset := by
  cases h with
  | s16 hf _ => exact .s16 (Pipeline.fits_reset (FixedConverter.contract _) hf) rfl
  | f32 hf _ => exact .f32 (Pipeline.fits_reset (FloatConverter.plain_contract _) hf) rfl

theorem Cuttable.rewind (h : Cuttable c e) : Cuttable c e.rewind := rewind_eq_reset e ▸ h.reset

theorem Cuttable.retune (h : Cuttable c e) (r : Rates) : Cuttable c (e.retune r).value.2 := by
  cases h with
  | s16 hf h0 =>
    exact .s16 (Pipeline.fits_retune (FixedConverter.contract _) hf r) ((Pipeline.carried_retune _ r).trans h0)
  | f32 hf h0 =>
    exact .f32 (Pipeline.fits_retune (FloatConverter.plain_contract _) hf r) ((Pipeline.carried_retune _ r).trans h0)

theorem Cuttable.carried (h : Cuttable c e) : e.carried = 0 := by
  cases h with
  | s16 _ h0 => exact h0
  | f32 _ h0 => exact h0

theorem Cuttable.run_aligned (hc : c.Shaped) (h : Cuttable c e) (x y : Bool) (bytes : List UInt8) :
    (e.run x bytes).value.1 = (e.run y bytes).value.1 ∧ Alike c (e.run x bytes).value.2 (e.run y bytes).value.2 := by
  cases h with
  | s16 hf _ =>
    obtain ⟨ho, ha⟩ := Pipeline.run_aligned FixedConverter.seen hc (FixedConverter.contract _) hf x y bytes
    exact ⟨ho, .s16 ha⟩
  | f32 hf _ =>
    obtain ⟨ho, ha⟩ := Pipeline.run_aligned FloatConverter.seen hc (FloatConverter.plain_contract _) hf x y bytes
    exact ⟨ho, .f32 (ha.mono FloatConverter.fits_of_plain)⟩

/-- Two runs are one run with the bytes of both. -/
theorem Cuttable.run_append (hc : c.Shaped) (h : Cuttable c e) (x y z : Bool) {a : List UInt8} (d : List UInt8)
    (ha : c.input.frameSize ∣ a.length) :
    let e' := (e.run x a).value.2
    (e.run z (a ++ d)).value.1 = (e.run x a).value.1 ++ (e'.run y d).value.1 ∧
      Alike c (e'.run y d).value.2 (e.run z (a ++ d)).value.2 := by
  cases h with
  | s16 hf h0 =>
    obtain ⟨ho, hl⟩ := Pipeline.run_append FixedConverter.seen hc (FixedConverter.contract _)
      (FixedConverter.splits _) hf h0 x y z d ha
    exact ⟨ho, .s16 hl⟩
  | f32 hf h0 =>
    obtain ⟨ho, hl⟩ := Pipeline.run_append FloatConverter.seen hc (FloatConverter.plain_contract _)
      (FloatConverter.plain_splits _) hf h0 x y z d ha
    exact ⟨ho, .f32 (hl.mono FloatConverter.fits_of_plain)⟩

theorem Cuttable.run_lines (hc : c.Shaped) (h : Cuttable c e) (x y : Bool) (a d : List UInt8) :
    ((e.run x a).value.2.run y d).lines = (e.run y d).lines := by
  have hr := h.run hc x a
  cases h with
  | s16 hf h0 =>
    cases hr with
    | s16 hf' h0' => exact congrArg (· ++ []) (Pipeline.run_lines hf' hf (h0'.trans h0.symm) y d)
  | f32 hf h0 =>
    cases hr with
    | f32 hf' h0' => exact congrArg (· ++ []) (Pipeline.run_lines hf' hf (h0'.trans h0.symm) y d)

end Engine

/-! ## Resamplers -/

namespace Resampler

/-- Runs one after the other, each with whether its bytes are aligned, and all their bytes
    out. -/
def runAll (s : Resampler) : List (Bool × List UInt8) → Except Halt (List UInt8 × Resampler)
  | [] => .ok ([], s)
  | p :: ps => do
    let x ← (s.run p.1 p.2).value
    let y ← runAll x.2 ps
    return (x.1 ++ y.1, y.2)

/-- Its engine is cuttable. -/
structure Cuttable (s : Resampler) : Prop where
  shaped : s.config.Shaped
  engine : Engine.Cuttable s.config s.engine

variable {b : Build} {c : Config} {s : Resampler}

theorem Cuttable.ran (h : s.Cuttable) (aligned : Bool) (bytes : List UInt8) : (s.ran aligned bytes).2.Cuttable := by
  unfold Resampler.ran
  split
  · exact h
  · exact ⟨h.shaped, h.engine.run h.shaped aligned bytes⟩

theorem Cuttable.ran_aligned (h : s.Cuttable) (x y : Bool) (bytes : List UInt8) :
    (s.ran x bytes).1 = (s.ran y bytes).1 ∧ ∀ ks, (s.ran x bytes).2.replies ks = (s.ran y bytes).2.replies ks := by
  unfold Resampler.ran
  split
  · exact ⟨rfl, fun _ => rfl⟩
  · obtain ⟨ho, ha⟩ := h.engine.run_aligned h.shaped x y bytes
    exact ⟨ho, replies_eq_of_alike ⟨h.shaped, rfl, ha⟩⟩

theorem Cuttable.ran_append (h : s.Cuttable) (x y z : Bool) {a : List UInt8} (d : List UInt8)
    (ha : s.config.input.frameSize ∣ a.length) :
    let t := (s.ran x a).2
    (s.ran z (a ++ d)).1 = (s.ran x a).1 ++ (t.ran y d).1 ∧
      ∀ ks, (t.ran y d).2.replies ks = (s.ran z (a ++ d)).2.replies ks := by
  unfold Resampler.ran
  by_cases hp : s.passthrough = true
  · simp only [if_pos hp, implies_true, and_self]
  · simp only [if_neg hp]
    obtain ⟨ho, hl⟩ := h.engine.run_append h.shaped x y z d ha
    exact ⟨ho, replies_eq_of_alike ⟨h.shaped, rfl, hl⟩⟩

theorem Cuttable.run_lines (h : s.Cuttable) (x y : Bool) (a d : List UInt8) :
    ((s.ran x a).2.run y d).lines = (s.run y d).lines := by
  unfold Resampler.ran
  by_cases hp : s.passthrough = true
  · rw [if_pos hp]
  · rw [if_neg hp]
    simp only [run, if_neg hp]
    split
    · rfl
    · exact congrArg (· ++ []) (h.engine.run_lines h.shaped x y a d)

/-- By induction on the pieces after the first: the runs of those after it are one run, and
    that and the first are one. -/
theorem Cuttable.runAll (h : s.Cuttable) (p : Bool × List UInt8) (ps : List (Bool × List UInt8))
    (hw : ∀ q ∈ p :: ps, s.config.input.frameSize ∣ q.2.length) (aligned : Bool) :
    let one := s.ran aligned ((p :: ps).map (·.2)).flatten
    ∃ t, s.runAll (p :: ps) = .ok (one.1, t) ∧ ∀ ks, t.replies ks = one.2.replies ks := by
  have hp := run_value p.1 (hw p List.mem_cons_self)
  induction ps generalizing s p with
  | nil =>
    obtain ⟨ho, ha⟩ := h.ran_aligned p.1 aligned p.2
    have hone : ([p].map (·.2)).flatten = p.2 := List.append_nil _
    rw [hone]
    refine ⟨(s.ran p.1 p.2).2, ?_, ha⟩
    simp only [Resampler.runAll, hp, ← ho, bind, Except.bind, pure, Except.pure, List.append_nil]
  | cons q ps ih =>
    have hw' : ∀ r ∈ q :: ps, (s.ran p.1 p.2).2.config.input.frameSize ∣ r.2.length := by
      intro r hr
      rw [config_ran]
      exact hw r (List.mem_cons_of_mem p hr)
    obtain ⟨t, ht, hreplies⟩ := ih (h.ran p.1 p.2) q hw' (run_value q.1 (hw' q List.mem_cons_self))
    obtain ⟨ho, hl⟩ := h.ran_append p.1 aligned aligned ((q :: ps).map (·.2)).flatten (hw p List.mem_cons_self)
    refine ⟨t, ?_, fun ks => (hreplies ks).trans (hl ks)⟩
    rw [Resampler.runAll, hp]
    simp only [bind, Except.bind, ht, pure, Except.pure]
    exact congrArg (fun out => Except.ok (out, t)) ho.symm

theorem dvd_length_flatten {n : Nat} {bss : List (List UInt8)} (h : ∀ bs ∈ bss, n ∣ bs.length) :
    n ∣ bss.flatten.length := by
  induction bss with
  | nil => exact Nat.dvd_zero n
  | cons bs bss ih =>
    rw [List.flatten_cons, List.length_append]
    exact Nat.dvd_add (h bs List.mem_cons_self) (ih fun x hx => h x (List.mem_cons_of_mem bs hx))

/-- A run without bytes that gives none changes no later run. -/
theorem Cuttable.replies_ran_nil (h : s.Cuttable) {x : Bool} (hn : (s.ran x []).1 = [])
    (later : List (Bool × List UInt8)) :
    (s.ran x []).2.replies (later.map fun p => .run p.1 p.2) = s.replies (later.map fun p => .run p.1 p.2) := by
  cases later with
  | nil => rfl
  | cons q qs =>
    have hc := config_ran s x []
    rw [List.map_cons]
    by_cases hq : s.config.input.frameSize ∣ q.2.length
    · obtain ⟨ho, hl⟩ := h.ran_append x q.1 q.1 (a := []) q.2 (Nat.dvd_zero _)
      rw [hn, List.nil_append, List.nil_append] at ho
      rw [replies_run q.1 hq, replies_run q.1 (hc ▸ hq), h.run_lines, ← ho, hl, List.nil_append]
    · rw [replies_partial q.1 hq, replies_partial q.1 (hc ▸ hq), hc]

/-- Any number of runs from the start give the bytes of one run, and answer every later run
    as after that; and every later call, if there was a run at all. -/
theorem run_in_pieces (h : (create b c).value = .ok s)
    (hm : s.method ∈ [Method.copy, .trivial, .peaks, .polyphaseFixed, .sincFixed]) {pieces : List (Bool × List UInt8)}
    (hw : ∀ p ∈ pieces, c.input.frameSize ∣ p.2.length) (aligned : Bool) :
    ∃ out t u, s.runAll pieces = .ok (out, t) ∧ (s.run aligned (pieces.map (·.2)).flatten).value = .ok (out, u) ∧
      (∀ later : List (Bool × List UInt8),
        t.replies (later.map fun p => .run p.1 p.2) = u.replies (later.map fun p => .run p.1 p.2)) ∧
      (pieces ≠ [] → ∀ ks, t.replies ks = u.replies ks) := by
  obtain ⟨hv, r, m, e, hc, he, rfl⟩ := create_eq_ok h
  have hs := Config.shaped_of_validate hv
  have hwhole : ∀ x ∈ [Method.copy, .trivial, .peaks, .polyphaseFixed, .sincFixed], x ≠ .sinc ∧ x ≠ .fft := by decide
  obtain ⟨hcut, hnil⟩ := Engine.cuttable_create hs (hwhole m hm) he
  have hcut : Cuttable ⟨c, r, m, c.matrix, isPassthrough c m, e⟩ := ⟨hs, hcut⟩
  cases pieces with
  | nil =>
    have hn : (ran ⟨c, r, m, c.matrix, isPassthrough c m, e⟩ aligned []).1 = [] := by
      unfold ran
      split
      · rfl
      · exact hnil aligned
    refine ⟨[], _, _, rfl, ?_, fun later => (hcut.replies_ran_nil hn later).symm, fun hne => absurd rfl hne⟩
    rw [List.map_nil, List.flatten_nil, run_value aligned (Nat.dvd_zero _)]
    exact congrArg Except.ok (Prod.ext hn rfl)
  | cons p ps =>
    obtain ⟨t, ht, hreplies⟩ := hcut.runAll p ps hw aligned
    have hall : c.input.frameSize ∣ ((p :: ps).map (·.2)).flatten.length := by
      refine dvd_length_flatten fun bs hbs => ?_
      obtain ⟨q, hq, rfl⟩ := List.mem_map.mp hbs
      exact hw q hq
    exact ⟨_, t, _, ht, run_value aligned hall, fun later => hreplies _, fun _ => hreplies⟩

/-- A frame in place, nothing, and two frames that are decoded. -/
theorem run_in_pieces_monoDown :
    ∃ s out t u, (create ⟨true⟩ (monoDown .sincFixed)).value = .ok s ∧
      s.runAll [(true, [1, 0]), (true, []), (false, [2, 0, 3, 0])] = .ok (out, t) ∧
        (s.run true [1, 0, 2, 0, 3, 0]).value = .ok (out, u) ∧ ∀ ks, t.replies ks = u.replies ks := by
  obtain ⟨s, hs⟩ : ∃ s, (create ⟨true⟩ (monoDown .sincFixed)).value = .ok s := ⟨_, rfl⟩
  have hm : s.method ∈ [Method.copy, .trivial, .peaks, .polyphaseFixed, .sincFixed] := by
    cases hs
    decide
  have hw : ∀ p ∈ [(true, [1, 0]), (true, []), (false, [2, 0, 3, 0])],
      (monoDown .sincFixed).input.frameSize ∣ (p : Bool × List UInt8).2.length := by decide
  obtain ⟨out, t, u, hall, hone, _, hreplies⟩ := run_in_pieces hs hm hw true
  exact ⟨s, out, t, u, hs, hall, hone, hreplies (by decide)⟩

end Resampler

end PcmConvert
