/-
  PcmConvert.Proofs.Pipeline.Alike — pipelines that do the same. Two that fit and show the
  same stages give the same for every call, and are alike after it (`Alike`). After a reset
  a pipeline is alike to one that is created for the rates it has by then, whatever was run
  and whatever rates it had before (`Remade`).
-/

import PcmConvert.Proofs.Pipeline.Reached

namespace PcmConvert

open RateConverter

/-- The configuration at other rates. -/
def Config.at (c : Config) (input output : Nat) : Config :=
  { c with input := { c.input with rate := input }, output := { c.output with rate := output } }

theorem Config.Shaped.at {c : Config} (h : c.Shaped) (i o : Nat) : (c.at i o).Shaped :=
  ⟨h.input_pos, h.output_pos, h.inputMap, h.outputMap⟩

/-- The rates are no part of the shape. -/
theorem Stages.fits_at_iff {β S : Type} [RateConverter β S] {c : Config} {i o : Nat} {Ok : β → Prop} {s : Stages β S} :
    s.Fits (c.at i o) Ok ↔ s.Fits c Ok :=
  ⟨fun h => ⟨h.converter, h.crossover, h.leftover, h.passing⟩,
    fun h => ⟨h.converter, h.crossover, h.leftover, h.passing⟩⟩

namespace Pipeline

variable {β S : Type} [RateConverter β S] {c : Config} {Ok : β → Prop} {f : β → β} {p q : Pipeline β S}

theorem fits_at_iff {i o : Nat} : p.Fits (c.at i o) Ok ↔ p.Fits c Ok where
  mp h := ⟨h.inputEncoding, h.outputEncoding, h.inputChannels, h.remapper, h.slot,
    Stages.fits_at_iff.mp h.stages, h.held, h.idle⟩
  mpr h := ⟨h.inputEncoding, h.outputEncoding, h.inputChannels, h.remapper, h.slot,
    Stages.fits_at_iff.mpr h.stages, h.held, h.idle⟩

theorem Fits.mono {Ok' : β → Prop} (h : p.Fits c Ok) (hok : ∀ {b}, Ok b → Ok' b) : p.Fits c Ok' :=
  ⟨h.inputEncoding, h.outputEncoding, h.inputChannels, h.remapper, h.slot,
    ⟨hok h.stages.converter, h.stages.crossover, h.stages.leftover, h.stages.passing⟩, h.held, h.idle⟩

/-! ## The same from now on -/

/-- Both fit, and show the same stages. -/
structure Alike (c : Config) (Ok : β → Prop) (f : β → β) (p q : Pipeline β S) : Prop where
  left : p.Fits c Ok
  right : q.Fits c Ok
  seen : p.stages.seen f = q.stages.seen f

theorem Alike.mono {Ok' : β → Prop} (h : Alike c Ok f p q) (hok : ∀ {b}, Ok b → Ok' b) : Alike c Ok' f p q :=
  ⟨h.left.mono hok, h.right.mono hok, h.seen⟩

theorem Alike.carried_eq (h : Alike c Ok f p q) : p.carried = q.carried := by
  obtain ⟨_, _, hl⟩ := Stages.seen_eq_iff.mp h.seen
  rw [← h.left.length_leftover, ← h.right.length_leftover]
  exact congrArg List.length hl

theorem Alike.delay_eq (hf : Sees S f) (h : Alike c Ok f p q) : p.delay = q.delay := by
  rw [h.left.delay_eq, h.right.delay_eq, Stages.delay_seen hf h.seen]

theorem Alike.at (h : Alike c Ok f p q) (i o : Nat) : Alike (c.at i o) Ok f p q :=
  ⟨fits_at_iff.mpr h.left, fits_at_iff.mpr h.right, h.seen⟩

theorem Alike.reset (hk : Contract S c.width Ok) (hf : Sees S f) (h : Alike c Ok f p q) :
    Alike c Ok f p.reset q.reset :=
  ⟨fits_reset hk h.left, fits_reset hk h.right, Stages.reset_seen hf h.seen⟩

/-- The lines of a run depend on what is carried over alone. -/
theorem run_lines [Sample S] (hp : p.Fits c Ok) (hq : q.Fits c Ok) (h : p.carried = q.carried) (aligned : Bool)
    (bytes : List UInt8) : (p.run aligned bytes).lines = (q.run aligned bytes).lines := by
  simp only [Pipeline.run, runLine, views, hp.inputEncoding, hq.inputEncoding, hp.inputChannels, hq.inputChannels,
    hp.slot, hq.slot, h]

theorem Alike.run [Sample S] (hc : c.Shaped) (hk : Contract S c.width Ok) (hf : Sees S f) (h : Alike c Ok f p q)
    (aligned : Bool) (bytes : List UInt8) :
    (p.run aligned bytes).lines = (q.run aligned bytes).lines ∧
      (p.run aligned bytes).value.1 = (q.run aligned bytes).value.1 ∧
      Alike c Ok f (p.run aligned bytes).value.2 (q.run aligned bytes).value.2 := by
  obtain ⟨ho, hs, hfit⟩ := run_stages hc hk h.left aligned bytes
  obtain ⟨ho', hs', hfit'⟩ := run_stages hc hk h.right aligned bytes
  obtain ⟨hbytes, hseen⟩ := Stages.run_seen (c := c) hf h.seen bytes
  refine ⟨run_lines h.left h.right h.carried_eq aligned bytes, ?_, hfit, hfit', ?_⟩
  · rw [ho, ho', hbytes]
  · rw [hs, hs', hseen]

theorem retune_lines (p : Pipeline β S) (r : Rates) :
    (p.retune r).lines = (RateConverter.retune S p.converter r).lines := by
  simp only [retune, bind]
  cases (RateConverter.retune S p.converter r).value with
  | error f => exact List.append_nil _
  | ok b =>
    cases p.crossover with
    | none => exact List.append_nil _
    | some x =>
      dsimp only
      cases x.setRate? r.output with
      | none => exact List.append_nil _
      | some y => exact List.append_nil _

theorem Alike.retune (hk : Contract S c.width Ok) (hf : Sees S f) (h : Alike c Ok f p q) (r : Rates) :
    (p.retune r).lines = (q.retune r).lines ∧ (p.retune r).value.1 = (q.retune r).value.1 ∧
      Alike c Ok f (p.retune r).value.2 (q.retune r).value.2 := by
  obtain ⟨hc, hx, hl⟩ := Stages.seen_eq_iff.mp h.seen
  have hx : p.crossover = q.crossover := hx
  have hl : p.leftover = q.leftover := hl
  obtain ⟨hlines, hvalue⟩ := hf.retune r hc
  have hfit := fits_retune hk h.left r
  have hfit' := fits_retune hk h.right r
  refine ⟨by rw [retune_lines, retune_lines]; exact hlines, ?_⟩
  change (RateConverter.retune S p.converter r).value.map f =
    (RateConverter.retune S q.converter r).value.map f at hvalue
  cases hv : (RateConverter.retune S p.converter r).value with
  | error e =>
    rw [hv] at hvalue
    cases hv' : (RateConverter.retune S q.converter r).value with
    | error e' =>
      rw [hv'] at hvalue
      cases hvalue
      rw [retune_error hv, retune_error hv']
      exact ⟨rfl, h⟩
    | ok b => rw [hv'] at hvalue; cases hvalue
  | ok b =>
    rw [hv] at hvalue
    obtain ⟨b', hv', hb⟩ := exists_of_map_eq_ok hvalue.symm
    rw [retune_ok hv] at hfit ⊢
    rw [retune_ok hv', ← hx] at hfit' ⊢
    cases hxo : p.crossover with
    | none =>
      simp only [hxo] at hfit hfit'
      exact ⟨rfl, hfit, hfit', Stages.seen_eq_iff.mpr ⟨hb.symm, rfl, hl⟩⟩
    | some x =>
      simp only [hxo] at hfit hfit'
      cases hy : x.setRate? r.output with
      | none =>
        simp only [hy] at hfit hfit' ⊢
        exact ⟨trivial, hfit, hfit', Stages.seen_eq_iff.mpr ⟨hb.symm, rfl, hl⟩⟩
      | some y =>
        simp only [hy] at hfit hfit' ⊢
        exact ⟨trivial, hfit, hfit', Stages.seen_eq_iff.mpr ⟨hb.symm, rfl, hl⟩⟩

/-! ## Starting anew -/

theorem reset_of_createCrossover {c : Config} {m : Matrix Float32} {x : Option Crossover}
    (h : createCrossover c m = .ok x) : x.map Crossover.reset = x := by
  rcases createCrossover_eq_ok.mp h with ⟨rfl, _⟩ | ⟨f, y, _, _, hy, rfl⟩
  · rfl
  · exact congrArg some (Crossover.reset_of_create? hy)

/-- Where there is no crossover there is none at other rates. -/
theorem createCrossover_at_none {c : Config} {m : Matrix Float32} (h : createCrossover c m = .ok none) (i o : Nat) :
    createCrossover (c.at i o) m = .ok none := by
  rcases createCrossover_eq_ok.mp h with ⟨_, hn⟩ | ⟨f, y, _, _, _, hy⟩
  · exact createCrossover_eq_ok.mpr (.inl ⟨rfl, hn⟩)
  · cases hy

/-- A crossover that a reset makes what is created is so at another rate, if it can take
    it. -/
theorem createCrossover_at_some {c : Config} {m : Matrix Float32} {o : Nat} {x y : Crossover}
    (h : createCrossover c m = .ok (some x.reset)) (hy : x.setRate? o = some y) (i : Nat) :
    createCrossover (c.at i o) m = .ok (some y.reset) := by
  rcases createCrossover_eq_ok.mp h with ⟨hn, _⟩ | ⟨f, z, hf, hm, hz, hx⟩
  · cases hn
  · cases hx
    exact createCrossover_eq_ok.mpr (.inr ⟨f, _, hf, hm, Crossover.create?_of_setRate? hz hy, rfl⟩)

/-- A reset makes of `p` what is created for the rates `r`, as far as it is seen. -/
def Remade (c : Config) (f : β → β) (make : Rates → Nat → Except Fault β) (r : Rates) (p : Pipeline β S) : Prop :=
  ∃ q, create (c.at r.input r.output) c.matrix (make r) = .ok q ∧ p.stages.reset.seen f = q.stages.seen f

variable {make : Rates → Nat → Except Fault β} {r : Rates}

theorem remade_iff : Remade (S := S) c f make r p ↔
    ∃ b, make r c.width = .ok b ∧ f (RateConverter.reset S p.converter) = f b ∧
      createCrossover (c.at r.input r.output) c.matrix = .ok (p.crossover.map Crossover.reset) := by
  constructor
  · rintro ⟨q, hq, hs⟩
    obtain ⟨b, x, hb, hx, rfl⟩ := create_eq_ok.mp hq
    obtain ⟨hsb, hsx, _⟩ := Stages.seen_eq_iff.mp hs
    exact ⟨b, hb, hsb, hx.trans (congrArg Except.ok hsx.symm)⟩
  · rintro ⟨b, hb, hs, hx⟩
    exact ⟨_, create_eq_ok.mpr ⟨b, _, hb, hx, rfl⟩, Stages.seen_eq_iff.mpr ⟨hs, rfl, rfl⟩⟩

theorem remade_create (hr : Remakes S Ok f fun r => make r c.width)
    (h : create (c.at r.input r.output) c.matrix (make r) = .ok p) :
    Remade c f make r p := by
  obtain ⟨b, x, hb, hx, rfl⟩ := create_eq_ok.mp h
  exact remade_iff.mpr ⟨b, hb, (hr.made hb).2, hx.trans (congrArg Except.ok (reset_of_createCrossover hx).symm)⟩

theorem remade_reset (hf : Forgets S c.width Ok f) (hp : p.Fits c Ok) (h : Remade c f make r p) :
    Remade c f make r p.reset := by
  obtain ⟨q, hq, hs⟩ := h
  exact ⟨q, hq, (Stages.reset_reset hf hp.stages).trans hs⟩

theorem remade_run [Sample S] (hc : c.Shaped) (hk : Contract S c.width Ok) (hf : Forgets S c.width Ok f)
    (hp : p.Fits c Ok)
    (h : Remade c f make r p) (aligned : Bool) (bytes : List UInt8) :
    Remade c f make r (p.run aligned bytes).value.2 := by
  obtain ⟨q, hq, hs⟩ := h
  refine ⟨q, hq, ?_⟩
  rw [(run_stages hc hk hp aligned bytes).2.1, Stages.reset_run hc hk hf hp.stages bytes, hs]

theorem remade_retune (hr : Remakes S Ok f fun r => make r c.width) (hp : p.Fits c Ok) (h : Remade c f make r p)
    {r' : Rates} (hok : (p.retune r').value.1 = .ok ()) : Remade c f make r' (p.retune r').value.2 := by
  obtain ⟨a, ha, hs, hx⟩ := remade_iff.mp h
  have ht := p.retuned r'
  generalize (p.retune r').value = v at hok ht
  cases ht with
  | refused _ => cases hok
  | halted _ _ _ => cases hok
  | plain hv hxo =>
    obtain ⟨a', ha', hs'⟩ := hr.retune hp.stages.converter ha hs hv
    rw [hxo] at hx
    refine remade_iff.mpr ⟨a', ha', hs', ?_⟩
    rw [hxo]
    exact createCrossover_at_none hx r'.input r'.output
  | both hv hxo hy =>
    obtain ⟨a', ha', hs'⟩ := hr.retune hp.stages.converter ha hs hv
    rw [hxo] at hx
    exact remade_iff.mpr ⟨a', ha', hs', createCrossover_at_some (c := c.at r.input r.output) hx hy r'.input⟩

/-- After a reset a pipeline is alike to one that is created for the rates it has. -/
theorem Remade.alike (hc : c.Shaped) (hk : Contract S c.width Ok) (hr : Remakes S Ok f fun r => make r c.width)
    (hp : p.Fits c Ok) (h : Remade c f make r p) :
    ∃ q, create (c.at r.input r.output) c.matrix (make r) = .ok q ∧ Alike c Ok f p.reset q := by
  obtain ⟨q, hq, hs⟩ := h
  have hfit : q.Fits (c.at r.input r.output) Ok := fits_create ⟨hc.1, hc.2, hc.3, hc.4⟩ (fun hb => (hr.made hb).1) hq
  exact ⟨q, hq, fits_reset hk hp, fits_at_iff.mp hfit, hs⟩

end Pipeline

end PcmConvert
