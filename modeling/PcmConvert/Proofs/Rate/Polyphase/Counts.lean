/-
  PcmConvert.Proofs.Rate.Polyphase.Counts — how many frames a cascade gives. Each filter
  rounds up once, over all the frames it was fed (`Rate.countAll`), however they were cut
  into calls: its phase carries what it has rounded. So the frames given never drift from the
  quotient of the rates, by which they are at most a frame ahead.

  Where no filter has anything to round (`Closes`) the count is exact (`countAll_of_closes`)
  and every phase is zero again (`Stage.closes_iff`). That is so after a number of frames
  exactly if the rates give a whole number of frames for it, by their quotient in lowest
  terms (`convertAll_never_drifts`).
-/

import PcmConvert.Proofs.Rate.Polyphase.Interleaved

namespace PcmConvert

open Number

namespace Rate

/-! ## Filters one after the other -/

/-- How many frames come out of filters one after the other for `m` frames in. -/
def countAll : List Filter → Nat → Nat
  | [], m => m
  | f :: r, m => countAll r (f.count m)

/-- How often filters one after the other raise the rate. -/
def upAll : List Filter → Nat
  | [] => 1
  | f :: r => f.up * upAll r

/-- What they keep one frame of. -/
def downAll : List Filter → Nat
  | [] => 1
  | f :: r => f.down * downAll r

/-- After `m` frames in, no filter has anything to round. -/
def Closes : List Filter → Nat → Prop
  | [], _ => True
  | f :: r, m => f.down ∣ m * f.up ∧ Closes r (f.count m)

instance decidableCloses : (fs : List Filter) → (m : Nat) → Decidable (Closes fs m)
  | [], _ => .isTrue trivial
  | f :: r, m =>
    have := decidableCloses r (f.count m)
    inferInstanceAs (Decidable (f.down ∣ m * f.up ∧ Closes r (f.count m)))

theorem downAll_pos (fs : List Filter) : 0 < downAll fs := by
  induction fs with
  | nil => exact Nat.one_pos
  | cons f fs ih => exact Nat.mul_pos f.down_pos ih

theorem Filter.le_count_mul (f : Filter) (m : Nat) : m * f.up ≤ f.count m * f.down := le_ceilDiv_mul _ f.down_pos

/-- What divides is not rounded. -/
theorem Filter.count_mul_eq_iff (f : Filter) (m : Nat) : f.count m * f.down = m * f.up ↔ f.down ∣ m * f.up := by
  constructor
  · intro h
    exact ⟨f.count m, by rw [← h, Nat.mul_comm]⟩
  · rintro ⟨k, hk⟩
    rw [count, hk, Nat.mul_comm f.down, ceilDiv_mul_right k f.down_pos]

/-- Filters never give less than they promise. -/
theorem le_countAll_mul (fs : List Filter) (m : Nat) : m * upAll fs ≤ countAll fs m * downAll fs := by
  induction fs generalizing m with
  | nil => exact Nat.le_refl _
  | cons f fs ih =>
    calc m * (f.up * upAll fs)
        = m * f.up * upAll fs := (Nat.mul_assoc _ _ _).symm
      _ ≤ f.count m * f.down * upAll fs := Nat.mul_le_mul_right _ (f.le_count_mul m)
      _ = f.count m * upAll fs * f.down := Nat.mul_right_comm _ _ _
      _ ≤ countAll fs (f.count m) * downAll fs * f.down := Nat.mul_le_mul_right _ (ih _)
      _ = countAll fs (f.count m) * (f.down * downAll fs) := by rw [Nat.mul_assoc, Nat.mul_comm (downAll fs)]

/-- With nothing to round they give just that. -/
theorem countAll_of_closes {fs : List Filter} {m : Nat} (h : Closes fs m) :
    countAll fs m * downAll fs = m * upAll fs := by
  induction fs generalizing m with
  | nil => rfl
  | cons f fs ih =>
    have hfirst := (f.count_mul_eq_iff m).mpr h.1
    calc countAll fs (f.count m) * (f.down * downAll fs)
        = countAll fs (f.count m) * downAll fs * f.down := by rw [Nat.mul_comm f.down, Nat.mul_assoc]
      _ = f.count m * upAll fs * f.down := by rw [ih h.2]
      _ = f.count m * f.down * upAll fs := Nat.mul_right_comm _ _ _
      _ = m * (f.up * upAll fs) := by rw [hfirst, Nat.mul_assoc]

/-- What closes closes over and over. -/
theorem Closes.mul {fs : List Filter} {m : Nat} (h : Closes fs m) (q : Nat) : Closes fs (m * q) := by
  induction fs generalizing m with
  | nil => trivial
  | cons f fs ih =>
    have hmul : m * q * f.up = m * f.up * q := Nat.mul_right_comm _ _ _
    have hdvd : f.down ∣ m * q * f.up := hmul ▸ Nat.dvd_mul_right_of_dvd h.1 q
    have hcount : f.count (m * q) = f.count m * q := by
      apply Nat.eq_of_mul_eq_mul_right f.down_pos
      rw [(f.count_mul_eq_iff _).mpr hdvd, hmul, ← (f.count_mul_eq_iff m).mpr h.1, Nat.mul_right_comm]
    exact ⟨hdvd, hcount ▸ ih h.2⟩

namespace Stage

/-- A cascade gives what its filters give one after the other. -/
theorem length_runAll_anew {n : Nat} {ss : List Stage} (ht : ∀ s ∈ ss, s.filter.Tabled)
    (hs : ∀ s ∈ ss, Fed s.filter n [] s) (x : List (Frame Int16)) :
    (runAll ss x).1.length = countAll (ss.map filter) x.length := by
  induction ss generalizing x with
  | nil => rfl
  | cons s ss ih =>
    obtain ⟨hts, htss⟩ := List.forall_mem_cons.mp ht
    obtain ⟨hfed, hrest⟩ := List.forall_mem_cons.mp hs
    obtain ⟨hcount, -, -⟩ := run_anew hts hfed x
    simp only [runAll, List.map_cons, countAll, ← hcount]
    exact ih htss hrest _

/-- The phases are zero exactly if no filter has anything to round. -/
theorem closes_iff {n : Nat} {ss : List Stage} (ht : ∀ s ∈ ss, s.filter.Tabled)
    (hs : ∀ s ∈ ss, Fed s.filter n [] s) (x : List (Frame Int16)) :
    Closes (ss.map filter) x.length ↔ ∀ s ∈ (runAll ss x).2, s.phase = 0 := by
  induction ss generalizing x with
  | nil => simp [Closes, runAll]
  | cons s ss ih =>
    obtain ⟨hts, htss⟩ := List.forall_mem_cons.mp ht
    obtain ⟨hfed, hrest⟩ := List.forall_mem_cons.mp hs
    obtain ⟨hcount, -, hend⟩ := run_anew hts hfed x
    have hphase := hend.phase
    simp only [runAll, List.map_cons, Closes, List.forall_mem_cons, ← hcount]
    rw [ih htss hrest, ← Filter.count_mul_eq_iff]
    refine and_congr_left fun _ => ?_
    omega

end Stage

/-! ## The table -/

namespace Cascade

variable {c : Cascade}

/-- Both filters together raise and lower the rate as the rates say, and close after as many
    frames as the quotient of the rates in lowest terms needs. -/
theorem upAll_of_mem (hc : c ∈ all) : c.input * upAll c.filters = c.output * downAll c.filters ∧ 0 < c.input ∧
    Closes c.filters (c.input / Nat.gcd c.input c.output) := by
  revert c
  decide +kernel

/-- The count is that of the rates exactly if no filter has anything to round. -/
theorem countAll_mul_of_closes (hc : c ∈ all) {m : Nat} (h : Closes c.filters m) :
    countAll c.filters m * c.input = m * c.output := by
  obtain ⟨hrates, -, -⟩ := upAll_of_mem hc
  apply Nat.eq_of_mul_eq_mul_right (downAll_pos c.filters)
  rw [Nat.mul_right_comm, countAll_of_closes h, Nat.mul_right_comm, Nat.mul_assoc, hrates, Nat.mul_assoc]

theorem closes_iff_dvd (hc : c ∈ all) (m : Nat) : Closes c.filters m ↔ c.input / Nat.gcd c.input c.output ∣ m := by
  obtain ⟨-, hpos, hclose⟩ := upAll_of_mem hc
  constructor
  · intro h
    have hg := Nat.gcd_pos_of_pos_left c.output hpos
    have hwhole : c.input ∣ m * c.output := ⟨_, (countAll_mul_of_closes hc h).symm.trans (Nat.mul_comm _ _)⟩
    -- in lowest terms, the rate before has nothing in common with the rate after
    have hlowest : c.input / Nat.gcd c.input c.output ∣ m * (c.output / Nat.gcd c.input c.output) := by
      rw [← Nat.mul_div_assoc _ (Nat.gcd_dvd_right _ _)]
      exact Nat.div_dvd_div (Nat.gcd_dvd_left _ _) hwhole
    exact (Nat.coprime_div_gcd_div_gcd hg).dvd_of_dvd_mul_right hlowest
  · rintro ⟨q, rfl⟩
    exact hclose.mul q

theorem ceilDiv_le_countAll (hc : c ∈ all) (m : Nat) : ceilDiv (m * c.output) c.input ≤ countAll c.filters m := by
  obtain ⟨hrates, hpos, -⟩ := upAll_of_mem hc
  rw [ceilDiv_le_iff hpos]
  apply Nat.le_of_mul_le_mul_right _ (downAll_pos c.filters)
  calc m * c.output * downAll c.filters
      = m * upAll c.filters * c.input := by rw [Nat.mul_assoc, ← hrates, Nat.mul_comm c.input, Nat.mul_assoc]
    _ ≤ countAll c.filters m * downAll c.filters * c.input := Nat.mul_le_mul_right _ (le_countAll_mul _ m)
    _ = countAll c.filters m * c.input * downAll c.filters := Nat.mul_right_comm _ _ _

end Cascade

end Rate

open Rate

namespace Polyphase

/-- As at the start, or just set to the pair of rates of `c`, whatever it ran before. -/
inductive Fresh (n : Nat) (c : Cascade) : Polyphase → Prop
  | start {s : Polyphase} : AtStart n c s → Fresh n c s
  | retune {s t : Polyphase} {r : Rates} : RateConverter.Reached Int16 n (fun r => create n r.input r.output) s →
      (RateConverter.retune Int16 s r).value = .ok t → t.cascade = c → Fresh n c t

theorem Fresh.atStart {n : Nat} {c : Cascade} {s : Polyphase} (h : Fresh n c s) : AtStart n c s := by
  cases h with
  | start h => exact h
  | retune hs ht hcas =>
    have hmade := create_of_retune (fits_of_reached hs) ht
    obtain ⟨c', hfind, hs'⟩ := create_eq_ok hmade
    obtain ⟨-, hi, ho⟩ := Cascade.find?_eq_some hfind
    rw [← hi, ← ho] at hmade
    rw [hs'] at hcas
    obtain rfl : c' = c := hcas
    exact .made hmade

theorem AtStart.fits {n : Nat} {c : Cascade} (hc : c ∈ Cascade.all) {s : Polyphase} (h : AtStart n c s) :
    Fits n s ∧ s.cascade = c := by
  cases h with
  | made h =>
    obtain ⟨c', hfind, hs⟩ := create_eq_ok h
    rw [Cascade.find?_of_mem hc] at hfind
    exact ⟨fits_create h, by rw [hs]; exact (Option.some.inj hfind).symm⟩
  | reset h hcas => exact ⟨(contract n).reset (fits_of_reached h), hcas⟩

/-- However a stream is cut into calls since it began, the frames that come out are those of
    the filters, each of which rounds up once: no fewer than the rates promise for all the
    frames in, and at most one more. And whenever they promise a whole number, by their quotient
    in lowest terms, it is exact, and then only is every phase zero again. -/
theorem convertAll_never_drifts {n : Nat} {c : Cascade} (hc : c ∈ Cascade.all) {s : Polyphase} (h : Fresh n c s)
    (calls : List (List (Frame Int16))) :
    let m := calls.flatten.length
    let total := (RateConverter.convertAll s calls).1.flatten.length
    let t := (RateConverter.convertAll s calls).2
    ((∃ f, c.filters = [f] ∧ total = ceilDiv (m * f.up) f.down) ∨
        ∃ f g, c.filters = [f, g] ∧ total = ceilDiv (ceilDiv (m * f.up) f.down * g.up) g.down) ∧
      (ceilDiv (m * c.output) c.input ≤ total ∧ total ≤ ceilDiv (m * c.output) c.input + 1) ∧
      (c.input / Nat.gcd c.input c.output ∣ m → total * c.input = m * c.output ∧ total = m * c.output / c.input) ∧
      (c.input / Nat.gcd c.input c.output ∣ m ↔ ∀ u ∈ t.stages, u.phase = 0) := by
  intro m total t
  have hstart := h.atStart
  obtain ⟨hfilters, hfed⟩ := hstart.fed hc
  have htabled : ∀ u ∈ s.stages, u.filter.Tabled := fun u hu => (hstart.ready hc u hu).tabled
  obtain ⟨hframes, hstages⟩ := convertAll_eq s calls
  have htotal : total = countAll c.filters m := by
    show (RateConverter.convertAll s calls).1.flatten.length = _
    rw [hframes, Stage.length_runAll_anew htabled hfed, hfilters]
  obtain ⟨-, hpos, -⟩ := Cascade.upAll_of_mem hc
  refine ⟨?_, ⟨?_, ?_⟩, ?_, ?_⟩
  · rcases Cascade.one_or_two hc with ⟨f, hf⟩ | ⟨f, g, hf⟩
    · exact .inl ⟨f, hf, by rw [htotal, hf]; rfl⟩
    · exact .inr ⟨f, g, hf, by rw [htotal, hf]; rfl⟩
  · rw [htotal]
    exact Cascade.ceilDiv_le_countAll hc m
  · obtain ⟨hfits, rfl⟩ := hstart.fits hc
    show (RateConverter.convertAll s calls).1.flatten.length ≤ _
    rw [hframes, Stage.length_runAll]
    exact yieldAll_le_succ hfits m
  · intro hdvd
    have hexact := Cascade.countAll_mul_of_closes hc ((Cascade.closes_iff_dvd hc m).mpr hdvd)
    rw [← htotal] at hexact
    exact ⟨hexact, by rw [← hexact, Nat.mul_div_cancel _ hpos]⟩
  · rw [← Cascade.closes_iff_dvd hc, ← hfilters, hstages]
    exact Stage.closes_iff htabled hfed _

/-- The first filter of two rounds up to a second frame, and the second filter keeps both. -/
example : countAll [Filter.up21down20, Filter.up7down8] 1 = 2 ∧ ceilDiv (1 * 44100) 48000 = 1 := by decide

/-- Set from 8000 and 48000 to 48000 and 44100 after a frame, then fed in pieces: 160 frames give 147, and another one
    gives two. -/
theorem convertAll_never_drifts_retuned :
    let c : Cascade := ⟨48000, 44100, [.up21down20, .up7down8]⟩
    let calls : List (List (Frame Int16)) := [List.replicate 100 [1, -1], [], List.replicate 60 [2, -2]]
    c ∈ Cascade.all ∧ ∃ s, Fresh 2 c s ∧
      (RateConverter.convertAll s calls).1.flatten.length = 147 ∧
      (∀ u ∈ (RateConverter.convertAll s calls).2.stages, u.phase = 0) ∧
      (RateConverter.convertAll s (calls ++ [[[3, -3]]])).1.flatten.length = 149 := by
  intro c calls
  have hc : c ∈ Cascade.all := (Cascade.find?_eq_some (show Cascade.find? 48000 44100 = some c from rfl)).1
  have hmade : RateConverter.Reached Int16 2 (fun r => create 2 r.input r.output) _ :=
    .made (r := ⟨8000, 48000, by decide, by decide⟩) rfl
  have hran := RateConverter.Reached.convert hmade (show Uniform 2 [[(9 : Int16), 9]] from Uniform.cons rfl Uniform.nil)
  have hfresh : Fresh 2 c _ := .retune (r := ⟨48000, 44100, by decide, by decide⟩) hran rfl rfl
  have hlen : calls.flatten.length = 160 := by
    simp only [calls, List.flatten_cons, List.flatten_nil, List.length_append, List.length_replicate, List.length_nil]
  have hlen' : (calls ++ [[[3, -3]]]).flatten.length = 161 := by
    rw [List.flatten_append, List.length_append, hlen]
    rfl
  obtain ⟨-, -, hexact, hphases⟩ := convertAll_never_drifts hc hfresh calls
  obtain ⟨hcount, -⟩ := convertAll_never_drifts hc hfresh (calls ++ [[[3, -3]]])
  rw [hlen] at hexact hphases
  rw [hlen'] at hcount
  have hdvd : c.input / Nat.gcd c.input c.output ∣ 160 := by decide
  refine ⟨hc, _, hfresh, (hexact hdvd).2.trans (by decide), hphases.mp hdvd, ?_⟩
  rcases hcount with ⟨f, hf, -⟩ | ⟨f, g, hf, hcount⟩
  · cases (List.cons.inj hf).2
  · cases hf
    exact hcount

end Polyphase

end PcmConvert
