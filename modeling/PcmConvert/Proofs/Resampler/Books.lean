/-
  PcmConvert.Proofs.Resampler.Books — the accounts of the methods that take whole chunks.
  Books are kept from the calls alone: what was passed to runs, how much of it went into
  chunks, what came out. In every state that calls lead to they balance
  (`frames_accounted`): what is carried over is the frames behind the last whole chunk of
  all that was passed in since the stream began, however it was cut into runs and whatever
  rates it was run at; and `fft` has given a block for each block of what it took since it
  was built for its rates.

  The converter is built anew by a change of rates, which leaves the slot alone. So the two
  accounts begin at different times: the one of the input at a restart, the one of the
  output also at other rates.
-/

import PcmConvert.Proofs.Resampler.Bound
import PcmConvert.Proofs.Resampler.Invariant

namespace PcmConvert

open RateConverter

/-! ## Behind the last chunk -/

namespace Chunked

/-- The frames behind the last whole chunk. -/
def tail {α : Type} (fs : List α) : List α := fs.drop (fs.length - fs.length % chunk)

variable {α : Type}

@[simp] theorem tail_nil : tail ([] : List α) = [] := List.drop_nil

@[simp] theorem length_tail (fs : List α) : (tail fs).length = fs.length % chunk := by
  rw [tail, List.length_drop]
  exact Nat.sub_sub_self (Nat.mod_le _ _)

/-- Whole chunks in front may be taken off before. -/
theorem tail_append (a b : List α) : tail (tail a ++ b) = tail (a ++ b) := by
  have hle : a.length - a.length % chunk ≤ a.length := Nat.sub_le _ _
  have hchunks : chunk ∣ a.length - a.length % chunk := Nat.dvd_sub_mod _
  have hfront : tail a ++ b = (a ++ b).drop (a.length - a.length % chunk) := by
    rw [tail, List.drop_append_of_le_length hle]
  obtain ⟨q, hq⟩ := hchunks
  have hmod : ((a ++ b).length - (a.length - a.length % chunk)) % chunk = (a ++ b).length % chunk := by
    rw [hq]
    exact Nat.sub_mul_mod (by rw [← hq, List.length_append]; omega)
  rw [hfront, tail, tail, List.length_drop, hmod, List.drop_drop]
  congr 1
  have hrest := Nat.mod_le ((a ++ b).length - (a.length - a.length % chunk)) chunk
  rw [hmod] at hrest
  rw [List.length_append] at hrest ⊢
  omega

/-- The frames of whole chunks. -/
theorem chunk_mul_div (n : Nat) : chunk * (n / chunk) = n - n % chunk := by
  have := Nat.mod_add_div n chunk
  omega

theorem filled_create {m : Method} (hm : m = .fft) (n : Nat) (r : Rates) (v : Bool) :
    (create m n r v).engine.filled = some 0 := by
  simp [create, Engine.create, hm, Engine.filled]

/-- A block that is open counts as if it were filled now. -/
theorem yield_of_filled {s : Chunked} {k : Nat} (h : s.engine.filled = some k) (n : Nat) :
    s.yield n = (k + chunk * (n / chunk)) / blockIn s.rates * blockOut s.rates := by
  unfold yield yieldChunks
  cases he : s.engine with
  | sinc clock past =>
    rw [he] at h
    cases h
  | fft filled begun before =>
    rw [he] at h
    cases h
    rfl

/-- `fft` is always built anew for other rates. -/
theorem retune_filled {s : Chunked} {k : Nat} (h : s.engine.filled = some k) (r : Rates) :
    (retune s r).value = create s.method s.channels r s.variableRate := by
  unfold retune
  cases he : s.engine with
  | sinc clock past =>
    rw [he] at h
    cases h
  | fft filled begun before => rfl

end Chunked

/-! ## The books -/

namespace Resampler

open Chunked (chunk blockIn blockOut)

structure Books where
  /-- The bytes passed to runs since the stream began. -/
  passed : List UInt8 := []
  /-- The frames that went into chunks since the converter was built for its rates. -/
  accepted : Nat := 0
  /-- The bytes that came out since then. -/
  given : Nat := 0

namespace Books

/-- After a run that took so many frames. -/
def ran (l : Books) (bytes : List UInt8) (frames : Nat) (out : List UInt8) : Books :=
  ⟨l.passed ++ bytes, l.accepted + frames, l.given + out.length⟩

/-- The converter is built for other rates. -/
def rebuilt (l : Books) : Books := { l with accepted := 0, given := 0 }

/-- After a call. The frames that a run took are those that were carried over or passed to
    it, and are not carried over now. -/
def enter (l : Books) (s : Resampler) (k : Call) : Books :=
  match k, (s.call k).value with
  | .run _ bytes, (.bytes out, t) =>
    l.ran bytes (s.engine.carried + bytes.length / s.config.input.frameSize - t.engine.carried) out
  | .reset, _ | .rewind _, _ => {}
  | .setInputRate _, (_, t) | .setOutputRate _, (_, t) => if t.rates = s.rates then l else l.rebuilt
  | _, _ => l

end Books

/-- The states that calls lead to, as long as none of them halts, with the books of the
    calls so far. -/
inductive Booked (b : Build) (c : Config) : Resampler → Books → Prop
  | create {s : Resampler} : (create b c).value = .ok s → Booked b c s {}
  | call {s : Resampler} {l : Books} (k : Call) : Booked b c s l → (∀ h, (s.call k).value.1 ≠ .halted h) →
      Booked b c (s.call k).value.2 (l.enter s k)

variable {b : Build} {c : Config} {s : Resampler} {l : Books}

theorem Booked.reachable (h : Booked b c s l) : Reachable b c s := by
  induction h with
  | create h => exact .create h
  | call k _ hh ih => exact .call k ih hh

/-- Every state that calls lead to has its books. -/
theorem exists_booked (h : Reachable b c s) : ∃ l, Booked b c s l := by
  induction h with
  | create h => exact ⟨_, .create h⟩
  | call k _ hh ih =>
    obtain ⟨l, hl⟩ := ih
    exact ⟨_, .call k hl hh⟩

end Resampler

/-! ## They balance -/

open Resampler (Books)

/-- The frames of some bytes in, as the converter is fed them. -/
def Config.feed (c : Config) (bytes : List UInt8) : List (Frame Float32) :=
  c.ahead (Codec.decodeFrames c.input.encoding c.input.channels bytes)

theorem Config.length_feed {c : Config} (hc : c.Shaped) (bytes : List UInt8) :
    (c.feed bytes).length = bytes.length / c.input.frameSize := by
  rw [feed, length_ahead, Codec.length_decodeFrames _ hc.input_pos]
  rfl

theorem Config.feed_append (c : Config) {a : List UInt8} (b : List UInt8) (h : c.input.frameSize ∣ a.length) :
    c.feed (a ++ b) = c.feed a ++ c.feed b := by
  rw [feed, Codec.decodeFrames_append _ _ a b h, ahead_append]
  rfl

namespace Pipeline

open Chunked (chunk blockIn blockOut tail)

/-- The books `l` agree with a pipeline whose converter is `x`. -/
structure Balanced (c : Config) (l : Books) (p : Pipeline FloatConverter Float32) (x : Chunked) : Prop where
  converter : p.converter = .native x
  whole : c.input.frameSize ∣ l.passed.length
  leftover : p.leftover = tail (c.feed l.passed)
  chunks : chunk ∣ l.accepted
  filled : x.method = .fft → x.engine.filled = some (l.accepted % blockIn x.rates)
  given : x.method = .fft → l.given = l.accepted / blockIn x.rates * blockOut x.rates * c.output.frameSize

variable {c : Config} {l : Books} {p q : Pipeline FloatConverter Float32} {x : Chunked}

/-- A converter that was just built has taken and given nothing. -/
theorem balanced_anew {m : Method} {n : Nat} {r : Rates} {v : Bool} (hx : p.converter = .native (.create m n r v))
    (hw : c.input.frameSize ∣ l.passed.length) (hl : p.leftover = tail (c.feed l.passed)) :
    Balanced c l.rebuilt p (.create m n r v) where
  converter := hx
  whole := hw
  leftover := hl
  chunks := Nat.dvd_zero _
  filled hm := by
    show (Chunked.create m n r v).engine.filled = some (0 % blockIn r)
    rw [Chunked.filled_create (show m = .fft from hm), Nat.zero_mod]
  given _ := by
    show 0 = 0 / blockIn r * blockOut r * c.output.frameSize
    rw [Nat.zero_div, Nat.zero_mul, Nat.zero_mul]

theorem balanced_empty (hc : c.Shaped) {m : Method} {n : Nat} {r : Rates} {v : Bool}
    (hx : p.converter = .native (.create m n r v)) (hp : p.carried = 0) : Balanced c {} p (.create m n r v) := by
  have hfeed : c.feed [] = [] := by
    apply List.eq_nil_of_length_eq_zero
    rw [Config.length_feed hc, List.length_nil, Nat.zero_div]
  refine balanced_anew (l := {}) hx (Nat.dvd_zero _) ?_
  rw [leftover_of_carried_eq_zero hp, hfeed, Chunked.tail_nil]

theorem Balanced.reset (hc : c.Shaped) (h : Balanced c l p x) : ∃ y, Balanced c {} p.reset y := by
  refine ⟨_, balanced_empty hc (m := x.method) (n := x.channels) (r := x.rates) (v := x.variableRate) ?_ rfl⟩
  show RateConverter.reset Float32 p.converter = _
  rw [h.converter]
  rfl

/-- A change of rates leaves what is carried over, and changes the converter alone. -/
theorem Balanced.retuned (h : Balanced c l p x) {r : Rates} (hok : (p.retune r).value.1 = .ok ()) :
    (p.retune r).value.2.converter = .native (x.retune r).value ∧ (p.retune r).value.2.leftover = p.leftover := by
  have hr := p.retuned r
  have hv : (RateConverter.retune Float32 p.converter r).value = .ok (.native (x.retune r).value) := by
    rw [h.converter]
    rfl
  generalize (p.retune r).value = v at hok hr
  cases hr with
  | refused _ => cases hok
  | halted _ _ _ => cases hok
  | plain hb _ =>
    cases hv.symm.trans hb
    exact ⟨rfl, rfl⟩
  | both hb _ _ =>
    cases hv.symm.trans hb
    exact ⟨rfl, rfl⟩

theorem Balanced.retune (h : Balanced c l p x) {r : Rates} (hok : (p.retune r).value.1 = .ok ()) :
    ∃ y, Balanced c l.rebuilt (p.retune r).value.2 y := by
  obtain ⟨hx, hl⟩ := h.retuned hok
  by_cases hm : x.method = .fft
  · rw [Chunked.retune_filled (h.filled hm)] at hx
    exact ⟨_, balanced_anew hx h.whole (hl.trans h.leftover)⟩
  · -- a clock has no block that could be open
    have hm' : (x.retune r).value.method ≠ .fft := by
      rcases Chunked.retune_value x r with he | ⟨clock, past, he⟩
      · rwa [he]
      · rwa [he]
    exact ⟨_, hx, h.whole, hl.trans h.leftover, Nat.dvd_zero _, fun hf => absurd hf hm', fun hf => absurd hf hm'⟩

/-- A run feeds the converter `fed` and keeps what is behind its last whole chunk. -/
structure Chunks (c : Config) (x : Chunked) (fed : List (Frame Float32)) (out : List UInt8)
    (q : Pipeline FloatConverter Float32) : Prop where
  converter : q.converter = .native (x.convert fed).next
  leftover : q.leftover = tail fed
  given : out.length = x.yield fed.length * c.output.frameSize
  used : fed.length - q.carried = chunk * (fed.length / chunk)

theorem run_chunks (hc : c.Shaped) (hf : p.Fits c (FloatConverter.Fits c.width)) (hx : p.converter = .native x)
    (aligned : Bool) (bytes : List UInt8) :
    Chunks c x (p.stages.fed c bytes) (p.run aligned bytes).value.1 (p.run aligned bytes).value.2 := by
  have hx' : p.stages.converter = .native x := hx
  have hlen := length_run hc (FloatConverter.contract _) FloatConverter.length_convert hf aligned bytes
  obtain ⟨_, hstages, hnext⟩ := run_stages hc (FloatConverter.contract _) hf aligned bytes
  have hconverter := congrArg Stages.converter hstages
  have hleftover := congrArg Stages.leftover hstages
  simp only [Stages.run, hx'] at hconverter hleftover
  have hleft : (p.run aligned bytes).value.2.leftover = tail (p.stages.fed c bytes) := by
    refine hleftover.trans ?_
    show (p.stages.fed c bytes).drop ((p.stages.fed c bytes).length - (x.convert _).unconsumed) = _
    rw [Chunked.convert_unconsumed, tail]
  refine ⟨hconverter, hleft, ?_, ?_⟩
  · rw [hx, Nat.add_comm, ← hf.length_leftover] at hlen
    rw [Stages.length_fed hc]
    exact hlen
  · rw [← hnext.length_leftover, hleft, Chunked.length_tail, Chunked.chunk_mul_div]

/-- A run puts what it is passed behind what is carried over, and takes the whole chunks of
    both. -/
theorem Balanced.run (hc : c.Shaped) (hf : p.Fits c (FloatConverter.Fits c.width)) (h : Balanced c l p x)
    (aligned : Bool) {bytes : List UInt8} (hw : c.input.frameSize ∣ bytes.length) :
    let v := (p.run aligned bytes).value
    ∃ y, Balanced c (l.ran bytes (p.carried + bytes.length / c.input.frameSize - v.2.carried) v.1) v.2 y := by
  intro v
  have hfits : Chunked.Fits c.width x := by
    have := hf.stages.converter
    rwa [show p.stages.converter = _ from h.converter] at this
  obtain ⟨hx, hleft, hgiven, hused⟩ := run_chunks hc hf h.converter aligned bytes
  have hu : Uniform c.width (p.stages.fed c bytes) := Stages.fed_uniform hc hf.stages bytes
  have hlen : (p.stages.fed c bytes).length = p.carried + bytes.length / c.input.frameSize := by
    rw [Stages.length_fed hc]
    exact congrArg (· + _) hf.length_leftover
  have hfed : p.stages.fed c bytes = p.leftover ++ c.feed bytes := rfl
  have hfill := Chunked.filled_convert hfits hu
  obtain ⟨e, he⟩ := Chunked.convert_identity x (p.stages.fed c bytes)
  have hm : (x.convert (p.stages.fed c bytes)).next.method = x.method := by rw [he]
  have hr : (x.convert (p.stages.fed c bytes)).next.rates = x.rates := by rw [he]
  rw [← hlen, hused]
  refine ⟨_, hx, ?_, ?_, Nat.dvd_add h.chunks (Nat.dvd_mul_right _ _), ?_, ?_⟩
  · show c.input.frameSize ∣ (l.passed ++ bytes).length
    rw [List.length_append]
    exact Nat.dvd_add h.whole hw
  · show v.2.leftover = tail (c.feed (l.passed ++ bytes))
    rw [hleft, hfed, h.leftover, c.feed_append bytes h.whole, Chunked.tail_append]
  · intro hy
    rw [hfill, h.filled (hm.symm.trans hy), hr]
    exact congrArg some (Nat.mod_add_mod ..)
  · intro hy
    have hxm := hm.symm.trans hy
    rw [hr]
    show l.given + v.1.length = (l.accepted + _) / blockIn x.rates * _ * _
    rw [hgiven, h.given hxm, Chunked.yield_of_filled (h.filled hxm), ← Nat.add_mul, ← Nat.add_mul,
      ← Number.add_div_eq _ _ (Chunked.blockIn_pos x.rates)]

end Pipeline

namespace Resampler

open Chunked (chunk blockIn blockOut)

variable {b : Build} {c : Config} {s : Resampler} {l : Books}

/-- The books agree with a resampler whose converter takes whole chunks. -/
def Balanced (c : Config) (l : Books) (s : Resampler) : Prop :=
  ∃ p x, s.engine = .f32 p ∧ p.Balanced c l x

theorem balanced_create (h : (create b c).value = .ok s) (hm : s.method = .sinc ∨ s.method = .fft) :
    Balanced c {} s := by
  obtain ⟨hv, r, m, e, hc, he, rfl⟩ := create_eq_ok h
  have hprec : m.precision c.input.encoding c.output.encoding = .f32 := by
    rcases hm with rfl | rfl
    · rfl
    · rfl
  rw [Engine.create_f32 hprec] at he
  obtain ⟨p, hp, rfl⟩ := exists_of_map_eq_ok he
  obtain ⟨a, x, ha, _, rfl⟩ := Pipeline.create_eq_ok.mp hp
  have hnative : (Chunked.ofMethod b c.flags.variableRate c.width r m).map Converter.native = .ok a := by
    rcases hm with rfl | rfl
    · exact ha
    · exact ha
  obtain ⟨y, hy, rfl⟩ := exists_of_map_eq_ok hnative
  obtain ⟨_, rfl⟩ := Chunked.ofMethod_eq_ok hy
  exact ⟨_, _, rfl, Pipeline.balanced_empty (Config.shaped_of_validate hv) rfl rfl⟩

/-- A change of rates that is no change leaves the books. -/
theorem Balanced.change {rate i o : Nat} {g : Resampler → Logged (Except Refusal Unit × Resampler)}
    (hg : Change s.rates s.config rate i o g) (h : Balanced c l s) (hh : ∀ e, (g s).value.1 ≠ .error (.halt e)) :
    Balanced c (if (g s).value.2.rates = s.rates then l else l.rebuilt) (g s).value.2 := by
  have hsame : Balanced c (if s.rates = s.rates then l else l.rebuilt) s := by rwa [if_pos rfl]
  cases hg with
  | refused f _ hf =>
    rw [hf]
    exact hsame
  | same _ _ hf =>
    rw [hf s rfl]
    exact hsame
  | other r ci co side _ hother hr _ hf =>
    rw [hf s rfl rfl, setRates_value] at hh ⊢
    cases hv : (s.engine.retune r).value.1 with
    | error e =>
      cases e with
      | fault f =>
        rw [Engine.retune_fault hv]
        exact hsame
      | halt e =>
        rw [hv] at hh
        exact absurd rfl (hh e)
    | ok =>
      have hne : r ≠ s.rates := by
        rintro rfl
        exact hother ⟨hr.1.symm, hr.2.symm⟩
      obtain ⟨p, x, he, hp⟩ := h
      rw [he] at hv ⊢
      obtain ⟨y, hy⟩ := hp.retune hv
      show Balanced c (if r = s.rates then l else l.rebuilt) _
      rw [if_neg hne]
      exact ⟨_, y, rfl, hy⟩

theorem Balanced.reset (hc : c.Shaped) (h : Balanced c l s) : Balanced c {} { s with engine := s.engine.reset } := by
  obtain ⟨p, x, he, hp⟩ := h
  obtain ⟨y, hy⟩ := hp.reset hc
  exact ⟨_, y, congrArg Engine.reset he, hy⟩

theorem Balanced.run (hs : Sound b c s) (hm : s.method = .sinc ∨ s.method = .fft) (h : Balanced c l s) (aligned : Bool)
    {bytes : List UInt8} (hw : s.config.input.frameSize ∣ bytes.length) :
    let v := s.ran aligned bytes
    Balanced c (l.ran bytes (s.engine.carried + bytes.length / s.config.input.frameSize - v.2.engine.carried) v.1)
      v.2 := by
  have hpass : s.passthrough = false := by
    rw [← Bool.not_eq_true]
    intro hp
    rw [(hs.passthrough hp).1] at hm
    simp at hm
  have hsize : s.config.input.frameSize = c.input.frameSize := by
    rw [hs.config]
    rfl
  obtain ⟨p, x, he, hp⟩ := h
  have hf : p.Fits c (FloatConverter.Fits c.width) := by
    have hsound := hs.engine
    rw [he] at hsound
    cases hsound with
    | f32 _ hf _ => exact hf
  rw [hsize] at hw ⊢
  obtain ⟨y, hy⟩ := hp.run hs.shaped hf aligned hw
  simp only [ran, hpass, he]
  exact ⟨_, y, rfl, hy⟩

theorem call_run (aligned : Bool) {bytes : List UInt8} (hw : s.config.input.frameSize ∣ bytes.length) :
    (s.call (.run aligned bytes)).value = (.bytes (s.ran aligned bytes).1, (s.ran aligned bytes).2) := by
  simp only [call, bind, run_value aligned hw]
  rfl

theorem enter_run (l : Books) (aligned : Bool) {bytes : List UInt8} (hw : s.config.input.frameSize ∣ bytes.length) :
    l.enter s (.run aligned bytes) =
      l.ran bytes (s.engine.carried + bytes.length / s.config.input.frameSize -
        (s.ran aligned bytes).2.engine.carried) (s.ran aligned bytes).1 := by
  simp only [Books.enter, call_run aligned hw]

theorem balanced_call (hs : Sound b c s) (hm : s.method = .sinc ∨ s.method = .fft) (h : Balanced c l s) (k : Call)
    (hh : ∀ e, (s.call k).value.1 ≠ .halted e) : Balanced c (l.enter s k) (s.call k).value.2 := by
  cases k with
  | run aligned bytes =>
    by_cases hw : s.config.input.frameSize ∣ bytes.length
    · rw [enter_run l aligned hw, call_run aligned hw]
      exact h.run hs hm aligned hw
    · have hz : bytes.length % s.config.input.frameSize ≠ 0 := fun hz => hw (Nat.dvd_of_mod_eq_zero hz)
      refine absurd ?_ (hh (.partialFrame bytes.length s.config.input.frameSize))
      simp only [call, run]
      rw [if_pos hz]
      rfl
  | setInputRate rate =>
    exact h.change (change_setInputRate _ _ rate) fun e he => hh e (congrArg Answer.ofChange he)
  | setOutputRate rate =>
    exact h.change (change_setOutputRate _ _ rate) fun e he => hh e (congrArg Answer.ofChange he)
  | reset => exact h.reset hs.shaped
  | rewind frames =>
    have := h.reset hs.shaped
    rw [← Engine.rewind_eq_reset] at this
    exact this
  | maxBlock =>
    simp only [call, Books.enter]
    cases s.maxBlock <;> exact h
  | _ => exact h

theorem rates_ran (s : Resampler) (aligned : Bool) (bytes : List UInt8) : (s.ran aligned bytes).2.rates = s.rates := by
  unfold ran
  split <;> rfl

theorem method_ran (s : Resampler) (aligned : Bool) (bytes : List UInt8) :
    (s.ran aligned bytes).2.method = s.method := by
  unfold ran
  split <;> rfl

theorem method_change {rate i o : Nat} {g : Resampler → Logged (Except Refusal Unit × Resampler)}
    (hg : Change s.rates s.config rate i o g) : (g s).value.2.method = s.method := by
  cases hg with
  | refused f _ hf => rw [hf]; rfl
  | same _ _ hf => rw [hf s rfl]; rfl
  | other r ci co side _ _ _ _ hf =>
    rw [hf s rfl rfl, setRates_value]
    cases (s.engine.retune r).value.1 <;> rfl

/-- No call changes the method. -/
theorem method_call (s : Resampler) (k : Call) : (s.call k).value.2.method = s.method := by
  cases k with
  | run aligned bytes =>
    simp only [call, run]
    split
    · rfl
    · split
      · rfl
      · rfl
  | setInputRate rate => exact method_change (change_setInputRate _ _ rate)
  | setOutputRate rate => exact method_change (change_setOutputRate _ _ rate)
  | maxBlock =>
    simp only [call]
    cases s.maxBlock <;> rfl
  | _ => rfl

theorem balanced_of_booked (h : Booked b c s l) (hm : s.method = .sinc ∨ s.method = .fft) : Balanced c l s := by
  induction h with
  | create h => exact balanced_create h hm
  | call k hb hh ih =>
    rw [method_call] at hm
    exact balanced_call (sound_of_reachable hb.reachable) hm (ih hm) k hh

/-- Of all frames that were passed to runs since the stream began those behind the last
    whole chunk are carried over, and no others; and `fft` has given a block for each block
    of the frames that it took since it was built. -/
theorem frames_accounted (h : Booked b c s l) (hm : s.method = .sinc ∨ s.method = .fft) :
    s.engine.carried = l.passed.length / s.config.input.frameSize % chunk ∧
      (∃ p, s.engine = .f32 p ∧ p.leftover = Chunked.tail (s.config.feed l.passed)) ∧
      chunk ∣ l.accepted ∧
      (s.method = .fft →
        l.given = l.accepted / blockIn s.rates * blockOut s.rates * s.config.output.frameSize) := by
  have hr := h.reachable
  have hs := sound_of_reachable hr
  have hk := kept_of_reachable hr
  obtain ⟨p, x, he, hp⟩ := balanced_of_booked h hm
  have hruns := hk.runs
  have hsound := hs.engine
  rw [he] at hruns hsound
  have hx : Chunked.Runs s.method s.rates x := by
    have hc : FloatConverter.Runs s.method s.rates p.converter := hruns
    rwa [hp.converter] at hc
  have hlen : p.leftover.length = p.carried := by
    cases hsound with
    | f32 _ hf _ => exact hf.length_leftover
  rw [he, hs.config]
  refine ⟨?_, ⟨p, rfl, hp.leftover⟩, hp.chunks, fun hfft => ?_⟩
  · show p.carried = l.passed.length / c.input.frameSize % chunk
    rw [← hlen, hp.leftover, Chunked.length_tail, Config.length_feed hs.shaped]
  · rw [← hx.rates]
    exact hp.given (hx.method.trans hfft)

/-- Three frames, a change of the input rate, and 600 frames: two chunks, and a block. -/
theorem frames_accounted_monoDown :
    ∃ s l, Booked ⟨true⟩ (monoDown .fft) s l ∧ l.passed.length = 1206 ∧ s.engine.carried = 91 ∧
      l.accepted = 512 ∧ l.given = 882 := by
  obtain ⟨t, l, hb, hm, hin, hout, hblockIn, hblockOut, hpassed, haccepted⟩ : ∃ t l, Booked ⟨true⟩ (monoDown .fft) t l ∧
      t.method = .fft ∧ t.config.input.frameSize = 2 ∧ t.config.output.frameSize = 2 ∧
        blockIn t.rates = 320 ∧ blockOut t.rates = 441 ∧ l.passed.length = 6 ∧ l.accepted = 0 := by
    obtain ⟨s, hs⟩ : ∃ s, (create ⟨true⟩ (monoDown .fft)).value = .ok s := ⟨_, rfl⟩
    have hb := Booked.call (.setInputRate 32000) (Booked.call (.run true [1, 0, 2, 0, 3, 0]) (Booked.create hs)
      fun h => ?_) fun h => ?_
    · refine ⟨_, _, hb, ?_⟩
      cases hs
      exact ⟨rfl, rfl, rfl, rfl, rfl, rfl, rfl⟩
    · cases hs
      intro hh
      cases hh
    · cases hs
      intro hh
      cases hh
  obtain ⟨bytes, hn⟩ : ∃ bytes : List UInt8, bytes.length = 1200 := ⟨List.replicate 1200 0, List.length_replicate⟩
  have hw : t.config.input.frameSize ∣ bytes.length := by
    rw [hin, hn]
    decide
  have hb' := Booked.call (.run false bytes) hb (by simp [call_run false hw])
  rw [call_run false hw, enter_run l false hw] at hb'
  have hm' : (t.ran false bytes).2.method = .fft := by rw [method_ran, hm]
  obtain ⟨hbefore, _⟩ := frames_accounted hb (.inr hm)
  obtain ⟨hafter, _, _, hgiven⟩ := frames_accounted hb' (.inr hm')
  have hgiven := hgiven hm'
  simp only [config_ran, rates_ran, Books.ran, hin, hout, hblockIn, hblockOut, List.length_append, hpassed, hn,
    haccepted] at hbefore hafter hgiven hb'
  have hused : 0 + (t.engine.carried + 1200 / 2 - (t.ran false bytes).2.engine.carried) = 512 := by
    rw [hbefore, hafter]
    rfl
  rw [hused] at hb' hgiven
  exact ⟨_, _, hb', by simp [hpassed, hn], hafter, rfl, hgiven⟩

end Resampler

end PcmConvert
