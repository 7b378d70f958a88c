/-
  PcmConvert.Proofs.Mix.Copies — the short ways of a mix of 16-bit integers give what the
  long one gives.

  A gain of one is 65536 units of 2⁻¹⁶ and a gain of zero none, so the weighted sum of a row
  that moves an input (`Matrix.Moves`) is that input times 65536, or nothing; and the division
  undoes it, with no clamp to pass but the one that samples pass already (`mix_of_copied?`).
  So moving the samples is no more than a faster way to mix (`mixFrame_of_permutation`).

  Where each output is the input of its number the mix changes nothing (`apply_of_isIdentity`).
  A pipeline leaves it out then; one that mixes all the same brings the frames into the slot
  that would have stayed where they were, and no run tells the two apart (`run_of_skips`).

  Frames are mixed into the end of a buffer, which is extended first and written over then,
  sample by sample. Each frame is written where the one before it ends, so the buffer is what
  it was, and then the mixed frames (`mixInto_eq`).
-/

import PcmConvert.Proofs.Mix.StageOrder
import PcmConvert.Proofs.Pipeline.Reached

namespace PcmConvert

/-! ## Gains of one and of zero -/

theorem q16_of_beq_one {g : Float32} (h : (g == 1) = true) : q16 g = 65536 := by
  rw [Number.eq_one_of_beq h]
  decide +kernel

/-- There are two zeros. -/
theorem q16_of_beq_zero {g : Float32} (h : (g == 0) = true) : q16 g = 0 := by
  obtain ⟨_, _, rfl | ⟨rfl, _⟩ | ⟨rfl, _⟩⟩ := Float32.beq_iff_ne_nan_and_eq.mp h
  · decide +kernel
  · decide +kernel
  · decide +kernel

theorem dot_of_zeros {row : List Float32} (h : ∀ g ∈ row, (g == 0) = true) (xs : List Int) :
    dot xs (row.map q16) = 0 := by
  induction row generalizing xs with
  | nil => simp [dot]
  | cons g row ih =>
    obtain ⟨hg, hrow⟩ := List.forall_mem_cons.mp h
    cases xs with
    | nil => simp [dot]
    | cons x xs => rw [List.map_cons, dot_cons, q16_of_beq_zero hg, ih hrow, Int.mul_zero, Int.add_zero]

/-- The sum of a row with a one in one place, and zeros elsewhere. -/
theorem dot_of_single {row : List Float32} {i : Nat} {g : Float32} (hg : row[i]? = some g) (hone : (g == 1) = true)
    (hother : ∀ j w, row[j]? = some w → (w == 0) = false → j = i) (xs : List Int) :
    dot xs (row.map q16) = xs.getD i 0 * 65536 := by
  induction row generalizing i xs with
  | nil => cases hg
  | cons w row ih =>
    cases xs with
    | nil => simp [dot]
    | cons x xs =>
      rw [List.map_cons, dot_cons]
      cases i with
      | zero =>
        cases hg
        have hzeros : ∀ v ∈ row, (v == 0) = true := by
          intro v hv
          obtain ⟨j, hj⟩ := List.mem_iff_getElem?.mp hv
          rw [← Bool.not_eq_false]
          intro hne
          exact Nat.succ_ne_zero j (hother (j + 1) v hj hne)
        rw [q16_of_beq_one hone, dot_of_zeros hzeros, Int.add_zero]
        rfl
      | succ i =>
        have hw : (w == 0) = true := by
          rw [← Bool.not_eq_false]
          intro hne
          exact Nat.succ_ne_zero i (hother 0 w rfl hne).symm
        rw [q16_of_beq_zero hw, Int.mul_zero, Int.zero_add]
        exact ih hg (fun j v hj hne => Nat.succ.inj (hother (j + 1) v hj hne)) xs

/-! ## Rows that copy -/

namespace Matrix

theorem shown_eq {α : Type} {m : Matrix α} (hi : 0 < m.inputs) : m.shown = m.rows := if_neg (Nat.ne_of_gt hi)

theorem length_shown {α : Type} {m : Matrix α} (hi : 0 < m.inputs) : m.shown.length = m.outputs :=
  congrArg List.length (shown_eq hi)

section
variable {α : Type} [Gain α] {row : List α}

theorem filter_row (row : List α) :
    row.filter (fun g => !(g == 0)) = (row.zipIdx.filter fun g => !(g.1 == 0)).map Prod.fst := by
  conv => lhs; rw [← List.zipIdx_map_fst 0 row]
  exact List.filter_map

/-- A row that copies nothing has no gains. -/
theorem zeros_of_copied? (h : copied? row = some none) : row.filter (fun g => !(g == 0)) = [] := by
  rw [filter_row]
  unfold copied? at h
  split at h
  · next hf => rw [hf, List.map_nil]
  · split at h <;> cases h
  · cases h

theorem moves_of_copied? {s : Option Nat} (h : copied? row = some s) : Moves row := by
  have hmem {g : α} (hg : g ∈ row) (hz : (g == 0) = false) : g ∈ row.filter fun g => !(g == 0) :=
    List.mem_filter.mpr ⟨hg, by rw [hz]; rfl⟩
  cases s with
  | none =>
    have hf := zeros_of_copied? h
    refine ⟨by rw [hf]; exact Nat.zero_le 1, fun g hg hz => ?_⟩
    have := hmem hg hz
    rw [hf] at this
    cases this
  | some i =>
    unfold copied? at h
    split at h
    · cases h
    · next g j hf =>
      split at h
      · next hone =>
        have hsingle := (filter_row row).trans (congrArg _ hf)
        refine ⟨by rw [hsingle]; exact Nat.le_refl 1, fun x hx hz => ?_⟩
        have hx := hmem hx hz
        rw [hsingle] at hx
        rw [List.mem_singleton.mp hx]
        exact hone
      · cases h
    · cases h

/-- Every output copies an input or is silent exactly if every row moves an input as it is
    or is silent. -/
theorem exists_permutation_iff {m : Matrix α} (hi : 0 < m.inputs) :
    (∃ sources, m.permutation? = some sources) ↔ ∀ row ∈ m.rows, Moves row := by
  rw [← shown_eq hi]
  constructor
  · rintro ⟨sources, h⟩ row hrow
    have hmem := List.mem_map_of_mem (f := copied?) hrow
    rw [mapM_eq_some_iff.mp h] at hmem
    obtain ⟨s, _, hs⟩ := List.mem_map.mp hmem
    exact moves_of_copied? hs.symm
  · intro h
    refine ⟨m.shown.map fun row => (copied? row).getD none, mapM_eq_some_iff.mpr ?_⟩
    rw [List.map_map]
    refine List.map_congr_left fun row hrow => ?_
    obtain ⟨s, hs⟩ := exists_copied?_of_moves (h row hrow)
    simp [hs]

end

end Matrix

/-! ## Moved samples -/

namespace Remapper

/-- The weighted sum of a row that copies is what it copies. -/
theorem mix_of_copied? {row : List Float32} {s : Option Nat} (h : Matrix.copied? row = some s) (f : Frame Int16) :
    Sample.mix f row (row.map q16) = sample s f := by
  show clamp16 (dot (f.map Int16.toInt) (row.map q16) / 65536) = sample s f
  cases s with
  | none =>
    have hzeros : ∀ g ∈ row, (g == 0) = true := by
      simpa [List.filter_eq_nil_iff] using Matrix.zeros_of_copied? h
    rw [dot_of_zeros hzeros]
    show clamp16 (0 / 65536) = 0
    decide
  | some i =>
    obtain ⟨⟨g, hg, hone, _⟩, hother⟩ := Matrix.of_copied? h
    have hread : (f.map Int16.toInt).getD i 0 = (f.getD i 0).toInt := by
      by_cases hi : i < f.length
      · simp [List.getD_eq_getElem?_getD, hi]
      · simp [List.getD_eq_getElem?_getD, hi]
    rw [dot_of_single hg hone hother, Int.mul_ediv_cancel _ (by decide), hread]
    exact clamp16_toInt _

variable {m : Matrix Float32} {sources : List (Option Nat)}

/-- Where every output copies, moving the samples is mixing them. -/
theorem mixFrame_of_permutation (h : m.permutation? = some sources) (f : Frame Int16) :
    (ofMatrix m).mixFrame f = copyFrame sources f := by
  have hrows := mapM_eq_some_iff.mp h
  show m.shown.zipWith (Sample.mix f) (m.shown.map (·.map q16)) = _
  clear h
  generalize m.shown = rows at hrows
  induction rows generalizing sources with
  | nil =>
    obtain rfl : sources = [] := List.map_eq_nil_iff.mp hrows.symm
    rfl
  | cons row rows ih =>
    cases sources with
    | nil => cases hrows
    | cons s sources =>
      obtain ⟨hs, hrest⟩ := List.cons.inj hrows
      rw [List.map_cons, List.zipWith_cons_cons, mix_of_copied? hs, ih hrest]
      cases s <;> rfl

section
variable {S : Type} [Sample S]

theorem length_apply (r : Remapper) (fs : List (Frame S)) : (r.apply fs).length = fs.length := List.length_map ..

/-- The inputs in their order are the frame itself. -/
theorem copyFrame_range {n : Nat} {f : Frame S} (hf : f.length = n) : copyFrame ((List.range n).map some) f = f := by
  apply List.ext_getElem
  · simp [hf]
  · intro j hj hjf
    have hlt : j < ((List.range n).map some).length := by simpa [hf] using hjf
    rw [getElem_copyFrame f hlt hj]
    simp [sample, List.getD_eq_getElem?_getD, hjf]

/-- A mix whose outputs are the inputs of their numbers changes nothing. -/
theorem apply_of_isIdentity (h : m.isIdentity = true) {fs : List (Frame S)} (hfs : Uniform m.inputs fs) :
    (ofMatrix m).apply fs = fs := by
  unfold Matrix.isIdentity at h
  simp only [Bool.and_eq_true, beq_iff_eq] at h
  obtain ⟨hi, hp⟩ := h
  have hlen : m.shown.length = m.inputs := by
    by_cases hz : m.inputs = 0
    · rw [Matrix.shown, if_pos hz, hz]
      rfl
    · rw [Matrix.length_shown (Nat.pos_of_ne_zero hz), hi]
  rw [apply_of_permutation hp, hlen]
  conv => rhs; rw [← List.map_id fs]
  exact List.map_congr_left fun f hf => copyFrame_range (hfs f hf)

end

end Remapper

/-! ## A mix that is left out -/

open RateConverter

section
variable {β S : Type}

/-- The pipeline with another mix, or with none. -/
def Pipeline.withMix (p : Pipeline β S) (x : Option Remapper) : Pipeline β S := { p with remapper := x }

namespace Run

/-- The run with another mix, or with none. -/
def withMix (r : Run β S) (x : Option Remapper) : Run β S := { r with pipeline := r.pipeline.withMix x }

theorem load_withMix (p : Pipeline β S) (x : Option Remapper) (viewed : Bool) (input : List (Frame S)) :
    (p.withMix x).load viewed input = (p.load viewed input).withMix x := by
  cases viewed with
  | true => rfl
  | false => rfl

variable [Sample S]

theorem split_withMix (r : Run β S) (x : Option Remapper) : (r.withMix x).split = r.split.withMix x := by
  obtain ⟨p, caller, place⟩ := r
  cases hx : p.crossover with
  | none => simp only [split, withMix, Pipeline.withMix, hx]
  | some y =>
    by_cases hp : place = .caller
    · simp [split, withMix, Pipeline.withMix, hx, hp, put, frames]
    · simp [split, withMix, Pipeline.withMix, hx, hp, frames]

/-- A mix ahead of the converter brings what it gives behind what is carried over. -/
theorem mixAhead_withMix (r : Run β S) (m : Remapper) : (r.withMix (some m)).mixAhead =
    ((r.withMix none).put (r.pipeline.buffers.mixed.take r.pipeline.carried ++ m.apply r.frames) .mixed).withMix
      (some m) := rfl

variable [RateConverter β S]

omit [Sample S] in
theorem convert_withMix (r : Run β S) (x : Option Remapper) : (r.withMix x).convert = r.convert.withMix x := by
  by_cases hp : passes S r.pipeline.converter = true
  · have hpassed : r.convert = r := if_pos hp
    rw [hpassed]
    exact if_pos hp
  · have hconverted := congrArg (withMix · x) (if_neg hp : r.convert = _)
    exact (if_neg hp).trans hconverted.symm

variable {c : Config} {Ok : β → Prop} {p : Pipeline β S}

/-- A mix that changes nothing feeds the converter what it gets without one. -/
theorem exists_fed_mixAhead (hid : c.matrix.isIdentity = true) (h : p.Fits c Ok) (hs : p.slot = .afterMix)
    (viewed : Bool) {input : List (Frame S)} (hu : Uniform c.matrix.inputs input) :
    ∃ r, Fed p (p.leftover ++ input) r ∧ ((p.load viewed input).withMix (some (Remapper.ofMatrix c.matrix))).mixAhead =
      r.withMix (some (Remapper.ofMatrix c.matrix)) := by
  obtain ⟨hframes, b, hpipe, hmixed⟩ := load_afterMix viewed input hs
  have hnone : p.remapper = none := h.remapper.trans (if_pos hid)
  have hslot : p.slot.place = .mixed := by
    rw [hs]
    rfl
  have hl : p.leftover = b.mixed.take p.carried := by
    rw [Pipeline.leftover, Pipeline.slotFrames, hslot, hmixed]
    rfl
  refine ⟨_, ?_, mixAhead_withMix _ _⟩
  rw [hframes, Remapper.apply_of_isIdentity hid hu, hpipe, hl]
  refine fed_put ⟨b, ?_⟩ _ hslot.symm
  rw [withMix, hpipe, Pipeline.withMix, ← hnone]

end Run

namespace Pipeline

variable [RateConverter β S] {c : Config} {Ok : β → Prop} {p q : Pipeline β S}

/-- A matrix that changes nothing has as many outputs as inputs, so that the mix comes first. -/
theorem Fits.slot_of_isIdentity (hc : c.Shaped) (hid : c.matrix.isIdentity = true) (h : p.Fits c Ok) :
    p.slot = .afterMix := by
  have hlen := Matrix.length_eq_of_isIdentity hid
  rw [hc.inputMap, hc.outputMap] at hlen
  rw [h.slot, Slot.ofChannels, if_pos (Nat.le_of_eq hlen.symm)]

variable [Sample S]

/-- A run with a mix that changes nothing is, but for the mix, one without. -/
theorem exists_holds_runStages (hc : c.Shaped) (hk : Contract S c.width Ok) (hid : c.matrix.isIdentity = true)
    (h : p.Fits c Ok) (aligned : Bool) (bytes : List UInt8) :
    let x := convert p.converter (p.stages.fed c bytes)
    ∃ r, Run.Holds p (p.stages.run c bytes).2 (Crossover.processAny p.crossover (c.behind x.frames)).1 r ∧
      (p.withMix (some (Remapper.ofMatrix c.matrix))).runStages aligned bytes =
        r.withMix (some (Remapper.ofMatrix c.matrix)) := by
  have hs := h.slot_of_isIdentity hc hid
  have hf := Stages.fed_uniform hc h.stages bytes
  have hinputs : c.matrix.inputs = p.inputChannels := by
    rw [Config.matrix, Matrix.inputs_build, hc.inputMap, h.inputChannels]
  have hfed : p.stages.fed c bytes = p.leftover ++ Codec.decodeFrames p.inputEncoding p.inputChannels bytes := by
    rw [Stages.fed, h.ahead_eq, if_pos hs, Config.mix, if_pos hid, h.inputEncoding, h.inputChannels]
    rfl
  have hu : Uniform c.matrix.inputs (Codec.decodeFrames (S := S) p.inputEncoding p.inputChannels bytes) := by
    rw [hinputs]
    exact Codec.uniform_decodeFrames _ _ _
  obtain ⟨r, hr, hmix⟩ := Run.exists_fed_mixAhead hid h hs (p.views aligned) hu
  rw [← hfed] at hr
  have hbehind : ∀ fs : List (Frame S), c.behind fs = fs := by
    intro fs
    rw [h.behind_eq, if_pos hs]
  have hslot : (p.withMix (some (Remapper.ofMatrix c.matrix))).slot = .afterMix := hs
  refine ⟨r.convert.split, ?_, ?_⟩
  · simp only [Stages.run, hbehind]
    exact Run.holds_split (Run.holds_convert hk h hf hr)
  · simp only [runStages, hslot, Run.load_withMix]
    rw [← Run.split_withMix, ← Run.convert_withMix, ← hmix]
    rfl

/-- `p` leaves out the mix, which changes nothing, and `q` does not. All that matters to a run
    is the same. -/
structure Skips (c : Config) (Ok : β → Prop) (p q : Pipeline β S) : Prop where
  fits : p.Fits c Ok
  mixes : ∃ r : Pipeline β S, r.Fits c Ok ∧ q = r.withMix (some (Remapper.ofMatrix c.matrix)) ∧ r.stages = p.stages

/-- No run tells the two apart, nor any run after it. -/
theorem run_of_skips (hc : c.Shaped) (hk : Contract S c.width Ok) (hid : c.matrix.isIdentity = true)
    (h : Skips c Ok p q) (aligned : Bool) (bytes : List UInt8) :
    (q.run aligned bytes).value.1 = (p.run aligned bytes).value.1 ∧
      Skips c Ok (p.run aligned bytes).value.2 (q.run aligned bytes).value.2 := by
  obtain ⟨hp, r, hr, rfl, hsame⟩ := h
  obtain ⟨hout, hstages, hnext⟩ := run_stages hc hk hp aligned bytes
  obtain ⟨x, hx, hrun⟩ := exists_holds_runStages hc hk hid hr aligned bytes
  obtain ⟨hxstages, hxfits⟩ := fits_of_holds hr (Stages.run_fits hc hk hr.stages bytes) hx
  constructor
  · rw [hout, ← hsame]
    have hframes := hx.frames
    simp only [run, hrun]
    show Codec.encodeFrames r.outputEncoding x.frames = _
    rw [hframes, hr.outputEncoding]
    rfl
  · refine ⟨hnext, x.pipeline, hxfits, congrArg Run.pipeline hrun, ?_⟩
    rw [hxstages, hstages, hsame]

/-- The bytes of runs one after the other. -/
def outputs (p : Pipeline β S) : List (Bool × List UInt8) → List (List UInt8)
  | [] => []
  | x :: r => (p.run x.1 x.2).value.1 :: outputs (p.run x.1 x.2).value.2 r

theorem outputs_of_skips (hc : c.Shaped) (hk : Contract S c.width Ok) (hid : c.matrix.isIdentity = true)
    (h : Skips c Ok p q) (xs : List (Bool × List UInt8)) : q.outputs xs = p.outputs xs := by
  induction xs generalizing p q with
  | nil => rfl
  | cons x xs ih =>
    obtain ⟨hout, hnext⟩ := run_of_skips hc hk hid h x.1 x.2
    rw [outputs, outputs, hout, ih hnext]

end Pipeline

end

/-! ## Mixed in place -/

section
variable {S : Type} [Sample S]

/-- The frames of `input` mixed behind what a buffer holds: there is silence first, and the
    mixed samples take its place. -/
def Remapper.mixInto (m : Matrix Float32) (input buffer : List S) : List S :=
  let room := List.replicate (input.length / m.inputs * m.outputs) Sample.silence
  writeFrames m.outputs (buffer ++ room) buffer.length ((Bytes.groups m.inputs input).map (ofMatrix m).frame)

theorem Remapper.mixInto_eq {m : Matrix Float32} (hi : 0 < m.inputs) (input buffer : List S) :
    mixInto m input buffer = buffer ++ ((ofMatrix m).apply (Bytes.groups m.inputs input)).flatten := by
  refine writeFrames_append buffer (apply_uniform (Matrix.length_shown hi) (Bytes.groups m.inputs input)) ?_
  rw [List.length_replicate, List.length_map, Bytes.length_groups hi]

theorem Remapper.length_flatten_apply {m : Matrix Float32} (hi : 0 < m.inputs) (input : List S) :
    ((ofMatrix m).apply (Bytes.groups m.inputs input)).flatten.length = input.length / m.inputs * m.outputs := by
  rw [(apply_uniform (Matrix.length_shown hi) _).length_flatten, length_apply, Bytes.length_groups hi]

end

/-! ## All of it -/

/-- Moving the samples, leaving the mix out and mixing in place give what weighted sums of
    16-bit integers give, for every matrix with an input; and the samples are moved exactly
    where every row has no gain, or a single one of one. -/
theorem Remapper.short_ways_agree {m : Matrix Float32} (hi : 0 < m.inputs) :
    ((∃ sources, m.permutation? = some sources) ↔ ∀ row ∈ m.rows, Matrix.Moves row) ∧
      (∀ sources, m.permutation? = some sources → ∀ f : Frame Int16,
        (ofMatrix m).frame f = copyFrame sources f ∧ copyFrame sources f = (ofMatrix m).mixFrame f) ∧
      (m.isIdentity = true →
        (∀ fs : List (Frame Int16), Uniform m.inputs fs → (ofMatrix m).apply fs = fs) ∧
        ∀ {c : Config} {k : Method} {r : Rates} {p : Pipeline FixedConverter Int16}, c.matrix = m →
          c.validate = .ok () → Pipeline.Reached c (fun n => FixedConverter.create k n r) p →
          p.remapper = none ∧ ∀ xs, (p.withMix (some (ofMatrix m))).outputs xs = p.outputs xs) ∧
      ∀ input buffer : List Int16,
        mixInto m input buffer = buffer ++ ((ofMatrix m).apply (Bytes.groups m.inputs input)).flatten ∧
        (mixInto m input buffer).take buffer.length = buffer ∧
        (mixInto m input buffer).length = buffer.length + input.length / m.inputs * m.outputs := by
  refine ⟨Matrix.exists_permutation_iff hi, ?_, ?_, ?_⟩
  · intro sources hp f
    refine ⟨?_, (mixFrame_of_permutation hp f).symm⟩
    simp only [frame, ofMatrix, hp]
  · intro hid
    refine ⟨fun fs hfs => apply_of_isIdentity hid hfs, ?_⟩
    rintro c k r p rfl hc hp
    have hshaped := Config.shaped_of_validate hc
    have hk := FixedConverter.contract c.width
    have hfits := Pipeline.fits_of_reached hshaped hk FixedConverter.fits_of_create hp
    exact ⟨hfits.remapper.trans (if_pos hid),
      Pipeline.outputs_of_skips hshaped hk hid ⟨hfits, p, hfits, rfl, rfl⟩⟩
  · intro input buffer
    have hmixed := mixInto_eq hi input buffer
    refine ⟨hmixed, ?_, ?_⟩
    · rw [hmixed, List.take_left]
    · rw [hmixed, List.length_append, length_flatten_apply hi]

/-- Two channels in the other byte order, from 48 to 44.1 kHz. -/
def swapped : Config where
  input := ⟨.s16 .big, 48000, 2⟩
  inputMap := ChannelMap.stereo
  output := ⟨.s16 .little, 44100, 2⟩
  outputMap := ChannelMap.stereo
  method := .trivial

/-- The least sample twice with silence between, behind a sample that stays; and two channels
    that are not mixed, after a run of one frame. -/
theorem Remapper.short_ways_agree_doubled :
    0 < doubled.inputs ∧ doubled.permutation? = some [some 1, none, some 1] ∧
      (ofMatrix doubled).mixFrame [(5 : Int16), -32768] = [-32768, 0, -32768] ∧
      (mixInto doubled [(5 : Int16), -32768] [9]).take 1 = [9] ∧
      (mixInto doubled [(5 : Int16), -32768] [9]).length = 4 ∧
      0 < swapped.matrix.inputs ∧ swapped.matrix.isIdentity = true ∧ swapped.validate = .ok () ∧
      ∃ p : Pipeline FixedConverter Int16,
        Pipeline.create swapped swapped.matrix
            (fun n => FixedConverter.create .trivial n ⟨48000, 44100, by decide, by decide⟩) = .ok p ∧
          let q := (p.run true [0, 1, 0, 2]).value.2
          q.remapper = none ∧
            (q.withMix (some (ofMatrix swapped.matrix))).outputs [(true, [0, 3, 0, 4]), (false, [0, 5, 0, 6])] =
              q.outputs [(true, [0, 3, 0, 4]), (false, [0, 5, 0, 6])] := by
  have hi : 0 < doubled.inputs := by decide
  have hp : doubled.permutation? = some [some 1, none, some 1] := by decide +kernel
  obtain ⟨_, hcopies, _, hplace⟩ := short_ways_agree hi
  obtain ⟨_, hsame⟩ := hcopies _ hp [5, -32768]
  obtain ⟨_, hkept, hlen⟩ := hplace [5, -32768] [9]
  have hinputs : 0 < swapped.matrix.inputs := by decide
  have hid : swapped.matrix.isIdentity = true := by decide +kernel
  obtain ⟨p, hmade⟩ : ∃ p : Pipeline FixedConverter Int16, Pipeline.create swapped swapped.matrix
      (fun n => FixedConverter.create .trivial n ⟨48000, 44100, by decide, by decide⟩) = .ok p :=
    ⟨_, Pipeline.create_eq_ok.mpr ⟨_, none, rfl, rfl, rfl⟩⟩
  obtain ⟨_, _, hleft, _⟩ := short_ways_agree hinputs
  obtain ⟨_, houtputs⟩ := hleft hid
  obtain ⟨hnone, hruns⟩ := houtputs rfl rfl (.run true [0, 1, 0, 2] (.create hmade))
  exact ⟨hi, hp, hsame.symm, hkept, hlen, hinputs, hid, rfl, p, hmade, hnone, hruns _⟩

end PcmConvert
