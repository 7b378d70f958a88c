/-
  PcmConvert.Proofs.Rate.Chunked — the two methods that take whole chunks. A call leaves
  what is left of its last chunk, so its length decides how much (`convert_unconsumed`); and
  it gives a number of frames that the clock, or the block that is open, decides
  (`length_convert`).
-/

import PcmConvert.Proofs.Rate.Contract
import PcmConvert.Rate.Chunked

namespace PcmConvert.Chunked

open Number

/-! ## Marks -/

theorem length_mark (f : Frame Float32) : (mark f).length = f.length := List.length_map ..

theorem length_of_mem_marks {n : Nat} {fs : List (Frame Float32)} (h : Uniform n fs) :
    ∀ m ∈ fs.map mark, m.length = n := by
  intro m hm
  obtain ⟨f, hf, rfl⟩ := List.mem_map.mp hm
  exact (length_mark f).trans (h f hf)

theorem length_placeholder (m : Marks) : (placeholder m).length = m.length := List.length_map ..

theorem length_join {n : Nat} {a b : Marks} (ha : a.length = n) (hb : b.length = n) : (join a b).length = n := by
  rw [join, List.length_zipWith, ha, hb, Nat.min_self]

theorem length_frameAt (tallies : List (Array Nat)) (offset : Nat) (p : Float) :
    (frameAt tallies offset p).length = tallies.length := by
  rw [frameAt, length_placeholder, List.length_map]

/-! ## Blocks -/

theorem blockIn_pos (r : Rates) : 0 < blockIn r := by
  have hn : 0 < r.input / Nat.gcd r.input r.output :=
    Nat.div_pos (Nat.gcd_le_left _ r.input_pos) (Nat.gcd_pos_of_pos_left _ r.input_pos)
  unfold blockIn
  refine Nat.mul_pos (Nat.div_pos ?_ hn) hn
  unfold chunk
  omega

/-- A block keeps the ratio of the rates. -/
theorem blockOut_mul_input (r : Rates) : blockOut r * r.input = blockIn r * r.output := by
  obtain ⟨x, hx⟩ := Nat.gcd_dvd_left r.input r.output
  obtain ⟨y, hy⟩ := Nat.gcd_dvd_right r.input r.output
  have hg : 0 < Nat.gcd r.input r.output := Nat.gcd_pos_of_pos_left _ r.input_pos
  have hxn : r.input / Nat.gcd r.input r.output = x := Nat.div_eq_of_eq_mul_right hg hx
  have hyn : r.output / Nat.gcd r.input r.output = y := Nat.div_eq_of_eq_mul_right hg hy
  have hpos : 0 < x := by
    apply Nat.pos_of_ne_zero
    rintro rfl
    exact absurd hx (Nat.ne_of_gt r.input_pos)
  simp only [blockOut, blockIn]
  rw [hxn, hyn, Nat.mul_div_cancel _ hpos]
  generalize (chunk / 2 + x - 1) / x = q
  calc q * y * r.input = q * y * (Nat.gcd r.input r.output * x) := by rw [← hx]
    _ = q * x * (Nat.gcd r.input r.output * y) := by ac_rfl
    _ = q * x * r.output := by rw [← hy]

/-- The blocks that are filled, and how far the one that stays open is. -/
theorem length_fillBlocks {size filled : Nat} (begun : Marks) (ms : List Marks) (h : filled < size) :
    (fillBlocks size filled begun ms).1.length = (filled + ms.length) / size ∧
      (fillBlocks size filled begun ms).2.1 = (filled + ms.length) % size := by
  induction ms generalizing filled begun with
  | nil => exact ⟨(Nat.div_eq_of_lt h).symm, (Nat.mod_eq_of_lt h).symm⟩
  | cons m ms ih =>
    rw [fillBlocks]
    split
    · next hf =>
      obtain ⟨hl, ho⟩ := ih (begun.map fun _ => false) (Nat.zero_lt_of_lt h)
      have hsum : filled + (m :: ms).length = 0 + ms.length + size := by rw [List.length_cons]; omega
      rw [hsum, Nat.add_div_right _ (Nat.zero_lt_of_lt h), Nat.add_mod_right, List.length_cons, hl, ho]
      exact ⟨rfl, rfl⟩
    · have := ih (join begun m) (show filled + 1 < size by omega)
      rwa [List.length_cons, ← Nat.add_right_comm, Nat.add_assoc] at *

theorem fillBlocks_uniform {n : Nat} (size filled : Nat) {begun : Marks} {ms : List Marks} (hb : begun.length = n)
    (hm : ∀ m ∈ ms, m.length = n) :
    (∀ b ∈ (fillBlocks size filled begun ms).1, b.length = n) ∧ (fillBlocks size filled begun ms).2.2.length = n := by
  induction ms generalizing filled begun with
  | nil => exact ⟨fun _ h => absurd h List.not_mem_nil, hb⟩
  | cons m ms ih =>
    obtain ⟨hhead, htail⟩ := List.forall_mem_cons.mp hm
    rw [fillBlocks]
    split
    · have hclear : (begun.map fun _ => false).length = n := (List.length_map ..).trans hb
      obtain ⟨h1, h2⟩ := ih 0 hclear htail
      exact ⟨List.forall_mem_cons.mpr ⟨length_join hb hhead, h1⟩, h2⟩
    · exact ih (filled + 1) (length_join hb hhead) htail

theorem length_blockFrames (n : Nat) (before : Marks) (bs : List Marks) :
    (blockFrames n before bs).length = bs.length * n := by
  induction bs generalizing before with
  | nil => simp [blockFrames]
  | cons b bs ih =>
    rw [blockFrames, List.length_append, List.length_replicate, ih, List.length_cons, Nat.add_mul]
    omega

theorem blockFrames_uniform {n : Nat} (k : Nat) {before : Marks} {bs : List Marks} (hb : before.length = n)
    (h : ∀ b ∈ bs, b.length = n) : Uniform n (blockFrames k before bs) := by
  induction bs generalizing before with
  | nil => exact Uniform.nil
  | cons b bs ih =>
    obtain ⟨hhead, htail⟩ := List.forall_mem_cons.mp h
    exact (Uniform.replicate k ((length_placeholder _).trans (length_join hb hhead))).append (ih hhead htail)

/-! ## Chunks -/

/-- Marks are one to a channel, and the open block is not full. -/
def Engine.Fits (n : Nat) (r : Rates) : Engine → Prop
  | .sinc .. => True
  | .fft filled begun before => filled < blockIn r ∧ begun.length = n ∧ before.length = n

structure Fits (n : Nat) (s : Chunked) : Prop where
  channels : s.channels = n
  engine : s.engine.Fits n s.rates

/-- How many frames a clock gives for so many chunks. -/
def SincClock.yield (c : SincClock) (r : Rates) : Nat → Nat
  | 0 => 0
  | k + 1 => (c.step r).1.length + (c.step r).2.yield r k

/-- How many frames come out for so many chunks. -/
def yieldChunks (s : Chunked) (k : Nat) : Nat :=
  match s.engine with
  | .sinc clock _ => clock.yield s.rates k
  | .fft filled _ _ => (filled + chunk * k) / blockIn s.rates * blockOut s.rates

theorem yieldChunks_zero {n : Nat} {s : Chunked} (h : Fits n s) : s.yieldChunks 0 = 0 := by
  obtain ⟨m, channels, r, v, e⟩ := s
  cases e with
  | sinc clock past => rfl
  | fft filled begun before =>
    have hf : filled < blockIn r := h.engine.1
    simp only [yieldChunks, Nat.mul_zero, Nat.add_zero, Nat.div_eq_of_lt hf, Nat.zero_mul]

theorem process_fits {n : Nat} {s : Chunked} {fs : List (Frame Float32)} (h : Fits n s) (hf : Uniform n fs) :
    Fits n (process s fs).2 := by
  obtain ⟨m, channels, r, v, e⟩ := s
  cases e with
  | sinc clock past => exact ⟨h.channels, trivial⟩
  | fft filled begun before =>
    obtain ⟨hlt, hb, hp⟩ := h.engine
    obtain ⟨hu, ho⟩ := fillBlocks_uniform (blockIn r) filled hb (length_of_mem_marks hf)
    refine ⟨h.channels, ?_, ho, ?_⟩
    · simp only [(length_fillBlocks begun _ hlt).2]
      exact Nat.mod_lt _ (blockIn_pos r)
    · show (List.getLastD _ before).length = n
      rw [List.getLastD_eq_getLast?]
      cases hl : (fillBlocks (blockIn r) filled begun (fs.map mark)).1.getLast? with
      | none => exact hp
      | some b => exact hu b (List.mem_of_getLast? hl)

theorem process_uniform {n : Nat} {s : Chunked} {fs : List (Frame Float32)} (h : Fits n s) (hf : Uniform n fs) :
    Uniform n (process s fs).1 := by
  obtain ⟨m, channels, r, v, e⟩ := s
  cases e with
  | sinc clock past =>
    refine Uniform.map _ fun p => ?_
    rw [length_frameAt, List.length_map, List.length_range]
    exact h.channels
  | fft filled begun before =>
    obtain ⟨_, hb, hp⟩ := h.engine
    exact blockFrames_uniform _ hp (fillBlocks_uniform _ filled hb (length_of_mem_marks hf)).1

/-- A chunk changes the engine alone. -/
theorem process_identity (s : Chunked) (fs : List (Frame Float32)) :
    ∃ e, (process s fs).2 = { s with engine := e } := by
  unfold process
  split
  · exact ⟨_, rfl⟩
  · exact ⟨_, rfl⟩

/-- What a chunk gives, and what the others give after it. -/
theorem length_process {n : Nat} {s : Chunked} {fs : List (Frame Float32)} (h : Fits n s) (hf : fs.length = chunk)
    (k : Nat) : (process s fs).1.length + (process s fs).2.yieldChunks k = s.yieldChunks (k + 1) := by
  obtain ⟨m, channels, r, v, e⟩ := s
  cases e with
  | sinc clock past => simp only [process, yieldChunks, SincClock.yield, List.length_map]
  | fft filled begun before =>
    obtain ⟨hl, ho⟩ := length_fillBlocks begun (fs.map mark) h.engine.1
    have hpos := blockIn_pos r
    have hdm := Nat.mod_add_div (filled + chunk) (blockIn r)
    simp only [process, yieldChunks, length_blockFrames, hl, ho, List.length_map, hf]
    have hsum : filled + chunk * (k + 1) = (filled + chunk) % blockIn r + chunk * k +
        blockIn r * ((filled + chunk) / blockIn r) := by
      rw [Nat.mul_succ]
      omega
    rw [hsum, Nat.add_mul_div_left _ _ hpos, ← Nat.add_mul, Nat.add_comm]

/-- Frames in the block that is open; a clock has none. -/
def Engine.filled : Engine → Option Nat
  | .sinc .. => none
  | .fft filled _ _ => some filled

theorem filled_process {n : Nat} {s : Chunked} {fs : List (Frame Float32)} (h : Fits n s) :
    (process s fs).2.engine.filled = s.engine.filled.map fun k => (k + fs.length) % blockIn s.rates := by
  obtain ⟨m, channels, r, v, e⟩ := s
  cases e with
  | sinc clock past => rfl
  | fft filled begun before =>
    have ho := (length_fillBlocks begun (fs.map mark) h.engine.1).2
    rw [List.length_map] at ho
    exact congrArg some ho

/-! ## Calls -/

/-- How many frames a call with `n` frames gives. -/
def yield (s : Chunked) (n : Nat) : Nat := s.yieldChunks (n / chunk)

theorem convert_unconsumed (s : Chunked) (fs : List (Frame Float32)) :
    (convert s fs).unconsumed = fs.length % chunk := by
  fun_induction convert s fs with
  | case1 s fs h head rest ih =>
    have hle : chunk ≤ fs.length := by rw [← h]; exact List.length_take_le' ..
    simp only [rest, head] at ih ⊢
    rw [ih, List.length_drop, Nat.mod_eq_sub_mod hle]
  | case2 s fs h =>
    rw [List.length_take] at h
    exact (Nat.mod_eq_of_lt (show fs.length < chunk by omega)).symm

theorem length_convert {n : Nat} {s : Chunked} {fs : List (Frame Float32)} (h : Fits n s) (hf : Uniform n fs) :
    (convert s fs).frames.length = s.yield fs.length := by
  fun_induction convert s fs with
  | case1 s fs hc head rest ih =>
    have hle : chunk ≤ fs.length := by rw [← hc]; exact List.length_take_le' ..
    have hrest := ih (process_fits h (hf.take _)) (hf.drop _)
    have hdiv : fs.length / chunk = (fs.length - chunk) / chunk + 1 := Nat.div_eq_sub_div (by decide) hle
    simp only [List.length_append, rest, head, yield, List.length_drop] at hrest ⊢
    rw [hrest, hdiv, length_process h hc]
  | case2 s fs hc =>
    rw [List.length_take] at hc
    rw [yield, Nat.div_eq_of_lt (by omega), yieldChunks_zero h, List.length_nil]

/-- A block fills up from call to call, by the chunks that are used. -/
theorem filled_convert {n : Nat} {s : Chunked} {fs : List (Frame Float32)} (h : Fits n s) (hf : Uniform n fs) :
    (convert s fs).next.engine.filled =
      s.engine.filled.map fun k => (k + chunk * (fs.length / chunk)) % blockIn s.rates := by
  fun_induction convert s fs with
  | case1 s fs hc head rest ih =>
    have hle : chunk ≤ fs.length := by rw [← hc]; exact List.length_take_le' ..
    have hdiv : fs.length / chunk = (fs.length - chunk) / chunk + 1 := Nat.div_eq_sub_div (by decide) hle
    have hrates : head.2.rates = s.rates := by
      obtain ⟨e, he⟩ := process_identity s (fs.take chunk)
      show (process s (fs.take chunk)).2.rates = s.rates
      rw [he]
    have hrest := ih (process_fits h (hf.take _)) (hf.drop _)
    rw [List.length_drop, hrates, filled_process h, hc, Option.map_map] at hrest
    refine hrest.trans (congrArg (Option.map · s.engine.filled) (funext fun k => ?_))
    rw [hdiv, Nat.mul_succ, Function.comp_apply, Nat.mod_add_mod]
    congr 1
    omega
  | case2 s fs hc =>
    rw [List.length_take] at hc
    rw [Nat.div_eq_of_lt (show fs.length < chunk by omega)]
    obtain ⟨m, channels, r, v, e⟩ := s
    cases e with
    | sinc clock past => rfl
    | fft filled begun before => exact congrArg some (Nat.mod_eq_of_lt h.engine.1).symm

/-- No block of `fft` is open. What the clock of `sinc` gives is left open. -/
def Steady (s : Chunked) : Prop := ∃ begun before, s.engine = .fft 0 begun before

/-- With no block open a call gives no more than the rates promise for its frames. -/
theorem yield_le {s : Chunked} (h : Steady s) (n : Nat) : s.yield n ≤ ceilDiv (n * s.rates.output) s.rates.input := by
  obtain ⟨begun, before, he⟩ := h
  apply Nat.le_of_mul_le_mul_right _ s.rates.input_pos
  refine Nat.le_trans ?_ (le_ceilDiv_mul _ s.rates.input_pos)
  simp only [yield, yieldChunks, he, Nat.zero_add]
  rw [Nat.mul_assoc, blockOut_mul_input, ← Nat.mul_assoc]
  apply Nat.mul_le_mul_right
  exact Nat.le_trans (Nat.div_mul_le_self _ _) (Nat.mul_div_le n chunk)

/-! ## The laws -/

theorem fits_create (m : Method) (n : Nat) (r : Rates) (v : Bool) : Fits n (create m n r v) := by
  refine ⟨rfl, ?_⟩
  simp only [create, Engine.create]
  split
  · exact ⟨blockIn_pos r, List.length_replicate, List.length_replicate⟩
  · trivial

theorem convert_identity (s : Chunked) (fs : List (Frame Float32)) :
    ∃ e, (convert s fs).next = { s with engine := e } := by
  fun_induction convert s fs with
  | case1 s fs h head rest ih =>
    obtain ⟨e, he⟩ := ih
    obtain ⟨e', he'⟩ := process_identity s (fs.take chunk)
    refine ⟨e, he.trans ?_⟩
    simp only [head, he']
  | case2 s fs h => exact ⟨s.engine, rfl⟩

/-- Either the clock alone moved, or all is built anew. -/
theorem retune_value (s : Chunked) (r : Rates) :
    (retune s r).value = create s.method s.channels r s.variableRate ∨
      ∃ clock past, (retune s r).value = { s with rates := r, engine := .sinc clock past } := by
  unfold retune
  cases he : s.engine with
  | fft filled begun before => exact .inl rfl
  | sinc clock past =>
    dsimp only
    cases s.variableRate with
    | false => exact .inl rfl
    | true =>
      cases hc : clock.setRatio? (ratioOf r) with
      | none => exact .inl rfl
      | some c => exact .inr ⟨c, past, rfl⟩

theorem fits_retune {n : Nat} {s : Chunked} (h : Fits n s) (r : Rates) : Fits n (retune s r).value := by
  rcases retune_value s r with he | ⟨clock, past, he⟩
  · exact he ▸ h.channels ▸ fits_create _ _ _ _
  · exact he ▸ ⟨h.channels, trivial⟩

theorem convert_fits {n : Nat} {s : Chunked} {fs : List (Frame Float32)} (h : Fits n s) (hf : Uniform n fs) :
    Fits n (convert s fs).next ∧ Uniform n (convert s fs).frames := by
  fun_induction convert s fs with
  | case1 s fs hc head rest ih =>
    obtain ⟨h1, h2⟩ := ih (process_fits h (hf.take _)) (hf.drop _)
    exact ⟨h1, (process_uniform h (hf.take _)).append h2⟩
  | case2 s fs hc => exact ⟨h, Uniform.nil⟩

theorem contract (n : Nat) : RateConverter.Contract Float32 n (Fits n) where
  next h hf := (convert_fits h hf).1
  whole h hf := (convert_fits h hf).2
  tail _ _ := Nat.le_trans (Nat.le_of_eq (convert_unconsumed _ _)) (Nat.mod_le _ _)
  reset h := h.channels ▸ fits_create _ _ _ _
  retune {s t r} h hr := by
    cases hr
    exact fits_retune h r
  passing _ h := by cases h
  passes_next _ := rfl
  passes_reset _ := rfl
  passes_retune _ := rfl

theorem forgets (n : Nat) : RateConverter.Forgets Float32 n (Fits n) id where
  run {s fs} _ _ := by
    obtain ⟨e, he⟩ := convert_identity s fs
    show create (convert s fs).next.method (convert s fs).next.channels (convert s fs).next.rates
      (convert s fs).next.variableRate = create s.method s.channels s.rates s.variableRate
    rw [he]
  twice _ := rfl

theorem remakes (m : Method) (n : Nat) (v : Bool) :
    RateConverter.Remakes Float32 (Fits n) id fun r => .ok (create m n r v) where
  made h := by
    cases h
    exact ⟨fits_create _ _ _ _, rfl⟩
  retune {a s t r r'} _ ha hs ht := by
    cases ha
    cases ht
    injection hs with hm hn _ hv
    refine ⟨_, rfl, ?_⟩
    rw [← hm, ← hn, ← hv]
    show create (retune s r').value.method (retune s r').value.channels (retune s r').value.rates
      (retune s r').value.variableRate = create s.method s.channels r' s.variableRate
    rcases retune_value s r' with he | ⟨clock, past, he⟩
    · rw [he]; rfl
    · rw [he]

end PcmConvert.Chunked
