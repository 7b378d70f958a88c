/-
  PcmConvert.Proofs.Sample.Frames — bytes cut into frames and put back. Bytes of whole
  frames followed by others decode to the frames of the first and those of the second, and
  the frames are all of one size, so that encoding them gives whole frames of bytes. Frames
  that are written over a buffer, each behind the one before it, take the place of as many
  samples (`writeFrames_append`).
-/

import PcmConvert.Sample.Codec

namespace PcmConvert

/-! ## Frames of one size -/

/-- Every frame has `n` samples. -/
def Uniform {S : Type} (n : Nat) (fs : List (Frame S)) : Prop := ∀ f ∈ fs, f.length = n

namespace Uniform

variable {S : Type} {n : Nat} {fs gs : List (Frame S)}

theorem nil : Uniform n ([] : List (Frame S)) := fun _ h => absurd h List.not_mem_nil

theorem cons {f : Frame S} (hf : f.length = n) (h : Uniform n fs) : Uniform n (f :: fs) :=
  List.forall_mem_cons.mpr ⟨hf, h⟩

theorem append (hf : Uniform n fs) (hg : Uniform n gs) : Uniform n (fs ++ gs) :=
  List.forall_mem_append.mpr ⟨hf, hg⟩

theorem take (k : Nat) (h : Uniform n fs) : Uniform n (fs.take k) := fun f hf => h f (List.mem_of_mem_take hf)

theorem drop (k : Nat) (h : Uniform n fs) : Uniform n (fs.drop k) := fun f hf => h f (List.mem_of_mem_drop hf)

theorem map {α : Type} {g : α → Frame S} (l : List α) (h : ∀ a, (g a).length = n) : Uniform n (l.map g) := by
  intro f hf
  obtain ⟨a, _, rfl⟩ := List.mem_map.mp hf
  exact h a

theorem replicate (k : Nat) {f : Frame S} (h : f.length = n) : Uniform n (List.replicate k f) := by
  intro g hg
  rw [List.eq_of_mem_replicate hg, h]

theorem length_flatten (h : Uniform n fs) : fs.flatten.length = fs.length * n := by
  induction fs with
  | nil => simp
  | cons f fs ih =>
    rw [List.flatten_cons, List.length_append, ih fun g hg => h g (List.mem_cons_of_mem _ hg), h f List.mem_cons_self,
      List.length_cons, Nat.add_mul]
    omega

end Uniform

/-- A loop whose first turn gives `g 0`, and whose later turns give what `g` says, each one
    further on. -/
theorem cons_eq_map_range {α : Type} {g : Nat → α} {y : α} {ys : List α} (hy : y = g 0)
    (hys : ys = (List.range ys.length).map fun k => g (k + 1)) :
    y :: ys = (List.range (y :: ys).length).map g := by
  rw [List.length_cons, List.range_succ_eq_map, List.map_cons, List.map_map, ← hy]
  exact congrArg (y :: ·) hys

/-! ## Frames written into a buffer -/

section

variable {S : Type}

/-- The samples of a buffer from `start` on are written over, one after the other. -/
def writeFrom (buffer : List S) (start : Nat) : List S → List S
  | [] => buffer
  | s :: r => writeFrom (buffer.set start s) (start + 1) r

/-- Frames of `n` samples are written, each behind the one before it. -/
def writeFrames (n : Nat) (buffer : List S) (start : Nat) : List (Frame S) → List S
  | [] => buffer
  | f :: r => writeFrames n (writeFrom buffer start f) (start + n) r

/-- What is written takes the place of as many samples, and of no others. -/
theorem writeFrom_append (pre : List S) {old new : List S} (post : List S) (h : old.length = new.length) :
    writeFrom (pre ++ old ++ post) pre.length new = pre ++ new ++ post := by
  induction new generalizing pre old with
  | nil =>
    rw [List.eq_nil_of_length_eq_zero h]
    rfl
  | cons s new ih =>
    obtain ⟨o, old, rfl⟩ := List.exists_cons_of_length_eq_add_one h
    have hset : (pre ++ o :: old ++ post).set pre.length s = pre ++ [s] ++ old ++ post := by simp
    have hstart : pre.length + 1 = (pre ++ [s]).length := by simp
    rw [writeFrom, hset, hstart, ih (pre ++ [s]) (by simpa using h)]
    simp

theorem writeFrames_append {n : Nat} (pre : List S) {room : List S} {fs : List (Frame S)} (hfs : Uniform n fs)
    (h : room.length = fs.length * n) : writeFrames n (pre ++ room) pre.length fs = pre ++ fs.flatten := by
  induction fs generalizing pre room with
  | nil =>
    rw [List.length_nil, Nat.zero_mul] at h
    rw [List.eq_nil_of_length_eq_zero h]
    rfl
  | cons f fs ih =>
    obtain ⟨hf, hrest⟩ := List.forall_mem_cons.mp hfs
    rw [List.length_cons, Nat.add_mul, Nat.one_mul] at h
    have hold : (room.take n).length = f.length := by
      rw [List.length_take, hf]
      omega
    have hwritten : writeFrom (pre ++ room) pre.length f = pre ++ f ++ room.drop n := by
      rw [← writeFrom_append pre (room.drop n) hold, List.append_assoc, List.take_append_drop]
    have hstart : pre.length + n = (pre ++ f).length := by rw [List.length_append, hf]
    rw [writeFrames, hwritten, hstart, ih (pre ++ f) hrest (by rw [List.length_drop]; omega), List.flatten_cons,
      List.append_assoc]

end

/-! ## Groups -/

namespace Bytes

variable {α : Type} {n : Nat}

theorem groups_of_full {l : List α} (hn : 0 < n) (h : n ≤ l.length) :
    groups n l = l.take n :: groups n (l.drop n) := by
  rw [groups, if_pos ⟨hn, List.length_take_of_le h⟩]

theorem length_of_mem_groups (l : List α) : ∀ g ∈ groups n l, g.length = n := by
  fun_induction groups n l with
  | case1 l h ih =>
    intro g hg
    rcases List.mem_cons.mp hg with rfl | hg
    · exact h.2
    · exact ih g hg
  | case2 => intro g hg; exact absurd hg List.not_mem_nil

theorem length_groups (hn : 0 < n) (l : List α) : (groups n l).length = l.length / n := by
  fun_induction groups n l with
  | case1 l h ih =>
    have hl : n ≤ l.length := by rw [← h.2]; exact List.length_take_le' ..
    rw [List.length_cons, ih, List.length_drop, Nat.div_eq_sub_div hn hl]
  | case2 l h =>
    have hl : l.length < n := by
      rcases Nat.lt_or_ge l.length n with h' | h'
      · exact h'
      · exact absurd ⟨hn, List.length_take_of_le h'⟩ h
    rw [Nat.div_eq_of_lt hl, List.length_nil]

/-- Groups do not straddle the end of a part that is whole groups. -/
theorem groups_append (a b : List α) (h : n ∣ a.length) : groups n (a ++ b) = groups n a ++ groups n b := by
  fun_induction groups n a with
  | case1 a hc ih =>
    have ha : n ≤ a.length := by rw [← hc.2]; exact List.length_take_le' ..
    have hd : n ∣ (a.drop n).length := by
      rw [List.length_drop]
      exact Nat.dvd_sub h (Nat.dvd_refl n)
    rw [groups_of_full hc.1 (by rw [List.length_append]; omega), List.take_append_of_le_length ha,
      List.drop_append_of_le_length ha, ih hd, List.cons_append]
  | case2 a hc =>
    rcases Nat.eq_zero_or_pos n with rfl | hn
    · have hz : ∀ l : List α, groups 0 l = [] := fun l => by rw [groups, if_neg (by simp)]
      rw [hz, hz, List.nil_append]
    · have ha : a.length < n := by
        rcases Nat.lt_or_ge a.length n with h' | h'
        · exact h'
        · exact absurd ⟨hn, List.length_take_of_le h'⟩ hc
      have he : a = [] := List.eq_nil_of_length_eq_zero (Nat.eq_zero_of_dvd_of_lt h ha)
      rw [he, List.nil_append, List.nil_append]

@[simp] theorem length_inOrder (o : ByteOrder) (bs : List UInt8) : (inOrder o bs).length = bs.length := by
  cases o <;> simp [inOrder]

@[simp] theorem length_ofNat (width n : Nat) : (ofNat width n).length = width := by
  induction width generalizing n with
  | zero => rfl
  | succ width ih => simp [ofNat, ih]

end Bytes

/-! ## Bytes to frames -/

namespace Codec

variable {S : Type} [Sample S]

theorem decodeFrames_append (e : Encoding) (channels : Nat) (a b : List UInt8) (h : e.size * channels ∣ a.length) :
    decodeFrames (S := S) e channels (a ++ b) = decodeFrames e channels a ++ decodeFrames e channels b := by
  obtain ⟨k, hk⟩ := h
  have hs : e.size ∣ a.length := ⟨channels * k, by rw [hk, Nat.mul_assoc]⟩
  have hc : channels ∣ (decode (S := S) e a).length := by
    refine ⟨k, ?_⟩
    rw [decode, List.length_map, Bytes.length_groups e.size_pos, hk, Nat.mul_assoc,
      Nat.mul_div_cancel_left _ e.size_pos]
  unfold decodeFrames
  rw [← Bytes.groups_append _ _ hc]
  unfold decode
  rw [Bytes.groups_append a b hs, List.map_append]

theorem uniform_decodeFrames (e : Encoding) (channels : Nat) (bs : List UInt8) :
    Uniform channels (decodeFrames (S := S) e channels bs) := Bytes.length_of_mem_groups _

theorem length_decodeFrames (e : Encoding) {channels : Nat} (hc : 0 < channels) (bs : List UInt8) :
    (decodeFrames (S := S) e channels bs).length = bs.length / (e.size * channels) := by
  rw [decodeFrames, Bytes.length_groups hc, decode, List.length_map, Bytes.length_groups e.size_pos,
    Nat.div_div_eq_div_mul]

/-! ## Frames to bytes -/

@[simp] theorem length_encodeSample (e : Encoding) (s : S) : (encodeSample e s).length = e.size := by
  cases e <;> simp [encodeSample, bytes, Encoding.size]

theorem length_encode (e : Encoding) (samples : List S) : (encode e samples).length = samples.length * e.size := by
  induction samples with
  | nil => simp [encode]
  | cons s samples ih =>
    unfold encode at ih ⊢
    rw [List.flatMap_cons, List.length_append, ih, length_encodeSample, List.length_cons, Nat.add_mul]
    omega

theorem length_encodeFrames (e : Encoding) {channels : Nat} {fs : List (Frame S)} (h : Uniform channels fs) :
    (encodeFrames e fs).length = fs.length * (e.size * channels) := by
  rw [encodeFrames, length_encode, h.length_flatten, Nat.mul_assoc, Nat.mul_comm channels]

theorem encodeFrames_append (e : Encoding) (a b : List (Frame S)) :
    encodeFrames e (a ++ b) = encodeFrames e a ++ encodeFrames e b := by
  simp [encodeFrames, encode]

end Codec

end PcmConvert
