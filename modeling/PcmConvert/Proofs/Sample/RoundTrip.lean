/-
  PcmConvert.Proofs.Sample.RoundTrip — samples of 16 bits to the bytes of an encoding and back.
  A number is read from the bytes that it was written in (`toNat_ofNat`, `ofNat_toNat`), in
  either order of them, and two's complement is undone within its range (`signed_unsigned`). A
  sample is the upper end of the wider words, so that nothing is rounded or clamped in them
  (`to24_mul`), and no encoding of more than a byte loses any of it (`decodeSample_encodeSample`).

  The encodings of one byte lose some of a sample, but what is decoded stands for its byte
  (`encode_decode_byte`; in μ-law but for the two bytes of zero). So what was encoded once does
  not change when it is encoded again.

  A list is the samples one after the other (`decode_encode_map`, `encode_decode_groups`). Both
  directions write behind what is in a buffer (`encodeInto_eq`, `decodeInto_eq`).
-/

import Mathlib.Algebra.Group.Nat.Defs
import PcmConvert.Proofs.Sample.Companding
import PcmConvert.Proofs.Sample.Frames

namespace PcmConvert

namespace Bytes

/-! ## Numbers -/

theorem toNat_lt (bs : List UInt8) : toNat bs < 256 ^ bs.length := by
  induction bs with
  | nil => exact Nat.one_pos
  | cons b r ih =>
    have hb := b.toNat_lt
    rw [toNat, List.length_cons, Nat.pow_succ]
    omega

theorem toNat_ofNat {width n : Nat} (h : n < 256 ^ width) : toNat (ofNat width n) = n := by
  induction width generalizing n with
  | zero =>
    rw [Nat.pow_zero] at h
    rw [ofNat, toNat]
    omega
  | succ width ih =>
    rw [Nat.pow_succ] at h
    rw [ofNat, toNat, ih (by omega), UInt8.toNat_ofNat']
    omega

theorem ofNat_toNat (bs : List UInt8) : ofNat bs.length (toNat bs) = bs := by
  induction bs with
  | nil => rfl
  | cons b r ih =>
    have hb := b.toNat_lt
    have hlow : UInt8.ofNat (b.toNat + 256 * toNat r) = b := by
      apply UInt8.toNat_inj.mp
      rw [UInt8.toNat_ofNat']
      omega
    have hrest : (b.toNat + 256 * toNat r) / 256 = toNat r := by omega
    rw [List.length_cons, toNat, ofNat, hlow, hrest, ih]

@[simp] theorem inOrder_inOrder (o : ByteOrder) (bs : List UInt8) : inOrder o (inOrder o bs) = bs := by
  cases o <;> simp [inOrder]

theorem shiftLeft_eight (width : Nat) : 1 <<< (8 * width) = 256 ^ width := by
  rw [Nat.shiftLeft_eq, Nat.one_mul, Nat.pow_mul]

theorem natCast_unsigned (bits : Nat) (v : Int) : (unsigned bits v : Int) = v % (1 <<< bits : Nat) := by
  have hpos : (0 : Int) < (1 <<< bits : Nat) := by
    rw [Nat.shiftLeft_eq, Nat.one_mul]
    exact Int.natCast_pos.mpr (Nat.two_pow_pos bits)
  exact Int.toNat_of_nonneg (Int.emod_nonneg v (Int.ne_of_gt hpos))

theorem unsigned_lt (bits : Nat) (v : Int) : unsigned bits v < 1 <<< bits := by
  have hpos : (0 : Int) < (1 <<< bits : Nat) := by
    rw [Nat.shiftLeft_eq, Nat.one_mul]
    exact Int.natCast_pos.mpr (Nat.two_pow_pos bits)
  have hlt := Int.emod_lt_of_pos v hpos
  rw [← natCast_unsigned] at hlt
  exact Int.ofNat_lt.mp hlt

/-- The lowest bits of two's complement are two's complement of fewer bits. -/
theorem signed_unsigned {bits width : Nat} (h : bits ≤ width) (v : Int) :
    signed bits (unsigned width v) = Int.bmod v (1 <<< bits) := by
  have hdvd : ((1 <<< bits : Nat) : Int) ∣ (1 <<< width : Nat) := by
    rw [Nat.shiftLeft_eq, Nat.shiftLeft_eq, Nat.one_mul, Nat.one_mul]
    exact Int.natCast_dvd_natCast.mpr (Nat.pow_dvd_pow 2 h)
  unfold signed
  rw [natCast_unsigned, ← Int.emod_bmod, Int.emod_emod_of_dvd v hdvd, Int.emod_bmod]

theorem unsigned_signed {bits n : Nat} (h : n < 1 <<< bits) : unsigned bits (signed bits n) = n := by
  unfold unsigned signed
  rw [Int.bmod_emod, ← Int.natCast_emod, Nat.mod_eq_of_lt h, Int.toNat_natCast]

/-! ## Groups -/

variable {α β : Type} {n : Nat}

theorem groups_eq_singleton {l : List α} (hn : 0 < n) (h : l.length = n) : groups n l = [l] := by
  rw [groups_of_full hn (Nat.le_of_eq h.symm), List.take_of_length_le (Nat.le_of_eq h),
    List.drop_of_length_le (Nat.le_of_eq h), groups, if_neg (by simp; omega)]

theorem groups_flatMap {f : β → List α} (hn : 0 < n) (hf : ∀ x, (f x).length = n) (xs : List β) :
    groups n (xs.flatMap f) = xs.map f := by
  induction xs with
  | nil => rw [List.flatMap_nil, groups, if_neg (by simp; omega), List.map_nil]
  | cons x xs ih =>
    rw [List.flatMap_cons, groups_append _ _ (hf x ▸ Nat.dvd_refl n), groups_eq_singleton hn (hf x), ih, List.map_cons,
      List.singleton_append]

theorem flatten_groups {l : List α} (hn : 0 < n) (h : n ∣ l.length) : (groups n l).flatten = l := by
  obtain ⟨k, hk⟩ := h
  induction k generalizing l with
  | zero => rw [List.eq_nil_of_length_eq_zero hk, groups, if_neg (by simp; omega), List.flatten_nil]
  | succ k ih =>
    rw [Nat.mul_succ] at hk
    rw [groups_of_full hn (by omega), List.flatten_cons, ih (by rw [List.length_drop]; omega), List.take_append_drop]

theorem groups_one (l : List α) : groups 1 l = l.map fun x => [x] := by
  have h := groups_flatMap (f := fun x : α => [x]) Nat.one_pos (fun _ => rfl) l
  rwa [List.flatMap_singleton'] at h

end Bytes

namespace Codec

open Companding

/-! ## Words -/

theorem word_bytes (o : ByteOrder) (width : Nat) (v : Int) :
    word o (bytes o width v) = Bytes.unsigned (8 * width) v := by
  have hlt := Bytes.unsigned_lt (8 * width) v
  rw [Bytes.shiftLeft_eight] at hlt
  rw [word, bytes, Bytes.inOrder_inOrder, Bytes.toNat_ofNat hlt]

theorem bytes_signed_word (o : ByteOrder) (bs : List UInt8) :
    bytes o bs.length (Bytes.signed (8 * bs.length) (word o bs)) = bs := by
  have hlt := Bytes.toNat_lt (Bytes.inOrder o bs)
  have hback := Bytes.ofNat_toNat (Bytes.inOrder o bs)
  rw [Bytes.length_inOrder] at hlt hback
  rw [bytes, word, Bytes.unsigned_signed (by rwa [Bytes.shiftLeft_eight]), hback, Bytes.inOrder_inOrder]

/-- A sample as a 24-bit word, with nothing to round and nothing to clamp. -/
theorem to24_mul (x : Int16) : to24 (x.toInt * 65536) = x.toInt * 256 := by
  have hlt := x.toInt_lt
  unfold to24
  omega

/-! ## One sample -/

theorem ofS32_mul (x : Int16) : (Sample.ofS32 (x.toInt * 65536) : Int16) = x := by
  show Int16.ofInt (x.toInt * 65536 / 65536) = x
  rw [Int.mul_ediv_cancel _ (by decide), Int16.ofInt_toInt]

/-- An encoding of more than a byte keeps the whole sample. -/
theorem decodeSample_encodeSample {o : ByteOrder} {e : Encoding} (he : e ∈ [.s16 o, .s24 o, .s24in32 o, .s32 o])
    (x : Int16) : decodeSample e (encodeSample e x) = x := by
  have hle := x.le_toInt
  have hlt := x.toInt_lt
  -- what is read of `bits` bits, out of those written, is the number if it is small enough
  have hread {bits width : Nat} (h : bits ≤ 8 * width) {v : Int} (hlow : -((1 <<< bits : Nat) / 2 : Int) ≤ v)
      (hhigh : v < ((1 <<< bits : Nat) + 1 : Int) / 2) : Bytes.signed bits (word o (bytes o width v)) = v := by
    rw [word_bytes, Bytes.signed_unsigned h, Int.bmod_eq_of_le hlow hhigh]
  simp only [List.mem_cons, List.not_mem_nil, or_false] at he
  rcases he with rfl | rfl | rfl | rfl
  · show Int16.ofInt (Bytes.signed 16 (word o (bytes o 2 x.toInt))) = x
    rw [hread (by decide) (by simp; omega) (by simp; omega), Int16.ofInt_toInt]
  · show Sample.ofS32 (Bytes.signed 24 (word o (bytes o 3 (to24 (x.toInt * 65536)))) * 256) = x
    rw [to24_mul, hread (by decide) (by simp; omega) (by simp; omega), Int.mul_assoc]
    exact ofS32_mul x
  · show Sample.ofS32 (Bytes.signed 24 (word o (bytes o 4 (to24 (x.toInt * 65536)))) * 256) = x
    rw [to24_mul, hread (by decide) (by simp; omega) (by simp; omega), Int.mul_assoc]
    exact ofS32_mul x
  · show Sample.ofS32 (Bytes.signed 32 (word o (bytes o 4 (x.toInt * 65536)))) = x
    rw [hread (by decide) (by simp; omega) (by simp; omega)]
    exact ofS32_mul x

theorem toU8_ofU8 (b : UInt8) : Sample.toU8 (Sample.ofU8 b : Int16) = b := by
  have hb := b.toNat_lt
  show UInt8.ofNat (((Int16.ofInt ((b.toNat - 128) * 256)).toInt + 32768) / 256).toNat = b
  rw [toInt_ofInt (by omega) (by omega), show (((b.toNat : Int) - 128) * 256 + 32768) / 256 = b.toNat by omega,
    Int.toNat_natCast, UInt8.ofNat_toNat]

/-- The bytes of a sample that is held in full, or in a single byte other than μ-law, are those that it was read
    from. -/
theorem encodeSample_decodeSample {o : ByteOrder} {e : Encoding} (he : e ∈ [.u8, .aLaw, .s16 o]) {bs : List UInt8}
    (hbs : bs.length = e.size) : encodeSample e (decodeSample e bs : Int16) = bs := by
  simp only [List.mem_cons, List.not_mem_nil, or_false] at he
  rcases he with rfl | rfl | rfl
  · obtain ⟨b, rfl⟩ := List.length_eq_one_iff.mp hbs
    exact congrArg (fun b => [b]) (toU8_ofU8 b)
  · obtain ⟨b, rfl⟩ := List.length_eq_one_iff.mp hbs
    exact congrArg (fun b => [b]) (encodeALaw_decodeALaw b)
  · have hlt : word o bs < 65536 := by
      have := Bytes.toNat_lt (Bytes.inOrder o bs)
      rwa [Bytes.length_inOrder, hbs] at this
    have hword : (Int16.ofInt (Bytes.signed 16 (word o bs))).toInt = Bytes.signed 16 (word o bs) := by
      have hle : -(32768 : Int) ≤ Bytes.signed 16 (word o bs) := Int.le_bmod (by decide)
      have hlt : Bytes.signed 16 (word o bs) < 32768 := Int.bmod_lt (by decide)
      exact toInt_ofInt hle (by omega)
    show bytes o 2 (Int16.ofInt (Bytes.signed 16 (word o bs))).toInt = bs
    rw [hword]
    have hback := bytes_signed_word o bs
    rwa [hbs] at hback

/-! ## Lists of samples -/

section

variable {S : Type} [Sample S]

theorem decode_encode_map (e : Encoding) (xs : List S) :
    decode e (encode e xs) = xs.map fun x => (decodeSample e (encodeSample e x) : S) := by
  rw [decode, encode, Bytes.groups_flatMap e.size_pos (length_encodeSample e), List.map_map]
  rfl

theorem encode_decode_groups (e : Encoding) (bs : List UInt8) :
    encode e (decode e bs : List S) =
      (Bytes.groups e.size bs).flatMap fun g => encodeSample e (decodeSample e g : S) := by
  rw [encode, decode, List.flatMap_map]

theorem length_decode (e : Encoding) (bs : List UInt8) : (decode e bs : List S).length = bs.length / e.size := by
  rw [decode, List.length_map, Bytes.length_groups e.size_pos]

/-- The samples encoded behind what a buffer holds: there are zeros first, and the bytes of the samples take their
    place. -/
def encodeInto (e : Encoding) (xs : List S) (buffer : List UInt8) : List UInt8 :=
  let room := List.replicate (xs.length * e.size) 0
  writeFrames e.size (buffer ++ room) buffer.length (xs.map (encodeSample e))

/-- The samples of some bytes behind what a buffer holds: there is silence first, and the samples take its place. -/
def decodeInto (e : Encoding) (bs : List UInt8) (buffer : List S) : List S :=
  let room := List.replicate (bs.length / e.size) Sample.silence
  writeFrom (buffer ++ room) buffer.length ((Bytes.groups e.size bs).map (decodeSample e))

theorem encodeInto_eq (e : Encoding) (xs : List S) (buffer : List UInt8) :
    encodeInto e xs buffer = buffer ++ encode e xs := by
  have hbytes : Uniform e.size (xs.map (encodeSample e)) := Uniform.map xs (length_encodeSample e)
  unfold encodeInto
  rw [writeFrames_append buffer hbytes (by rw [List.length_replicate, List.length_map]), ← List.flatMap_def]
  rfl

theorem decodeInto_eq (e : Encoding) (bs : List UInt8) (buffer : List S) :
    decodeInto e bs buffer = buffer ++ decode e bs := by
  have hroom : (List.replicate (bs.length / e.size) (Sample.silence : S)).length =
      ((Bytes.groups e.size bs).map (decodeSample (S := S) e)).length := by
    rw [List.length_replicate, List.length_map, Bytes.length_groups e.size_pos]
  have hwritten := writeFrom_append buffer [] hroom
  rw [List.append_nil, List.append_nil] at hwritten
  exact hwritten

end

theorem decode_encode {o : ByteOrder} {e : Encoding} (he : e ∈ [.s16 o, .s24 o, .s24in32 o, .s32 o])
    (xs : List Int16) : decode e (encode e xs) = xs := by
  rw [decode_encode_map]
  exact (List.map_congr_left fun x _ => decodeSample_encodeSample he x).trans (List.map_id xs)

theorem encode_decode {o : ByteOrder} {e : Encoding} (he : e ∈ [.u8, .aLaw, .s16 o]) {bs : List UInt8}
    (h : e.size ∣ bs.length) : encode e (decode e bs : List Int16) = bs := by
  have hsame : (Bytes.groups e.size bs).map (fun g => encodeSample e (decodeSample e g : Int16)) =
      Bytes.groups e.size bs :=
    (List.map_congr_left fun g hg => encodeSample_decodeSample he (Bytes.length_of_mem_groups bs g hg)).trans
      (List.map_id _)
  rw [encode_decode_groups, List.flatMap_def, hsame, Bytes.flatten_groups e.size_pos h]

theorem encode_decode_muLaw (bs : List UInt8) :
    encode .muLaw (decode .muLaw bs : List Int16) = bs.map fun b => if b = 0x7F then 0xFF else b := by
  rw [encode_decode_groups, Encoding.size, Bytes.groups_one, List.flatMap_map]
  show bs.flatMap (fun b => [encodeMuLaw (decodeMuLaw b)]) = _
  simp only [encodeMuLaw_decodeMuLaw]
  exact List.map_eq_flatMap.symm

/-- What a byte was decoded to is encoded as it was. -/
theorem encode_again {e : Encoding} (he : e ∈ [.u8, .aLaw, .muLaw]) (xs : List Int16) :
    encode e (decode e (encode e xs) : List Int16) = encode e xs := by
  have hwhole : e.size ∣ (encode e xs).length := length_encode e xs ▸ Nat.dvd_mul_left ..
  simp only [List.mem_cons, List.not_mem_nil, or_false] at he
  rcases he with rfl | rfl | rfl
  · exact encode_decode (o := .little) (by decide) hwhole
  · exact encode_decode (o := .little) (by decide) hwhole
  · rw [encode_decode_muLaw]
    refine (List.map_congr_left fun b hb => if_neg ?_).trans (List.map_id _)
    obtain ⟨x, _, hx⟩ := List.mem_flatMap.mp hb
    rw [List.mem_singleton.mp hx]
    exact encodeMuLaw_ne x

/-- Samples of 16 bits are written and read behind what a buffer holds. In an encoding of more than a byte they are the
    same when they are read again; in one of a single byte the bytes are, whatever the samples. Bytes that are read and
    written again are the same, too, if they are single or 16-bit samples; but the μ-law byte of a zero with a sign
    becomes that of the other zero. -/
theorem transcoded (o : ByteOrder) :
    (∀ (e : Encoding) (xs : List Int16) (buffer : List UInt8),
      encodeInto e xs buffer = buffer ++ encode e xs ∧ (encode e xs).length = xs.length * e.size) ∧
    (∀ (e : Encoding) (bs : List UInt8) (buffer : List Int16),
      decodeInto e bs buffer = buffer ++ decode e bs ∧ (decode e bs : List Int16).length = bs.length / e.size) ∧
    (∀ e ∈ [Encoding.s16 o, .s24 o, .s24in32 o, .s32 o], ∀ xs : List Int16, decode e (encode e xs) = xs) ∧
    (∀ e ∈ [Encoding.u8, .aLaw, .muLaw], ∀ xs : List Int16,
      encode e (decode e (encode e xs) : List Int16) = encode e xs) ∧
    (∀ e ∈ [Encoding.u8, .aLaw, .s16 o], ∀ bs, e.size ∣ bs.length → encode e (decode e bs : List Int16) = bs) ∧
    ∀ bs, encode .muLaw (decode .muLaw bs : List Int16) = bs.map fun b => if b = 0x7F then 0xFF else b := by
  refine ⟨fun e xs buffer => ⟨encodeInto_eq e xs buffer, length_encode e xs⟩,
    fun e bs buffer => ⟨decodeInto_eq e bs buffer, length_decode e bs⟩, ?_, ?_, ?_, encode_decode_muLaw⟩
  · intro e he xs
    exact decode_encode he xs
  · intro e he xs
    exact encode_again he xs
  · intro e he bs h
    exact encode_decode he h

/-- The least sample, one that loses bits in a byte and a zero, in three encodings; and both zeros in μ-law. -/
theorem transcoded_extremes :
    let xs : List Int16 := [-32768, 4660, 0]
    encode (.s24in32 .big) xs = [0xFF, 0x80, 0, 0, 0, 0x12, 0x34, 0, 0, 0, 0, 0] ∧
      decode (.s24in32 .big) (encode (.s24in32 .big) xs) = xs ∧
      (decode .aLaw (encode .aLaw xs) : List Int16) = [-32256, 4736, 8] ∧
      encode .aLaw (decode .aLaw (encode .aLaw xs) : List Int16) = encode .aLaw xs ∧
      encode (.s16 .big) (decode (.s16 .big) [0x80, 0, 0x12, 0x34] : List Int16) = [0x80, 0, 0x12, 0x34] ∧
      encode .muLaw (decode .muLaw [0x7F, 0xFF, 0] : List Int16) = [0xFF, 0xFF, 0] := by
  intro xs
  obtain ⟨_, _, hexact, hagain, hbytes, hzeros⟩ := transcoded .big
  exact ⟨by decide +kernel, hexact _ (by decide) xs, by decide +kernel, hagain _ (by decide) xs,
    hbytes _ (by decide) _ (by decide), hzeros _⟩

end Codec

end PcmConvert
