/-
  PcmConvert.Proofs.Sample.Companding — the two laws of G.711, from a byte to a sample and back.
  A level stands in the middle of the step that a code names, so that both magnitudes next to
  it have that code (`aLawCode_aLawLevel`); with the bias taken off, a μ-law level is the start
  of a quarter of its step (`muLawCode_muLawLevel`). What is left is the sign and the bits that
  are flipped. In μ-law zero has two bytes, of which encoding gives one (`encodeMuLaw_ne`,
  `encodeMuLaw_decodeMuLaw`).
-/

import PcmConvert.Sample.Companding

namespace PcmConvert.Companding

theorem toInt_ofInt {v : Int} (h : -32768 ≤ v) (h' : v ≤ 32767) : (Int16.ofInt v).toInt = v :=
  Int16.toInt_ofInt_of_le (by omega) (by omega)

/-! ## A-law -/

/-- Levels are multiples of eight, and the magnitudes on both sides of one have its code. -/
theorem aLawCode_aLawLevel : ∀ a < 128, aLawCode (aLawLevel a / 8) = a ∧ aLawCode (aLawLevel a / 8 - 1) = a ∧
    aLawLevel a % 8 = 0 ∧ 0 < aLawLevel a ∧ aLawLevel a ≤ 32256 := by
  decide +kernel

/-- The level does not depend on the sign. -/
theorem aLawLevel_mod (a : Nat) : aLawLevel (a % 128) = aLawLevel a := by
  unfold aLawLevel
  rw [show a % 128 / 16 % 8 = a / 16 % 8 by omega, show a % 128 % 16 = a % 16 by omega]

/-- The flipped bits of a code with its sign are those of the byte. -/
theorem xor_sign : ∀ a < 256, (if 128 ≤ a then a % 128 ^^^ 0xD5 else a % 128 ^^^ 0x55) = a ^^^ 0x55 := by
  decide +kernel

theorem encodeALaw_decodeALaw (b : UInt8) : encodeALaw (decodeALaw b) = b := by
  have ha : b.toNat ^^^ 0x55 < 256 := Nat.xor_lt_two_pow (n := 8) b.toNat_lt (by decide)
  generalize hab : b.toNat ^^^ 0x55 = a at ha
  have hb : a ^^^ 0x55 = b.toNat := by rw [← hab, Nat.xor_assoc, Nat.xor_self, Nat.xor_zero]
  obtain ⟨hcode, hbelow, height, hpos, hle⟩ := aLawCode_aLawLevel (a % 128) (Nat.mod_lt _ (by decide))
  have hsign := xor_sign a ha
  rw [aLawLevel_mod] at hcode hbelow height hpos hle
  unfold encodeALaw decodeALaw
  dsimp only
  rw [hab]
  by_cases h : 128 ≤ a
  · rw [if_pos h] at hsign
    have hx : (Int16.ofInt (aLawLevel a)).toInt / 8 = (aLawLevel a / 8 : Nat) := by
      rw [toInt_ofInt (by omega) (by omega)]
      rfl
    rw [if_pos h, hx, if_pos (Int.natCast_nonneg _), Int.toNat_natCast, hcode, hsign, hb, UInt8.ofNat_toNat]
  · rw [if_neg h] at hsign
    have hx : (Int16.ofInt (-(aLawLevel a : Int))).toInt / 8 = -(aLawLevel a / 8 : Nat) := by
      rw [toInt_ofInt (by omega) (by omega)]
      omega
    have hm : (-(-((aLawLevel a / 8 : Nat) : Int)) - 1).toNat = aLawLevel a / 8 - 1 := by omega
    rw [if_neg h, hx, if_neg (by omega), hm, hbelow, hsign, hb, UInt8.ofNat_toNat]

/-! ## μ-law -/

/-- Levels are multiples of four, and zero is the first of them only. -/
theorem muLawCode_muLawLevel : ∀ u < 128, muLawCode (muLawLevel u / 4) = u ∧ muLawLevel u % 4 = 0 ∧
    muLawLevel u ≤ 32124 ∧ (muLawLevel u = 0 → u = 0) := by
  decide +kernel

theorem muLawLevel_mod (u : Nat) : muLawLevel (u % 128) = muLawLevel u := by
  unfold muLawLevel
  rw [show u % 128 / 16 % 8 = u / 16 % 8 by omega, show u % 128 % 16 = u % 16 by omega]

theorem xor_flipped : ∀ u < 128, u ^^^ 0xFF = 255 - u ∧ u ^^^ 0x7F = 127 - u := by
  decide +kernel

theorem muLawCode_lt (m : Nat) : muLawCode m < 128 := by
  unfold muLawCode
  dsimp only
  split <;> omega

/-- Only a magnitude of zero has the code zero. -/
theorem muLawCode_pos {m : Nat} (hm : 0 < m) : 0 < muLawCode m := by
  unfold muLawCode
  dsimp only
  generalize hn : min m muLawClip + muLawBias / 4 = n
  have hlow : 34 ≤ n := by
    rw [← hn]
    unfold muLawClip muLawBias
    omega
  split
  · decide
  · by_cases hfirst : n ≤ 0x3F
    · have hs : segment n muLawEnds = 0 := by simp [segment, muLawEnds, List.findIdx_cons, hfirst]
      rw [hs, Nat.shiftRight_eq_div_pow]
      omega
    · have hs : segment n muLawEnds ≠ 0 := by simp [segment, muLawEnds, List.findIdx_cons, hfirst]
      omega

/-- The byte of zero with a sign is never written. -/
theorem encodeMuLaw_ne (x : Int16) : encodeMuLaw x ≠ 0x7F := by
  intro h
  unfold encodeMuLaw at h
  dsimp only at h
  have h := congrArg UInt8.toNat h
  split at h
  · next hpos =>
    have hlt := muLawCode_lt (x.toInt / 4).toNat
    rw [(xor_flipped _ hlt).1, UInt8.toNat_ofNat', Nat.mod_eq_of_lt (by omega)] at h
    have : UInt8.toNat 0x7F = 127 := rfl
    omega
  · next hneg =>
    have hlt := muLawCode_lt (-(x.toInt / 4)).toNat
    have hpos : 0 < muLawCode (-(x.toInt / 4)).toNat := muLawCode_pos (by omega)
    rw [(xor_flipped _ hlt).2, UInt8.toNat_ofNat', Nat.mod_eq_of_lt (by omega)] at h
    have : UInt8.toNat 0x7F = 127 := rfl
    omega

/-- Of the two bytes of zero the one with a sign becomes the other. -/
theorem encodeMuLaw_decodeMuLaw (b : UInt8) : encodeMuLaw (decodeMuLaw b) = if b = 0x7F then 0xFF else b := by
  have hbyte := b.toNat_lt
  generalize hu : 255 - b.toNat = u
  obtain ⟨hcode, hfour, hle, hzero⟩ := muLawCode_muLawLevel (u % 128) (Nat.mod_lt _ (by decide))
  obtain ⟨hplus, hminus⟩ := xor_flipped (u % 128) (Nat.mod_lt _ (by decide))
  rw [muLawLevel_mod] at hcode hfour hle hzero
  have hb : b = UInt8.ofNat (255 - u) := by
    rw [show 255 - u = b.toNat by omega, UInt8.ofNat_toNat]
  unfold encodeMuLaw decodeMuLaw
  dsimp only
  rw [hu]
  by_cases h : 128 ≤ u
  · have hx : (Int16.ofInt (-(muLawLevel u : Int))).toInt / 4 = -(muLawLevel u / 4 : Nat) := by
      rw [toInt_ofInt (by omega) (by omega)]
      omega
    rw [if_pos h, hx]
    by_cases hsilent : muLawLevel u = 0
    · have hu' : u = 128 := by omega
      rw [hb, hu']
      decide +kernel
    · have hu' : b ≠ 0x7F := by
        rintro rfl
        exact hsilent (by rw [← hu]; decide)
      rw [if_neg (by omega), if_neg hu', Int.neg_neg, Int.toNat_natCast, hcode, hminus, hb]
      exact congrArg UInt8.ofNat (by omega)
  · have hx : (Int16.ofInt (muLawLevel u : Int)).toInt / 4 = (muLawLevel u / 4 : Nat) := by
      rw [toInt_ofInt (by omega) (by omega)]
      rfl
    have hu' : b ≠ 0x7F := by
      rintro rfl
      exact h (by rw [← hu]; decide)
    rw [if_neg h, hx, if_pos (Int.natCast_nonneg _), if_neg hu', Int.toNat_natCast, hcode, hplus, hb,
      Nat.mod_eq_of_lt (by omega)]

end PcmConvert.Companding
