/-
  PcmConvert.Proofs.Number.Binary64 — binary64 numbers as far as their signs and their
  magnitudes go. Counts have no sign (`isUnsigned_ofNat`); a product of two numbers up to one
  is not infinity (`isMagnitude_mul_of_le_one`); and a positive number has a positive number
  above it (`ceilNat_pos`).
-/

import PcmConvert.Number.Binary64
import PcmConvert.Proofs.Number.Formats

namespace PcmConvert.Number

open Float.Model Float.Model.UnpackedFloat

theorem unpack_one64 : ∃ h, (1 : Float).toModel.unpack = .finite .positive 4503599627370496 (-52) h := ⟨by decide, rfl⟩

theorem unpack_zero64 : (0 : Float).toModel.unpack = .zero .positive := rfl

theorem isUnsigned_of_pos {x : Float} (h : 0 < x) : IsUnsigned x.toModel.unpack := by
  have hcmp : ((0 : Float).toModel.unpack.compare x.toModel.unpack == some .lt) = true := by
    have hmodel : (0 : Float).toModel < x.toModel := of_decide_eq_true h
    exact hmodel
  rw [unpack_zero64] at hcmp
  generalize x.toModel.unpack = u at hcmp
  cases u with
  | notANumber => exact .notANumber
  | zero s => cases hcmp
  | infinity s =>
    cases s with
    | negative => cases hcmp
    | positive => exact .infinity
  | finite s m e hm =>
    cases s with
    | negative => cases hcmp
    | positive => exact .finite m e hm

/-! ## Counts -/

theorem isUnsigned_normalize (n : Nat) (t : Int) : IsUnsigned (UnpackedFloat.normalize .binary64 n t .positive) := by
  unfold UnpackedFloat.normalize
  split
  · next h =>
    have := Int.compare_eq_lt.mp h
    omega
  · exact .zero
  · exact (isMagnitude_round _ _ _).isUnsigned

/-- A count is converted by way of 64 bits where it fits 53, and as a product otherwise. -/
theorem isUnsigned_ofNat (n : Nat) : IsUnsigned (Float.ofNat n).toModel.unpack := by
  show IsUnsigned (Float.ofScientific n false 0).toModel.unpack
  unfold Float.ofScientific
  split
  · obtain ⟨_, hone⟩ := unpack_one64
    have hscale : IsUnsigned (1 : Float).toModel.unpack := hone ▸ .finite _ _ _
    exact isUnsigned_pack (isUnsigned_mul (isUnsigned_pack (isUnsigned_normalize _ _)) hscale)
  · show IsUnsigned (UnpackedFloat.unpack .binary64
      (UnpackedFloat.pack .binary64 (UnpackedFloat.ofScientific .binary64 n 0)))
    apply isUnsigned_pack
    unfold UnpackedFloat.ofScientific
    split
    · exact .zero
    · have hrange : ¬((0 : Int) < -(2 ^ Format.binary64.exponentBits + n.log2)) := by
        show ¬((0 : Int) < -(2048 + n.log2))
        omega
      rw [if_neg (by decide), if_neg hrange, if_pos (by decide)]
      exact isUnsigned_mul (.finite _ _ _) (.finite _ _ _)

/-! ## Magnitudes -/

/-- Up to one, the exponent is at most that of one. -/
theorem unpack_of_le_one {x : Float} (hx : IsUnsigned x.toModel.unpack) (h : x ≤ 1) :
    x.toModel.unpack = .zero .positive ∨
      ∃ m e hm, x.toModel.unpack = .finite .positive m e hm ∧ m < 2 ^ 53 ∧ e ≤ -52 := by
  obtain ⟨_, hone⟩ := unpack_one64
  have hle : (x.toModel.unpack.compare (1 : Float).toModel.unpack).any (·.isLE) = true := by
    have hmodel : x.toModel ≤ (1 : Float).toModel := of_decide_eq_true h
    exact hmodel
  rw [hone] at hle
  generalize hu : x.toModel.unpack = v at hx hle
  cases hx with
  | notANumber => cases hle
  | infinity => cases hle
  | zero => exact .inl rfl
  | finite m e hm =>
    obtain ⟨hbound, _⟩ := binary64.unpack_bounds hu
    have hcmp : ((compare e (-52)).then (compare m 4503599627370496)).isLE = true := hle
    refine .inr ⟨m, e, hm, rfl, hbound, ?_⟩
    rw [← not_lt]
    intro hgt
    rw [Int.compare_eq_gt.mpr hgt] at hcmp
    cases hcmp

theorem isMagnitude_mul_of_le_one {x y : Float} (hx : IsUnsigned x.toModel.unpack) (hx' : x ≤ 1)
    (hy : IsUnsigned y.toModel.unpack) (hy' : y ≤ 1) : IsMagnitude (x * y).toModel.unpack := by
  show IsMagnitude (UnpackedFloat.unpack .binary64
    (UnpackedFloat.pack .binary64 (UnpackedFloat.mul .binary64 x.toModel.unpack y.toModel.unpack)))
  rcases unpack_of_le_one hx hx' with hx | ⟨m, e, hm, hx, hm', he⟩ <;>
    rcases unpack_of_le_one hy hy' with hy | ⟨n, d, hn, hy, hn', hd⟩ <;> rw [hx, hy]
  · exact isMagnitude_pack_zero
  · exact isMagnitude_pack_zero
  · exact isMagnitude_pack_zero
  · exact binary64.isMagnitude_mul hm' hn' (by omega)

/-- A positive number has a positive number above it. -/
theorem ceilNat_pos {x : Float} (h : IsPositive x.toModel.unpack) : 0 < ceilNat x := by
  unfold ceilNat
  split
  · exact Nat.succ_pos _
  · next hlt =>
    refine Nat.pos_of_ne_zero fun hzero => hlt ?_
    have hwhole : whole x = (0 : UInt64).toFloat := congrArg UInt64.toFloat (UInt64.toNat_inj.mp hzero)
    have hunpack : (0 : UInt64).toFloat.toModel.unpack = .zero .positive := rfl
    have hcmp : (whole x).toModel.unpack.compare x.toModel.unpack = some .lt := by
      rw [hwhole, hunpack]
      generalize x.toModel.unpack = u at h
      cases h <;> rfl
    have hmodel : (whole x).toModel < x.toModel := beq_of_eq hcmp
    exact decide_eq_true hmodel

end PcmConvert.Number
