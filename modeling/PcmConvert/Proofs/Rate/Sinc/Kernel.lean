/-
  PcmConvert.Proofs.Rate.Sinc.Kernel — the width of the kernel. The cutoff is a product of
  two numbers up to one, whatever the rates: it may be so small that it vanishes, but it is
  neither negative nor infinity (`isMagnitude_cutoff`). So the zeros on either side take at
  least one frame (`half_pos`), and there are two weights for each of `half` frames
  (`length_taps`).
-/

import PcmConvert.Rate.Sinc.Kernel
import PcmConvert.Proofs.Number.Binary64

namespace PcmConvert.Rate.Kernel

open Number Float.Model Float.Model.UnpackedFloat

/-! ## The width -/

theorem unpack_zeroCrossings :
    ∃ h, (Float.ofNat zeroCrossings).toModel.unpack = .finite .positive 4503599627370496 (-48) h := ⟨by decide, rfl⟩

/-- The cutoff is finite and not negative. A quotient of great rates may be no number, which
    the minimum does not take. -/
theorem isMagnitude_cutoff (r : Rates) : IsMagnitude (cutoff r).toModel.unpack := by
  have hratio : IsUnsigned (Float.ofNat r.output / Float.ofNat r.input).toModel.unpack :=
    isUnsigned_pack (isUnsigned_div (isUnsigned_ofNat r.output) (isUnsigned_ofNat r.input))
  have hrolloff : 0 < rolloff ∧ rolloff ≤ 1 := by decide +kernel
  obtain ⟨_, hone⟩ := unpack_one64
  show IsMagnitude (rolloff * if Float.ofNat r.output / Float.ofNat r.input ≤ 1 then _ else _).toModel.unpack
  split
  · next hle => exact isMagnitude_mul_of_le_one (isUnsigned_of_pos hrolloff.1) hrolloff.2 hratio hle
  · exact isMagnitude_mul_of_le_one (isUnsigned_of_pos hrolloff.1) hrolloff.2 (hone ▸ .finite _ _ _) (by decide +kernel)

theorem half_pos (r : Rates) : 0 < half r := by
  apply ceilNat_pos
  obtain ⟨_, hcrossings⟩ := unpack_zeroCrossings
  have hcutoff := isMagnitude_cutoff r
  show IsPositive (UnpackedFloat.unpack .binary64 (UnpackedFloat.pack .binary64
    (UnpackedFloat.div .binary64 (Float.ofNat zeroCrossings).toModel.unpack (cutoff r).toModel.unpack)))
  rw [hcrossings]
  generalize hc : (cutoff r).toModel.unpack = c at hcutoff
  cases hcutoff with
  | zero => exact isPositive_pack_infinity
  | finite m e hm =>
    obtain ⟨hm', _, _, he⟩ := binary64.unpack_bounds hc
    exact binary64.isPositive_div (Nat.le_refl _) (by decide) hm' (by omega)

/-! ## The number of weights -/

theorem length_weights (r : Rates) (fraction : Nat) : (weights r fraction).length = 2 * half r := by
  simp [weights]

theorem length_quantize (ws : List Float) : (quantize ws).length = ws.length := by
  simp [quantize]

theorem length_taps (r : Rates) (fraction : Nat) : (taps r fraction).length = 2 * half r := by
  rw [taps, length_quantize, List.length_map, length_weights]

end PcmConvert.Rate.Kernel
