/-
  PcmConvert.Proofs.Number.Binary32 — the reciprocal of a binary32 number above one is not
  one (`reciprocal_ne_one`), as far as it may be rounded. It is told from one by the bits of
  its exponent: they are those of one for a number from one up to two, and they are lower
  for a quotient that is below one before it is rounded and does not reach one when it is.
-/

import PcmConvert.Number.Binary32
import PcmConvert.Proofs.Number.Formats

namespace PcmConvert.Number

open Float.Model Float.Model.UnpackedFloat

/-- The eight bits of the exponent. -/
abbrev exponentBits (x : Float32.Model) : BitVec 8 := @unpackExponent .binary32 x.toBits.toBitVec

theorem unpack_one : ∃ h, (1 : Float32).toModel.unpack = .finite .positive 8388608 (-23) h := ⟨by decide, rfl⟩

/-! ## Rounding -/

/-- A quotient that is small enough stays below one when it is rounded. -/
theorem exponent_round {s : Sign} {q : Nat} {t : Int} {a : Accuracy}
    (h : q < 2 ^ 24 - 1 ∧ t ≤ -24 ∨ q ≤ 2 ^ 24 ∧ t ≤ -25) {s' : Sign} {m : Nat} {e : Int} {hm : 0 < m}
    (hr : roundWithAccuracy .binary32 s q t a = .finite s' m e hm) : e ≤ -24 := by
  unfold roundWithAccuracy at hr
  dsimp only at hr
  split at hr
  · cases hr
  · injection hr with _ _ he
    obtain ⟨h1, hm1⟩ := binary32.shift_eq q t a
    generalize shiftToTargetExponent .binary32 q t a = x at *
    have hq := roundedMantissa_le x.1
    obtain ⟨h2, _⟩ := binary32.shift_eq x.1.roundedMantissa x.2 .exact
    rw [he] at h2
    rcases h with ⟨hlt, ht⟩ | ⟨hle, ht⟩
    · have hlog : q.log2 ≤ 23 := log2_le (by omega)
      have hdiv := Nat.div_le_self q (2 ^ (x.2 - t).toNat)
      have hlog' : x.1.roundedMantissa.log2 ≤ 23 := log2_le (by omega)
      omega
    · have hlog : q.log2 ≤ 24 := log2_le (by omega)
      by_cases hx : x.2 = -24
      · -- at least one bit was shifted out
        have hshift : 2 ^ 1 ≤ 2 ^ (x.2 - t).toNat := Nat.pow_le_pow_right (by decide) (by omega)
        have hdiv : q / 2 ^ (x.2 - t).toNat ≤ q / 2 := Nat.div_le_div_left hshift (by decide)
        have hlog' : x.1.roundedMantissa.log2 ≤ 23 := log2_le (by omega)
        omega
      · have hdiv := Nat.div_le_self q (2 ^ (x.2 - t).toNat)
        have hlog' : x.1.roundedMantissa.log2 ≤ 24 := log2_le (by omega)
        omega

/-! ## The reciprocal -/

/-- The quotient of one and a number above it, before it is rounded. -/
theorem divCore_one {m : Nat} {e : Int} (hm : 2 ^ 23 ≤ m) (hm' : m < 2 ^ 24)
    (h : -23 < e ∨ e = -23 ∧ 2 ^ 23 < m) {q : Nat} {t : Int} {a : Accuracy}
    (hd : divCore .binary32 8388608 (-23) m e = (q, t, a)) :
    q < 2 ^ 24 - 1 ∧ t ≤ -24 ∨ q ≤ 2 ^ 24 ∧ t ≤ -25 := by
  have hlog : m.log2 = 23 := log2_normal hm hm'
  have htarget : Format.binary32.targetExponent (totalExponent 8388608 (-23) - totalExponent m e) =
      max (1 - (24 + e) - 24) (-149) := by
    simp only [totalExponent, hlog]
    rfl
  unfold divCore at hd
  dsimp only at hd
  rw [htarget] at hd
  injection hd with hq hd
  injection hd with ht _
  rw [ht, Nat.shiftLeft_eq] at hq
  rcases h with h | ⟨rfl, hlt⟩
  · have hpow : 2 ^ (-23 - e - t).toNat ≤ 2 ^ 24 := Nat.pow_le_pow_right (by decide) (by omega)
    refine .inr ⟨?_, by omega⟩
    rw [← hq]
    exact Nat.div_le_of_le_mul (Nat.mul_le_mul hm hpow)
  · have ht' : t = -24 := by omega
    subst ht'
    refine .inl ⟨?_, Int.le_refl _⟩
    rw [← hq, Nat.div_lt_iff_lt_mul (by omega)]
    show 8388608 * 2 ^ 24 < _
    omega

theorem exponentBits_pack (x : UnpackedFloat) (h : ∀ {s m e hm}, x = .finite s m e hm → e ≤ -24) :
    exponentBits (.pack x) ≠ 127#8 := by
  show @unpackExponent .binary32 (UnpackedFloat.pack .binary32 x) ≠ 127#8
  cases x with
  | infinity s => simp [UnpackedFloat.pack, packedInfinity]
  | notANumber => simp [UnpackedFloat.pack, packedNaN]
  | zero s => simp [UnpackedFloat.pack, packedZero]
  | finite s m e hm =>
    have he := h rfl
    rw [binary32.pack_finite]
    split
    · simp [packedInfinity]
    · rw [unpackExponent_packComponents]
      split
      · intro hbits
        have hnat := (binary32.toNat_exponent (show e ≤ 104 by omega)).symm.trans (congrArg BitVec.toNat hbits)
        change (e + 150).toNat = 127 at hnat
        omega
      · decide

/-- What compares equal to one is one. -/
theorem eq_one_of_beq {x : Float32} (h : (x == 1) = true) : x = 1 := by
  obtain ⟨_, _, heq | ⟨_, hzero⟩ | ⟨_, hzero⟩⟩ := Float32.beq_iff_ne_nan_and_eq.mp h
  · exact heq
  · exact absurd hzero (by decide +kernel)
  · exact absurd hzero (by decide +kernel)

/-- A number above one is positive, and greater by its exponent or by its significand. -/
theorem unpack_of_one_lt {x : Float32} (h : 1 < x) : x.toModel.unpack = .infinity .positive ∨
    ∃ m e hm, x.toModel.unpack = .finite .positive m e hm ∧ (-23 < e ∨ e = -23 ∧ 2 ^ 23 < m) := by
  obtain ⟨_, hunpack⟩ := unpack_one
  have hlt : (1 : Float32).toModel.unpack.compare x.toModel.unpack = some .lt := by
    have hmodel : (1 : Float32).toModel < x.toModel := of_decide_eq_true h
    exact eq_of_beq hmodel
  rw [hunpack] at hlt
  cases hx : x.toModel.unpack with
  | notANumber => rw [hx] at hlt; cases hlt
  | zero s => rw [hx] at hlt; cases hlt
  | infinity s =>
    rw [hx] at hlt
    cases s with
    | negative => cases hlt
    | positive => exact .inl rfl
  | finite s m e hm =>
    rw [hx] at hlt
    cases s with
    | negative => cases hlt
    | positive =>
      have hcmp : (compare (-23) e).then (compare 8388608 m) = .lt := Option.some.inj hlt
      refine .inr ⟨m, e, hm, rfl, ?_⟩
      rw [Ordering.then_eq_lt] at hcmp
      rcases hcmp with hcmp | ⟨he, hm⟩
      · exact .inl (Int.compare_eq_lt.mp hcmp)
      · exact .inr ⟨(Int.compare_eq_eq.mp he).symm, Nat.compare_eq_lt.mp hm⟩

/-- The reciprocal of a number above one is not one. -/
theorem reciprocal_ne_one {x : Float32} (h : 1 < x) : (1 / x == 1) = false := by
  rw [← Bool.not_eq_true]
  intro hone
  have hbits : exponentBits (1 / x).toModel = 127#8 := by
    rw [eq_one_of_beq hone]
    decide +kernel
  refine exponentBits_pack _ ?_ hbits
  intro s m e hm hx
  obtain ⟨_, hunpack⟩ := unpack_one
  rw [hunpack] at hx
  rcases unpack_of_one_lt h with hinf | ⟨m', e', hm', hfin, habove⟩
  · rw [hinf] at hx
    cases hx
  · rw [hfin] at hx
    obtain ⟨hhigh, hlow, _⟩ := binary32.unpack_bounds hfin
    exact exponent_round (divCore_one (hlow (by omega)) hhigh habove rfl) hx

end PcmConvert.Number
