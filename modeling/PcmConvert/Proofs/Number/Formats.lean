/-
  PcmConvert.Proofs.Number.Formats — rounding to a binary format, packing into its bits and
  reading them again, for any number of bits. A significand is cut to the bits of the format
  and rounding adds one to it at most, so the exponent grows by one at most after that
  (`Layout.round_exponent_le`, `Layout.round_normal`). A normal number that is packed is read
  again as it was (`Layout.unpack_pack`).

  Products and quotients of numbers without a sign have none (`isUnsigned_mul`,
  `isUnsigned_div`). How far they may be rounded off is bounded too: a product of numbers
  that are not too great is finite (`Layout.isMagnitude_mul`), and a quotient of a number
  that is not too small does not vanish (`Layout.isPositive_div`).
-/

import Mathlib

namespace PcmConvert.Number

open Float.Model Float.Model.UnpackedFloat

/-- Significands have `p + 1` bits, and their last bit an exponent from `l` to `u`. The
    exponent is written with `1 - l` added, so the bits of `u` are one below all ones. -/
structure Layout (spec : Format) (p : Nat) (l u : Int) : Prop where
  bits : spec.mantissaBitsWithoutImplicit = p
  least : spec.minExponent = l
  range : l < u
  bias : (spec.exponentBias : Int) + p = 1 - l
  top : ((2 ^ spec.exponentBits : Nat) : Int) = u - l + 3

theorem binary32 : Layout .binary32 23 (-149) 104 := ⟨rfl, rfl, by decide, rfl, rfl⟩

theorem binary64 : Layout .binary64 52 (-1074) 971 := ⟨rfl, rfl, by decide, rfl, rfl⟩

variable {spec : Format} {p : Nat} {l u : Int}

/-! ## Rounding -/

theorem mantissa_shift (em : ExtendedMantissa) (k : Nat) : (em >>> k).mantissa = em.mantissa / 2 ^ k := by
  show (k.repeat ExtendedMantissa.shiftRightOne em).mantissa = _
  induction k with
  | zero => simp [Nat.repeat]
  | succ k ih =>
    show (k.repeat ExtendedMantissa.shiftRightOne em).mantissa / 2 = _
    rw [ih, Nat.div_div_eq_div_mul, Nat.pow_succ]

theorem mantissa_of (q : Nat) (a : Accuracy) : (ExtendedMantissa.ofMantissaAndAccuracy q a).mantissa = q := by
  unfold ExtendedMantissa.ofMantissaAndAccuracy
  split <;> rfl

theorem roundedMantissa_le (em : ExtendedMantissa) : em.roundedMantissa ≤ em.mantissa + 1 := by
  unfold ExtendedMantissa.roundedMantissa Accuracy.roundToNearestEven
  split <;> omega

theorem le_roundedMantissa (em : ExtendedMantissa) : em.mantissa ≤ em.roundedMantissa := by
  unfold ExtendedMantissa.roundedMantissa Accuracy.roundToNearestEven
  split <;> omega

theorem log2_le {q k : Nat} (h : q < 2 ^ (k + 1)) : q.log2 ≤ k := by
  by_cases hq : q = 0
  · simp [hq]
  · have := (Nat.log2_lt hq).mpr h
    omega

theorem log2_normal {p m : Nat} (h : 2 ^ p ≤ m) (h' : m < 2 ^ (p + 1)) : m.log2 = p :=
  (Nat.log2_eq_iff (Nat.ne_of_gt (Nat.lt_of_lt_of_le (Nat.two_pow_pos p) h))).mpr ⟨h, h'⟩

namespace Layout

theorem target (F : Layout spec p l u) (q : Nat) (t : Int) :
    spec.targetExponent (totalExponent q t) = max (q.log2 + t - p) l := by
  have hbits := F.bits
  unfold Format.targetExponent Format.mantissaBits totalExponent
  rw [F.least]
  omega

/-- The exponent that a significand and its exponent are shifted to. -/
theorem shift_eq (F : Layout spec p l u) (q : Nat) (t : Int) (a : Accuracy) :
    (shiftToTargetExponent spec q t a).2 = max t (max (q.log2 + t - p) l) ∧
      (shiftToTargetExponent spec q t a).1.mantissa = q / 2 ^ ((shiftToTargetExponent spec q t a).2 - t).toNat := by
  unfold shiftToTargetExponent shiftToExponent
  dsimp only
  rw [F.target, mantissa_shift, mantissa_of]
  constructor
  · omega
  · congr 2
    omega

theorem shift_lt (F : Layout spec p l u) (q : Nat) (t : Int) (a : Accuracy) :
    (shiftToTargetExponent spec q t a).1.mantissa < 2 ^ (p + 1) := by
  obtain ⟨he, hm⟩ := F.shift_eq q t a
  rw [hm, Nat.div_lt_iff_lt_mul (Nat.two_pow_pos _), ← Nat.pow_add]
  exact Nat.lt_of_lt_of_le Nat.lt_log2_self (Nat.pow_le_pow_right (by decide) (by omega))

/-- A significand with bits to spare is cut down to those of the format. -/
theorem shift_normal (F : Layout spec p l u) {q : Nat} {t : Int} (a : Accuracy) (hq : 2 ^ p ≤ q) (ht : l ≤ t) :
    (shiftToTargetExponent spec q t a).2 = t + q.log2 - p ∧
      2 ^ p ≤ (shiftToTargetExponent spec q t a).1.mantissa := by
  have hq0 : q ≠ 0 := Nat.ne_of_gt (Nat.lt_of_lt_of_le (Nat.two_pow_pos p) hq)
  obtain ⟨he, hm⟩ := F.shift_eq q t a
  have hlog : p ≤ q.log2 := (Nat.le_log2 hq0).mpr hq
  have he' : (shiftToTargetExponent spec q t a).2 = t + q.log2 - p := by omega
  have hshift : (t + q.log2 - p - t).toNat = q.log2 - p := by omega
  refine ⟨he', ?_⟩
  rw [hm, he', hshift, Nat.le_div_iff_mul_le (Nat.two_pow_pos _), ← Nat.pow_add, show p + (q.log2 - p) = q.log2 by omega]
  exact Nat.log2_self_le hq0

/-- What is rounded may carry into one more power of two. -/
theorem log2_rounded_le (F : Layout spec p l u) (q : Nat) (t : Int) (a : Accuracy) :
    (shiftToTargetExponent spec q t a).1.roundedMantissa.log2 ≤ p + 1 := by
  have hlt := F.shift_lt q t a
  have hle := roundedMantissa_le (shiftToTargetExponent spec q t a).1
  have hpow : 2 ^ (p + 1 + 1) = 2 ^ (p + 1) * 2 := Nat.pow_succ 2 (p + 1)
  exact log2_le (by omega)

theorem round_normal (F : Layout spec p l u) {s : Sign} {q : Nat} {t : Int} {a : Accuracy} (hq : 2 ^ p ≤ q) (ht : l ≤ t) :
    ∃ m e h, roundWithAccuracy spec s q t a = .finite s m e h ∧ 2 ^ p ≤ m ∧ m < 2 ^ (p + 1) ∧
      t + q.log2 - p ≤ e ∧ e ≤ t + q.log2 - p + 1 := by
  have hpos := Nat.two_pow_pos p
  obtain ⟨he, hlow⟩ := F.shift_normal a hq ht
  have hcarry := F.log2_rounded_le q t a
  have hlog : p ≤ q.log2 := (Nat.le_log2 (by omega)).mpr hq
  unfold roundWithAccuracy
  dsimp only
  generalize shiftToTargetExponent spec q t a = x at he hlow hcarry ⊢
  have hr : 2 ^ p ≤ x.1.roundedMantissa := Nat.le_trans hlow (le_roundedMantissa x.1)
  obtain ⟨he', hlow'⟩ := F.shift_normal .exact hr (show l ≤ x.2 by omega)
  have hhigh' := F.shift_lt x.1.roundedMantissa x.2 .exact
  have hlog' : p ≤ x.1.roundedMantissa.log2 := (Nat.le_log2 (by omega)).mpr hr
  generalize shiftToTargetExponent spec x.1.roundedMantissa x.2 .exact = y at he' hlow' hhigh' ⊢
  rw [dif_neg (by omega)]
  exact ⟨_, _, _, rfl, hlow', hhigh', by omega, by omega⟩

/-- However much is cut off, the exponent grows by no more than that and one. -/
theorem round_exponent_le (F : Layout spec p l u) {s s' : Sign} {q m k : Nat} {t e : Int} {a : Accuracy} {h : 0 < m}
    (hq : q.log2 ≤ p + k) (hr : roundWithAccuracy spec s q t a = .finite s' m e h) : e ≤ max (t + k) l + 1 := by
  unfold roundWithAccuracy at hr
  dsimp only at hr
  split at hr
  · cases hr
  · injection hr with _ _ he
    have h1 := (F.shift_eq q t a).1
    have hcarry := F.log2_rounded_le q t a
    generalize shiftToTargetExponent spec q t a = x at *
    have h2 := (F.shift_eq x.1.roundedMantissa x.2 .exact).1
    omega

end Layout

/-! ## Packing -/

theorem toNat_implicit {n : Nat} (m : BitVec n) : (1#1 ++ m).toNat = 2 ^ n + m.toNat := by
  rw [BitVec.toNat_append, ← Nat.shiftLeft_add_eq_or_of_lt (BitVec.isLt _), Nat.shiftLeft_eq]
  simp

namespace Layout

/-- What bits can stand for. -/
theorem unpack_bounds (F : Layout spec p l u) {b : BitVec spec.numBits} {s : Sign} {m : Nat} {e : Int} {h : 0 < m}
    (hb : UnpackedFloat.unpack spec b = .finite s m e h) :
    m < 2 ^ (p + 1) ∧ (l < e → 2 ^ p ≤ m) ∧ l ≤ e ∧ e ≤ u := by
  obtain ⟨rfl, rfl, hrange, hbias, htop⟩ := F
  unfold UnpackedFloat.unpack at hb
  dsimp only at hb
  have hexp : (unpackExponent b).toNat < 2 ^ spec.exponentBits := BitVec.isLt _
  have hfrac : (unpackMantissa b).toNat < 2 ^ spec.mantissaBitsWithoutImplicit := BitVec.isLt _
  have hpow : 2 ^ (spec.mantissaBitsWithoutImplicit + 1) = 2 ^ spec.mantissaBitsWithoutImplicit * 2 := Nat.pow_succ 2 _
  split at hb
  · split at hb <;> cases hb
  · next hones =>
    have hones' : (unpackExponent b).toNat + 1 ≠ 2 ^ spec.exponentBits := by
      intro heq
      apply hones
      apply BitVec.eq_of_toNat_eq
      rw [BitVec.neg_one_eq_allOnes, BitVec.toNat_allOnes]
      omega
    split at hb
    · next hzero =>
      split at hb
      · cases hb
      · injection hb with _ hm he
        rw [hzero, BitVec.toNat_ofNat, Nat.zero_mod] at he
        omega
    · next hzero =>
      have hzero' : (unpackExponent b).toNat ≠ 0 := by
        intro heq
        exact hzero (BitVec.eq_of_toNat_eq (by rw [heq, BitVec.toNat_ofNat, Nat.zero_mod]))
      injection hb with _ hm he
      rw [toNat_implicit] at hm
      omega

/-- The bits of a normal number lack the first bit of its significand. -/
theorem unpack_components (F : Layout spec p l u) {b : BitVec spec.exponentBits} (h0 : b ≠ 0#_)
    (h1 : b ≠ -1#_) (s : Sign) (m : BitVec spec.mantissaBitsWithoutImplicit) :
    UnpackedFloat.unpack spec (packComponents spec s b m) =
      .finite s (2 ^ p + m.toNat) (b.toNat - (1 - l)) (Nat.add_pos_left (Nat.two_pow_pos p) _) := by
  obtain ⟨rfl, rfl, _, hbias, _⟩ := F
  unfold UnpackedFloat.unpack
  simp only [unpackExponent_packComponents, unpackMantissa_packComponents, unpackSign_packComponents, toNat_implicit,
    Sign.ofBitVec_toBitVec, if_neg h0, if_neg h1, hbias]

/-- The bits of the exponent of a number that is not too great. -/
theorem toNat_exponent (F : Layout spec p l u) {e : Int} (he : e ≤ u) :
    (BitVec.ofNat spec.exponentBits (e + (1 - l)).toNat).toNat = (e + (1 - l)).toNat := by
  have htop := F.top
  have hrange := F.range
  rw [BitVec.toNat_ofNat]
  exact Nat.mod_eq_of_lt (by omega)

theorem exponent_ne_ones (F : Layout spec p l u) {e : Int} (he : e ≤ u) :
    BitVec.ofNat spec.exponentBits (e + (1 - l)).toNat ≠ -1#_ := by
  have htop := F.top
  have hrange := F.range
  intro heq
  have hnat := (F.toNat_exponent he).symm.trans (congrArg BitVec.toNat heq)
  rw [BitVec.neg_one_eq_allOnes, BitVec.toNat_allOnes] at hnat
  omega

/-- What is too great is packed as infinity, what is normal without its first bit, and the
    rest with no exponent. -/
theorem pack_finite (F : Layout spec p l u) (s : Sign) (m : Nat) (e : Int) (h : 0 < m) :
    UnpackedFloat.pack spec (.finite s m e h) =
      if u < e then packedInfinity spec s
      else packComponents spec s
        (if m.log2 = p then BitVec.ofNat spec.exponentBits (e + (1 - l)).toNat else 0#_)
        (BitVec.ofNat spec.mantissaBitsWithoutImplicit m) := by
  obtain ⟨rfl, rfl, hrange, hbias, htop⟩ := F
  have hexp : e + spec.exponentBias + spec.mantissaBitsWithoutImplicit = e + (1 - spec.minExponent) := by omega
  have hover : 2 ^ spec.exponentBits ≤ (e + (1 - spec.minExponent)).toNat + 1 ↔ u < e := by omega
  have hbits : m.log2 + 1 = spec.mantissaBits ↔ m.log2 = spec.mantissaBitsWithoutImplicit := by
    unfold Format.mantissaBits
    omega
  unfold UnpackedFloat.pack
  simp only [hexp, hover, hbits]
  split
  · rfl
  · split <;> rfl

/-- A normal number is what its bits stand for. -/
theorem unpack_pack (F : Layout spec p l u) {s : Sign} {m : Nat} {e : Int} {h : 0 < m} (hm : 2 ^ p ≤ m) (hm' : m < 2 ^ (p + 1))
    (he : l ≤ e) (he' : e ≤ u) :
    UnpackedFloat.unpack spec (UnpackedFloat.pack spec (.finite s m e h)) = .finite s m e h := by
  have hlog := log2_normal hm hm'
  have hexp := F.toNat_exponent he'
  have hzero : BitVec.ofNat spec.exponentBits (e + (1 - l)).toNat ≠ 0#_ := by
    intro hb
    have : (e + (1 - l)).toNat = 0 := hexp.symm.trans (congrArg BitVec.toNat hb)
    omega
  have hmant : 2 ^ p + (BitVec.ofNat spec.mantissaBitsWithoutImplicit m).toNat = m := by
    have hpow : 2 ^ (p + 1) = 2 ^ p * 2 := Nat.pow_succ 2 p
    rw [BitVec.toNat_ofNat, F.bits, Nat.mod_eq_sub_mod hm, Nat.mod_eq_of_lt (by omega)]
    omega
  rw [F.pack_finite, if_neg (by omega), if_pos hlog, F.unpack_components hzero (F.exponent_ne_ones he')]
  simp only [hmant, hexp]
  congr 1
  omega

end Layout

/-! ## Signs -/

/-- A number without a sign, or no number. -/
inductive IsUnsigned : UnpackedFloat → Prop
  | notANumber : IsUnsigned .notANumber
  | infinity : IsUnsigned (.infinity .positive)
  | zero : IsUnsigned (.zero .positive)
  | finite (m : Nat) (e : Int) (h : 0 < m) : IsUnsigned (.finite .positive m e h)

/-- A number from zero on, but not infinity. -/
inductive IsMagnitude : UnpackedFloat → Prop
  | zero : IsMagnitude (.zero .positive)
  | finite (m : Nat) (e : Int) (h : 0 < m) : IsMagnitude (.finite .positive m e h)

/-- A number above zero, or infinity. -/
inductive IsPositive : UnpackedFloat → Prop
  | infinity : IsPositive (.infinity .positive)
  | finite (m : Nat) (e : Int) (h : 0 < m) : IsPositive (.finite .positive m e h)

theorem isUnsigned_unpack {b : BitVec spec.numBits} (h : unpackSign b = 0#1) :
    IsUnsigned (UnpackedFloat.unpack spec b) := by
  have hs : Sign.ofBitVec (unpackSign b) = .positive := by rw [h]; rfl
  unfold UnpackedFloat.unpack
  simp only [hs]
  split
  · split
    · exact .infinity
    · exact .notANumber
  · split
    · split
      · exact .zero
      · exact .finite _ _ _
    · exact .finite _ _ _

/-- Bits keep the sign. -/
theorem isUnsigned_pack {x : UnpackedFloat} (h : IsUnsigned x) :
    IsUnsigned (UnpackedFloat.unpack spec (UnpackedFloat.pack spec x)) := by
  apply isUnsigned_unpack
  unfold UnpackedFloat.pack
  cases h with
  | notANumber => exact unpackSign_packComponents _ _ _
  | infinity => exact unpackSign_packComponents _ _ _
  | zero => exact unpackSign_packComponents _ _ _
  | finite m e hm =>
    dsimp only
    split
    · exact unpackSign_packComponents _ _ _
    · split <;> exact unpackSign_packComponents _ _ _

/-- What is rounded is zero or finite, and keeps its sign. -/
theorem isMagnitude_round (q : Nat) (t : Int) (a : Accuracy) : IsMagnitude (roundWithAccuracy spec .positive q t a) := by
  unfold roundWithAccuracy
  dsimp only
  split
  · exact .zero
  · exact .finite _ _ _

theorem IsMagnitude.isUnsigned {x : UnpackedFloat} (h : IsMagnitude x) : IsUnsigned x := by
  cases h with
  | zero => exact .zero
  | finite m e hm => exact .finite m e hm

theorem isUnsigned_mul {x y : UnpackedFloat} (hx : IsUnsigned x) (hy : IsUnsigned y) :
    IsUnsigned (UnpackedFloat.mul spec x y) := by
  cases hx <;> cases hy <;> first | constructor | exact (isMagnitude_round _ _ _).isUnsigned

theorem isUnsigned_div {x y : UnpackedFloat} (hx : IsUnsigned x) (hy : IsUnsigned y) :
    IsUnsigned (UnpackedFloat.div spec x y) := by
  cases hx <;> cases hy <;> first | constructor | exact (isMagnitude_round _ _ _).isUnsigned

/-! ## Magnitudes -/

theorem isMagnitude_pack_zero : IsMagnitude (UnpackedFloat.unpack spec (UnpackedFloat.pack spec (.zero .positive))) := by
  show IsMagnitude (UnpackedFloat.unpack spec (packedZero spec .positive))
  rw [unpack_packedZero]
  exact .zero

theorem isPositive_pack_infinity :
    IsPositive (UnpackedFloat.unpack spec (UnpackedFloat.pack spec (.infinity .positive))) := by
  show IsPositive (UnpackedFloat.unpack spec (packedInfinity spec .positive))
  unfold UnpackedFloat.unpack packedInfinity
  simp only [unpackExponent_packComponents, unpackMantissa_packComponents, unpackSign_packComponents,
    Sign.ofBitVec_toBitVec]
  exact .infinity

namespace Layout

/-- What is not too great may vanish when it is packed, but it stays finite. -/
theorem isMagnitude_pack (F : Layout spec p l u) {m : Nat} {e : Int} {h : 0 < m} (he : e ≤ u) :
    IsMagnitude (UnpackedFloat.unpack spec (UnpackedFloat.pack spec (.finite .positive m e h))) := by
  have hones : (if m.log2 = p then BitVec.ofNat spec.exponentBits (e + (1 - l)).toNat else 0#_) ≠
      -1#_ := by
    split
    · exact F.exponent_ne_ones he
    · simp [Nat.ne_of_gt spec.he]
  rw [F.pack_finite, if_neg (by omega)]
  generalize (if m.log2 = p then _ else _) = b at hones ⊢
  unfold UnpackedFloat.unpack
  simp only [unpackExponent_packComponents, unpackMantissa_packComponents, unpackSign_packComponents,
    Sign.ofBitVec_toBitVec, if_neg hones]
  split
  · split
    · exact .zero
    · exact .finite _ _ _
  · exact .finite _ _ _

/-- What is normal may grow too great when it is packed, but it stays positive. -/
theorem isPositive_pack (F : Layout spec p l u) {m : Nat} {e : Int} {h : 0 < m} (hm : 2 ^ p ≤ m) (hm' : m < 2 ^ (p + 1))
    (he : l ≤ e) : IsPositive (UnpackedFloat.unpack spec (UnpackedFloat.pack spec (.finite .positive m e h))) := by
  by_cases hu : e ≤ u
  · rw [F.unpack_pack hm hm' he hu]
    exact .finite m e h
  · rw [F.pack_finite, if_pos (by omega)]
    exact isPositive_pack_infinity

/-- A product of numbers that are not too great is not infinity. -/
theorem isMagnitude_mul (F : Layout spec p l u) {m n : Nat} {e d : Int} {hm : 0 < m} {hn : 0 < n} (hm' : m < 2 ^ (p + 1))
    (hn' : n < 2 ^ (p + 1)) (h : e + d + p + 2 ≤ u) :
    IsMagnitude (UnpackedFloat.unpack spec
      (UnpackedFloat.pack spec (UnpackedFloat.mul spec (.finite .positive m e hm) (.finite .positive n d hn)))) := by
  have hrange := F.range
  have hlog : (m * n).log2 ≤ p + (p + 1) := by
    apply log2_le
    rw [show p + (p + 1) + 1 = (p + 1) + (p + 1) by omega, Nat.pow_add]
    exact Nat.mul_lt_mul'' hm' hn'
  show IsMagnitude (UnpackedFloat.unpack spec
    (UnpackedFloat.pack spec (roundWithAccuracy spec .positive (m * n) (e + d) .exact)))
  have hround : IsMagnitude (roundWithAccuracy spec .positive (m * n) (e + d) .exact) := isMagnitude_round _ _ _
  generalize hr : roundWithAccuracy spec .positive (m * n) (e + d) .exact = x at hround
  cases hround with
  | zero => exact isMagnitude_pack_zero
  | finite m' e' _ =>
    have hle := F.round_exponent_le hlog hr
    exact F.isMagnitude_pack (by omega)

/-- A quotient that stays clear of the least exponent is taken with enough bits to fill a significand. -/
theorem div_eq (F : Layout spec p l u) {m n : Nat} {e d : Int} (hm : 0 < m) (hn : 0 < n) (hlow : 2 ^ p ≤ m)
    (hhigh : m < 2 ^ (p + 1)) (hn' : n < 2 ^ (p + 1)) (h : l ≤ e - d - 1 - p) :
    UnpackedFloat.div spec (.finite .positive m e hm) (.finite .positive n d hn) =
      roundWithAccuracy spec .positive (m * 2 ^ (n.log2 + 1) / n) (e - d - (n.log2 + 1 : Nat))
        (accuracyOfFraction (m * 2 ^ (n.log2 + 1) % n) n) := by
  have hlog : n.log2 ≤ p := log2_le hn'
  have htarget : min (e - d) (spec.targetExponent (totalExponent m e - totalExponent n d)) = e - d - (n.log2 + 1 : Nat) := by
    have hbits := F.bits
    unfold Format.targetExponent Format.mantissaBits totalExponent
    rw [F.least, log2_normal hlow hhigh]
    omega
  have hcore : divCore spec m e n d = (m * 2 ^ (n.log2 + 1) / n, e - d - (n.log2 + 1 : Nat),
      accuracyOfFraction (m * 2 ^ (n.log2 + 1) % n) n) := by
    unfold divCore
    dsimp only
    rw [htarget, show (e - d - (e - d - (n.log2 + 1 : Nat))).toNat = n.log2 + 1 by omega, Nat.shiftLeft_eq]
  show roundWithAccuracy spec .positive (divCore spec m e n d).1 (divCore spec m e n d).2.1 (divCore spec m e n d).2.2 = _
  rw [hcore]

/-- A quotient of a normal number and one that is not much greater does not vanish. -/
theorem isPositive_div (F : Layout spec p l u) {m n : Nat} {e d : Int} {hm : 0 < m} {hn : 0 < n} (hlow : 2 ^ p ≤ m)
    (hhigh : m < 2 ^ (p + 1)) (hn' : n < 2 ^ (p + 1)) (h : l ≤ e - d - 1 - p) :
    IsPositive (UnpackedFloat.unpack spec
      (UnpackedFloat.pack spec (UnpackedFloat.div spec (.finite .positive m e hm) (.finite .positive n d hn)))) := by
  have hpos := Nat.two_pow_pos p
  have hlog : n.log2 ≤ p := log2_le hn'
  have hq : 2 ^ p ≤ m * 2 ^ (n.log2 + 1) / n := by
    rw [Nat.le_div_iff_mul_le hn]
    exact Nat.mul_le_mul hlow (Nat.le_of_lt Nat.lt_log2_self)
  have hlogq : p ≤ (m * 2 ^ (n.log2 + 1) / n).log2 := (Nat.le_log2 (by omega)).mpr hq
  obtain ⟨m', e', _, hr, hlow', hhigh', he, _⟩ := F.round_normal hq (show l ≤ e - d - (n.log2 + 1 : Nat) by omega)
  rw [F.div_eq hm hn hlow hhigh hn' h, hr]
  exact F.isPositive_pack hlow' hhigh' (by omega)

end Layout

end PcmConvert.Number
