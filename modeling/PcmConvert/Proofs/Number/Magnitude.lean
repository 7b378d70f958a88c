/-
  PcmConvert.Proofs.Number.Magnitude — positive binary32 numbers of moderate size, told by
  the exponent of their last bit. Counts are such numbers (`within_ofNat`). A sum grows its
  exponent by two at most, so a sum of a few of them is one of them (`foldl_within`); and a
  quotient goes by the exponents of both sides (`within_div`), so that numbers some powers of
  two apart stay apart when they are divided by the same (`div_ne_div`).
-/

import PcmConvert.Proofs.Number.Binary32

namespace PcmConvert.Number

open Float.Model Float.Model.UnpackedFloat

/-- A positive number whose last bit has an exponent from `lo` to `hi`. -/
def within (lo hi : Int) (x : Float32) : Bool :=
  match x.toModel.unpack with
  | .finite .positive _ e _ => lo ≤ e && e ≤ hi
  | _ => false

theorem within_iff {lo hi : Int} {x : Float32} :
    within lo hi x = true ↔ ∃ m e h, x.toModel.unpack = .finite .positive m e h ∧ lo ≤ e ∧ e ≤ hi := by
  unfold within
  split
  · next m e h hx =>
    rw [hx, Bool.and_eq_true, decide_eq_true_iff, decide_eq_true_iff]
    constructor
    · intro he
      exact ⟨m, e, h, rfl, he⟩
    · rintro ⟨_, _, _, heq, he⟩
      cases heq
      exact he
  · next hx =>
    constructor
    · intro h
      cases h
    · rintro ⟨m, e, h, he, _⟩
      exact (hx m e h he).elim

theorem within_mono {lo lo' hi hi' : Int} {x : Float32} (h : within lo hi x = true) (hlo : lo' ≤ lo)
    (hhi : hi ≤ hi') : within lo' hi' x = true := by
  obtain ⟨m, e, hm, hx, h1, h2⟩ := within_iff.mp h
  exact within_iff.mpr ⟨m, e, hm, hx, by omega, by omega⟩

/-! ## Rounding -/

/-- What is rounded to a normal number is of its magnitude. -/
theorem within_round {q : Nat} {t lo hi : Int} {a : Accuracy} (hq : 2 ^ 23 ≤ q) (ht : -149 ≤ t)
    (hlo : lo ≤ t + q.log2 - 23) (hhi : t + q.log2 - 22 ≤ hi) (hmax : hi ≤ 104) :
    within lo hi (.ofModel (.pack (roundWithAccuracy .binary32 .positive q t a))) = true := by
  have hlog : 23 ≤ q.log2 := (Nat.le_log2 (by omega)).mpr hq
  obtain ⟨m, e, h, hr, hm, hm', he, he'⟩ := binary32.round_normal (s := .positive) (a := a) hq ht
  rw [hr, within_iff]
  exact ⟨m, e, h, binary32.unpack_pack hm hm' (by omega) (by omega), by omega, by omega⟩

/-- What is within normal exponents has a significand of 24 bits. -/
theorem exists_normal {lo hi : Int} {x : Float32} (h : within lo hi x = true) (hlo : -149 < lo) :
    ∃ m e hm, x.toModel.unpack = .finite .positive m e hm ∧ 2 ^ 23 ≤ m ∧ m < 2 ^ 24 ∧ lo ≤ e ∧ e ≤ hi := by
  obtain ⟨m, e, hm, hx, h1, h2⟩ := within_iff.mp h
  obtain ⟨hhigh, hlow, _⟩ := binary32.unpack_bounds hx
  exact ⟨m, e, hm, hx, hlow (by omega), hhigh, h1, h2⟩

theorem beq_zero_of_within {lo hi : Int} {x : Float32} (h : within lo hi x = true) : (x == 0) = false := by
  rw [← Bool.not_eq_true]
  intro hz
  obtain ⟨_, _, rfl | ⟨rfl, _⟩ | ⟨rfl, _⟩⟩ := Float32.beq_iff_ne_nan_and_eq.mp hz
  · cases h
  · cases h
  · cases h

/-! ## Counts -/

theorem within_mul_one {lo hi : Int} {x : Float32} (hx : within lo hi x = true) (hlo : -126 < lo) (hhi : hi ≤ 100) :
    within lo (hi + 1) (x * 1) = true := by
  obtain ⟨m, e, hm, hxu, hm1, hm2, he1, he2⟩ := exists_normal hx (by omega)
  obtain ⟨_, hone⟩ := unpack_one
  have hprod : x * 1 = .ofModel (.pack (UnpackedFloat.mul .binary32 x.toModel.unpack (1 : Float32).toModel.unpack)) := rfl
  rw [hprod, hxu, hone]
  show within _ _ (.ofModel (.pack (roundWithAccuracy .binary32 .positive (m * 8388608) (e + -23) .exact))) = true
  have hlog1 : 46 ≤ (m * 8388608).log2 := (Nat.le_log2 (by omega)).mpr (by omega)
  have hlog2 : (m * 8388608).log2 < 47 := (Nat.log2_lt (by omega)).mpr (by omega)
  exact within_round (by omega) (by omega) (by omega) (by omega) (by omega)

/-- A number of less than 24 bits is shifted up to 24 bits. -/
theorem within_round_nat {n : Nat} (h : 0 < n) (hn : n < 2 ^ 23) :
    within (-23) 0 (.ofModel (.pack (UnpackedFloat.round .binary32 .positive n 0))) = true := by
  have hlog : n.log2 < 23 := (Nat.log2_lt (by omega)).mpr hn
  have hlow : 2 ^ 23 ≤ n * 2 ^ (23 - n.log2) := by
    calc 2 ^ 23 = 2 ^ n.log2 * 2 ^ (23 - n.log2) := by rw [← Nat.pow_add, show n.log2 + (23 - n.log2) = 23 by omega]
      _ ≤ n * 2 ^ (23 - n.log2) := Nat.mul_le_mul_right _ (Nat.log2_self_le (by omega))
  have hhigh : n * 2 ^ (23 - n.log2) < 2 ^ 24 := by
    calc n * 2 ^ (23 - n.log2) < 2 ^ (n.log2 + 1) * 2 ^ (23 - n.log2) :=
          Nat.mul_lt_mul_of_pos_right Nat.lt_log2_self (Nat.two_pow_pos _)
      _ = 2 ^ 24 := by rw [← Nat.pow_add, show n.log2 + 1 + (23 - n.log2) = 24 by omega]
  have hlog' := log2_normal hlow hhigh
  unfold UnpackedFloat.round decreaseExponent
  dsimp only
  rw [binary32.target, show (0 - max ((n.log2 : Int) + 0 - (23 : Nat)) (-149)).toNat = 23 - n.log2 by omega, Nat.shiftLeft_eq]
  exact within_round hlow (by omega) (by omega) (by omega) (by decide)

/-- A count is converted by way of 64 bits, and scaled by a power of ten that is one. -/
theorem within_ofNat {n : Nat} (h : 0 < n) (hn : n < 2 ^ 23) : within (-23) 1 (Float32.ofNat n) = true := by
  have hscale : Float32.ofNat n = n.toUInt64.toFloat32 * 1 := by
    show Float32.ofScientific n false 0 = _
    unfold Float32.ofScientific
    rw [dif_pos ⟨hn, by decide⟩]
    rfl
  have hn64 : n.toUInt64.toNat = n := UInt64.toNat_ofNat_of_lt (by show n < 2 ^ 64; omega)
  have hround : n.toUInt64.toFloat32 = .ofModel (.pack (UnpackedFloat.round .binary32 .positive n 0)) := by
    show Float32.ofModel (.pack (UnpackedFloat.normalize .binary32 (n.toUInt64.toNat : Int) 0 .positive)) = _
    unfold UnpackedFloat.normalize
    rw [hn64, show compare (n : Int) 0 = .gt from Int.compare_eq_gt.mpr (by omega)]
    rfl
  rw [hscale]
  exact within_mul_one (hround ▸ within_round_nat h hn) (by decide) (by decide)

/-! ## Sums -/

/-- A sum of positive numbers is that of their significands at the lower exponent. -/
theorem add_finite {m n : Nat} {e d : Int} (hm : 0 < m) (hn : 0 < n) :
    UnpackedFloat.add .binary32 (.finite .positive m e hm) (.finite .positive n d hn) =
      UnpackedFloat.round .binary32 .positive (m * 2 ^ (e - min e d).toNat + n * 2 ^ (d - min e d).toNat)
        (min e d) := by
  show UnpackedFloat.normalize .binary32
    (((m <<< (e - min e d).toNat : Nat) : Int) + ((n <<< (d - min e d).toNat : Nat) : Int)) (min e d) .positive = _
  rw [Nat.shiftLeft_eq, Nat.shiftLeft_eq, ← Int.natCast_add]
  have hpos : 0 < m * 2 ^ (e - min e d).toNat := Nat.mul_pos hm (Nat.two_pow_pos _)
  generalize hq : m * 2 ^ (e - min e d).toNat + n * 2 ^ (d - min e d).toNat = q
  unfold UnpackedFloat.normalize
  rw [show compare (q : Int) 0 = .gt from Int.compare_eq_gt.mpr (by omega)]
  rfl

/-- A significand of 24 bits or more is rounded as it is. -/
theorem round_of_le {s : Sign} {q : Nat} {t : Int} (h : 2 ^ 23 ≤ q) :
    UnpackedFloat.round .binary32 s q t = roundWithAccuracy .binary32 s q t .exact := by
  have hlog : 23 ≤ q.log2 := (Nat.le_log2 (by omega)).mpr h
  unfold UnpackedFloat.round decreaseExponent
  dsimp only
  rw [binary32.target, show (t - max ((q.log2 : Int) + t - (23 : Nat)) (-149)).toNat = 0 by omega]
  simp

/-- A sum is less than four times the greater of the two. -/
theorem within_add {lo hi : Int} {x y : Float32} (hx : within lo hi x = true) (hy : within lo hi y = true)
    (hlo : -149 < lo) (hhi : hi ≤ 100) : within lo (hi + 2) (x + y) = true := by
  obtain ⟨m, e, hm, hxu, hm1, hm2, he1, he2⟩ := exists_normal hx hlo
  obtain ⟨n, d, hn, hyu, hn1, hn2, hd1, hd2⟩ := exists_normal hy hlo
  have hsum : x + y = .ofModel (.pack (UnpackedFloat.add .binary32 x.toModel.unpack y.toModel.unpack)) := rfl
  obtain ⟨k, hk⟩ : ∃ k : Nat, (k : Int) = max e d - min e d := ⟨(max e d - min e d).toNat, by omega⟩
  have hi : 2 ^ (e - min e d).toNat ≤ 2 ^ k := Nat.pow_le_pow_right (by decide) (by omega)
  have hj : 2 ^ (d - min e d).toNat ≤ 2 ^ k := Nat.pow_le_pow_right (by decide) (by omega)
  have hlow : m ≤ m * 2 ^ (e - min e d).toNat := Nat.le_mul_of_pos_right _ (Nat.two_pow_pos _)
  have hhigh1 : m * 2 ^ (e - min e d).toNat ≤ 2 ^ 24 * 2 ^ k := Nat.mul_le_mul (Nat.le_of_lt hm2) hi
  have hhigh2 : n * 2 ^ (d - min e d).toNat < 2 ^ 24 * 2 ^ k :=
    Nat.lt_of_le_of_lt (Nat.mul_le_mul_left n hj) (Nat.mul_lt_mul_of_pos_right hn2 (Nat.two_pow_pos k))
  have hpow : 2 ^ 24 * 2 ^ k + 2 ^ 24 * 2 ^ k = 2 ^ (25 + k) := by
    rw [Nat.pow_add]
    omega
  rw [hsum, hxu, hyu, add_finite]
  obtain ⟨q, hq⟩ : ∃ q, q = m * 2 ^ (e - min e d).toNat + n * 2 ^ (d - min e d).toNat := ⟨_, rfl⟩
  have hq1 : 2 ^ 23 ≤ q := by omega
  have hlog1 : 23 ≤ q.log2 := (Nat.le_log2 (by omega)).mpr hq1
  have hlog2 : q.log2 < 25 + k := (Nat.log2_lt (by omega)).mpr (by omega)
  rw [← hq, round_of_le hq1]
  exact within_round hq1 (by omega) (by omega) (by omega) (by omega)

theorem unpack_zero : (0 : Float32).toModel.unpack = .zero .positive := rfl

theorem within_add_zero {lo hi : Int} {x : Float32} (hx : within lo hi x = true) (hlo : -149 < lo) (hhi : hi ≤ 104) :
    within lo hi (x + 0) = true ∧ within lo hi (0 + x) = true := by
  obtain ⟨m, e, hm, hxu, hm1, hm2, he1, he2⟩ := exists_normal hx hlo
  have hright : x + 0 = .ofModel (.pack (UnpackedFloat.add .binary32 x.toModel.unpack (0 : Float32).toModel.unpack)) := rfl
  have hleft : 0 + x = .ofModel (.pack (UnpackedFloat.add .binary32 (0 : Float32).toModel.unpack x.toModel.unpack)) := rfl
  have hpack : within lo hi (.ofModel (.pack (.finite .positive m e hm))) = true :=
    within_iff.mpr ⟨m, e, hm, binary32.unpack_pack hm1 hm2 (by omega) (by omega), he1, he2⟩
  rw [hright, hleft, hxu, unpack_zero]
  exact ⟨hpack, hpack⟩

/-- Each number that is not zero adds two to the exponent at most. -/
theorem foldl_within {β : Type} {p : β → Bool} {g : β → Float32} {lo : Int} (hlo : -149 < lo) {l : List β}
    (hl : ∀ a ∈ l, g a = 0 ∨ p a = true ∧ within lo (-23) (g a) = true) {hi : Int} (hbase : -23 ≤ hi)
    (hhi : hi + 2 * (l.filter p).length ≤ 102) {x : Float32} (hx : x = 0 ∨ within lo hi x = true) :
    (l.map g).foldl (· + ·) x = 0 ∨ within lo (hi + 2 * (l.filter p).length) ((l.map g).foldl (· + ·) x) = true := by
  induction l generalizing hi x with
  | nil => simpa using hx
  | cons a l ih =>
    obtain ⟨ha, hrest⟩ := List.forall_mem_cons.mp hl
    have hlen : (l.filter p).length ≤ ((a :: l).filter p).length := by
      rw [List.filter_cons]
      split <;> simp
    rw [List.map_cons, List.foldl_cons]
    rcases ha with ha | ⟨hp, ha⟩
    · -- zero leaves the sum where it is
      have hzero : x + g a = 0 ∨ within lo hi (x + g a) = true := by
        rw [ha]
        rcases hx with rfl | hx
        · exact .inl (by decide +kernel)
        · exact .inr (within_add_zero hx hlo (by omega)).1
      rcases ih hrest hbase (by omega) hzero with h | h
      · exact .inl h
      · exact .inr (within_mono h (Int.le_refl _) (by omega))
    · have hcount : ((a :: l).filter p).length = (l.filter p).length + 1 := by
        rw [List.filter_cons, if_pos hp, List.length_cons]
      have hstep : within lo (hi + 2) (x + g a) = true := by
        have ha' : within lo hi (g a) = true := within_mono ha (Int.le_refl _) hbase
        rcases hx with rfl | hx
        · exact within_mono (within_add_zero ha' hlo (by omega)).2 (Int.le_refl _) (by omega)
        · exact within_add hx ha' hlo (by omega)
      rw [hcount] at hhi ⊢
      rcases ih hrest (by omega) (by omega) (.inr hstep) with h | h
      · exact .inl h
      · exact .inr (within_mono h (Int.le_refl _) (by omega))

/-! ## Quotients -/

theorem within_one : within (-23) (-23) 1 = true := by decide +kernel

/-- Exponents subtract, and 24 bits are taken of the quotient. -/
theorem within_div {lo hi lo' hi' : Int} {x s : Float32} (hx : within lo hi x = true) (hs : within lo' hi' s = true)
    (hlo : -149 < lo) (hlo' : -149 < lo') (hlow : -125 ≤ lo - hi') (hhigh : hi - lo' ≤ 100) :
    within (lo - hi' - 24) (hi - lo' - 22) (x / s) = true := by
  obtain ⟨m, c, hm, hxu, hm1, hm2, hc1, hc2⟩ := exists_normal hx hlo
  obtain ⟨n, d, hn, hsu, hn1, hn2, hd1, hd2⟩ := exists_normal hs hlo'
  have hquot : x / s = .ofModel (.pack (UnpackedFloat.div .binary32 x.toModel.unpack s.toModel.unpack)) := rfl
  rw [hquot, hxu, hsu, binary32.div_eq hm hn hm1 hm2 hn2 (by omega), log2_normal hn1 hn2]
  show within _ _ (.ofModel (.pack (roundWithAccuracy .binary32 .positive (m * 2 ^ 24 / n) (c - d - 24) _))) = true
  have hq1 : 2 ^ 23 ≤ m * 2 ^ 24 / n := by
    rw [Nat.le_div_iff_mul_le (by omega)]
    omega
  have hq2 : m * 2 ^ 24 / n < 2 ^ 25 := by
    rw [Nat.div_lt_iff_lt_mul (by omega)]
    omega
  have hlog1 : 23 ≤ (m * 2 ^ 24 / n).log2 := (Nat.le_log2 (by omega)).mpr hq1
  have hlog2 : (m * 2 ^ 24 / n).log2 < 25 := (Nat.log2_lt (by omega)).mpr hq2
  exact within_round hq1 (by omega) (by omega) (by omega) (by omega)

/-- Nothing stays nothing. -/
theorem zero_div {s : Float32} (h : 1 < s) : 0 / s = 0 := by
  have hquot : 0 / s = .ofModel (.pack (UnpackedFloat.div .binary32 (0 : Float32).toModel.unpack s.toModel.unpack)) := rfl
  have hzero : (.ofModel (.pack (.zero .positive)) : Float32) = 0 := by decide +kernel
  rw [hquot, unpack_zero]
  rcases unpack_of_one_lt h with hs | ⟨m, e, hm, hs, _⟩
  · rw [hs]
    exact hzero
  · rw [hs]
    exact hzero

/-- One and what is less than an eighth of it stay apart when they are divided by the same. -/
theorem div_ne_div {lo hi : Int} {s y : Float32} (hs : within lo hi s = true) (hlo : -60 ≤ lo) (hhi : hi ≤ 60) (h : 1 < s)
    (hy : y = 0 ∨ within (-60) (-26) y = true) : 1 / s ≠ y / s := by
  obtain ⟨m, e, hm, hsu, he1, he2⟩ := within_iff.mp hs
  have hse : within e e s = true := within_iff.mpr ⟨m, e, hm, hsu, Int.le_refl e, Int.le_refl e⟩
  obtain ⟨_, c, _, hu, hc, _⟩ := within_iff.mp (within_div within_one hse (by omega) (by omega) (by omega) (by omega))
  intro heq
  rcases hy with rfl | hy
  · rw [heq, zero_div h, unpack_zero] at hu
    cases hu
  · obtain ⟨_, d, _, hu', _, hd⟩ := within_iff.mp (within_div hy hse (by omega) (by omega) (by omega) (by omega))
    rw [heq, hu'] at hu
    injection hu with _ _ hdc
    omega

end PcmConvert.Number
