/-
  PcmConvert.Number.Rounding — an exact number to the nearest integer, and a quotient of two
  counts to the next one up. The two rules for the nearest differ in what happens halfway:
  away from zero, or to the even neighbour.
-/

namespace PcmConvert.Number

/-- The quotient, rounded up. -/
def ceilDiv (a b : Nat) : Nat := (a + b - 1) / b

theorem lt_ceilDiv_iff {a b k : Nat} (hb : 0 < b) : k < ceilDiv a b ↔ k * b < a := by
  unfold ceilDiv
  rw [Nat.lt_iff_add_one_le, Nat.le_div_iff_mul_le hb, Nat.add_mul]
  omega

theorem ceilDiv_le_iff {a b k : Nat} (hb : 0 < b) : ceilDiv a b ≤ k ↔ a ≤ k * b := by
  rw [← Nat.not_lt, lt_ceilDiv_iff hb, Nat.not_lt]

@[simp] theorem ceilDiv_zero_left (b : Nat) : ceilDiv 0 b = 0 := by
  unfold ceilDiv
  cases b with
  | zero => rfl
  | succ b => exact Nat.div_eq_of_lt (by omega)

theorem le_ceilDiv_mul {b : Nat} (a : Nat) (hb : 0 < b) : a ≤ ceilDiv a b * b :=
  (ceilDiv_le_iff hb).mp (Nat.le_refl _)

theorem ceilDiv_mono {a a' : Nat} (b : Nat) (h : a ≤ a') : ceilDiv a b ≤ ceilDiv a' b :=
  Nat.div_le_div_right (by omega)

/-- A sum needs no more than its parts. -/
theorem ceilDiv_add_le {b : Nat} (a a' : Nat) (hb : 0 < b) : ceilDiv (a + a') b ≤ ceilDiv a b + ceilDiv a' b := by
  rw [ceilDiv_le_iff hb, Nat.add_mul]
  exact Nat.add_le_add (le_ceilDiv_mul a hb) (le_ceilDiv_mul a' hb)

theorem ceilDiv_mul_right {b : Nat} (k : Nat) (hb : 0 < b) : ceilDiv (k * b) b = k := by
  apply Nat.le_antisymm
  · exact (ceilDiv_le_iff hb).mpr (Nat.le_refl _)
  · exact Nat.le_of_mul_le_mul_right (le_ceilDiv_mul (k * b) hb) hb

/-- Whole divisors come out of a quotient. -/
theorem ceilDiv_sub_mul {b : Nat} (a k : Nat) (hb : 0 < b) : ceilDiv (a - k * b) b = ceilDiv a b - k := by
  apply Nat.le_antisymm
  · rw [ceilDiv_le_iff hb, Nat.sub_mul]
    exact Nat.sub_le_sub_right (le_ceilDiv_mul a hb) _
  · have h := le_ceilDiv_mul (a - k * b) hb
    have : ceilDiv a b ≤ ceilDiv (a - k * b) b + k := by
      rw [ceilDiv_le_iff hb, Nat.add_mul]
      omega
    omega

theorem ceilDiv_add_mul {b : Nat} (a k : Nat) (hb : 0 < b) : ceilDiv (a + k * b) b = ceilDiv a b + k := by
  unfold ceilDiv
  rw [show a + k * b + b - 1 = a + b - 1 + k * b by omega, Nat.add_mul_div_right _ _ hb]

/-- To a sum a part gives at least its whole divisors. -/
theorem ceilDiv_add_div_le (a a' : Nat) {b : Nat} (hb : 0 < b) : ceilDiv a b + a' / b ≤ ceilDiv (a + a') b := by
  rw [← ceilDiv_add_mul a (a' / b) hb]
  exact ceilDiv_mono b (Nat.add_le_add_left (Nat.div_mul_le_self a' b) a)

/-- The first multiple that is not below `a` is less than `b` above it. -/
theorem ceilDiv_eq {a b m : Nat} (hle : a ≤ m * b) (hlt : m * b < a + b) : ceilDiv a b = m := by
  have hb : 0 < b := by omega
  apply Nat.le_antisymm
  · exact (ceilDiv_le_iff hb).mpr hle
  · cases m with
    | zero => exact Nat.zero_le _
    | succ m =>
      rw [Nat.add_mul, Nat.one_mul] at hlt
      exact (lt_ceilDiv_iff hb).mpr (by omega)

theorem ceilDiv_mul_lt (a : Nat) {b : Nat} (hb : 0 < b) : ceilDiv a b * b < a + b := by
  have := Nat.div_mul_le_self (a + b - 1) b
  unfold ceilDiv
  omega

/-- Whole divisors may be taken off a sum in two parts. -/
theorem add_div_eq (a k : Nat) {b : Nat} (hb : 0 < b) : (a + k) / b = a / b + (a % b + k) / b := by
  conv => lhs; rw [← Nat.mod_add_div' a b, Nat.add_right_comm, Nat.add_mul_div_right _ _ hb]
  exact Nat.add_comm _ _

def halfAway (q : Rat) : Int := if q < 0 then -(1 / 2 - q).floor else (q + 1 / 2).floor

def halfEven (q : Rat) : Int :=
  let n := (q + 1 / 2).floor
  if q + 1 / 2 = n ∧ n % 2 = 1 then n - 1 else n

/-- `q` with three decimal places, a half going to the even neighbour. -/
def places3 (q : Rat) : String :=
  let n := halfEven (1000 * q)
  let text := toString (1000 + n.natAbs % 1000)
  (if n < 0 then "-" else "") ++ toString (n.natAbs / 1000) ++ "." ++ (text.drop 1).toString

example : halfAway (5 / 2) = 3 ∧ halfAway (-5 / 2) = -3 ∧ halfEven (5 / 2) = 2 ∧ halfEven (7 / 2) = 4 := by
  decide +kernel

end PcmConvert.Number
