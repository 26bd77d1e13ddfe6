import Mathlib.Algebra.Order.Group.Nat
import Mathlib.Data.Nat.Log
import Mathlib.Tactic.Ring

/-!
# Rounding to 53 bits

A number with more than 53 bits is rounded to a multiple of the power of two that is left over, to
the nearest one, and between two of them to the even one. So the numbers up to `2 ^ 53` are kept,
and powers of two are bounds that rounding respects.
-/

namespace Rounding

/-- `m / 2 ^ d`, rounded to the nearest number, and to the even one between two. -/
def shiftRound (m d : ℕ) : ℕ :=
  let q := m / 2 ^ d
  let r := m % 2 ^ d
  if 2 ^ d < 2 * r ∨ 2 * r = 2 ^ d ∧ q % 2 = 1 then q + 1 else q

/-- The number, rounded to 53 bits. -/
def round53 (m : ℕ) : ℕ :=
  shiftRound m (m.log2 - 52) * 2 ^ (m.log2 - 52)

variable {m k d : ℕ}

theorem shiftRound_zero (m : ℕ) : shiftRound m 0 = m := by
  simp [shiftRound, Nat.mod_one]

theorem le_shiftRound (m d : ℕ) : m / 2 ^ d ≤ shiftRound m d := by
  simp only [shiftRound]
  split_ifs
  · exact Nat.le_succ _
  · exact Nat.le_refl _

theorem shiftRound_le (m d : ℕ) : shiftRound m d ≤ m / 2 ^ d + 1 := by
  simp only [shiftRound]
  split_ifs
  · exact Nat.le_refl _
  · exact Nat.le_succ _

/-- Numbers of 53 bits are kept. -/
theorem round53_of_lt (h : m < 2 ^ 53) : round53 m = m := by
  have hlog : m.log2 - 52 = 0 := by
    rcases Nat.eq_zero_or_pos m with rfl | hm
    · rfl
    · have : m.log2 < 53 := (Nat.log2_lt hm.ne').mpr h
      omega
  rw [round53, hlog, shiftRound_zero, pow_zero, Nat.mul_one]

/-- Multiples of the power of two that is left over are kept. -/
theorem round53_of_dvd (h : 2 ^ (m.log2 - 52) ∣ m) : round53 m = m := by
  have hmod : m % 2 ^ (m.log2 - 52) = 0 := Nat.mod_eq_zero_of_dvd h
  have hpos : 0 < 2 ^ (m.log2 - 52) := Nat.two_pow_pos _
  rw [round53, shiftRound, hmod, if_neg (by omega), Nat.div_mul_cancel h]

/-- The quotient of a large number has 53 bits. -/
theorem div_bounds (h : 52 ≤ m.log2) (hm : m ≠ 0) :
    2 ^ 52 ≤ m / 2 ^ (m.log2 - 52) ∧ m / 2 ^ (m.log2 - 52) < 2 ^ 53 := by
  have hpow : 2 ^ m.log2 = 2 ^ 52 * 2 ^ (m.log2 - 52) := by rw [← pow_add]; congr 1; omega
  constructor
  · rw [Nat.le_div_iff_mul_le (Nat.two_pow_pos _), ← hpow]
    exact Nat.log2_self_le hm
  · rw [Nat.div_lt_iff_lt_mul (Nat.two_pow_pos _)]
    calc m < 2 ^ (m.log2 + 1) := Nat.lt_log2_self
      _ = 2 ^ 53 * 2 ^ (m.log2 - 52) := by rw [pow_succ, hpow]; ring

/-- The rounded quotient has 53 bits, or is the first number with 54. -/
theorem shiftRound_bounds (h : 52 ≤ m.log2) (hm : m ≠ 0) :
    2 ^ 52 ≤ shiftRound m (m.log2 - 52) ∧ shiftRound m (m.log2 - 52) ≤ 2 ^ 53 := by
  obtain ⟨hlo, hhi⟩ := div_bounds h hm
  exact ⟨hlo.trans (le_shiftRound ..), (shiftRound_le ..).trans hhi⟩

/-- A power of two that bounds a number bounds the rounded one. -/
theorem round53_le_two_pow (h : m ≤ 2 ^ k) : round53 m ≤ 2 ^ k := by
  rcases Nat.lt_or_ge m (2 ^ 53) with hsmall | hlarge
  · rwa [round53_of_lt hsmall]
  have hm : m ≠ 0 := by
    rintro rfl
    exact absurd hlarge (by norm_num)
  have hlog : 53 ≤ m.log2 := (Nat.le_log2 hm).mpr hlarge
  rcases Nat.eq_or_lt_of_le h with heq | hlt
  · -- a power of two is rounded to itself
    have hk : m.log2 = k := by rw [heq, Nat.log2_two_pow]
    rw [round53_of_dvd]
    · exact h
    · rw [hk, heq]
      exact pow_dvd_pow 2 (Nat.sub_le k 52)
  · have hk : m.log2 < k := (Nat.log2_lt hm).mpr hlt
    calc round53 m ≤ 2 ^ 53 * 2 ^ (m.log2 - 52) :=
          Nat.mul_le_mul_right _ (shiftRound_bounds (by omega) hm).2
      _ = 2 ^ (m.log2 + 1) := by rw [← pow_add]; congr 1; omega
      _ ≤ 2 ^ k := Nat.pow_le_pow_right (by norm_num) hk

theorem round53_pos (hm : m ≠ 0) : 0 < round53 m := by
  rcases Nat.lt_or_ge m (2 ^ 53) with hsmall | hlarge
  · rw [round53_of_lt hsmall]
    exact Nat.pos_of_ne_zero hm
  · have hlog : 53 ≤ m.log2 := (Nat.le_log2 hm).mpr hlarge
    have hbits := (shiftRound_bounds (by omega) hm).1
    exact Nat.mul_pos (Nat.lt_of_lt_of_le (by norm_num) hbits) (Nat.two_pow_pos _)

end Rounding
