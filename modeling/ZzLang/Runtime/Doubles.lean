import ZzLang.Library.Rounding
import ZzLang.Runtime.Value

/-!
# Integers as doubles

The casts between integers of 64 bits and doubles, on the bits of a double. An integer is rounded to
53 bits on the way there; on the way back a double loses its fraction and is moved into the range of
the integers. What is left of an integer that goes both ways is `throughDouble`.
-/

namespace ZzLang

open Rounding

/-- The cast of an integer of 64 bits to a double, which rounds to nearest, ties to even. -/
def F64.ofInt (i : ℤ) : F64 :=
  let sign : UInt64 := if i < 0 then 0x8000000000000000 else 0
  let m := i.natAbs
  if m = 0 then ⟨0⟩ else
  let e := m.log2
  let mantissa :=
    if e ≤ 52 then m * 2 ^ (52 - e) else
    let q := m / 2 ^ (e - 52)
    let r := m % 2 ^ (e - 52)
    let half := 2 ^ (e - 53)
    if half < r ∨ r = half ∧ q % 2 = 1 then q + 1 else q
  ⟨sign + UInt64.ofNat ((1022 + e) * 2 ^ 52 + mantissa)⟩

/-- The integer part of a finite double without its sign; infinity is as large as the next power of
two would be. -/
def F64.truncated (x : F64) : ℕ :=
  let e := x.bits.toNat / 2 ^ 52 % 2 ^ 11
  let mantissa := 2 ^ 52 + x.bits.toNat % 2 ^ 52
  if e < 1023 then 0
  else if e ≤ 1075 then mantissa / 2 ^ (1075 - e)
  else mantissa * 2 ^ (e - 1075)

/-- The cast of a double to an integer of 64 bits, which saturates. -/
def F64.toInt64 (x : F64) : Int64 :=
  if x.isNaN then 0
  else if 2 ^ 63 ≤ x.bits.toNat then
    if x.truncated ≤ 2 ^ 63 then Int64.ofInt (-x.truncated) else Int64.minValue
  else if x.truncated < 2 ^ 63 then Int64.ofInt x.truncated else Int64.maxValue

/-- The number that an integer of 64 bits is as a double, and then as an integer again. -/
def throughDouble (i : ℤ) : ℤ :=
  if i < 0 then -round53 i.natAbs else min (round53 i.natAbs) (2 ^ 63 - 1)

/-! ### The bits of an integer -/

section Bits

variable {m : ℕ}

/-- The mantissa of a number, which may be one bit too long after rounding. -/
def mantissaOf (m : ℕ) : ℕ :=
  if m.log2 ≤ 52 then m * 2 ^ (52 - m.log2) else shiftRound m (m.log2 - 52)

theorem mantissaOf_bounds (hm : m ≠ 0) : 2 ^ 52 ≤ mantissaOf m ∧ mantissaOf m ≤ 2 ^ 53 := by
  rw [mantissaOf]
  split_ifs with h
  · have hlo := Nat.log2_self_le hm
    have hhi := Nat.lt_log2_self (n := m)
    have hsplit : 2 ^ 52 = 2 ^ m.log2 * 2 ^ (52 - m.log2) := by rw [← pow_add]; congr 1; omega
    constructor
    · rw [hsplit]
      exact Nat.mul_le_mul_right _ hlo
    · rw [pow_succ 2 52, hsplit, Nat.mul_right_comm, ← pow_succ]
      exact Nat.mul_le_mul_right _ hhi.le
  · exact shiftRound_bounds (by omega) hm

/-- The bits of an integer: the sign, the exponent and the mantissa, whose first bit adds one to the
exponent. -/
theorem bits_ofInt {i : ℤ} (hi : i ≠ 0) : (F64.ofInt i).bits =
    (if i < 0 then 0x8000000000000000 else 0) +
      UInt64.ofNat ((1022 + i.natAbs.log2) * 2 ^ 52 + mantissaOf i.natAbs) := by
  have hm : i.natAbs ≠ 0 := Int.natAbs_ne_zero.mpr hi
  simp only [F64.ofInt, if_neg hm, mantissaOf, shiftRound]
  split_ifs with _ h
  all_goals try rfl
  all_goals
    have hhalf : 2 ^ (i.natAbs.log2 - 52) = 2 * 2 ^ (i.natAbs.log2 - 53) := by
      rw [← pow_succ']
      congr 1
      omega
    omega

theorem toNat_bits_ofInt {i : ℤ} (hi : i ≠ 0) (hfits : i.natAbs ≤ 2 ^ 63) :
    (F64.ofInt i).bits.toNat = (if i < 0 then 2 ^ 63 else 0) +
      ((1022 + i.natAbs.log2) * 2 ^ 52 + mantissaOf i.natAbs) := by
  have hm : i.natAbs ≠ 0 := Int.natAbs_ne_zero.mpr hi
  have hlog : i.natAbs.log2 ≤ 63 := by
    have : i.natAbs.log2 < 64 := (Nat.log2_lt hm).mpr (by omega)
    omega
  have hmant := (mantissaOf_bounds hm).2
  rw [bits_ofInt hi, UInt64.toNat_add, UInt64.toNat_ofNat']
  split_ifs
  · rw [show (0x8000000000000000 : UInt64).toNat = 2 ^ 63 by decide]
    omega
  · rw [show (0 : UInt64).toNat = 0 by decide]
    omega

theorem truncated_ofInt {i : ℤ} (hi : i ≠ 0) (hfits : i.natAbs ≤ 2 ^ 63) :
    (F64.ofInt i).truncated = round53 i.natAbs := by
  have hm : i.natAbs ≠ 0 := Int.natAbs_ne_zero.mpr hi
  have hlog : i.natAbs.log2 ≤ 63 := by
    have : i.natAbs.log2 < 64 := (Nat.log2_lt hm).mpr (by omega)
    omega
  obtain ⟨hlo, hhi⟩ := mantissaOf_bounds hm
  have hbits := toNat_bits_ofInt hi hfits
  generalize hmant : mantissaOf i.natAbs = mant at hlo hhi hbits
  generalize hb : (F64.ofInt i).bits.toNat = b at hbits
  rw [F64.truncated, hb]
  rcases Nat.eq_or_lt_of_le hhi with hfull | hlt
  · -- rounding carried into the exponent
    have hexp : b / 2 ^ 52 % 2 ^ 11 = 1024 + i.natAbs.log2 := by split_ifs at hbits <;> omega
    have hfrac : b % 2 ^ 52 = 0 := by split_ifs at hbits <;> omega
    have hlarge : ¬ i.natAbs.log2 ≤ 52 := by
      intro hle
      rw [mantissaOf, if_pos hle] at hmant
      have hself := Nat.lt_log2_self (n := i.natAbs)
      have hlt : i.natAbs * 2 ^ (52 - i.natAbs.log2) < 2 ^ 53 := by
        calc _ < 2 ^ (i.natAbs.log2 + 1) * 2 ^ (52 - i.natAbs.log2) :=
              Nat.mul_lt_mul_of_pos_right hself (Nat.two_pow_pos _)
          _ = 2 ^ 53 := by rw [← pow_add]; congr 1; omega
      omega
    rw [mantissaOf, if_neg hlarge] at hmant
    simp only [hexp, hfrac]
    rw [if_neg (by omega), if_neg (by omega), round53, hmant, hfull,
      show 1024 + i.natAbs.log2 - 1075 = i.natAbs.log2 - 52 + 1 by omega, pow_succ]
    ring
  · have hexp : b / 2 ^ 52 % 2 ^ 11 = 1023 + i.natAbs.log2 := by split_ifs at hbits <;> omega
    have hfrac : 2 ^ 52 + b % 2 ^ 52 = mant := by split_ifs at hbits <;> omega
    simp only [hexp, hfrac]
    rw [if_neg (by omega)]
    rw [mantissaOf] at hmant
    split_ifs at hmant ⊢ with hle hle' hle'
    · rw [show 1075 - (1023 + i.natAbs.log2) = 52 - i.natAbs.log2 by omega, ← hmant,
        Nat.mul_div_cancel _ (Nat.two_pow_pos _), round53_of_lt]
      exact (Nat.log2_lt hm).mp (by omega)
    · omega
    · omega
    · rw [show 1023 + i.natAbs.log2 - 1075 = i.natAbs.log2 - 52 by omega, round53, hmant]

theorem isNaN_ofInt {i : ℤ} (hi : i ≠ 0) (hfits : i.natAbs ≤ 2 ^ 63) :
    (F64.ofInt i).isNaN = false := by
  have hm : i.natAbs ≠ 0 := Int.natAbs_ne_zero.mpr hi
  have hlog : i.natAbs.log2 < 64 := (Nat.log2_lt hm).mpr (by omega)
  have hhi := (mantissaOf_bounds hm).2
  have hbits := toNat_bits_ofInt hi hfits
  rw [F64.isNaN, decide_eq_false_iff_not, UInt64.lt_iff_toNat_lt, UInt64.toNat_and,
    show (0x7FFFFFFFFFFFFFFF : UInt64).toNat = 2 ^ 63 - 1 by decide,
    show (0x7FF0000000000000 : UInt64).toNat = 2047 * 2 ^ 52 by decide,
    Nat.and_two_pow_sub_one_eq_mod]
  split_ifs at hbits <;> omega

end Bits

/-- **An integer cast to a double and back** is rounded to 53 bits, and the rounding up to `2 ^ 63`
is undone. -/
theorem toInt64_ofInt {i : ℤ} (hlo : -2 ^ 63 ≤ i) (hhi : i < 2 ^ 63) :
    (F64.ofInt i).toInt64.toInt = throughDouble i := by
  rcases eq_or_ne i 0 with rfl | hi
  · decide
  have hfits : i.natAbs ≤ 2 ^ 63 := by omega
  have hround := round53_le_two_pow hfits
  have hm : i.natAbs ≠ 0 := Int.natAbs_ne_zero.mpr hi
  have hlog : i.natAbs.log2 < 64 := (Nat.log2_lt hm).mpr (by omega)
  have hmant := (mantissaOf_bounds hm).2
  have hbits := toNat_bits_ofInt hi hfits
  rw [F64.toInt64, isNaN_ofInt hi hfits, truncated_ofInt hi hfits, if_neg Bool.false_ne_true,
    throughDouble]
  by_cases hneg : i < 0
  · rw [if_pos hneg] at hbits ⊢
    rw [if_pos (by omega), if_pos hround, Int64.toInt_ofInt_of_le]
    · omega
    · omega
  · rw [if_neg hneg] at hbits ⊢
    rw [if_neg (by omega)]
    split_ifs with hlt
    · rw [Int64.toInt_ofInt_of_le]
      all_goals omega
    · rw [show Int64.maxValue.toInt = 2 ^ 63 - 1 by decide]
      omega

theorem throughDouble_bounds {i : ℤ} (h : i.natAbs ≤ 2 ^ 63) :
    -2 ^ 63 ≤ throughDouble i ∧ throughDouble i < 2 ^ 63 := by
  have hround := round53_le_two_pow h
  rw [throughDouble]
  split_ifs <;> omega

end ZzLang
