import ZzLang.Runtime.Binary
import Mathlib.NumberTheory.Multiplicity
import Mathlib.Data.Int.ModEq
import Mathlib.Algebra.EuclideanDomain.Int
import Mathlib.RingTheory.PrincipalIdealDomain

/-!
# The power of integers

The power of integers is specified as repeated multiplication that wraps around, and only a
negative exponent fails. The code casts the exponent to 32 bits before it takes the power, so an
exponent from `2 ^ 32` on loses its upper half.

What is lost does not always show. An odd base returns to one after `2 ^ 32 * q` factors if
`2 ^ 33` divides `(a ^ 2 - 1) * q`, by lifting the exponent; an even base is zero from 64 factors
on, so what is left of the exponent must give zero as well. These are the only cases
(`followsPowSpec_iff`).
-/

namespace ZzLang.Runtime

/-- The product of `n` factors `a`, each multiplication wrapping around. -/
def mulTimes (a : Int64) : ℕ → Int64
  | 0 => 1
  | n + 1 => mulTimes a n * a

/-- What the specification says about `a ** b`. -/
structure FollowsPowSpec (a b : Int64) : Prop where
  value : 0 ≤ b → evalIntBinary .pow a b = .ok (.int (mulTimes a b.toInt.toNat))
  traps : (∃ e, evalIntBinary .pow a b = .error e) ↔ b < 0

/-- The exponent fits into 32 bits, or its upper half makes no difference. -/
def CutHarmless (a b : Int64) : Prop :=
  b.toInt < 2 ^ 32 ∨
    2 ∣ a.toInt ∧ 2 ^ 64 ∣ a.toInt ^ (b.toInt % 2 ^ 32).toNat ∨
    ¬ 2 ∣ a.toInt ∧ 2 ^ 33 ∣ (a.toInt ^ 2 - 1) * (b.toInt / 2 ^ 32)

/-! ### Wrapping multiplication -/

theorem mulTimes_eq (a : Int64) (n : ℕ) : mulTimes a n = Int64.ofInt (a.toInt ^ n) := by
  induction n with
  | zero => rw [pow_zero]; rfl
  | succ n ih => rw [mulTimes, ih, pow_succ, Int64.ofInt_mul, Int64.ofInt_toInt]

theorem ofInt_eq_ofInt_iff {x y : ℤ} :
    Int64.ofInt x = Int64.ofInt y ↔ (2 ^ 64 : ℤ) ∣ x - y := by
  rw [← Int64.toInt_inj, Int64.toInt_ofInt, Int64.toInt_ofInt,
    Int.bmod_eq_bmod_iff_bmod_sub_eq_zero, ← Int.dvd_iff_bmod_eq_zero]
  exact Iff.rfl

/-! ### When the upper half of the exponent makes no difference -/

/-- An odd number to the power of `2 ^ 32 * q` is one exactly if `2 ^ 33` divides
`(x ^ 2 - 1) * q`. -/
theorem dvd_odd_pow_sub_one_iff {x : ℤ} (hx : ¬ 2 ∣ x) (q : ℕ) :
    (2 ^ 64 : ℤ) ∣ x ^ (2 ^ 32 * q) - 1 ↔ (2 ^ 33 : ℤ) ∣ (x ^ 2 - 1) * q := by
  have hprime : Prime (2 : ℤ) := Int.prime_two
  have hodd : (2 : ℤ) ∣ x - 1 := by omega
  have heven : Even (2 ^ 32 * q) := ⟨2 ^ 31 * q, by omega⟩
  have hlift := Int.two_pow_sub_pow hodd hx heven
  rw [one_pow] at hlift
  have hsplit : emultiplicity (2 : ℤ) ((2 ^ 32 * q : ℕ) : ℤ) = 32 + emultiplicity (2 : ℤ) q := by
    rw [Nat.cast_mul, emultiplicity_mul hprime]
    congr 1
    exact_mod_cast emultiplicity_pow_self (two_ne_zero (α := ℤ)) hprime.not_isUnit 32
  have hfactor : (x ^ 2 - 1) * q = (x + 1) * (x - 1) * q := by ring
  have hsum : emultiplicity (2 : ℤ) ((x ^ 2 - 1) * q) =
      emultiplicity 2 (x + 1) + emultiplicity 2 (x - 1) + emultiplicity (2 : ℤ) q := by
    rw [hfactor, emultiplicity_mul hprime, emultiplicity_mul hprime]
  have hkey : emultiplicity (2 : ℤ) (x ^ (2 ^ 32 * q) - 1) + 1 =
      emultiplicity (2 : ℤ) ((x ^ 2 - 1) * q) + 32 := by
    rw [hlift, hsplit, hsum]
    ring
  rw [pow_dvd_iff_le_emultiplicity, pow_dvd_iff_le_emultiplicity,
    ← ENat.add_le_add_iff_right (k := 1) (by decide), hkey,
    show ((64 : ℕ) : ℕ∞) + 1 = ((33 : ℕ) : ℕ∞) + 32 by decide]
  exact ENat.add_le_add_iff_right (by decide)

/-- What is left of a power when `2 ^ 32 * q` factors are dropped. -/
theorem dvd_pow_sub_pow_iff (x : ℤ) (r : ℕ) {q : ℕ} (hq : q ≠ 0) :
    (2 ^ 64 : ℤ) ∣ x ^ r - x ^ (2 ^ 32 * q + r) ↔
      2 ∣ x ∧ (2 ^ 64 : ℤ) ∣ x ^ r ∨ ¬ 2 ∣ x ∧ (2 ^ 33 : ℤ) ∣ (x ^ 2 - 1) * q := by
  have hfactor : x ^ r - x ^ (2 ^ 32 * q + r) = -(x ^ r * (x ^ (2 ^ 32 * q) - 1)) := by ring
  rw [hfactor, dvd_neg]
  by_cases hx : 2 ∣ x
  · have hzero : 2 ^ 32 * q ≠ 0 := by omega
    have hpow : (2 : ℤ) ∣ x ^ (2 ^ 32 * q) := dvd_pow hx hzero
    have hunit : IsCoprime ((2 : ℤ) ^ 64) (x ^ (2 ^ 32 * q) - 1) := by
      refine IsCoprime.pow_left ((Int.prime_two.coprime_iff_not_dvd).mpr ?_)
      omega
    simp only [hx, not_true_eq_false, true_and, false_and, or_false]
    exact ⟨hunit.dvd_of_dvd_mul_right, fun h => h.mul_right _⟩
  · have hunit : IsCoprime ((2 : ℤ) ^ 64) (x ^ r) :=
      IsCoprime.pow ((Int.prime_two.coprime_iff_not_dvd).mpr hx)
    simp only [hx, not_false_eq_true, true_and, false_and, false_or]
    rw [← dvd_odd_pow_sub_one_iff hx]
    exact ⟨hunit.dvd_of_dvd_mul_left, fun h => h.mul_left _⟩

/-- The code computes the product if the cut of the exponent is harmless. -/
theorem evalIntBinary_pow_iff {a b : Int64} (hb : 0 ≤ b) :
    evalIntBinary .pow a b = .ok (.int (mulTimes a b.toInt.toNat)) ↔ CutHarmless a b := by
  have hnonneg : 0 ≤ b.toInt := Int64.le_iff_toInt_le.mp hb
  have hcode : evalIntBinary .pow a b =
      .ok (.int (Int64.ofInt (a.toInt ^ (b.toInt % 2 ^ 32).toNat))) :=
    if_neg (Int64.not_lt.mpr hb)
  rw [hcode, mulTimes_eq, Except.ok.injEq, Value.int.injEq, ofInt_eq_ofInt_iff, CutHarmless]
  obtain ⟨n, hn⟩ := Int.eq_ofNat_of_zero_le hnonneg
  have hcut : (b.toInt % 2 ^ 32).toNat = n % 2 ^ 32 := by omega
  have hdiv : b.toInt / 2 ^ 32 = ((n / 2 ^ 32 : ℕ) : ℤ) := by omega
  rw [hcut, hdiv, show b.toInt.toNat = n by omega]
  by_cases hsmall : b.toInt < 2 ^ 32
  · have hmod : n % 2 ^ 32 = n := Nat.mod_eq_of_lt (by omega)
    rw [hmod, sub_self]
    exact iff_of_true (dvd_zero _) (.inl hsmall)
  · have hq : n / 2 ^ 32 ≠ 0 := by omega
    have hlift := dvd_pow_sub_pow_iff a.toInt (n % 2 ^ 32) hq
    rw [Nat.div_add_mod] at hlift
    simp only [hsmall, false_or]
    exact hlift

/-- **When the power follows its specification**: the exponent is below `2 ^ 32`, or its upper half
makes no difference to this base. -/
theorem followsPowSpec_iff (a b : Int64) : FollowsPowSpec a b ↔ CutHarmless a b := by
  by_cases hb : b < 0
  · have hharmless : CutHarmless a b := by
      have := Int64.lt_iff_toInt_lt.mp hb
      exact .inl (this.trans (by decide))
    refine iff_of_true ⟨fun h => absurd hb (Int64.not_lt.mpr h), ?_⟩ hharmless
    exact iff_of_true ⟨_, if_pos hb⟩ hb
  · have hb' : 0 ≤ b := Int64.not_lt.mp hb
    rw [← evalIntBinary_pow_iff hb']
    refine ⟨fun h => h.value hb', fun h => ⟨fun _ => h, iff_of_false ?_ hb⟩⟩
    rintro ⟨e, he⟩
    rw [h] at he
    cases he

/-- `2 ** 4294967296` is one, not zero. -/
theorem pow_two_pow_thirtyTwo : ¬ FollowsPowSpec 2 4294967296 := by
  intro h
  have hharmless := (evalIntBinary_pow_iff (by decide)).mp (h.value (by decide))
  revert hharmless
  simp only [CutHarmless, show (4294967296 : Int64).toInt = 4294967296 by decide,
    show (2 : Int64).toInt = 2 by decide]
  decide

end ZzLang.Runtime
