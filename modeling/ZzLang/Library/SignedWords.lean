import Mathlib.Data.Int.Basic
import Mathlib.Tactic.NormNum

/-!
# Sums of signed words

The operations on words of 64 bits are those of the integers where the result fits. Each lemma here
asks for that and nothing else, so that a computation on words is read as one on integers step by
step, with a bound for each step.

The quotient of words is cut off towards zero. Of numbers that are not negative it is the floor
(`toInt_div`).
-/

namespace SignedWords

/-- The number is one of a signed word. -/
def Fits (n : ℤ) : Prop := -2 ^ 63 ≤ n ∧ n < 2 ^ 63

theorem bmod_of_fits {n : ℤ} (h : Fits n) : n.bmod (2 ^ 64) = n :=
  Int.bmod_eq_of_le (by have := h.1; norm_num at *; omega) (by have := h.2; norm_num at *; omega)

variable {x y : Int64} {a b : ℤ}

theorem toInt_add (hx : x.toInt = a) (hy : y.toInt = b) (h : Fits (a + b)) :
    (x + y).toInt = a + b := by
  rw [Int64.toInt_add, hx, hy, bmod_of_fits h]

theorem toInt_sub (hx : x.toInt = a) (hy : y.toInt = b) (h : Fits (a - b)) :
    (x - y).toInt = a - b := by
  rw [Int64.toInt_sub, hx, hy, bmod_of_fits h]

/-- A quotient of numbers that are not negative. -/
theorem toInt_div (hx : x.toInt = a) (hy : y.toInt = b) (ha : 0 ≤ a) (hb : 0 ≤ b) :
    (x / y).toInt = a / b := by
  rw [Int64.toInt_div, hx, hy, Int.tdiv_eq_ediv_of_nonneg ha, bmod_of_fits]
  have hle := Int.ediv_le_self b ha
  have hnonneg := Int.ediv_nonneg ha hb
  have := x.toInt_lt
  exact ⟨by omega, by omega⟩

theorem toInt_mod (hx : x.toInt = a) (hy : y.toInt = b) (ha : 0 ≤ a) : (x % y).toInt = a % b := by
  rw [Int64.toInt_mod, hx, hy, Int.tmod_eq_emod_of_nonneg ha]

end SignedWords
