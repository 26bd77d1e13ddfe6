import Mathlib.Algebra.Order.Group.Nat
import Mathlib.Logic.Function.Basic
import Mathlib.Tactic.Common

/-!
# A window of a circular buffer

The `n` cells of a buffer of `cap` cells that follow position `head`, where position `p` is cell
`p % cap`. A cell can be added behind the window as long as it does not fill the buffer
(`window_update`, `window_succ`), and the first or the last one can be left out
(`window_succ_cons`, `window_succ`).
-/

namespace Circular

variable {α : Type*} {cap n : ℕ} (buf : ℕ → α) (head : ℕ)

/-- The `n` cells from position `head` on. -/
def window (cap : ℕ) (buf : ℕ → α) (head n : ℕ) : List α :=
  (List.range n).map fun i => buf ((head + i) % cap)

@[simp] theorem length_window : (window cap buf head n).length = n := by
  simp [window]

@[simp] theorem window_zero : window cap buf head 0 = [] := rfl

/-- The last cell. -/
theorem window_succ :
    window cap buf head (n + 1) = window cap buf head n ++ [buf ((head + n) % cap)] := by
  simp [window, List.range_succ]

/-- The first cell. -/
theorem window_succ_cons :
    window cap buf head (n + 1) = buf (head % cap) :: window cap buf (head + 1) n := by
  simp only [window, List.range_succ_eq_map, List.map_cons, List.map_map, Nat.add_zero]
  refine congrArg _ (List.map_congr_left fun i _ => ?_)
  simp only [Function.comp_apply, Nat.succ_eq_add_one]
  rw [show head + (i + 1) = head + 1 + i by omega]

/-- Only the cell of the first position matters. -/
theorem window_mod : window cap buf (head % cap) n = window cap buf head n := by
  simp [window]

/-- Positions less than a lap apart have different cells. -/
theorem mod_ne {i j : ℕ} (hij : i < j) (hj : j < i + cap) : i % cap ≠ j % cap := by
  intro heq
  have hdvd := Nat.dvd_of_mod_eq_zero (Nat.sub_mod_eq_zero_of_mod_eq heq.symm)
  have := Nat.le_of_dvd (by omega) hdvd
  omega

/-- The cell behind a window that does not fill the buffer is not in it. -/
theorem window_update (h : n < cap) (a : α) :
    window cap (Function.update buf ((head + n) % cap) a) head n = window cap buf head n := by
  refine List.map_congr_left fun i hi => Function.update_of_ne (mod_ne ?_ ?_) ..
  · exact Nat.add_lt_add_left (List.mem_range.mp hi) head
  · omega

/-- A window that has been laid out from the first cell on. -/
theorem window_linear {cap' : ℕ} {buf' : ℕ → α} (hn : n ≤ cap')
    (h : ∀ i < n, buf' i = buf ((head + i) % cap)) :
    window cap' buf' 0 n = window cap buf head n := by
  refine List.map_congr_left fun i hi => ?_
  have hlt := List.mem_range.mp hi
  rw [Nat.zero_add, Nat.mod_eq_of_lt (by omega), h i hlt]

end Circular
