import Mathlib.Order.CompletePartialOrder
import Mathlib.Data.Set.Lattice
import Mathlib.Logic.Function.Basic

/-!
# Regions of a store

A store is a family of cells that point to one another. A region is a set of allocated cells
from which no pointer leads out (`Closed`). A piece of code that starts with pointers into a
region and follows the pointers it finds stays in the region, and can only extend it by cells
it allocates: `Grows` says this of two stores, and steps that grow a region compose.

Several regions without common cells are `Separated`. What grows one of them leaves the cells
of the others as they are, and leaves the regions separated (`Separated.grow`).
-/

namespace Region

/-- The cells, and the first address that is not allocated. -/
structure Store (C : Type*) where
  cells : ℕ → C
  next : ℕ

variable {C : Type*} {points : C → ℕ → Prop} {s s' s'' : Store C} {R R' R'' : Set ℕ}

/-- A set of allocated cells that point to each other only. -/
structure Closed (points : C → ℕ → Prop) (s : Store C) (R : Set ℕ) : Prop where
  lt_next : ∀ a ∈ R, a < s.next
  points : ∀ a ∈ R, ∀ b, points (s.cells a) b → b ∈ R

theorem Closed.congr (h : Closed points s R) (hnext : s.next ≤ s'.next)
    (hcells : ∀ a ∈ R, s'.cells a = s.cells a) : Closed points s' R where
  lt_next a ha := lt_of_lt_of_le (h.lt_next a ha) hnext
  points a ha b hb := h.points a ha b (hcells a ha ▸ hb)

/-- From `s` to `s'` only cells of `R` and fresh ones have changed, and `R'` is `R` with fresh
cells. -/
structure Grows (points : C → ℕ → Prop) (s : Store C) (R : Set ℕ) (s' : Store C) (R' : Set ℕ) :
    Prop where
  next : s.next ≤ s'.next
  subset : R ⊆ R'
  fresh : ∀ a ∈ R', a ∈ R ∨ s.next ≤ a
  frame : ∀ a < s.next, a ∉ R → s'.cells a = s.cells a
  closed : Closed points s' R'

namespace Grows

protected theorem refl (h : Closed points s R) : Grows points s R s R where
  next := le_rfl
  subset := subset_rfl
  fresh _ ha := .inl ha
  frame _ _ _ := rfl
  closed := h

protected theorem trans (h : Grows points s R s' R') (h' : Grows points s' R' s'' R'') :
    Grows points s R s'' R'' where
  next := h.next.trans h'.next
  subset := h.subset.trans h'.subset
  fresh a ha := by
    rcases h'.fresh a ha with ha | ha
    · exact h.fresh a ha
    · exact .inr (h.next.trans ha)
  frame a ha hR := by
    have hR' : a ∉ R' := by
      intro haR'
      rcases h.fresh a haR' with haR | hge
      · exact hR haR
      · omega
    rw [h'.frame a (lt_of_lt_of_le ha h.next) hR', h.frame a ha hR]
  closed := h'.closed

/-- Writing to a cell of the region, pointers into the region only. -/
theorem set (h : Closed points s R) {a : ℕ} (ha : a ∈ R) {c : C} (hc : ∀ b, points c b → b ∈ R) :
    Grows points s R { s with cells := Function.update s.cells a c } R where
  next := le_rfl
  subset := subset_rfl
  fresh _ hb := .inl hb
  frame b _ hb := by
    have hne : b ≠ a := by
      rintro rfl
      exact hb ha
    exact Function.update_of_ne hne ..
  closed.lt_next := h.lt_next
  closed.points b hb d hd := by
    rcases eq_or_ne b a with rfl | hne
    · exact hc d (by simpa using hd)
    · exact h.points b hb d (by simpa [Function.update_of_ne hne] using hd)

/-- Allocating a cell, with pointers into the region only. -/
theorem alloc (h : Closed points s R) {c : C} (hc : ∀ b, points c b → b ∈ R) :
    Grows points s R ⟨Function.update s.cells s.next c, s.next + 1⟩ (insert s.next R) where
  next := Nat.le_succ _
  subset := Set.subset_insert _ _
  fresh b hb := by
    rcases hb with rfl | hb
    · exact .inr le_rfl
    · exact .inl hb
  frame b hb _ := Function.update_of_ne hb.ne ..
  closed.lt_next b hb := by
    rcases hb with rfl | hb
    · exact Nat.lt_succ_self _
    · exact Nat.lt_succ_of_lt (h.lt_next b hb)
  closed.points b hb d hd := by
    rcases hb with rfl | hb
    · exact .inr (hc d (by simpa using hd))
    · have hne : b ≠ s.next := (h.lt_next b hb).ne
      exact .inr (h.points b hb d (by simpa [Function.update_of_ne hne] using hd))

end Grows

/-- A family of regions without common cells. -/
structure Separated {G : Type*} (points : C → ℕ → Prop) (s : Store C) (regions : G → Set ℕ) :
    Prop where
  closed : ∀ g, Closed points s (regions g)
  disjoint : ∀ g g', g ≠ g' → Disjoint (regions g) (regions g')

namespace Separated

variable {G : Type*} {regions : G → Set ℕ} {g : G}

/-- What grows one region leaves the cells of the others as they are. -/
theorem cells_eq (h : Separated points s regions) (hgrows : Grows points s (regions g) s' R')
    {g' : G} (hne : g' ≠ g) {a : ℕ} (ha : a ∈ regions g') : s'.cells a = s.cells a :=
  hgrows.frame a ((h.closed g').lt_next a ha)
    fun haR => Set.disjoint_left.mp (h.disjoint g' g hne) ha haR

/-- Regions stay separated when one of them grows. -/
theorem grow [DecidableEq G] (h : Separated points s regions)
    (hgrows : Grows points s (regions g) s' R') :
    Separated points s' (Function.update regions g R') where
  closed g' := by
    rcases eq_or_ne g' g with rfl | hne
    · rw [Function.update_self]
      exact hgrows.closed
    · rw [Function.update_of_ne hne]
      exact (h.closed g').congr hgrows.next fun a ha => h.cells_eq hgrows hne ha
  disjoint := by
    have hfresh : ∀ g', g' ≠ g → Disjoint R' (regions g') := by
      intro g' hne
      refine Set.disjoint_left.mpr fun a haR' ha => ?_
      rcases hgrows.fresh a haR' with haR | hge
      · exact Set.disjoint_left.mp (h.disjoint g' g hne) ha haR
      · have hlt := (h.closed g').lt_next a ha
        omega
    intro g₁ g₂ hne
    rcases eq_or_ne g₁ g with rfl | h₁
    · rw [Function.update_self, Function.update_of_ne hne.symm]
      exact hfresh g₂ hne.symm
    · rw [Function.update_of_ne h₁]
      rcases eq_or_ne g₂ g with rfl | h₂
      · rw [Function.update_self]
        exact (hfresh g₁ h₁).symm
      · rw [Function.update_of_ne h₂]
        exact h.disjoint g₁ g₂ hne

end Separated

end Region
