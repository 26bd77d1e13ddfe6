import Mathlib.Algebra.BigOperators.Group.Finset.Basic
import Mathlib.Algebra.Order.BigOperators.Group.List
import Mathlib.Algebra.Order.Group.Nat
import Mathlib.Data.Nat.Bitwise
import Mathlib.Order.Interval.Finset.Nat

/-!
# Extents of memory

An extent is a range of addresses. Two extents are apart if one ends before the other begins, and
what lies inside of extents that are apart is apart (`Extent.Apart.mono`). So a memory manager only
has to keep its backing extents apart and to place its own ranges inside of them: the ranges of
different backings never meet.

Extents that are apart share out the space they lie in: together they are no longer than it
(`total_le`). And the next multiple of a power of two is found by masking bits (`alignUp_spec`).
-/

namespace Memory

/-- A range of addresses. -/
structure Extent where
  base : ℕ
  len : ℕ
  deriving DecidableEq

namespace Extent

/-- The first address behind the extent. -/
def stop (e : Extent) : ℕ := e.base + e.len

/-- One extent ends before the other begins. -/
def Apart (e f : Extent) : Prop := e.stop ≤ f.base ∨ f.stop ≤ e.base

/-- The extent is a part of another. -/
def Inside (e f : Extent) : Prop := f.base ≤ e.base ∧ e.stop ≤ f.stop

instance (e f : Extent) : Decidable (Apart e f) := inferInstanceAs (Decidable (_ ∨ _))

instance (e f : Extent) : Decidable (Inside e f) := inferInstanceAs (Decidable (_ ∧ _))

variable {e e' f f' g : Extent}

theorem Apart.symm (h : Apart e f) : Apart f e := Or.symm h

protected theorem Inside.trans (h : Inside e f) (h' : Inside f g) : Inside e g :=
  ⟨h'.1.trans h.1, h.2.trans h'.2⟩

/-- Parts of extents that are apart are apart. -/
theorem Apart.mono (h : Apart e f) (he : Inside e' e) (hf : Inside f' f) : Apart e' f' := by
  rcases h with h | h
  · exact .inl (he.2.trans (h.trans hf.1))
  · exact .inr (hf.2.trans (h.trans he.1))

/-- A longer extent from the same address on. -/
theorem inside_of_le {base len len' : ℕ} (h : len ≤ len') : Inside ⟨base, len⟩ ⟨base, len'⟩ :=
  ⟨le_rfl, Nat.add_le_add_left h base⟩

/-- The addresses of an extent. -/
def addresses (e : Extent) : Finset ℕ := Finset.Ico e.base e.stop

@[simp] theorem card_addresses (e : Extent) : e.addresses.card = e.len := by
  rw [addresses, Nat.card_Ico, stop, Nat.add_sub_cancel_left]

theorem Apart.disjoint (h : Apart e f) : Disjoint e.addresses f.addresses := by
  rw [Finset.disjoint_left]
  intro a he hf
  rw [addresses, Finset.mem_Ico] at he hf
  rcases h with h | h <;> omega

end Extent

open Extent

/-- The length of all extents together. -/
def total (es : List Extent) : ℕ := (es.map Extent.len).sum

@[simp] theorem total_nil : total [] = 0 := rfl

@[simp] theorem total_cons (e : Extent) (es : List Extent) :
    total (e :: es) = e.len + total es := by
  simp [total]

@[simp] theorem total_append (es fs : List Extent) : total (es ++ fs) = total es + total fs := by
  simp [total]

/-- A part of the extents is no longer than all of them. -/
theorem total_le_of_sublist {es fs : List Extent} (h : es.Sublist fs) : total es ≤ total fs :=
  (h.map _).sum_le_sum fun _ _ => Nat.zero_le _

/-- **Extents that are apart are together no longer than the space they lie in.** -/
theorem total_le {es : List Extent} {size : ℕ} (happart : es.Pairwise Apart)
    (hbound : ∀ e ∈ es, e.stop ≤ size) : total es ≤ size := by
  -- All addresses of the extents, as a set: its size is the total length.
  have hcount : ∀ es : List Extent, es.Pairwise Apart → (∀ e ∈ es, e.stop ≤ size) →
      ∃ s ⊆ Finset.range size, s.card = total es ∧
        ∀ a ∈ s, ∃ e ∈ es, a ∈ e.addresses := by
    intro es
    induction es with
    | nil =>
      intro _ _
      exact ⟨∅, Finset.empty_subset _, rfl, fun a ha => nomatch ha⟩
    | cons e es ih =>
      intro happart hbound
      obtain ⟨hfirst, hrest⟩ := List.pairwise_cons.mp happart
      obtain ⟨s, hs, hcard, hmem⟩ := ih hrest fun f hf => hbound f (List.mem_cons_of_mem e hf)
      have hdisj : Disjoint e.addresses s := by
        rw [Finset.disjoint_left]
        intro a hae has
        obtain ⟨f, hf, haf⟩ := hmem a has
        exact Finset.disjoint_left.mp (hfirst f hf).disjoint hae haf
      refine ⟨e.addresses ∪ s, ?_, ?_, ?_⟩
      · refine Finset.union_subset ?_ hs
        intro a ha
        have := hbound e List.mem_cons_self
        rw [addresses, Finset.mem_Ico] at ha
        rw [Finset.mem_range]
        omega
      · rw [Finset.card_union_of_disjoint hdisj, card_addresses, hcard, total_cons]
      · intro a ha
        rcases Finset.mem_union.mp ha with ha | ha
        · exact ⟨e, List.mem_cons_self, ha⟩
        · obtain ⟨f, hf, haf⟩ := hmem a ha
          exact ⟨f, List.mem_cons_of_mem e hf, haf⟩
  obtain ⟨s, hs, hcard, -⟩ := hcount es happart hbound
  rw [← hcard, ← Finset.card_range size]
  exact Finset.card_le_card hs

/-! ### Alignment -/

/-- The next multiple of a power of two, on machine words of 64 bits:
`(addr + align - 1) & !(align - 1)`. -/
def alignUp (addr align : ℕ) : ℕ := (addr + align - 1) &&& (2 ^ 64 - align)

/-- Masking the lowest bits leaves a multiple of the power. -/
theorem land_mask {x k : ℕ} (hx : x < 2 ^ 64) (hk : k ≤ 64) :
    x &&& (2 ^ 64 - 2 ^ k) = x / 2 ^ k * 2 ^ k := by
  have hmask : 2 ^ 64 - 2 ^ k = (2 ^ (64 - k) - 1) * 2 ^ k := by
    rw [Nat.sub_mul, one_mul, ← pow_add, Nat.sub_add_cancel hk]
  apply Nat.eq_of_testBit_eq
  intro i
  rw [Nat.testBit_and, hmask, Nat.testBit_mul_two_pow, Nat.testBit_mul_two_pow,
    Nat.testBit_two_pow_sub_one, Nat.testBit_div_two_pow]
  by_cases hi : k ≤ i
  · rw [Nat.sub_add_cancel hi]
    by_cases hlt : i < 64
    · simp [hi, show i - k < 64 - k by omega]
    · have hzero : x.testBit i = false :=
        Nat.testBit_lt_two_pow (lt_of_lt_of_le hx (Nat.pow_le_pow_right (by omega) (by omega)))
      simp [hzero]
  · simp [hi]

/-- What alignment finds: a multiple, not before the address, and less than one step behind it. -/
theorem alignUp_spec {addr k : ℕ} (hk : k < 64) (haddr : addr + 2 ^ k ≤ 2 ^ 64) :
    2 ^ k ∣ alignUp addr (2 ^ k) ∧ addr ≤ alignUp addr (2 ^ k) ∧
      alignUp addr (2 ^ k) < addr + 2 ^ k := by
  have hpos : 0 < 2 ^ k := Nat.two_pow_pos k
  have heq : alignUp addr (2 ^ k) = (addr + 2 ^ k - 1) / 2 ^ k * 2 ^ k :=
    land_mask (by omega) (by omega)
  have hdiv := Nat.div_add_mod' (addr + 2 ^ k - 1) (2 ^ k)
  have hmod := Nat.mod_lt (addr + 2 ^ k - 1) hpos
  rw [heq]
  exact ⟨Dvd.intro_left _ rfl, by omega, by omega⟩

end Memory
