import Mathlib.Data.List.Basic
import Mathlib.Order.Basic

/-!
# Tilings of an interval

A list of intervals, each as its two ends, *tiles* the interval from `a` to `b` if the first one
begins at `a`, every other one where the one before it ends, and the last one ends at `b`. The end
of a tiling is determined by its beginning (`Tiles.unique`), a list that does not tile anything
never does so again however it is continued (`Tiles.of_append`), and what can be cut out of a whole
piece by piece comes to the whole (`Tiles.flatMap`).
-/

variable {α β : Type*} [PartialOrder α]

/-- The intervals follow each other from the first position to the second one. -/
def Tiles : α → List (α × α) → α → Prop
  | a, [], b => a = b
  | a, p :: ps, b => p.1 = a ∧ p.1 ≤ p.2 ∧ Tiles p.2 ps b

instance Tiles.decidable [DecidableEq α] [DecidableLE α] :
    (a : α) → (ps : List (α × α)) → (b : α) → Decidable (Tiles a ps b)
  | a, [], b => inferInstanceAs (Decidable (a = b))
  | a, p :: ps, b =>
    have := Tiles.decidable p.2 ps b
    inferInstanceAs (Decidable (p.1 = a ∧ p.1 ≤ p.2 ∧ Tiles p.2 ps b))

namespace Tiles

variable {a b c : α} {ps qs : List (α × α)}

@[simp] theorem nil_iff : Tiles a [] b ↔ a = b := Iff.rfl

@[simp] theorem cons_iff {p : α × α} :
    Tiles a (p :: ps) b ↔ p.1 = a ∧ p.1 ≤ p.2 ∧ Tiles p.2 ps b := Iff.rfl

theorem append_iff : Tiles a (ps ++ qs) c ↔ ∃ b, Tiles a ps b ∧ Tiles b qs c := by
  induction ps generalizing a with
  | nil => simp
  | cons p ps ih =>
    simp only [List.cons_append, cons_iff, ih]
    constructor
    · rintro ⟨h, hle, b, hps, hqs⟩
      exact ⟨b, ⟨h, hle, hps⟩, hqs⟩
    · rintro ⟨b, ⟨h, hle, hps⟩, hqs⟩
      exact ⟨h, hle, b, hps, hqs⟩

theorem append (hps : Tiles a ps b) (hqs : Tiles b qs c) : Tiles a (ps ++ qs) c :=
  append_iff.mpr ⟨b, hps, hqs⟩

/-- What is continued to a tiling is one itself. -/
theorem of_append (h : Tiles a (ps ++ qs) c) : ∃ b, Tiles a ps b :=
  (append_iff.mp h).imp fun _ => And.left

theorem le (h : Tiles a ps b) : a ≤ b := by
  induction ps generalizing a with
  | nil => exact le_of_eq h
  | cons p ps ih =>
    obtain ⟨rfl, hle, h⟩ := h
    exact hle.trans (ih h)

/-- A tiling ends in one place. -/
theorem unique (hb : Tiles a ps b) (hc : Tiles a ps c) : b = c := by
  induction ps generalizing a with
  | nil => exact (nil_iff.mp hb).symm.trans hc
  | cons p ps ih => exact ih hb.2.2 hc.2.2

/-- A tiling of intervals that are not empty gets on. -/
theorem lt (h : Tiles a ps b) (hne : ps ≠ []) (hlt : ∀ p ∈ ps, p.1 < p.2) : a < b := by
  cases ps with
  | nil => exact absurd rfl hne
  | cons p ps =>
    obtain ⟨rfl, -, h⟩ := h
    exact (hlt p (List.mem_cons_self ..)).trans_le h.le

/-- The pieces come to the whole. -/
theorem flatMap {cut : α → α → List β} (hself : ∀ a, cut a a = [])
    (hcut : ∀ {a b c}, a ≤ b → b ≤ c → cut a b ++ cut b c = cut a c) (h : Tiles a ps b) :
    ps.flatMap (fun p => cut p.1 p.2) = cut a b := by
  induction ps generalizing a with
  | nil =>
    obtain rfl := nil_iff.mp h
    simp [hself]
  | cons p ps ih =>
    obtain ⟨rfl, hle, h⟩ := h
    rw [List.flatMap_cons, ih h, hcut hle h.le]

end Tiles
