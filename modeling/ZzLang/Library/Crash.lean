import Mathlib.Algebra.Group.Nat.Defs
import Mathlib.Data.List.Basic

/-!
# Programs that return, report or crash

A program over slices and machine words ends in one of three ways: it returns, it *reports* an error
to its caller, or it *faults*, which no caller expects. Such a program is a computation in `Except`
whose errors are of two kinds (`Stop`), and it is `Sound` when it does not end in a fault.

Soundness is decided along the program: `sound_bind` for a sequence, `sound_ite` for a test, and for
each operation that may fault the exact condition under which it does not. Rewriting with them turns
"the program is sound" into what has to hold at each of its operations.
-/

namespace Crash

/-- What stops a program early. -/
inductive Stop (ε φ : Type) where
  /-- An error for the caller. -/
  | report (e : ε)
  /-- A crash. -/
  | fault (f : φ)
  deriving DecidableEq

/-- The faults of a program over slices and machine words. -/
inductive Fault where
  /-- An index or a range outside of the slice. -/
  | index
  /-- A computation that leaves the machine word. -/
  | overflow
  /-- A request for room that nothing backs. -/
  | capacity
  deriving DecidableEq

/-- A program that returns an `α`. -/
abbrev Prog (ε φ α : Type) : Type := Except (Stop ε φ) α

variable {ε φ α β : Type}

/-- A program that does not crash. -/
def Sound (x : Prog ε φ α) : Prop := ∀ f, x ≠ .error (.fault f)

@[simp] theorem sound_ok (a : α) : Sound (.ok a : Prog ε φ α) := fun _ h => nomatch h

@[simp] theorem sound_pure (a : α) : Sound (pure a : Prog ε φ α) := sound_ok a

@[simp] theorem sound_report (e : ε) : Sound (.error (.report e) : Prog ε φ α) := by
  intro f h
  cases h

@[simp] theorem not_sound_fault (f : φ) : ¬ Sound (.error (.fault f) : Prog ε φ α) :=
  fun h => h f rfl

/-- A sequence is sound if its first part is, and its second part on whatever the first returns. -/
theorem sound_bind {x : Prog ε φ α} {k : α → Prog ε φ β} :
    Sound (x >>= k) ↔ Sound x ∧ ∀ a, x = .ok a → Sound (k a) := by
  cases x with
  | ok a =>
    constructor
    · intro h
      refine ⟨sound_ok a, ?_⟩
      rintro b ⟨⟩
      exact h
    · rintro ⟨-, h⟩
      exact h a rfl
  | error s =>
    have hbind : ((.error s : Prog ε φ α) >>= k) = .error s := rfl
    rw [hbind]
    constructor
    · intro h
      refine ⟨?_, fun a ha => nomatch ha⟩
      intro f hf
      cases hf
      exact h f rfl
    · rintro ⟨h, -⟩ f hf
      cases hf
      exact h f rfl

theorem sound_ite {p : Prop} [Decidable p] {x y : Prog ε φ α} :
    Sound (if p then x else y) ↔ (p → Sound x) ∧ (¬ p → Sound y) := by
  by_cases h : p <;> simp [h]

/-- What a sequence of two programs returned, the second one returned on what the first one
returned. -/
theorem bind_ok {x : Prog ε φ α} {k : α → Prog ε φ β} {b : β} :
    (x >>= k) = .ok b ↔ ∃ a, x = .ok a ∧ k a = .ok b := by
  cases x with
  | ok a =>
    constructor
    · intro h
      exact ⟨a, rfl, h⟩
    · rintro ⟨a', ⟨⟩, h⟩
      exact h
  | error s =>
    constructor
    · intro h
      exact nomatch h
    · rintro ⟨a, h, -⟩
      exact nomatch h

/-- A program that returns. -/
def Returns (x : Prog ε φ α) : Prop := ∃ a, x = .ok a

theorem Returns.sound {x : Prog ε φ α} (h : Returns x) : Sound x := by
  obtain ⟨a, rfl⟩ := h
  exact sound_ok a

@[simp] theorem returns_pure (a : α) : Returns (pure a : Prog ε φ α) := ⟨a, rfl⟩

theorem returns_bind {x : Prog ε φ α} {k : α → Prog ε φ β} :
    Returns (x >>= k) ↔ Returns x ∧ ∀ a, x = .ok a → Returns (k a) := by
  constructor
  · rintro ⟨b, h⟩
    obtain ⟨a, rfl, hk⟩ := bind_ok.mp h
    refine ⟨⟨a, rfl⟩, ?_⟩
    rintro _ ⟨⟩
    exact ⟨b, hk⟩
  · rintro ⟨⟨a, rfl⟩, h⟩
    exact h a rfl

theorem returns_ite {p : Prop} [Decidable p] {x y : Prog ε φ α} :
    Returns (if p then x else y) ↔ (p → Returns x) ∧ (¬ p → Returns y) := by
  by_cases h : p <;> simp [h]

/-! ### Operations that may fault -/

/-- `xs[i]`. -/
def index (xs : List α) (i : ℕ) : Prog ε Fault α :=
  match xs[i]? with
  | some x => .ok x
  | none => .error (.fault .index)

/-- `&xs[start..stop]`. -/
def slice (xs : List α) (start stop : ℕ) : Prog ε Fault (List α) :=
  if start ≤ stop ∧ stop ≤ xs.length then .ok ((xs.take stop).drop start)
  else .error (.fault .index)

/-- `&xs[start..]`. -/
def sliceFrom (xs : List α) (start : ℕ) : Prog ε Fault (List α) :=
  if start ≤ xs.length then .ok (xs.drop start) else .error (.fault .index)

/-- `m + n` on machine words of 64 bits. -/
def add (m n : ℕ) : Prog ε Fault ℕ :=
  if m + n < 2 ^ 64 then .ok (m + n) else .error (.fault .overflow)

/-- Room for `n` items, of which `held` have been received. -/
def withCapacity (n held : ℕ) : Prog ε Fault Unit :=
  if n ≤ held then .ok () else .error (.fault .capacity)

@[simp] theorem returns_index {xs : List α} {i : ℕ} :
    Returns (index xs i : Prog ε Fault α) ↔ i < xs.length := by
  rw [index]
  cases h : xs[i]? with
  | none => simpa [Returns] using List.getElem?_eq_none_iff.mp h
  | some x => simpa [Returns] using (List.getElem?_eq_some_iff.mp h).1

@[simp] theorem returns_slice {xs : List α} {start stop : ℕ} :
    Returns (slice xs start stop : Prog ε Fault _) ↔ start ≤ stop ∧ stop ≤ xs.length := by
  rw [slice]
  split <;> simp_all [Returns]

@[simp] theorem sound_index {xs : List α} {i : ℕ} :
    Sound (index xs i : Prog ε Fault α) ↔ i < xs.length := by
  rw [index]
  cases h : xs[i]? with
  | none => simpa using List.getElem?_eq_none_iff.mp h
  | some x => simpa using (List.getElem?_eq_some_iff.mp h).1

@[simp] theorem sound_slice {xs : List α} {start stop : ℕ} :
    Sound (slice xs start stop : Prog ε Fault _) ↔ start ≤ stop ∧ stop ≤ xs.length := by
  rw [slice]
  split <;> simp_all

@[simp] theorem sound_sliceFrom {xs : List α} {start : ℕ} :
    Sound (sliceFrom xs start : Prog ε Fault _) ↔ start ≤ xs.length := by
  rw [sliceFrom]
  split <;> simp_all

@[simp] theorem sound_add {m n : ℕ} : Sound (add m n : Prog ε Fault ℕ) ↔ m + n < 2 ^ 64 := by
  rw [add]
  split <;> simp_all

@[simp] theorem sound_withCapacity {n held : ℕ} :
    Sound (withCapacity n held : Prog ε Fault Unit) ↔ n ≤ held := by
  rw [withCapacity]
  split <;> simp_all

@[simp] theorem slice_ok {xs ys : List α} {start stop : ℕ} :
    (slice xs start stop : Prog ε Fault _) = .ok ys ↔
      start ≤ stop ∧ stop ≤ xs.length ∧ (xs.take stop).drop start = ys := by
  rw [slice]
  split
  · simp_all
  · rename_i h
    simp only [reduceCtorEq, false_iff]
    rintro ⟨hle, hstop, -⟩
    exact h ⟨hle, hstop⟩

@[simp] theorem sliceFrom_ok {xs ys : List α} {start : ℕ} :
    (sliceFrom xs start : Prog ε Fault _) = .ok ys ↔ start ≤ xs.length ∧ xs.drop start = ys := by
  rw [sliceFrom]
  split
  · simp_all
  · rename_i h
    simp only [reduceCtorEq, false_iff]
    exact fun hs => h hs.1

@[simp] theorem add_ok {m n k : ℕ} :
    (add m n : Prog ε Fault ℕ) = .ok k ↔ m + n < 2 ^ 64 ∧ m + n = k := by
  rw [add]
  split
  · simp_all
  · rename_i h
    simp only [reduceCtorEq, false_iff]
    exact fun hs => h hs.1

@[simp] theorem withCapacity_ok {n held : ℕ} {u : Unit} :
    (withCapacity n held : Prog ε Fault Unit) = .ok u ↔ n ≤ held := by
  rw [withCapacity]
  split <;> simp_all

theorem add_eq {m n : ℕ} (h : m + n < 2 ^ 64) : (add m n : Prog ε Fault ℕ) = .ok (m + n) :=
  add_ok.mpr ⟨h, rfl⟩

theorem slice_append {xs ys zs : List α} {start stop : ℕ} (hi : start = xs.length)
    (hj : stop = xs.length + ys.length) :
    (slice (xs ++ ys ++ zs) start stop : Prog ε Fault _) = .ok ys := by
  subst hi hj
  rw [slice_ok]
  refine ⟨by omega, by simp, ?_⟩
  rw [List.take_left' (by simp), List.drop_left]

theorem sliceFrom_append {xs ys : List α} {start : ℕ} (h : start = xs.length) :
    (sliceFrom (xs ++ ys) start : Prog ε Fault _) = .ok ys := by
  subst h
  simp

end Crash
