import Mathlib.Data.List.Basic

/-!
# Names used under binders and behind boundaries

A term uses names. A binder takes the names that it binds away from what is outside of it, and a
*boundary* (the head of a closure) keeps them apart in another way: a name that is used behind a
boundary and bound before it has to be carried across. `Uses` is what is left of a term under both:
the names that it uses free, each with whether the use is behind a boundary of the term, and the
names that a binder of the term has caught from behind a boundary.

A program that walks over the term sees neither. It has a stack of scopes, and the height that the
stack had at the last boundary, and reports a name when it is bound below that height or not at all.
`Uses.Reported` is what it reports, and the lemmas below say how that follows the term: what is
reported inside a scope, or behind a boundary, is what is reported outside of the uses that the
scope or the boundary leaves.
-/

/-- What a term uses. -/
structure Uses (α : Type*) where
  /-- The names that are used free, with whether the use is behind a boundary. -/
  free : List (α × Bool)
  /-- The names that are bound in the term and used behind a boundary in it. -/
  caught : List α

namespace Uses

variable {α : Type*}

/-- Nothing is used. -/
def nothing : Uses α := ⟨[], []⟩

/-- One name is used. -/
def one (x : α) : Uses α := ⟨[(x, false)], []⟩

instance : Append (Uses α) := ⟨fun u v => ⟨u.free ++ v.free, u.caught ++ v.caught⟩⟩

/-- What is used is behind a boundary. -/
def behind (u : Uses α) : Uses α := ⟨u.free.map fun p => (p.1, true), u.caught⟩

section

variable [DecidableEq α]

/-- Some names are bound. -/
def bind (xs : List α) (u : Uses α) : Uses α where
  free := u.free.filter fun p => p.1 ∉ xs
  caught := u.caught ++ (u.free.filter fun p => p.1 ∈ xs ∧ p.2 = true).map Prod.fst

/-- Some names are bound for what is behind a boundary only. -/
def bindBehind (xs : List α) (u : Uses α) : Uses α where
  free := u.free.filter fun p => ¬(p.1 ∈ xs ∧ p.2 = true)
  caught := u.caught ++ (u.free.filter fun p => p.1 ∈ xs ∧ p.2 = true).map Prod.fst

end

/-- A name is used free. -/
def Free (u : Uses α) (x : α) : Prop := ∃ behind, (x, behind) ∈ u.free

/-- A name is used behind a boundary and not bound there. -/
def Crosses (u : Uses α) (x : α) : Prop := x ∈ u.caught ∨ (x, true) ∈ u.free

variable {u v : Uses α} {x : α} {xs ys : List α}

@[simp]
theorem free_append : (u ++ v).free = u.free ++ v.free := rfl

@[simp]
theorem caught_append : (u ++ v).caught = u.caught ++ v.caught := rfl

@[simp]
theorem crosses_append : (u ++ v).Crosses x ↔ u.Crosses x ∨ v.Crosses x := by
  simp only [Crosses, free_append, caught_append, List.mem_append]
  constructor
  · rintro ((h | h) | h | h)
    exacts [.inl (.inl h), .inr (.inl h), .inl (.inr h), .inr (.inr h)]
  · rintro ((h | h) | h | h)
    exacts [.inl (.inl h), .inr (.inl h), .inl (.inr h), .inr (.inr h)]

@[simp]
theorem mem_behind {b : Bool} : (x, b) ∈ u.behind.free ↔ u.Free x ∧ b = true := by
  simp only [behind, List.mem_map, Prod.mk.injEq, Prod.exists, Free]
  constructor
  · rintro ⟨_, b', h, rfl, rfl⟩
    exact ⟨⟨b', h⟩, rfl⟩
  · rintro ⟨⟨b', h⟩, rfl⟩
    exact ⟨x, b', h, rfl, rfl⟩

/-- All that a term leaves crosses a boundary around it. -/
theorem crosses_behind : u.behind.Crosses x ↔ x ∈ u.caught ∨ u.Free x := by
  rw [Crosses, mem_behind, and_iff_left rfl]
  rfl

theorem Crosses.behind (h : u.Crosses x) : u.behind.Crosses x :=
  crosses_behind.mpr (h.imp_right fun h => ⟨true, h⟩)

section

variable [DecidableEq α]

@[simp]
theorem mem_free_bind {b : Bool} : (x, b) ∈ (u.bind xs).free ↔ (x, b) ∈ u.free ∧ x ∉ xs := by
  simp [bind]

@[simp]
theorem mem_caught_bind :
    x ∈ (u.bind xs).caught ↔ x ∈ u.caught ∨ (x, true) ∈ u.free ∧ x ∈ xs := by
  simp [bind]

@[simp]
theorem mem_free_bindBehind {b : Bool} :
    (x, b) ∈ (u.bindBehind xs).free ↔ (x, b) ∈ u.free ∧ ¬(x ∈ xs ∧ b = true) := by
  rw [bindBehind, List.mem_filter, decide_eq_true_eq]

@[simp]
theorem mem_caught_bindBehind :
    x ∈ (u.bindBehind xs).caught ↔ x ∈ u.caught ∨ (x, true) ∈ u.free ∧ x ∈ xs := by
  simp [bindBehind]

@[simp]
theorem bind_nil : u.bind [] = u := by
  simp [bind]

/-- What crosses a boundary does so whatever is bound outside of it. -/
theorem crosses_bind : (u.bind xs).Crosses x ↔ u.Crosses x := by
  rw [Crosses, Crosses, mem_caught_bind, mem_free_bind]
  by_cases hx : x ∈ xs <;> simp [hx]

theorem crosses_bindBehind : (u.bindBehind xs).Crosses x ↔ u.Crosses x := by
  rw [Crosses, Crosses, mem_caught_bindBehind, mem_free_bindBehind]
  by_cases hx : x ∈ xs <;> simp [hx]

end

/-! ### What a walk reports -/

section

variable [DecidableEq α]

/-- The height of the innermost scope that binds a name, from the bottom of the stack. The stack is
given from the innermost scope on. -/
def height : List (List α) → α → Option ℕ
  | [], _ => none
  | xs :: S, x => if x ∈ xs then some S.length else height S x

theorem height_lt {S : List (List α)} {h : ℕ} (hx : height S x = some h) : h < S.length := by
  induction S with
  | nil => cases hx
  | cons xs S ih =>
    rw [height] at hx
    split_ifs at hx
    · obtain rfl := Option.some_inj.mp hx
      exact Nat.lt_succ_self _
    · exact Nat.lt_succ_of_lt (ih hx)

/-- What is reported of a term, with the stack `S` and the last boundary at height `c`. -/
def Reported (S : List (List α)) (c : ℕ) (u : Uses α) (x : α) : Prop :=
  u.Crosses x ∨ (x, false) ∈ u.free ∧ ∀ h, height S x = some h → h < c

variable {S : List (List α)} {c : ℕ}

theorem reported_nothing : ¬ Reported S c nothing x := by
  simp [Reported, Crosses, nothing]

theorem reported_one {y : α} :
    Reported S c (one y) x ↔ x = y ∧ ∀ h, height S x = some h → h < c := by
  simp [Reported, Crosses, one]

theorem reported_append :
    Reported S c (u ++ v) x ↔ Reported S c u x ∨ Reported S c v x := by
  rw [Reported, crosses_append, free_append, List.mem_append, or_and_right, Reported, Reported]
  exact or_or_or_comm

/-- What is reported inside a scope is what is reported around it of the uses that it leaves. -/
theorem reported_bind (hc : c ≤ S.length) :
    Reported S c (u.bind xs) x ↔ Reported (xs :: S) c u x := by
  rw [Reported, Reported, crosses_bind, mem_free_bind, height]
  by_cases hx : x ∈ xs
  · simp [hx, Nat.not_lt.mpr hc]
  · simp [hx]

/-- The innermost scope may bind more on the way. -/
theorem reported_bind_cons (hc : c ≤ S.length) :
    Reported (ys :: S) c (u.bind xs) x ↔ Reported ((xs ++ ys) :: S) c u x := by
  rw [Reported, Reported, crosses_bind, mem_free_bind, height, height]
  by_cases hx : x ∈ xs
  · simp [hx, Nat.not_lt.mpr hc]
  · simp [hx]

/-- What is reported behind a boundary is what is reported before it. -/
theorem reported_behind : Reported S c u.behind x ↔ Reported S S.length u x := by
  have hall : (∀ h, height S x = some h → h < S.length) ↔ True :=
    iff_true_intro fun h hx => height_lt hx
  rw [Reported, Reported, hall, and_true, crosses_behind, mem_behind, Crosses, Free]
  simp only [Bool.exists_bool, reduceCtorEq, and_false, false_and, or_false, or_assoc]
  rw [or_comm (a := (x, false) ∈ u.free)]

/-- What is behind a boundary is reported whether or not it is bound before. -/
theorem reported_bindBehind : Reported S c (u.bindBehind xs) x ↔ Reported S c u x := by
  rw [Reported, Reported, crosses_bindBehind, mem_free_bindBehind]
  simp

/-- With nothing around, all that a term leaves is reported. -/
theorem reported_nil : Reported [] c u x ↔ x ∈ u.caught ∨ u.Free x := by
  rw [Reported, Crosses, Free]
  simp only [height, reduceCtorEq, false_implies, implies_true, and_true, Bool.exists_bool,
    or_assoc]
  rw [or_comm (a := (x, false) ∈ u.free)]

end

end Uses
