import Mathlib.Logic.Function.Basic
import Mathlib.Data.List.Basic

/-!
# Chains of scopes

A scope is a partial map from names to values, and a chain of scopes is a list of them, the
innermost first. A name is looked up in the first scope that binds it (`look`), and written
there (`write`). The laws are those of one map: a write is seen by the lookups of its own name
and by no others.

Lookups of one name do not see the scopes in front of its holder; those of other names do.
`holder k` is the chain with the scopes in front of the first one that binds `k` left out:
`look_holder` says that it is as good as the chain for `k`, and nothing says so for other
names.
-/

namespace ScopeChain

variable {K V : Type*} {scopes front back : List (K → Option V)} {k k' : K}

/-- The binding in the innermost scope that has one. -/
def look (scopes : List (K → Option V)) (k : K) : Option V :=
  scopes.findSome? fun s => s k

/-- Some scope binds the name. -/
def Binds (scopes : List (K → Option V)) (k : K) : Prop :=
  ∃ s ∈ scopes, (s k).isSome

/-- The chain from the innermost scope that binds the name. -/
def holder (k : K) (scopes : List (K → Option V)) : List (K → Option V) :=
  scopes.dropWhile fun s => (s k).isNone

@[simp] theorem look_nil (k : K) : look ([] : List (K → Option V)) k = none := rfl

theorem look_cons_some {s : K → Option V} {v : V} (h : s k = some v) :
    look (s :: scopes) k = some v := by
  simp [look, h]

theorem look_cons_none {s : K → Option V} (h : s k = none) :
    look (s :: scopes) k = look scopes k := by
  simp [look, h]

theorem look_append (front back : List (K → Option V)) (k : K) :
    look (front ++ back) k = (look front k).or (look back k) := by
  simp [look]

theorem look_append_none (h : look front k = none) : look (front ++ back) k = look back k := by
  simp [look_append, h]

theorem look_isSome_iff : (look scopes k).isSome = true ↔ Binds scopes k := by
  simp [look, Binds]

theorem look_eq_none_iff : look scopes k = none ↔ ¬ Binds scopes k := by
  rw [← look_isSome_iff, Option.not_isSome_iff_eq_none]

theorem binds_append : Binds (front ++ back) k ↔ Binds front k ∨ Binds back k := by
  simp [Binds, or_and_right, exists_or]

theorem binds_cons {s : K → Option V} : Binds (s :: scopes) k ↔ (s k).isSome ∨ Binds scopes k := by
  simp [Binds]

@[simp] theorem not_binds_nil : ¬ Binds ([] : List (K → Option V)) k := by
  simp [Binds]

theorem look_holder (scopes : List (K → Option V)) (k : K) :
    look (holder k scopes) k = look scopes k := by
  induction scopes with
  | nil => rfl
  | cons s scopes ih =>
    rcases hs : s k with _ | v
    · rw [holder, List.dropWhile_cons_of_pos (by simp [hs]), look_cons_none hs]
      exact ih
    · rw [holder, List.dropWhile_cons_of_neg (by simp [hs])]

theorem binds_holder : Binds (holder k scopes) k ↔ Binds scopes k := by
  rw [← look_isSome_iff, ← look_isSome_iff, look_holder]

section Write

variable [DecidableEq K]

/-- Write to the innermost scope that binds the name. -/
def write (k : K) (v : V) : List (K → Option V) → List (K → Option V)
  | [] => []
  | s :: scopes =>
    if (s k).isSome then Function.update s k (some v) :: scopes else s :: write k v scopes

theorem write_cons_some {s : K → Option V} (h : (s k).isSome) (v : V) :
    write k v (s :: scopes) = Function.update s k (some v) :: scopes := by
  simp [write, h]

theorem write_cons_none {s : K → Option V} (h : s k = none) (v : V) :
    write k v (s :: scopes) = s :: write k v scopes := by
  simp [write, h]

theorem write_append_of_binds (h : Binds front k) (v : V) (back : List (K → Option V)) :
    write k v (front ++ back) = write k v front ++ back := by
  induction front with
  | nil => simp at h
  | cons s front ih =>
    rcases hs : s k with _ | w
    · have hfront : Binds front k := by simpa [binds_cons, hs] using h
      rw [List.cons_append, write_cons_none hs, write_cons_none hs, ih hfront, List.cons_append]
    · rw [List.cons_append, write_cons_some (by simp [hs]), write_cons_some (by simp [hs]),
        List.cons_append]

theorem write_append_of_not_binds (h : ¬ Binds front k) (v : V) (back : List (K → Option V)) :
    write k v (front ++ back) = front ++ write k v back := by
  induction front with
  | nil => rfl
  | cons s front ih =>
    obtain ⟨hs, hfront⟩ : s k = none ∧ ¬ Binds front k := by simpa [binds_cons] using h
    rw [List.cons_append, write_cons_none hs, ih hfront, List.cons_append]

/-- The last write counts. -/
theorem write_write (k : K) (v w : V) (scopes : List (K → Option V)) :
    write k w (write k v scopes) = write k w scopes := by
  induction scopes with
  | nil => rfl
  | cons s scopes ih =>
    rcases hs : s k with _ | u
    · rw [write_cons_none hs, write_cons_none hs, write_cons_none hs, ih]
    · rw [write_cons_some (by simp [hs]), write_cons_some (by simp), write_cons_some (by simp [hs]),
        Function.update_idem]

/-- A write is seen by the lookups of its name. -/
theorem look_write_self (h : Binds scopes k) (v : V) : look (write k v scopes) k = some v := by
  induction scopes with
  | nil => simp at h
  | cons s scopes ih =>
    rcases hs : s k with _ | w
    · have hscopes : Binds scopes k := by simpa [binds_cons, hs] using h
      rw [write_cons_none hs, look_cons_none hs, ih hscopes]
    · rw [write_cons_some (by simp [hs]), look_cons_some (Function.update_self ..)]

/-- A write is seen by no other lookup. -/
theorem look_write_of_ne (hne : k' ≠ k) (v : V) (scopes : List (K → Option V)) :
    look (write k v scopes) k' = look scopes k' := by
  induction scopes with
  | nil => rfl
  | cons s scopes ih =>
    rcases hs : s k with _ | w
    · rw [write_cons_none hs]
      rcases hs' : s k' with _ | w'
      · rw [look_cons_none hs', look_cons_none hs', ih]
      · rw [look_cons_some hs', look_cons_some hs']
    · rw [write_cons_some (by simp [hs])]
      simp only [look, List.findSome?_cons, Function.update_of_ne hne]

end Write

end ScopeChain
