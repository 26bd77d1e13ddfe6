import Mathlib.Data.List.Induction
import Mathlib.Order.Basic

/-!
# Walks in a tree

A walk goes down by names and up by one name that is set aside. Whatever its moves are, it comes to
something simple: up for a number of steps, and from there down some names (`Walk`). Moves that
undo each other leave no trace, so a list of moves can be replaced by what it comes to, at any place
of a longer list (`walk_toList`, `walk_append`).

A program that keeps the names on a stack computes the walk, if it takes a move up from an empty
stack as one that stays (`push_unrooted`), and the way down if it drops such a move, as it does at a
root (`push_rooted`).
-/

namespace Walks

variable {α : Type}

/-- What a list of moves comes to: some steps up, then down the names, which are listed with the
last one first. -/
@[ext] structure Walk (α : Type) where
  climb : ℕ
  down : List α
  deriving DecidableEq

namespace Walk

/-- No move. -/
def stay : Walk α := ⟨0, []⟩

/-- One more move. -/
def step [DecidableEq α] (up : α) (w : Walk α) (s : α) : Walk α :=
  if s = up then
    match w.down with
    | [] => ⟨w.climb + 1, []⟩
    | _ :: d => ⟨w.climb, d⟩
  else ⟨w.climb, s :: w.down⟩

/-- One walk after another. -/
def andThen (w v : Walk α) : Walk α :=
  if v.climb ≤ w.down.length then ⟨w.climb, v.down ++ w.down.drop v.climb⟩
  else ⟨w.climb + (v.climb - w.down.length), v.down⟩

/-- The walk as a list of moves. -/
def toList (up : α) (w : Walk α) : List α := List.replicate w.climb up ++ w.down.reverse

end Walk

open Walk

@[simp] theorem andThen_stay (w : Walk α) : w.andThen stay = w := by
  simp [andThen, stay]

@[simp] theorem stay_andThen (w : Walk α) : stay.andThen w = w := by
  cases w with
  | mk climb down =>
    cases climb with
    | zero => simp [andThen, stay]
    | succ n => simp [andThen, stay]

variable (up : α)

@[simp] theorem toList_eq_nil {w : Walk α} : w.toList up = [] ↔ w = stay := by
  rw [toList, List.append_eq_nil_iff, List.replicate_eq_nil_iff, List.reverse_eq_nil_iff,
    Walk.ext_iff]
  rfl

variable [DecidableEq α]

/-- What a list of moves comes to. -/
def walk (l : List α) : Walk α := l.foldl (Walk.step up) stay

@[simp] theorem walk_nil : walk up [] = stay := rfl

theorem walk_concat (l : List α) (s : α) : walk up (l ++ [s]) = (walk up l).step up s := by
  simp [walk]

/-- One more move of the second walk is one more move of both. -/
theorem andThen_step (w v : Walk α) (s : α) :
    w.andThen (v.step up s) = (w.andThen v).step up s := by
  obtain ⟨n, d⟩ := w
  obtain ⟨m, e⟩ := v
  by_cases hs : s = up
  · cases e with
    | cons x e =>
      simp only [step, hs, if_true, andThen]
      split <;> simp
    | nil =>
      -- The second walk has only climbed, and goes on to.
      simp only [step, hs, if_true, andThen]
      rcases Nat.lt_trichotomy m d.length with hlt | heq | hgt
      · have hdrop : d.drop m = d[m] :: d.drop (m + 1) := List.drop_eq_getElem_cons hlt
        rw [if_pos (by omega), if_pos (by omega), List.nil_append, List.nil_append, hdrop]
      · subst heq
        simp
      · have hm : ¬ m ≤ d.length := by omega
        have hm' : ¬ m + 1 ≤ d.length := by omega
        simp only [hm, hm', if_false]
        rw [show m + 1 - d.length = m - d.length + 1 by omega, ← Nat.add_assoc]
  · simp only [step, hs, if_false, andThen]
    split <;> simp

/-- **A walk along two lists** is the one along the first, and then the one along the second. -/
theorem walk_append (l m : List α) : walk up (l ++ m) = (walk up l).andThen (walk up m) := by
  induction m using List.reverseRecOn with
  | nil => rw [List.append_nil, walk_nil, andThen_stay]
  | append_singleton m s ih => rw [← List.append_assoc, walk_concat, walk_concat, ih, andThen_step]

/-- The names of a walk are names of the list. -/
theorem mem_of_mem_down {l : List α} {s : α} (h : s ∈ (walk up l).down) : s ∈ l ∧ s ≠ up := by
  induction l using List.reverseRecOn with
  | nil => exact absurd h List.not_mem_nil
  | append_singleton l t ih =>
    rw [walk_concat, step] at h
    have hold : s ∈ (walk up l).down → s ∈ l ++ [t] ∧ s ≠ up := fun hs =>
      ⟨List.mem_append_left _ (ih hs).1, (ih hs).2⟩
    split at h
    · split at h
      · exact absurd h List.not_mem_nil
      · rename_i heq
        exact hold (by rw [heq]; exact List.mem_cons_of_mem _ h)
    · rcases List.mem_cons.mp h with rfl | h
      · exact ⟨List.mem_append_right _ List.mem_cons_self, by assumption⟩
      · exact hold h

theorem up_not_mem_down (l : List α) : up ∉ (walk up l).down := fun h =>
  (mem_of_mem_down up h).2 rfl

/-- Steps up come to themselves. -/
theorem walk_replicate (n : ℕ) : walk up (List.replicate n up) = ⟨n, []⟩ := by
  induction n with
  | zero => rfl
  | succ n ih => rw [List.replicate_succ', walk_concat, ih, step, if_pos rfl]

/-- So do names. -/
theorem walk_names {l : List α} (h : up ∉ l) : walk up l = ⟨0, l.reverse⟩ := by
  induction l using List.reverseRecOn with
  | nil => rfl
  | append_singleton l s ih =>
    have hs : s ≠ up := fun hs => h (by simp [hs])
    rw [walk_concat, ih fun hl => h (List.mem_append_left _ hl), step, if_neg hs]
    simp

/-- **A walk comes to itself.** -/
theorem walk_toList {w : Walk α} (h : up ∉ w.down) : walk up (w.toList up) = w := by
  rw [toList, walk_append, walk_replicate, walk_names up (by simpa using h), andThen]
  simp

/-- What a list comes to can stand for it behind another list. -/
theorem walk_append_toList (l m : List α) :
    walk up (l ++ (walk up m).toList up) = walk up (l ++ m) := by
  rw [walk_append, walk_toList up (up_not_mem_down up m), walk_append]

/-- And in front of one. -/
theorem walk_toList_append (l m : List α) :
    walk up ((walk up l).toList up ++ m) = walk up (l ++ m) := by
  rw [walk_append, walk_toList up (up_not_mem_down up l), walk_append]

/-- At a root the way down can stand for the list: the steps up in front of it do not count. -/
theorem down_append (l m : List α) :
    (walk up ((walk up l).down.reverse ++ m)).down = (walk up (l ++ m)).down := by
  rw [walk_append, walk_append, walk_names up (by simpa using up_not_mem_down up l),
    List.reverse_reverse, andThen, andThen]
  split <;> rfl

theorem mem_toList_of_mem {l : List α} {s : α} (h : s ∈ (walk up l).toList up) :
    s ∈ l ∨ s = up := by
  rw [toList, List.mem_append, List.mem_reverse] at h
  rcases h with h | h
  · exact .inr (List.eq_of_mem_replicate h)
  · exact .inl (mem_of_mem_down up h).1

/-! ### The stack -/

/-- One segment on the stack of a program. -/
def push (rooted : Bool) (stack : List α) (s : α) : List α :=
  if s = up then
    match stack with
    | top :: rest => if top ≠ up then rest else if rooted then stack else up :: stack
    | [] => if rooted then [] else [up]
  else s :: stack

/-- Without a root, the stack is the walk. -/
theorem push_unrooted (l : List α) :
    l.foldl (push up false) [] = (walk up l).down ++ List.replicate (walk up l).climb up := by
  induction l using List.reverseRecOn with
  | nil => rfl
  | append_singleton l s ih =>
    have hup := up_not_mem_down up l
    rw [List.foldl_append, List.foldl_cons, List.foldl_nil, ih, walk_concat, step, push.eq_def]
    by_cases hs : s = up
    · rw [if_pos hs, if_pos hs]
      cases hd : (walk up l).down with
      | nil =>
        cases hn : (walk up l).climb with
        | zero => rfl
        | succ n => simp [List.replicate_succ]
      | cons t d =>
        have ht : t ≠ up := fun h => hup (by rw [hd, h]; exact List.mem_cons_self)
        simp [ht]
    · rw [if_neg hs, if_neg hs]
      rfl

/-- At a root, it is the way down. -/
theorem push_rooted (l : List α) : l.foldl (push up true) [] = (walk up l).down := by
  induction l using List.reverseRecOn with
  | nil => rfl
  | append_singleton l s ih =>
    have hup := up_not_mem_down up l
    rw [List.foldl_append, List.foldl_cons, List.foldl_nil, ih, walk_concat, step, push.eq_def]
    by_cases hs : s = up
    · rw [if_pos hs, if_pos hs]
      cases hd : (walk up l).down with
      | nil => rfl
      | cons t d =>
        have ht : t ≠ up := fun h => hup (by rw [hd, h]; exact List.mem_cons_self)
        simp [ht]
    · rw [if_neg hs, if_neg hs]

end Walks
