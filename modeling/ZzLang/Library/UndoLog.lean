import Mathlib.Data.List.Nodup
import Mathlib.Logic.Function.Basic

/-!
# An undo log

A procedure writes to a map and logs what each key held before the first write to it. A part of the
procedure finds entries in the log and adds its own behind them (`Logged`). Going back to the length
that the log had before the part restores the keys that the part has added; a key that had an entry
before keeps what the part has written (`Logged.restored`).
-/

namespace UndoLog

variable {K V : Type} {f f' f'' : K → V} {log log' log'' added : List (K × V)}

/-- From one map and log to another: entries were added for keys that had none, each with what its
key held, and keys without an entry hold what they held. -/
structure Logged (f : K → V) (log : List (K × V)) (f' : K → V) (log' : List (K × V)) : Prop where
  added : ∃ added, log' = log ++ added ∧ (added.map Prod.fst).Nodup ∧
    ∀ entry ∈ added, entry.2 = f entry.1 ∧ entry.1 ∉ log.map Prod.fst
  kept : ∀ k, k ∉ log'.map Prod.fst → f' k = f k

namespace Logged

theorem refl (f : K → V) (log : List (K × V)) : Logged f log f log :=
  ⟨⟨[], by simp⟩, fun _ _ => rfl⟩

theorem trans (h : Logged f log f' log') (h' : Logged f' log' f'' log'') :
    Logged f log f'' log'' := by
  obtain ⟨⟨added, rfl, hnodup, hadded⟩, hkept⟩ := h
  obtain ⟨⟨added', rfl, hnodup', hadded'⟩, hkept'⟩ := h'
  have hold : ∀ k, k ∉ (log ++ added ++ added').map Prod.fst → k ∉ (log ++ added).map Prod.fst :=
    fun k hk h => hk (by rw [List.map_append]; exact List.mem_append_left _ h)
  refine ⟨⟨added ++ added', by rw [List.append_assoc], ?_, ?_⟩,
    fun k hk => (hkept' k hk).trans (hkept k (hold k hk))⟩
  · rw [List.map_append, List.nodup_append]
    refine ⟨hnodup, hnodup', fun k hk k' hk' hkk => ?_⟩
    obtain ⟨entry, hentry, rfl⟩ := List.mem_map.mp hk'
    refine (hadded' entry hentry).2 ?_
    rw [← hkk, List.map_append]
    exact List.mem_append_right _ hk
  · intro entry hentry
    rcases List.mem_append.mp hentry with hentry | hentry
    · exact hadded entry hentry
    · obtain ⟨hvalue, hnew⟩ := hadded' entry hentry
      refine ⟨hvalue.trans (hkept _ hnew), fun h => hnew ?_⟩
      rw [List.map_append]
      exact List.mem_append_left _ h

theorem take_length (h : Logged f log f' log') : log'.take log.length = log := by
  obtain ⟨⟨added, rfl, -⟩, -⟩ := h
  exact List.take_left ..

end Logged

variable [DecidableEq K]

/-- Put back what the entries say, the newest first. -/
def restore (f : K → V) (entries : List (K × V)) : K → V :=
  entries.foldr (fun entry f => Function.update f entry.1 entry.2) f

namespace Logged

/-- A write to a key that has an entry. -/
theorem write_old {k : K} (v : V) (hk : k ∈ log.map Prod.fst) :
    Logged f log (Function.update f k v) log :=
  ⟨⟨[], by simp⟩, fun _ hk' => Function.update_of_ne (by rintro rfl; exact hk' hk) v f⟩

/-- A write to a key that has none yet. -/
theorem write_new {k : K} (v : V) (hk : k ∉ log.map Prod.fst) :
    Logged f log (Function.update f k v) (log ++ [(k, f k)]) := by
  refine ⟨⟨_, rfl, List.nodup_singleton k, fun entry hentry => ?_⟩, fun k' hk' => ?_⟩
  · rw [List.mem_singleton.mp hentry]
    exact ⟨rfl, hk⟩
  · refine Function.update_of_ne ?_ v f
    rintro rfl
    exact hk' (by rw [List.map_append]; exact List.mem_append_right _ (List.mem_singleton_self _))

end Logged

theorem restore_of_notMem {k : K} (hk : k ∉ added.map Prod.fst) : restore f added k = f k := by
  induction added with
  | nil => rfl
  | cons entry added ih =>
    rw [List.map_cons, List.mem_cons, not_or] at hk
    exact (Function.update_of_ne hk.1 _ _).trans (ih hk.2)

theorem restore_of_mem {entry : K × V} (hnodup : (added.map Prod.fst).Nodup)
    (hentry : entry ∈ added) : restore f added entry.1 = entry.2 := by
  induction added with
  | nil => cases hentry
  | cons first added ih =>
    rw [List.map_cons, List.nodup_cons] at hnodup
    rcases List.mem_cons.mp hentry with rfl | hentry
    · exact Function.update_self ..
    · have hne : entry.1 ≠ first.1 := fun h => hnodup.1 (h ▸ List.mem_map_of_mem hentry)
      exact (Function.update_of_ne hne _ _).trans (ih hnodup.2 hentry)

/-- **Going back** restores the keys that had no entry, and leaves the others as they are. -/
theorem Logged.restored (h : Logged f log f' log') (k : K) :
    restore f' (log'.drop log.length) k = if k ∈ log.map Prod.fst then f' k else f k := by
  obtain ⟨⟨added, rfl, hnodup, hadded⟩, hkept⟩ := h
  rw [List.drop_left]
  by_cases hk : k ∈ added.map Prod.fst
  · obtain ⟨entry, hentry, rfl⟩ := List.mem_map.mp hk
    obtain ⟨hvalue, hnew⟩ := hadded entry hentry
    rw [restore_of_mem hnodup hentry, hvalue, if_neg hnew]
  · rw [restore_of_notMem hk]
    by_cases hold : k ∈ log.map Prod.fst
    · rw [if_pos hold]
    · rw [if_neg hold]
      exact hkept k (by simp only [List.map_append, List.mem_append, hold, hk, or_self, not_false_iff])

/-- Going back is itself a step that adds no entry. -/
theorem Logged.back (h : Logged f log f' log') :
    Logged f log (restore f' (log'.drop log.length)) (log'.take log.length) := by
  rw [h.take_length]
  exact ⟨⟨[], by simp⟩, fun k hk => by rw [h.restored, if_neg hk]⟩

end UndoLog
