import Mathlib.Tactic.Abel
import ZzLang.Library.ThreadPool

/-!
# Runs from a schedule

A schedule says, step by step, what happens from outside or which thread moves, and how what the
code leaves open is decided. `run` computes the state that it leads to, with the threads in a list,
so that a particular run of a pool can be evaluated; every such state is reached by steps
(`reaches_of_run`).
-/

namespace ThreadPool

variable {σ π E C : Type*}

/-- One entry of a schedule. -/
inductive Event (E C : Type*)
  /-- Something happens from outside. -/
  | outside (e : E)
  /-- The thread with this number moves. -/
  | move (i : ℕ) (c : C)

section Run

variable (start : E → σ → Option (σ × Option π)) (step : C → σ → π → Option (σ × Option π))

/-- What an entry leads to. A new thread comes last, a thread that moves keeps its number. -/
def Event.apply (s : σ) (threads : List π) : Event E C → Option (σ × List π)
  | .outside e => (start e s).map fun r => (r.1, threads ++ r.2.toList)
  | .move i c =>
    match threads.drop i with
    | p :: after => (step c s p).map fun r => (r.1, threads.take i ++ r.2.toList ++ after)
    | [] => none

/-- The state a schedule leads to. -/
def run : List (Event E C) → σ → List π → Option (σ × List π)
  | [], s, threads => some (s, threads)
  | e :: es, s, threads => (e.apply start step s threads).bind fun r => run es r.1 r.2

end Run

theorem coe_append_toList (threads : List π) (next : Option π) :
    ((threads ++ next.toList : List π) : Multiset π) = with? next threads := by
  rcases next with _ | p
  · simp
  · rw [Option.toList_some, ← Multiset.coe_add, add_comm]
    rfl

variable {start : E → σ → Option (σ × Option π)} {step : C → σ → π → Option (σ × Option π)}
  {moves : π → σ → σ → Option π → Prop} {outside : σ → σ → Option π → Prop}
  (hstart : ∀ e s s' next, start e s = some (s', next) → outside s s' next)
  (hstep : ∀ c p s s' next, step c s p = some (s', next) → moves p s s' next)

include hstart hstep

theorem Event.step_of_apply {e : Event E C} {s s' : σ} {threads threads' : List π}
    (h : e.apply start step s threads = some (s', threads')) :
    Step moves outside ⟨s, threads⟩ ⟨s', threads'⟩ := by
  rcases e with e | ⟨i, c⟩
  · obtain ⟨⟨s', next⟩, hnext, heq⟩ := Option.map_eq_some_iff.mp h
    cases heq
    rw [coe_append_toList]
    exact .outside (hstart e s s' next hnext)
  · simp only [apply] at h
    split at h
    · rename_i p after hdrop
      obtain ⟨⟨s', next⟩, hnext, heq⟩ := Option.map_eq_some_iff.mp h
      cases heq
      have hbefore : (threads : Multiset π) =
          p ::ₘ ((threads.take i ++ after : List π) : Multiset π) := by
        conv_lhs => rw [← List.take_append_drop i threads, hdrop]
        simp [← Multiset.coe_add, Multiset.add_cons, ← Multiset.cons_coe]
      have hafter : ((threads.take i ++ next.toList ++ after : List π) : Multiset π) =
          with? next (threads.take i ++ after : List π) := by
        rw [← coe_append_toList]
        simp only [← Multiset.coe_add]
        abel
      rw [hbefore, hafter]
      exact .move (hstep c p s s' next hnext)
    · cases h

/-- **A schedule is a run.** -/
theorem reaches_of_run {es : List (Event E C)} {s s' : σ} {threads threads' : List π}
    (h : run start step es s threads = some (s', threads')) :
    Relation.ReflTransGen (Step moves outside) ⟨s, threads⟩ ⟨s', threads'⟩ := by
  induction es generalizing s threads with
  | nil =>
    cases h
    exact .refl
  | cons e es ih =>
    obtain ⟨⟨s₁, threads₁⟩, hfirst, hrest⟩ := Option.bind_eq_some_iff.mp h
    exact .head (Event.step_of_apply hstart hstep hfirst) (ih hrest)

/-- A schedule whose state passes a test leads to a state that does. -/
theorem exists_reaches {es : List (Event E C)} {s : σ} (test : σ → List π → Bool)
    (h : (run start step es s []).any (fun r => test r.1 r.2) = true) :
    ∃ s' threads, Relation.ReflTransGen (Step moves outside) ⟨s, 0⟩
      ⟨s', (threads : List π)⟩ ∧ test s' threads = true := by
  rcases hrun : run start step es s [] with _ | ⟨s', threads⟩
  · simp [hrun] at h
  · exact ⟨s', threads, reaches_of_run hstart hstep hrun, by simpa [hrun] using h⟩

end ThreadPool
