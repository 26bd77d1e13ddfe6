import ZzLang.Conc.Channel

/-!
# Runs from a schedule

A schedule says, step by step, what happens from outside or which thread moves and how what the
code leaves open is decided. `run` computes the state it leads to, with the threads in a list,
so that a particular run of the channel can be evaluated; every such state is reachable
(`reachable_of_run`).
-/

namespace ZzLang.Conc

open ThreadPool

variable {V : Type}

/-- One entry of a schedule. -/
inductive Event (V : Type)
  /-- A thread starts an operation. -/
  | start (a : Act V)
  | spawn
  /-- A worker takes this task from the queues. -/
  | pop (t : TaskId)
  /-- The thread with this number moves. -/
  | move (i : ℕ) (ch : Choice V)

/-- What an entry leads to. A new thread comes last, a thread that moves keeps its number. -/
def Event.apply (e : Event V) (s : Shared V) (threads : List (Pc V)) :
    Option (Shared V × List (Pc V)) :=
  match e with
  | .start a => (a.start .thread s).map fun r => (r.1, threads ++ r.2.toList)
  | .spawn =>
    some ({ s with live := insert s.nextId s.live, nextId := s.nextId + 1 }.store
      s.nextId |>.enqueueTask s.nextId, threads)
  | .pop t =>
    if t ∈ s.ready then some ({ s with ready := s.ready.erase t }, threads ++ [.runSlice t])
    else none
  | .move i ch =>
    match threads.drop i with
    | p :: after => (p.step ch s).map fun r => (r.1, threads.take i ++ r.2.toList ++ after)
    | [] => none

/-- The state a schedule leads to. -/
def run : List (Event V) → Shared V → List (Pc V) → Option (Shared V × List (Pc V))
  | [], s, threads => some (s, threads)
  | e :: es, s, threads => (e.apply s threads).bind fun r => run es r.1 r.2

theorem coe_append_toList (threads : List (Pc V)) (next : Option (Pc V)) :
    ((threads ++ next.toList : List (Pc V)) : Multiset (Pc V)) = with? next threads := by
  rcases next with _ | p
  · simp
  · rw [Option.toList_some, ← Multiset.coe_add, add_comm]
    rfl

theorem Event.apply_step {e : Event V} {s s' : Shared V} {threads threads' : List (Pc V)}
    (h : e.apply s threads = some (s', threads')) : System.Step ⟨s, threads⟩ ⟨s', threads'⟩ := by
  rcases e with a | _ | t | ⟨i, ch⟩
  · obtain ⟨⟨s', next⟩, hstart, heq⟩ := Option.map_eq_some_iff.mp h
    cases heq
    rw [coe_append_toList]
    exact .outside (.start a hstart)
  · cases h
    exact Step.outside (Outside.spawn s)
  · simp only [apply] at h
    split_ifs at h with hmem
    cases h
    rw [← Option.toList_some, coe_append_toList]
    exact .outside (.pop (Multiset.cons_erase hmem).symm)
  · simp only [apply] at h
    split at h
    · rename_i p after hdrop
      obtain ⟨⟨s', next⟩, hstep, heq⟩ := Option.map_eq_some_iff.mp h
      cases heq
      have hbefore : (threads : Multiset (Pc V)) =
          p ::ₘ ((threads.take i ++ after : List (Pc V)) : Multiset (Pc V)) := by
        conv_lhs => rw [← List.take_append_drop i threads, hdrop]
        simp [← Multiset.coe_add, Multiset.add_cons, ← Multiset.cons_coe]
      have hafter : ((threads.take i ++ next.toList ++ after : List (Pc V)) : Multiset (Pc V)) =
          with? next (threads.take i ++ after : List (Pc V)) := by
        rw [← coe_append_toList]
        simp only [← Multiset.coe_add]
        abel
      rw [hbefore, hafter]
      exact .move ⟨ch, hstep⟩
    · cases h

theorem reachable_of_run {es : List (Event V)} {s s' : Shared V} {threads threads' : List (Pc V)}
    (hreach : System.Reachable ⟨s, threads⟩) (h : run es s threads = some (s', threads')) :
    System.Reachable ⟨s', threads'⟩ := by
  induction es generalizing s threads with
  | nil =>
    cases h
    exact hreach
  | cons e es ih =>
    obtain ⟨⟨s₁, threads₁⟩, hstep, hrun⟩ := Option.bind_eq_some_iff.mp h
    exact ih (hreach.tail (Event.apply_step hstep)) hrun

/-- A schedule whose state passes a test leads to a reachable state that does. -/
theorem exists_reachable (es : List (Event V)) (test : Shared V → List (Pc V) → Bool)
    (h : (run es .new []).any (fun r => test r.1 r.2) = true) :
    ∃ s threads, System.Reachable ⟨s, (threads : List (Pc V))⟩ ∧ test s threads = true := by
  rcases hrun : run es (.new : Shared V) [] with _ | ⟨s, threads⟩
  · simp [hrun] at h
  · exact ⟨s, threads, reachable_of_run .refl hrun, by simpa [hrun] using h⟩

/-- The thread with this number makes so many moves. -/
def moves (n i : ℕ) : List (Event V) :=
  List.replicate n (.move i .go)

/-- The first task is spawned, calls `chan.recv` on the empty channel and parks. -/
def parkFirst : List (Event V) :=
  [Event.spawn, Event.pop 1] ++ moves 3 0 ++ [Event.move 0 (.act .recv)] ++ moves 16 0 ++
    [Event.move 0 .fail] ++ moves 6 0

end ZzLang.Conc
