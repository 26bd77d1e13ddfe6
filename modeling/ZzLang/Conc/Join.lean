import ZzLang.Conc.Tasks

/-!
# Join handles and the tasks that wait on them

A join handle has a slot for the outcome of a task, a mark that the task is over, and a list of
the green tasks that wait for it. `task.join` takes the outcome out of the slot; a green task
that finds the slot empty is suspended, looks once more (`park_join`, which copies the outcome)
and registers; every other joiner sleeps on a condition variable. `task.try_join` copies. When
the task is over (`complete`), its outcome is stored, and a copy is left in the deliver slot of
every registered task.

The model has one handle and any number of threads and tasks; a critical section of the handle
is one step, and so is one of a registry entry. `values` counts the values of the program that
hold the handle and `refs` the operations in progress that do: with both at zero nobody but the
task itself knows the handle, and its outcome is not even stored.

A slot that is empty may be empty because the outcome was taken. A blocking joiner looks at the
mark and reports this; a green one does not, and registers with a handle whose list nobody will
ever look at again (`late_joiner_waits`). In the runs where this does not happen nobody is left
waiting, and in every run a joiner gets the outcome or the report (`join_sound`).
-/

namespace ZzLang.Conc.Join

open ThreadPool

variable {V : Type}

/-! ### Outcomes -/

/-- What a task ends with: a value, or the text of its error. -/
abbrev Outcome (V : Type) := Except String V

/-- A value of `task.join`: that of the task, or its error as an `.err` result. -/
inductive Joined (V : Type)
  | value (v : V)
  | err (msg : String)
  deriving DecidableEq

/-- `outcome_to_value`. -/
def outcomeToValue : Outcome V → Joined V
  | .ok v => .value v
  | .error msg => .err msg

/-- What a call has returned. -/
inductive Returned (V : Type)
  | joined (w : Joined V)
  /-- The error "task.join: result already consumed (try_join took it)". -/
  | consumed
  | polled (o : Option (Outcome V))
  /-- The unit of a suspended call in place of which nothing was put. -/
  | dummy

/-! ### Where a thread stands -/

/-- How a `task.join` waits: a green task is suspended, other joiners block their thread. -/
inductive Joiner
  | green (t : TaskId)
  | blocking (c : Caller)

/-- Where a thread stands. -/
inductive Pc (V : Type)
  | join (j : Joiner)
  /-- In `wait_while`. -/
  | asleep (c : Caller)
  | tryJoin (c : Caller)
  /-- `park_join`, in its spin. -/
  | parkSpin (t : TaskId)
  | parkLock (t : TaskId)
  | parkResume (t : TaskId) (w : Joined V)
  | parkEnqueue (t : TaskId)
  | parkPutBack (t : TaskId)
  /-- `complete`, before it takes the lock of the handle. -/
  | publish (o : Outcome V)
  /-- Looking up the waiters in the registry, with those found so far. -/
  | resolve (o : Outcome V) (waiters targets : List TaskId)
  | wakes (o : Outcome V) (targets : List TaskId)
  | enqueue (o : Outcome V) (wid : TaskId) (targets : List TaskId)
  | notify
  /-- `checkin_join_state`. -/
  | checkin
  | runSlice (t : TaskId)
  | takeTask (t : TaskId)
  | takeDeliver (t : TaskId)
  /-- The task runs. -/
  | slice (t : TaskId)
  | yieldSlice (t : TaskId)
  | requeue (t : TaskId)
  | finish (t : TaskId)

/-- What a thread or a task may do next. -/
inductive Act
  | join
  /-- `task.join` below an interpreter frame, where a task cannot be suspended. -/
  | joinNested
  | tryJoin
  | yieldNow
  | finish

/-- What the code leaves open. -/
inductive Choice
  | go
  | fail
  | act (a : Act)

/-! ### The shared state -/

/-- The handle, the registry and queue of the executor, and the record of what calls
returned. -/
structure Shared (V : Type) where
  result : Option (Outcome V)
  completed : Bool
  greenWaiters : List TaskId
  cvarWaiters : ℕ
  values : ℕ
  refs : ℕ
  /-- What the task has ended with. -/
  outcome : Option (Outcome V)
  live : Finset TaskId
  stored : TaskId → Bool
  deliver : TaskId → Option (Joined V)
  /-- The task is suspended in `task.join`, with a unit for its value. -/
  joining : TaskId → Bool
  ready : Multiset TaskId
  nextId : TaskId
  returned : List (Returned V)

namespace Shared

/-- A fresh handle, held by one value, and no other tasks. -/
def new : Shared V where
  result := none
  completed := false
  greenWaiters := []
  cvarWaiters := 0
  values := 1
  refs := 0
  outcome := none
  live := ∅
  stored := fun _ => false
  deliver := fun _ => none
  joining := fun _ => false
  ready := 0
  nextId := 1
  returned := []

/-- An operation on the handle is over. -/
def release (s : Shared V) : Shared V :=
  { s with refs := s.refs - 1 }

/-- A call returns. -/
def returns (s : Shared V) (r : Returned V) : Shared V :=
  { s.release with returned := s.returned ++ [r] }

/-- Put an id into a queue of the executor. -/
def enqueueTask (s : Shared V) (t : TaskId) : Shared V :=
  { s with ready := t ::ₘ s.ready }

/-- Put the task back into its entry. -/
def store (s : Shared V) (t : TaskId) : Shared V :=
  { s with stored := Function.update s.stored t true }

/-- `replace_top`: the suspended call gets its value. -/
def replaceTop (s : Shared V) (t : TaskId) (w : Joined V) : Shared V :=
  { s with
    joining := Function.update s.joining t false
    returned := s.returned ++ [.joined w] }

/-- The task goes on as it is: with a value it got before, or with the unit. -/
def goOn (s : Shared V) (t : TaskId) : Shared V :=
  if s.joining t then
    { s with joining := Function.update s.joining t false, returned := s.returned ++ [.dummy] }
  else s

end Shared

/-! ### Steps -/

/-- The operation has returned. -/
def resume : Caller → Option (Pc V)
  | .thread => none
  | .slice t => some (.slice t)

def Joiner.resume : Joiner → Option (Pc V)
  | green t => some (.slice t)
  | blocking c => Join.resume c

/-- What an act starts. An operation needs a value that holds the handle, and holds it from
there on. -/
def Act.start (c : Caller) (s : Shared V) : Act → Option (Shared V × Option (Pc V))
  | .join =>
    if s.values = 0 then none
    else
      match c with
      | .thread => some ({ s with refs := s.refs + 1 }, some (.join (.blocking c)))
      | .slice t => some ({ s with refs := s.refs + 1 }, some (.join (.green t)))
  | .joinNested =>
    if s.values = 0 then none
    else some ({ s with refs := s.refs + 1 }, some (.join (.blocking c)))
  | .tryJoin =>
    if s.values = 0 then none else some ({ s with refs := s.refs + 1 }, some (.tryJoin c))
  | .yieldNow =>
    match c with
    | .thread => none
    | .slice t => some (s, some (.yieldSlice t))
  | .finish =>
    match c with
    | .thread => none
    | .slice t => some (s, some (.finish t))

/-- `task_join`, and the end of its wait: a result is taken, a completed handle without one is an
error. -/
def takeResult (s : Shared V) : Shared V :=
  match s.result with
  | some o => { s with result := none }.returns (.joined (outcomeToValue o))
  | none => s.returns .consumed

/-- `complete` under the lock of the handle. -/
def publish (o : Outcome V) (s : Shared V) : Shared V × Option (Pc V) :=
  let s' := { s with greenWaiters := [], result := some o, completed := true }
  -- nobody else knows the handle
  if s.greenWaiters = [] ∧ s.values = 0 ∧ s.refs = 0 then (s, none)
  else if s.greenWaiters = [] ∧ s.cvarWaiters = 0 then (s', none)
  else (s', some (.resolve o s.greenWaiters []))

/-- The next step of a thread. -/
def Pc.step (ch : Choice) (p : Pc V) (s : Shared V) : Option (Shared V × Option (Pc V)) :=
  match p with
  | .join j =>
    match s.result, j with
    | some _, j => some (takeResult s, j.resume)
    | none, .green t =>
      some ({ s with joining := Function.update s.joining t true }, some (.parkSpin t))
    | none, .blocking c =>
      if s.completed then some (takeResult s, Join.resume c)
      else some ({ s with cvarWaiters := s.cvarWaiters + 1 }, some (.asleep c))
  -- a sleeper may wake at any time, and looks at the handle then
  | .asleep c =>
    if s.result.isNone && !s.completed then some (s, some (.asleep c))
    else some (takeResult { s with cvarWaiters := s.cvarWaiters - 1 }, Join.resume c)
  | .tryJoin c => some (s.returns (.polled s.result), Join.resume c)
  | .parkSpin t =>
    match ch, s.result with
    | .go, some o => some (s, some (.parkResume t (outcomeToValue o)))
    | .go, none => some (s, some (.parkSpin t))
    | _, _ => some (s, some (.parkLock t))
  | .parkLock t =>
    match s.result with
    | some o => some (s, some (.parkResume t (outcomeToValue o)))
    | none => some ({ s with greenWaiters := s.greenWaiters ++ [t] }, some (.parkPutBack t))
  | .parkResume t w => some ((s.replaceTop t w).store t, some (.parkEnqueue t))
  | .parkEnqueue t => some (s.release.enqueueTask t, none)
  | .parkPutBack t => some (s.release.store t, none)
  | .publish o => some (Join.publish o s)
  | .resolve o [] targets => some (s, some (.wakes o targets))
  | .resolve o (wid :: ws) targets =>
    some (s, some (.resolve o ws (if wid ∈ s.live then targets ++ [wid] else targets)))
  | .wakes _ [] => some (s, some .notify)
  | .wakes o (wid :: ws) =>
    some ({ s with deliver := Function.update s.deliver wid (some (outcomeToValue o)) },
      some (.enqueue o wid ws))
  | .enqueue o wid ws => some (s.enqueueTask wid, some (.wakes o ws))
  | .notify => some (s, some .checkin)
  | .checkin =>
    if s.values = 0 ∧ s.refs = 0 then some ({ s with result := none, completed := false }, none)
    else some (s, none)
  | .runSlice t => some (s, if t ∈ s.live then some (.takeTask t) else none)
  | .takeTask t =>
    if s.stored t then
      some ({ s with stored := Function.update s.stored t false }, some (.takeDeliver t))
    else some (s.enqueueTask t, none)
  | .takeDeliver t =>
    match s.deliver t with
    | some w =>
      some (({ s with deliver := Function.update s.deliver t none }).replaceTop t w,
        some (.slice t))
    | none => some (s.goOn t, some (.slice t))
  | .slice t =>
    match ch with
    | .act a => a.start (.slice t) s
    | _ => none
  | .yieldSlice t => some (s.store t, some (.requeue t))
  | .requeue t => some (s.enqueueTask t, none)
  | .finish t =>
    some ({ s with
      live := s.live.erase t
      deliver := Function.update s.deliver t none }, none)

/-- The moves of a thread. -/
def Moves (p : Pc V) (s s' : Shared V) (next : Option (Pc V)) : Prop :=
  ∃ ch, p.step ch s = some (s', next)

/-- What happens from outside: a thread starts an operation, the handle is copied or dropped, a
task is spawned, a worker takes an id from the queues, and the task of the handle ends, once. -/
inductive Outside : Shared V → Shared V → Option (Pc V) → Prop
  | start {s s' : Shared V} {next : Option (Pc V)} (a : Act)
      (h : a.start .thread s = some (s', next)) : Outside s s' next
  | clone (s : Shared V) (h : s.values ≠ 0) : Outside s { s with values := s.values + 1 } none
  | drop (s : Shared V) (h : s.values ≠ 0) : Outside s { s with values := s.values - 1 } none
  | spawn (s : Shared V) :
      Outside s ({ s with live := insert s.nextId s.live, nextId := s.nextId + 1 }.store
        s.nextId |>.enqueueTask s.nextId) none
  | pop {s : Shared V} {t : TaskId} {ready : Multiset TaskId} (h : s.ready = t ::ₘ ready) :
      Outside s { s with ready } (some (.runSlice t))
  | complete (s : Shared V) (o : Outcome V) (h : s.outcome = none) :
      Outside s { s with outcome := some o } (some (.publish o))

/-- The system. -/
abbrev System (V : Type) := Pool (Shared V) (Pc V)

namespace System

/-- A fresh handle without threads. -/
def new : System V :=
  ⟨.new, 0⟩

/-- One step of the system. -/
def Step : System V → System V → Prop :=
  ThreadPool.Step Moves Outside

/-- The states of all runs. -/
def Reachable (P : System V) : Prop :=
  Relation.ReflTransGen Step new P

end System

variable {s s' : Shared V} {p : Pc V} {next : Option (Pc V)} {ch : Choice}
  {rest threads : Multiset (Pc V)}

/-! ### Where a task is, and how it stands there -/

/-- How a task stands: it runs or could run, it waits for the outcome, it has been left the
outcome, or it is in the queue, where it may be one or the other. -/
inductive Status
  | idle
  | waits
  | woken
  | queued

def Shared.Idle (s : Shared V) (t : TaskId) : Prop :=
  s.joining t = false ∧ s.deliver t = none

def Shared.Waits (s : Shared V) (t : TaskId) : Prop :=
  s.joining t = true ∧ s.deliver t = none

def Shared.Woken (s : Shared V) (t : TaskId) : Prop :=
  s.joining t = true ∧ ∃ o, s.outcome = some o ∧ s.deliver t = some (outcomeToValue o)

/-- What the status says. -/
def Status.Holds (s : Shared V) (t : TaskId) : Status → Prop
  | idle => s.Idle t
  | waits => s.Waits t
  | woken => s.Woken t
  | queued => s.Idle t ∨ s.Woken t

/-- A status depends on the slot of the task, on whether it joins, and on the outcome, which is
set once. -/
theorem Status.Holds.mono {t : TaskId} {st : Status} (h : st.Holds s t)
    (hout : ∀ o, s.outcome = some o → s'.outcome = some o) (hjoin : s'.joining t = s.joining t)
    (hslot : s'.deliver t = s.deliver t) : st.Holds s' t := by
  have hidle : s.Idle t → s'.Idle t := by
    rintro ⟨hj, hd⟩
    exact ⟨hjoin.trans hj, hslot.trans hd⟩
  have hwoken : s.Woken t → s'.Woken t := by
    rintro ⟨hj, o, ho, hd⟩
    exact ⟨hjoin.trans hj, o, hout o ho, hslot.trans hd⟩
  rcases st with _ | _ | _ | _
  · exact hidle h
  · exact ⟨hjoin.trans h.1, hslot.trans h.2⟩
  · exact hwoken h
  · exact h.imp hidle hwoken

def callerTokens (c : Caller) : Multiset (TaskId × Status) :=
  c.tasks.map (·, .idle)

def Joiner.tokens : Joiner → Multiset (TaskId × Status)
  | green t => {(t, .idle)}
  | blocking c => callerTokens c

/-- The tasks that are with this thread. -/
def Pc.tokens : Pc V → Multiset (TaskId × Status)
  | .join j => j.tokens
  | .asleep c | .tryJoin c => callerTokens c
  | .parkSpin t | .parkLock t | .parkResume t _ => {(t, .waits)}
  | .parkEnqueue t | .slice t | .yieldSlice t | .requeue t | .finish t => {(t, .idle)}
  | .resolve _ ws targets => (ws + targets : Multiset TaskId).map (·, .waits)
  | .wakes _ targets => (targets : Multiset TaskId).map (·, .waits)
  | .enqueue _ wid targets => (wid, .woken) ::ₘ (targets : Multiset TaskId).map (·, .waits)
  | .runSlice t | .takeTask t | .takeDeliver t => {(t, .queued)}
  | .parkPutBack _ | .publish _ | .notify | .checkin => 0

/-- The tasks that are with nobody: registered with the handle, or in the queue. -/
def Shared.tokens (s : Shared V) : Multiset (TaskId × Status) :=
  (s.greenWaiters : Multiset TaskId).map (·, Status.waits) + s.ready.map (·, Status.queued)

/-- What a thread knows about the outcome. -/
def Pc.Knows (s : Shared V) : Pc V → Prop
  | .publish o | .resolve o _ _ | .wakes o _ | .enqueue o _ _ => s.outcome = some o
  | .parkResume _ w => ∃ o, s.outcome = some o ∧ w = outcomeToValue o
  | _ => True

/-- A call returned what it should: the outcome, the report that it was taken, or nothing yet. -/
def Returned.Right (s : Shared V) : Returned V → Prop
  | joined w => ∃ o, s.outcome = some o ∧ w = outcomeToValue o
  | consumed => True
  | polled none => True
  | polled (some o) => s.outcome = some o
  | dummy => False

theorem Pc.Knows.mono (h : p.Knows s) (hout : ∀ o, s.outcome = some o → s'.outcome = some o) :
    p.Knows s' := by
  rcases p with _ | _ | _ | _ | _ | ⟨t, w⟩ | _ | _ | _ | _ | _ | _ | _ | _ | _ | _ | _ | _ | _ | _ | _
  case parkResume =>
    obtain ⟨o, ho, hw⟩ := h
    exact ⟨o, hout o ho, hw⟩
  all_goals first | exact trivial | exact hout _ h

theorem Returned.Right.mono {r : Returned V} (h : r.Right s)
    (hout : ∀ o, s.outcome = some o → s'.outcome = some o) : r.Right s' := by
  rcases r with w | _ | ⟨_ | o⟩ | _
  · obtain ⟨o, ho, hw⟩ := h
    exact ⟨o, hout o ho, hw⟩
  · trivial
  · trivial
  · exact hout o h
  · exact h

/-! ### One step -/

theorem tokens_resume (c : Caller) :
    (resume c : Option (Pc V)).elim 0 Pc.tokens = callerTokens c := by
  rcases c with _ | t <;> rfl

theorem tokens_resume_joiner (j : Joiner) :
    (j.resume : Option (Pc V)).elim 0 Pc.tokens = j.tokens := by
  rcases j with t | c
  · rfl
  · exact tokens_resume c

theorem knows_resume (c : Caller) : ∀ q ∈ (resume c : Option (Pc V)), q.Knows s := by
  intro q hq
  rcases c with _ | t <;> cases hq
  trivial

theorem knows_resume_joiner (j : Joiner) : ∀ q ∈ (j.resume : Option (Pc V)), q.Knows s := by
  intro q hq
  rcases j with t | c
  · cases hq
    trivial
  · exact knows_resume c q hq

/-- What a step does, given what holds of the thread before it. -/
structure StepOk (s s' : Shared V) (p : Pc V) (next : Option (Pc V)) : Prop where
  outcome : s'.outcome = s.outcome
  nextId : s'.nextId = s.nextId
  /-- Only the tasks of the thread change how they stand. -/
  frame : ∀ t, t ∉ p.tokens.map Prod.fst → s'.joining t = s.joining t ∧ s'.deliver t = s.deliver t
  /-- Tasks move between the thread, the handle and the queue, or one ends. -/
  moved : (s'.live = s.live ∧ (s'.tokens + next.elim 0 Pc.tokens).map Prod.fst =
      (s.tokens + p.tokens).map Prod.fst) ∨
    ∃ t, p = .finish t ∧ s'.live = s.live.erase t ∧ s'.tokens = s.tokens ∧ next = none
  holds : ∀ x ∈ s'.tokens + next.elim 0 Pc.tokens, x ∈ s.tokens ∨ x.2.Holds s' x.1
  knows : ∀ q ∈ next, q.Knows s'
  result : ∀ o, s'.result = some o → s'.outcome = some o
  returned : ∀ r ∈ s'.returned, r ∈ s.returned ∨ r.Right s'

/-- A step that leaves every task as it stands. -/
theorem StepOk.of_still (hout : s'.outcome = s.outcome) (hid : s'.nextId = s.nextId)
    (hlive : s'.live = s.live) (hjoin : s'.joining = s.joining) (hslot : s'.deliver = s.deliver)
    (htokens : s'.tokens + next.elim 0 Pc.tokens = s.tokens + p.tokens)
    (hholds : ∀ x ∈ p.tokens, x.2.Holds s x.1) (hknows : ∀ q ∈ next, q.Knows s')
    (hresult : ∀ o, s'.result = some o → s'.outcome = some o)
    (hreturned : ∀ r ∈ s'.returned, r ∈ s.returned ∨ r.Right s') : StepOk s s' p next where
  outcome := hout
  nextId := hid
  frame t _ := ⟨by rw [hjoin], by rw [hslot]⟩
  moved := .inl ⟨hlive, by rw [htokens]⟩
  holds := by
    intro x hx
    rw [htokens] at hx
    rcases Multiset.mem_add.mp hx with hx | hx
    · exact .inl hx
    · exact .inr ((hholds x hx).mono (by simp [hout]) (by rw [hjoin]) (by rw [hslot]))
  knows := hknows
  result := hresult
  returned := hreturned

/-- What holds of a thread before its step. -/
structure ThreadOk (s : Shared V) (p : Pc V) : Prop where
  live : ∀ t ∈ p.tokens.map Prod.fst, t ∈ s.live
  nodup : (p.tokens.map Prod.fst).Nodup
  holds : ∀ x ∈ p.tokens, x.2.Holds s x.1
  knows : p.Knows s
  result : ∀ o, s.result = some o → s.outcome = some o

theorem returned_append {r : Returned V} (hr : r.Right s') :
    ∀ r' ∈ s.returned ++ [r], r' ∈ s.returned ∨ r'.Right s' := by
  intro r' hr'
  rcases List.mem_append.mp hr' with hr' | hr'
  · exact .inl hr'
  · exact .inr (List.mem_singleton.mp hr' ▸ hr)

theorem takeResult_ok (n : ℕ) (hok : ThreadOk s p) (htokens : next.elim 0 Pc.tokens = p.tokens)
    (hknows : ∀ s, ∀ q ∈ next, q.Knows s) :
    StepOk s (takeResult { s with cvarWaiters := n }) p next := by
  rcases hres : s.result with _ | o <;> simp only [takeResult]
  · refine .of_still rfl rfl rfl rfl rfl ?_ hok.holds (hknows _) ?_ (returned_append trivial)
    · rw [htokens]
      rfl
    · simp [Shared.returns, Shared.release]
  · refine .of_still rfl rfl rfl rfl rfl ?_ hok.holds (hknows _) ?_
      (returned_append ⟨o, hok.result o hres, rfl⟩)
    · rw [htokens]
      rfl
    · simp [Shared.returns, Shared.release]

theorem publish_ok {o : Outcome V} (hok : ThreadOk s (.publish o)) :
    StepOk s (publish o s).1 (.publish o) (publish o s).2 := by
  have hresult : ∀ o', some o = some o' → s.outcome = some o' := by
    rintro _ ⟨⟩
    exact hok.knows
  simp only [publish]
  split_ifs with hlone hnone
  · exact .of_still rfl rfl rfl rfl rfl rfl hok.holds (by simp) hok.result fun r hr => .inl hr
  · refine .of_still rfl rfl rfl rfl rfl ?_ hok.holds (by simp) hresult fun r hr => .inl hr
    simp [Shared.tokens, hnone.1, Pc.tokens]
  · refine .of_still rfl rfl rfl rfl rfl ?_ hok.holds ?_ hresult fun r hr => .inl hr
    · simp [Shared.tokens, Pc.tokens, add_comm]
    · rintro q ⟨⟩
      exact hok.knows

theorem start_ok {a : Act} {t : TaskId} (hok : ThreadOk s (.slice t))
    (h : a.start (.slice t) s = some (s', next)) : StepOk s s' (.slice t) next := by
  rcases a with _ | _ | _ | _ | _ <;> simp only [Act.start] at h
  all_goals
    try split_ifs at h
    cases h
    exact .of_still rfl rfl rfl rfl rfl rfl hok.holds (by rintro q ⟨⟩; trivial) hok.result
      fun r hr => .inl hr

/-- A step that changes how one task stands. -/
theorem StepOk.of_change {t : TaskId} {st st' : Status} {R : Multiset (TaskId × Status)}
    (hok : ThreadOk s p) (hp : p.tokens = (t, st) ::ₘ R)
    (htokens : s'.tokens + next.elim 0 Pc.tokens = s.tokens + (t, st') ::ₘ R)
    (hout : s'.outcome = s.outcome) (hid : s'.nextId = s.nextId) (hlive : s'.live = s.live)
    (hframe : ∀ u, u ≠ t → s'.joining u = s.joining u ∧ s'.deliver u = s.deliver u)
    (hst : st'.Holds s' t) (hknows : ∀ q ∈ next, q.Knows s') (hresult : s'.result = s.result)
    (hreturned : ∀ r ∈ s'.returned, r ∈ s.returned ∨ r.Right s') : StepOk s s' p next where
  outcome := hout
  nextId := hid
  frame u hu := by
    refine hframe u ?_
    rintro rfl
    exact hu (by simp [hp])
  moved := .inl ⟨hlive, by rw [htokens, hp]; simp⟩
  holds := by
    intro x hx
    rw [htokens] at hx
    rcases Multiset.mem_add.mp hx with hx | hx
    · exact .inl hx
    · refine .inr ?_
      rcases Multiset.mem_cons.mp hx with rfl | hx
      · exact hst
      · have hne : x.1 ≠ t := by
          have hnodup := hok.nodup
          rw [hp, Multiset.map_cons, Multiset.nodup_cons] at hnodup
          exact fun heq => hnodup.1 (Multiset.mem_map.mpr ⟨x, hx, heq⟩)
        obtain ⟨hjoin, hslot⟩ := hframe x.1 hne
        exact (hok.holds x (by simp [hp, hx])).mono (by simp [hout]) hjoin hslot
  knows := hknows
  result := by
    rw [hresult, hout]
    exact hok.result
  returned := hreturned

theorem status_of_cons {t : TaskId} {st : Status} {R : Multiset (TaskId × Status)}
    (hok : ThreadOk s p) (hp : p.tokens = (t, st) ::ₘ R) : st.Holds s t :=
  hok.holds (t, st) (by simp [hp])

theorem takeDeliver_ok {t : TaskId} (hok : ThreadOk s (.takeDeliver t))
    (h : (Pc.takeDeliver t).step ch s = some (s', next)) : StepOk s s' (.takeDeliver t) next := by
  have hne : ∀ {α : Type} (f : TaskId → α) (a : α) (u : TaskId), u ≠ t →
      Function.update f t a u = f u := fun f a u hu => Function.update_of_ne hu ..
  rcases status_of_cons hok (R := 0) rfl with ⟨hjoin, hslot⟩ | ⟨-, o, hout, hslot⟩ <;>
    simp only [Pc.step, hslot] at h
  · simp only [Shared.goOn, hjoin, Bool.false_eq_true, if_false] at h
    cases h
    exact .of_change hok (R := 0) rfl rfl rfl rfl rfl (fun _ _ => ⟨rfl, rfl⟩)
      ⟨hjoin, hslot⟩ (by rintro q ⟨⟩; trivial) rfl fun r hr => .inl hr
  · cases h
    exact .of_change hok (R := 0) rfl rfl rfl rfl rfl
      (fun u hu => ⟨hne _ _ u hu, hne _ _ u hu⟩)
      ⟨Function.update_self .., Function.update_self ..⟩ (by rintro q ⟨⟩; trivial) rfl
      (returned_append ⟨o, hout, rfl⟩)

theorem step_ok (hok : ThreadOk s p) (h : p.step ch s = some (s', next)) : StepOk s s' p next := by
  have hsame : ∀ r ∈ s.returned, r ∈ s.returned ∨ r.Right s := fun r hr => .inl hr
  rcases p with j | c | c | t | t | ⟨t, w⟩ | t | t | o | ⟨o, _ | ⟨wid, ws⟩, targets⟩ |
    ⟨o, _ | ⟨wid, ws⟩⟩ | ⟨o, wid, ws⟩ | _ | _ | t | t | t | t | t | t | t
  case join =>
    rcases hres : s.result with _ | o
    · rcases j with t | c
      · simp only [Pc.step, hres] at h
        cases h
        have hidle := status_of_cons hok (R := 0) rfl
        exact .of_change hok (R := 0) rfl rfl rfl rfl rfl
          (fun u hu => ⟨Function.update_of_ne hu .., rfl⟩) ⟨Function.update_self .., hidle.2⟩
          (by rintro q ⟨⟩; trivial) hres.symm fun r hr => .inl hr
      · simp only [Pc.step, hres] at h
        split_ifs at h <;> cases h
        · exact takeResult_ok s.cvarWaiters hok (tokens_resume c) fun _ => knows_resume c
        · exact .of_still rfl rfl rfl rfl rfl rfl hok.holds (by rintro q ⟨⟩; trivial)
            (by simp) hsame
    · simp only [Pc.step, hres] at h
      cases h
      exact takeResult_ok s.cvarWaiters hok (tokens_resume_joiner j) fun _ => knows_resume_joiner j
  case asleep =>
    simp only [Pc.step] at h
    split_ifs at h <;> cases h
    · exact .of_still rfl rfl rfl rfl rfl rfl hok.holds (by rintro q ⟨⟩; trivial) hok.result hsame
    · exact takeResult_ok (s.cvarWaiters - 1) hok (tokens_resume c) fun _ => knows_resume c
  case tryJoin =>
    cases h
    refine .of_still rfl rfl rfl rfl rfl ?_ hok.holds (knows_resume c) hok.result
      (returned_append ?_)
    · rw [tokens_resume]
      rfl
    · rcases hres : s.result with _ | o
      · trivial
      · exact hok.result o hres
  case parkSpin =>
    have hres : ∀ o, s.result = some o → (Pc.parkResume t (outcomeToValue o)).Knows s :=
      fun o ho => ⟨o, hok.result o ho, rfl⟩
    simp only [Pc.step] at h
    split at h <;> cases h
    · exact .of_still rfl rfl rfl rfl rfl rfl hok.holds (by rintro q ⟨⟩; exact hres _ ‹_›)
        hok.result hsame
    all_goals
      exact .of_still rfl rfl rfl rfl rfl rfl hok.holds (by rintro q ⟨⟩; trivial) hok.result hsame
  case parkLock =>
    simp only [Pc.step] at h
    split at h <;> cases h
    · exact .of_still rfl rfl rfl rfl rfl rfl hok.holds
        (by rintro q ⟨⟩; exact ⟨_, hok.result _ ‹_›, rfl⟩) hok.result hsame
    · refine .of_still rfl rfl rfl rfl rfl ?_ hok.holds (by rintro q ⟨⟩; trivial) hok.result hsame
      simp [Shared.tokens, Pc.tokens, ← Multiset.coe_add]
      abel
  case parkResume =>
    cases h
    have hwaits := status_of_cons hok (R := 0) rfl
    exact .of_change hok (R := 0) rfl rfl rfl rfl rfl
      (fun u hu => ⟨Function.update_of_ne hu .., rfl⟩) ⟨Function.update_self .., hwaits.2⟩
      (by rintro q ⟨⟩; trivial) rfl (returned_append hok.knows)
  case parkEnqueue | requeue =>
    cases h
    have hidle := status_of_cons hok (R := 0) rfl
    refine .of_change (R := 0) hok rfl ?_ rfl rfl rfl (fun u hu => ⟨rfl, rfl⟩)
      (show Status.queued.Holds _ t from .inl hidle) (by simp) rfl hsame
    simp [Shared.tokens, Shared.enqueueTask, Shared.release, ← Multiset.singleton_add]
    abel
  case parkPutBack =>
    cases h
    exact .of_still rfl rfl rfl rfl rfl rfl hok.holds (by simp) hok.result hsame
  case publish =>
    have hpublish := publish_ok hok
    rw [Option.some.inj h] at hpublish
    exact hpublish
  case resolve.nil =>
    cases h
    exact .of_still rfl rfl rfl rfl rfl (by simp [Pc.tokens]) hok.holds
      (by rintro q ⟨⟩; exact hok.knows) hok.result hsame
  case resolve.cons =>
    have hwid : wid ∈ s.live := hok.live wid (by simp [Pc.tokens])
    simp only [Pc.step, hwid, if_true] at h
    cases h
    refine .of_still rfl rfl rfl rfl rfl ?_ hok.holds (by rintro q ⟨⟩; exact hok.knows) hok.result
      hsame
    simp [Pc.tokens, ← Multiset.coe_add, ← Multiset.cons_coe, ← Multiset.singleton_add]
    abel
  case wakes.nil =>
    cases h
    exact .of_still rfl rfl rfl rfl rfl rfl hok.holds (by rintro q ⟨⟩; trivial) hok.result hsame
  case wakes.cons =>
    cases h
    have hwaits := status_of_cons (R := (ws : Multiset TaskId).map (·, .waits)) hok rfl
    exact .of_change (R := (ws : Multiset TaskId).map (·, .waits)) hok rfl rfl rfl rfl rfl
      (fun u hu => ⟨rfl, Function.update_of_ne hu ..⟩)
      ⟨hwaits.1, o, hok.knows, Function.update_self ..⟩ (by rintro q ⟨⟩; exact hok.knows) rfl hsame
  case enqueue =>
    cases h
    have hwoken := status_of_cons (R := (ws : Multiset TaskId).map (·, .waits)) hok rfl
    refine .of_change (R := (ws : Multiset TaskId).map (·, .waits)) hok rfl ?_ rfl rfl rfl
      (fun u hu => ⟨rfl, rfl⟩) (show Status.queued.Holds _ wid from .inr hwoken)
      (by rintro q ⟨⟩; exact hok.knows) rfl hsame
    simp [Shared.tokens, Shared.enqueueTask, Pc.tokens, ← Multiset.singleton_add]
    abel
  case notify =>
    cases h
    exact .of_still rfl rfl rfl rfl rfl rfl hok.holds (by rintro q ⟨⟩; trivial) hok.result hsame
  case checkin =>
    simp only [Pc.step] at h
    split_ifs at h <;> cases h
    · exact .of_still rfl rfl rfl rfl rfl rfl hok.holds (by simp) (by simp) hsame
    · exact .of_still rfl rfl rfl rfl rfl rfl hok.holds (by simp) hok.result hsame
  case runSlice =>
    have ht : t ∈ s.live := hok.live t (by simp [Pc.tokens])
    simp only [Pc.step, ht, if_true] at h
    cases h
    exact .of_still rfl rfl rfl rfl rfl rfl hok.holds (by rintro q ⟨⟩; trivial) hok.result hsame
  case takeTask =>
    simp only [Pc.step] at h
    split_ifs at h <;> cases h
    · exact .of_still rfl rfl rfl rfl rfl rfl hok.holds (by rintro q ⟨⟩; trivial) hok.result hsame
    · refine .of_still rfl rfl rfl rfl rfl ?_ hok.holds (by simp) hok.result hsame
      simp [Shared.tokens, Shared.enqueueTask, Pc.tokens, ← Multiset.singleton_add]
      abel
  case takeDeliver => exact takeDeliver_ok hok h
  case slice =>
    rcases ch with _ | _ | a
    · cases h
    · cases h
    · exact start_ok hok h
  case yieldSlice =>
    cases h
    exact .of_still rfl rfl rfl rfl rfl rfl hok.holds (by rintro q ⟨⟩; trivial) hok.result hsame
  case finish =>
    cases h
    refine ⟨rfl, rfl, fun u hu => ?_, .inr ⟨t, rfl, rfl, rfl, rfl⟩, fun x hx => .inl ?_, by simp,
      hok.result, hsame⟩
    · have hne : u ≠ t := by simpa [Pc.tokens] using hu
      exact ⟨rfl, Function.update_of_ne hne ..⟩
    · rcases Multiset.mem_add.mp hx with hx | hx
      · exact hx
      · exact absurd hx (Multiset.notMem_zero x)

/-! ### Every run -/

/-- What holds in every state: each task is in one place and stands as it should there, and what
is stored, known and returned is the outcome. -/
structure JoinInv (P : System V) : Prop where
  nodup : ((P.shared.tokens + total Pc.tokens P.threads).map Prod.fst).Nodup
  live : ∀ t ∈ (P.shared.tokens + total Pc.tokens P.threads).map Prod.fst, t ∈ P.shared.live
  fresh : ∀ t ∈ P.shared.live, t < P.shared.nextId
  unborn : ∀ t, P.shared.nextId ≤ t → P.shared.Idle t
  holds : ∀ x ∈ P.shared.tokens + total Pc.tokens P.threads, x.2.Holds P.shared x.1
  knows : ∀ p ∈ P.threads, p.Knows P.shared
  result : ∀ o, P.shared.result = some o → P.shared.outcome = some o
  returned : ∀ r ∈ P.shared.returned, r.Right P.shared

theorem joinInv_new : JoinInv (System.new : System V) where
  nodup := by simp [System.new, Shared.new, Shared.tokens]
  live := by simp [System.new, Shared.new, Shared.tokens]
  fresh := by simp [System.new, Shared.new]
  unborn := by simp [System.new, Shared.new, Shared.Idle]
  holds := by simp [System.new, Shared.new, Shared.tokens]
  knows := by simp [System.new]
  result := by simp [System.new, Shared.new]
  returned := by simp [System.new, Shared.new]

theorem JoinInv.threadOk (hinv : JoinInv ⟨s, p ::ₘ rest⟩) : ThreadOk s p where
  live t ht := hinv.live t (by
    rw [total_cons, Multiset.map_add, Multiset.map_add]
    simp only [Multiset.mem_add]
    exact .inr (.inl ht))
  nodup := by
    have hnodup := hinv.nodup
    rw [total_cons, Multiset.map_add, Multiset.map_add] at hnodup
    exact (Multiset.nodup_add.mp (Multiset.nodup_add.mp hnodup).2.1).1
  holds x hx := hinv.holds x (by
    rw [total_cons]
    exact Multiset.mem_add.mpr (.inr (Multiset.mem_add.mpr (.inl hx))))
  knows := hinv.knows p (by simp)
  result := hinv.result

/-- A move of a thread keeps the invariant: the tasks of the others are not the tasks of the
thread, and stand as before. -/
theorem joinInv_move (hinv : JoinInv ⟨s, p ::ₘ rest⟩) (h : p.step ch s = some (s', next)) :
    JoinInv ⟨s', with? next rest⟩ := by
  have hstep := step_ok hinv.threadOk h
  have hout : ∀ o, s.outcome = some o → s'.outcome = some o := by simp [hstep.outcome]
  have hbefore : s.tokens + total Pc.tokens (p ::ₘ rest) =
      (s.tokens + p.tokens) + total Pc.tokens rest := by
    rw [total_cons, add_assoc]
  have hafter : s'.tokens + total Pc.tokens (with? next rest) =
      (s'.tokens + next.elim 0 Pc.tokens) + total Pc.tokens rest := by
    rw [total_with?, add_assoc]
  have hnodup := hinv.nodup
  have hlive := hinv.live
  have hholds := hinv.holds
  simp only [hbefore, Multiset.map_add] at hnodup hlive hholds
  -- what is not with the thread is not among its tasks
  have hother : ∀ x, x ∈ s.tokens ∨ x ∈ total Pc.tokens rest →
      x.1 ∉ p.tokens.map Prod.fst := by
    intro x hx hmem
    obtain ⟨hleft, -, hdisj⟩ := Multiset.nodup_add.mp hnodup
    obtain ⟨-, -, hdisj'⟩ := Multiset.nodup_add.mp hleft
    rcases hx with hx | hx
    · exact Multiset.disjoint_left.mp hdisj' (Multiset.mem_map_of_mem _ hx) hmem
    · exact Multiset.disjoint_left.mp hdisj (Multiset.mem_add.mpr (.inr hmem))
        (Multiset.mem_map_of_mem _ hx)
  have hstill : ∀ x, x ∈ s.tokens ∨ x ∈ total Pc.tokens rest → x.2.Holds s' x.1 := by
    intro x hx
    obtain ⟨hjoin, hslot⟩ := hstep.frame x.1 (hother x hx)
    refine (hholds x ?_).mono hout hjoin hslot
    rcases hx with hx | hx
    · exact Multiset.mem_add.mpr (.inl (Multiset.mem_add.mpr (.inl hx)))
    · exact Multiset.mem_add.mpr (.inr hx)
  -- the tasks after the step are tasks from before it, and those are still alive
  have hmoved : ((s'.tokens + next.elim 0 Pc.tokens).map Prod.fst +
        (total Pc.tokens rest).map Prod.fst).Nodup ∧
      ∀ t ∈ (s'.tokens + next.elim 0 Pc.tokens).map Prod.fst +
        (total Pc.tokens rest).map Prod.fst, t ∈ s'.live := by
    rcases hstep.moved with ⟨hl, hm⟩ | ⟨t, rfl, hl, hs, rfl⟩
    · rw [hm, hl, Multiset.map_add]
      exact ⟨hnodup, hlive⟩
    · simp only [hs, hl, Option.elim_none, add_zero]
      have hle : s.tokens.map Prod.fst + (total Pc.tokens rest).map Prod.fst ≤
          s.tokens.map Prod.fst + (Pc.finish t : Pc V).tokens.map Prod.fst +
            (total Pc.tokens rest).map Prod.fst := by
        gcongr
        exact Multiset.le_add_right ..
      refine ⟨Multiset.nodup_of_le hle hnodup, fun u hu => Finset.mem_erase.mpr ⟨?_, ?_⟩⟩
      · rintro rfl
        rw [← Multiset.map_add] at hu
        obtain ⟨x, hx, hxu⟩ := Multiset.mem_map.mp hu
        exact hother x (Multiset.mem_add.mp hx) (by simp [hxu, Pc.tokens])
      · exact hlive u (Multiset.mem_of_le hle hu)
  constructor
  · change ((s'.tokens + total Pc.tokens (with? next rest)).map Prod.fst).Nodup
    rw [hafter, Multiset.map_add]
    exact hmoved.1
  · change ∀ t ∈ (s'.tokens + total Pc.tokens (with? next rest)).map Prod.fst, t ∈ s'.live
    rw [hafter, Multiset.map_add]
    exact hmoved.2
  · intro t ht
    change t < s'.nextId
    rw [hstep.nextId]
    refine hinv.fresh t ?_
    rcases hstep.moved with ⟨hl, -⟩ | ⟨u, -, hl, -, -⟩
    · exact hl ▸ ht
    · exact Finset.mem_of_mem_erase (hl ▸ ht)
  · intro t ht
    have hle : s.nextId ≤ t := hstep.nextId ▸ ht
    have hnot : t ∉ p.tokens.map Prod.fst := fun hmem =>
      absurd (hinv.fresh t (hinv.threadOk.live t hmem)) (Nat.not_lt.mpr hle)
    obtain ⟨hjoin, hslot⟩ := hstep.frame t hnot
    exact ⟨hjoin.trans (hinv.unborn t hle).1, hslot.trans (hinv.unborn t hle).2⟩
  · change ∀ x ∈ s'.tokens + total Pc.tokens (with? next rest), x.2.Holds s' x.1
    rw [hafter]
    intro x hx
    rcases Multiset.mem_add.mp hx with hx | hx
    · rcases hstep.holds x hx with hx | hx
      · exact hstill x (.inl hx)
      · exact hx
    · exact hstill x (.inr hx)
  · intro q hq
    rcases mem_with?.mp hq with hq | hq
    · exact hstep.knows q hq
    · exact (hinv.knows q (by simp [hq])).mono hout
  · exact hstep.result
  · intro r hr
    rcases hstep.returned r hr with hr | hr
    · exact (hinv.returned r hr).mono hout
    · exact hr

/-- What happens from outside keeps the invariant when no task moves. -/
theorem JoinInv.of_still (hinv : JoinInv ⟨s, threads⟩)
    (hout : ∀ o, s.outcome = some o → s'.outcome = some o) (hlive : s'.live = s.live)
    (hid : s'.nextId = s.nextId) (hjoin : s'.joining = s.joining) (hslot : s'.deliver = s.deliver)
    (htokens : s'.tokens + next.elim 0 Pc.tokens = s.tokens) (hresult : s'.result = s.result)
    (hreturned : s'.returned = s.returned) (hknows : ∀ q ∈ next, q.Knows s') :
    JoinInv ⟨s', with? next threads⟩ := by
  have hall : s'.tokens + total Pc.tokens (with? next threads) =
      s.tokens + total Pc.tokens threads := by
    rw [total_with?, ← add_assoc, htokens]
  constructor
  · exact hall ▸ hinv.nodup
  · exact hall ▸ hlive ▸ hinv.live
  · exact hlive ▸ hid ▸ hinv.fresh
  · intro t ht
    have hidle := hinv.unborn t (hid ▸ ht)
    exact ⟨by rw [hjoin]; exact hidle.1, by rw [hslot]; exact hidle.2⟩
  · intro x hx
    refine (hinv.holds x (hall ▸ hx)).mono hout ?_ ?_
    · rw [hjoin]
    · rw [hslot]
  · intro q hq
    rcases mem_with?.mp hq with hq | hq
    · exact hknows q hq
    · exact (hinv.knows q hq).mono hout
  · exact fun o ho => hout o (hinv.result o (hresult ▸ ho))
  · exact fun r hr => (hinv.returned r (hreturned ▸ hr)).mono hout

/-- A new task is in the queue, with a number of its own. -/
theorem joinInv_spawn (hinv : JoinInv ⟨s, threads⟩) :
    JoinInv ⟨{ s with live := insert s.nextId s.live, nextId := s.nextId + 1 }.store
      s.nextId |>.enqueueTask s.nextId, threads⟩ := by
  have hnew : s.nextId ∉ (s.tokens + total Pc.tokens threads).map Prod.fst := fun hmem =>
    absurd (hinv.fresh _ (hinv.live _ hmem)) (lt_irrefl _)
  have hall : ∀ s', s' = ({ s with live := insert s.nextId s.live, nextId := s.nextId + 1 }.store
      s.nextId |>.enqueueTask s.nextId) →
      s'.tokens + total Pc.tokens threads =
        (s.nextId, .queued) ::ₘ (s.tokens + total Pc.tokens threads) := by
    rintro _ rfl
    simp [Shared.tokens, Shared.enqueueTask, Shared.store, ← Multiset.singleton_add]
    abel
  have hall := hall _ rfl
  constructor
  · rw [hall, Multiset.map_cons]
    exact Multiset.nodup_cons.mpr ⟨hnew, hinv.nodup⟩
  · rw [hall, Multiset.map_cons]
    intro t ht
    rcases Multiset.mem_cons.mp ht with rfl | ht
    · exact Finset.mem_insert_self ..
    · exact Finset.mem_insert_of_mem (hinv.live t ht)
  · intro t ht
    rcases Finset.mem_insert.mp ht with rfl | ht
    · exact Nat.lt_succ_self _
    · exact Nat.lt_succ_of_lt (hinv.fresh t ht)
  · exact fun t ht => hinv.unborn t (Nat.le_of_succ_le ht)
  · rw [hall]
    intro x hx
    rcases Multiset.mem_cons.mp hx with rfl | hx
    · exact .inl (hinv.unborn _ le_rfl)
    · exact (hinv.holds x hx).mono (fun _ => id) rfl rfl
  · exact fun q hq => (hinv.knows q hq).mono fun _ => id
  · exact hinv.result
  · exact fun r hr => (hinv.returned r hr).mono fun _ => id

theorem joinInv_outside (hinv : JoinInv ⟨s, threads⟩) (h : Outside s s' next) :
    JoinInv ⟨s', with? next threads⟩ := by
  rcases h with ⟨a, h⟩ | h | h | _ | @⟨t, ready, h⟩ | ⟨o, h⟩
  · rcases a with _ | _ | _ | _ | _ <;> simp only [Act.start] at h
    case yieldNow | finish => cases h
    all_goals
      split_ifs at h
      cases h
      exact hinv.of_still (fun _ => id) rfl rfl rfl rfl (add_zero s.tokens) rfl rfl
        (by rintro q ⟨⟩; trivial)
  · exact hinv.of_still (fun _ => id) rfl rfl rfl rfl (add_zero s.tokens) rfl rfl (by simp)
  · exact hinv.of_still (fun _ => id) rfl rfl rfl rfl (add_zero s.tokens) rfl rfl (by simp)
  · exact joinInv_spawn hinv
  · refine hinv.of_still (fun _ => id) rfl rfl rfl rfl ?_ rfl rfl (by rintro q ⟨⟩; trivial)
    simp [Shared.tokens, Pc.tokens, h, ← Multiset.singleton_add]
    abel
  · exact hinv.of_still (by simp [h]) rfl rfl rfl rfl (add_zero s.tokens) rfl rfl
      (by rintro q ⟨⟩; rfl)

theorem System.Reachable.joinInv {P : System V} (hreach : P.Reachable) : JoinInv P := by
  induction hreach with
  | refl => exact joinInv_new
  | tail _ hstep ih =>
    rcases hstep with ⟨ch, h⟩ | h
    · exact joinInv_move ih h
    · exact joinInv_outside ih h

/-! ### Late joiners -/

/-- A green task registers with a handle that is already marked and whose outcome is gone. -/
def Pc.joinsLate (s : Shared V) : Pc V → Bool
  | .parkLock _ => s.result.isNone && s.completed
  | _ => false

/-- A step in which a thread moves only where the test allows it. -/
inductive StepIf (ok : Pc V → Shared V → Bool) : System V → System V → Prop
  | move {p : Pc V} {s s' : Shared V} {next : Option (Pc V)} {rest : Multiset (Pc V)}
      (h : Moves p s s' next) (hok : ok p s = true) :
      StepIf ok ⟨s, p ::ₘ rest⟩ ⟨s', with? next rest⟩
  | outside {s s' : Shared V} {next : Option (Pc V)} {threads : Multiset (Pc V)}
      (h : Outside s s' next) : StepIf ok ⟨s, threads⟩ ⟨s', with? next threads⟩

theorem StepIf.step {ok : Pc V → Shared V → Bool} {P P' : System V} (h : StepIf ok P P') :
    System.Step P P' := by
  rcases h with ⟨h, -⟩ | h
  · exact Step.move h
  · exact Step.outside h

/-- The states of the runs in which no green task registers late. -/
def System.CarefullyReachable (P : System V) : Prop :=
  Relation.ReflTransGen (StepIf fun p s => !p.joinsLate s) System.new P

/-- A marked handle has nobody registered. -/
def Shared.Cleared (s : Shared V) : Prop :=
  s.completed = true → s.greenWaiters = []

theorem cleared_of_eq (hs : s.Cleared) (hcompleted : s'.completed = s.completed)
    (hwaiters : s'.greenWaiters = s.greenWaiters) : s'.Cleared := by
  rw [Shared.Cleared, hcompleted, hwaiters]
  exact hs

theorem cleared_takeResult (hs : s.Cleared) (n : ℕ) :
    (takeResult { s with cvarWaiters := n }).Cleared := by
  rcases hres : s.result with _ | o <;> simp only [takeResult] <;> exact cleared_of_eq hs rfl rfl

theorem cleared_start {a : Act} {c : Caller} (hs : s.Cleared)
    (h : a.start c s = some (s', next)) : s'.Cleared := by
  rcases a with _ | _ | _ | _ | _ <;> rcases c with _ | t <;> simp only [Act.start] at h
  all_goals
    try split_ifs at h
    cases h
    try exact cleared_of_eq hs rfl rfl

theorem cleared_step (hs : s.Cleared) (hcare : p.joinsLate s = false)
    (h : p.step ch s = some (s', next)) : s'.Cleared := by
  rcases p with j | c | c | t | t | ⟨t, w⟩ | t | t | o | ⟨o, _ | ⟨wid, ws⟩, targets⟩ |
    ⟨o, _ | ⟨wid, ws⟩⟩ | ⟨o, wid, ws⟩ | _ | _ | t | t | t | t | t | t | t
  case join =>
    rcases hres : s.result with _ | o
    · rcases j with t | c <;> simp only [Pc.step, hres] at h
      · cases h
        exact cleared_of_eq hs rfl rfl
      · split_ifs at h <;> cases h
        · exact cleared_takeResult hs s.cvarWaiters
        · exact cleared_of_eq hs rfl rfl
    · simp only [Pc.step, hres] at h
      cases h
      exact cleared_takeResult hs s.cvarWaiters
  case asleep =>
    simp only [Pc.step] at h
    split_ifs at h <;> cases h
    · exact hs
    · exact cleared_takeResult hs (s.cvarWaiters - 1)
  case parkSpin =>
    simp only [Pc.step] at h
    split at h <;> cases h <;> exact hs
  -- the only step that registers a task, and it does so only before the handle is marked
  case parkLock =>
    simp only [Pc.step] at h
    split at h <;> cases h
    · exact hs
    · rename_i hres
      have hopen : s.completed = false := by simpa [Pc.joinsLate, hres] using hcare
      intro hcompleted
      exact absurd (hopen.symm.trans hcompleted) (by simp)
  case publish =>
    simp only [Pc.step, Join.publish] at h
    split_ifs at h <;> cases h
    · exact hs
    · exact fun _ => rfl
    · exact fun _ => rfl
  case checkin =>
    simp only [Pc.step] at h
    split_ifs at h <;> cases h
    · exact fun hcompleted => absurd hcompleted (by simp)
    · exact hs
  case takeTask =>
    simp only [Pc.step] at h
    split_ifs at h <;> cases h <;> exact cleared_of_eq hs rfl rfl
  case takeDeliver =>
    simp only [Pc.step, Shared.goOn] at h
    split at h
    · cases h
      exact cleared_of_eq hs rfl rfl
    · split_ifs at h <;> cases h <;> exact cleared_of_eq hs rfl rfl
  case slice =>
    rcases ch with _ | _ | a
    · cases h
    · cases h
    · exact cleared_start (c := .slice t) (a := a) hs h
  all_goals
    cases h
    exact cleared_of_eq hs rfl rfl

theorem cleared_outside (hs : s.Cleared) (h : Outside s s' next) : s'.Cleared := by
  rcases h with ⟨a, h⟩ | h | h | _ | h | h
  · exact cleared_start hs h
  all_goals exact cleared_of_eq hs rfl rfl

theorem System.CarefullyReachable.reachable {P : System V} (h : P.CarefullyReachable) :
    P.Reachable :=
  Relation.ReflTransGen.mono (fun _ _ hs => StepIf.step hs) _ _ h

theorem System.CarefullyReachable.cleared {P : System V} (hreach : P.CarefullyReachable) :
    P.shared.Cleared := by
  induction hreach with
  | refl => exact fun _ => rfl
  | tail _ hstep ih =>
    rcases hstep with ⟨⟨ch, h⟩, hcare⟩ | h
    · exact cleared_step ih (by simpa using hcare) h
    · exact cleared_outside ih h

/-- **Joining.** Every call returned the outcome of the task or the report that it was taken, and
a joiner on its way back has the outcome in its slot. In a run in which no green task registers
late, no task is registered with a handle that is marked. -/
theorem join_sound (P : System V) :
    (P.Reachable → (∀ r ∈ P.shared.returned, r.Right P.shared) ∧
      ∀ t ∈ P.shared.ready, P.shared.joining t = true →
        ∃ o, P.shared.outcome = some o ∧ P.shared.deliver t = some (outcomeToValue o)) ∧
    (P.CarefullyReachable → P.shared.completed = true → P.shared.greenWaiters = []) := by
  refine ⟨fun hreach => ⟨hreach.joinInv.returned, fun t ht hjoining => ?_⟩,
    fun hreach => hreach.cleared⟩
  have hqueued : (t, Status.queued) ∈ P.shared.tokens + total Pc.tokens P.threads := by
    simp [Shared.tokens, ht]
  rcases hreach.joinInv.holds _ hqueued with ⟨hnot, -⟩ | ⟨-, hwoken⟩
  · exact absurd (hnot.symm.trans hjoining) (by simp)
  · exact hwoken

/-! ### Two runs -/

/-- One entry of a run with one thread at a time. -/
inductive Turn (V : Type)
  | complete (o : Outcome V)
  | spawn
  | pop (t : TaskId)
  | go (ch : Choice)

/-- What an entry leads to. -/
def Turn.apply (ok : Pc V → Shared V → Bool) (s : Shared V) :
    Turn V → Option (Pc V) → Option (Shared V × Option (Pc V))
  | .complete o, none =>
    match s.outcome with
    | none => some ({ s with outcome := some o }, some (.publish o))
    | some _ => none
  | .spawn, none =>
    some ({ s with live := insert s.nextId s.live, nextId := s.nextId + 1 }.store
      s.nextId |>.enqueueTask s.nextId, none)
  | .pop t, none =>
    if t ∈ s.ready then some ({ s with ready := s.ready.erase t }, some (.runSlice t)) else none
  | .go ch, some p => if ok p s then p.step ch s else none
  | _, _ => none

/-- The state a run leads to. -/
def runTurns (ok : Pc V → Shared V → Bool) :
    List (Turn V) → Shared V → Option (Pc V) → Option (Shared V × Option (Pc V))
  | [], s, next => some (s, next)
  | e :: es, s, next => (e.apply ok s next).bind fun r => runTurns ok es r.1 r.2

theorem Turn.apply_step {ok : Pc V → Shared V → Bool} {e : Turn V} {next' : Option (Pc V)}
    (h : e.apply ok s next = some (s', next')) :
    StepIf ok ⟨s, with? next 0⟩ ⟨s', with? next' 0⟩ := by
  rcases e with o | _ | t | ch <;> rcases next with _ | p <;> simp only [Turn.apply] at h
  case complete.none =>
    split at h <;> cases h
    exact .outside (.complete s o ‹_›)
  case spawn.none =>
    cases h
    exact StepIf.outside (.spawn s)
  case pop.none =>
    split_ifs at h with hmem
    cases h
    exact .outside (.pop (Multiset.cons_erase hmem).symm)
  case go.some =>
    split_ifs at h with hok
    have hmove : StepIf ok ⟨s, p ::ₘ 0⟩ ⟨s', with? next' 0⟩ := .move ⟨ch, h⟩ hok
    exact hmove
  all_goals cases h

theorem exists_run (ok : Pc V → Shared V → Bool) (es : List (Turn V)) (test : Shared V → Bool)
    (h : (runTurns ok es .new none).any (fun r => test r.1 && r.2.isNone) = true) :
    ∃ s, Relation.ReflTransGen (StepIf ok) System.new ⟨s, 0⟩ ∧ test s = true := by
  have hrun : ∀ (es : List (Turn V)) (s s' : Shared V) (next next' : Option (Pc V)),
      runTurns ok es s next = some (s', next') →
        Relation.ReflTransGen (StepIf ok) ⟨s, with? next 0⟩ ⟨s', with? next' 0⟩ := by
    intro es
    induction es with
    | nil =>
      rintro s s' next next' ⟨⟩
      exact .refl
    | cons e es ih =>
      intro s s' next next' hes
      obtain ⟨⟨s₁, next₁⟩, hstep, hrest⟩ := Option.bind_eq_some_iff.mp hes
      exact .head (Turn.apply_step hstep) (ih s₁ s' next₁ next' hrest)
  rcases hend : runTurns ok es (.new : Shared V) none with _ | ⟨s, _ | p⟩
  · simp [hend] at h
  · exact ⟨s, hrun es _ _ _ _ hend, by simpa [hend] using h⟩
  · simp [hend] at h

/-- The task ends while another one waits for it, and wakes it. -/
theorem joiner_woken :
    ∃ P : System ℕ, P.CarefullyReachable ∧ P.shared.completed = true ∧ 1 ∈ P.shared.ready ∧
      P.shared.joining 1 = true ∧ P.shared.greenWaiters = [] ∧
      ∃ o, P.shared.outcome = some o ∧ P.shared.deliver 1 = some (outcomeToValue o) := by
  obtain ⟨s, hreach, htest⟩ := exists_run (V := ℕ) (fun p s => !p.joinsLate s)
    (List.append [.spawn, .pop 1, .go .go, .go .go, .go .go, .go (.act .join), .go .go, .go .fail,
      .go .go, .go .go, .complete (.ok 7)] (List.replicate 8 (.go .go)))
    (fun s => s.completed && s.joining 1 && decide (1 ∈ s.ready)) (by decide +kernel)
  simp only [Bool.and_eq_true, decide_eq_true_eq] at htest
  obtain ⟨⟨hcompleted, hjoining⟩, hready⟩ := htest
  have hcareful : System.CarefullyReachable (V := ℕ) ⟨s, 0⟩ := hreach
  have hsound := join_sound (V := ℕ) ⟨s, 0⟩
  exact ⟨_, hcareful, hcompleted, hready, hjoining, hsound.2 hcareful hcompleted,
    (hsound.1 hcareful.reachable).2 1 hready hjoining⟩

/-- The task ends, a first joiner takes the outcome and a second one, who comes later, waits
with nothing going on that could wake it. -/
theorem late_joiner_waits :
    ∃ P : System ℕ, P.Reachable ∧ P.shared.completed = true ∧ P.threads = 0 ∧
      P.shared.ready = 0 ∧ P.shared.greenWaiters = [2] := by
  obtain ⟨s, hreach, htest⟩ := exists_run (V := ℕ) (fun _ _ => true)
    [.complete (.ok 7), .go .go,
      .spawn, .pop 1, .go .go, .go .go, .go .go, .go (.act .join), .go .go, .go (.act .finish),
      .go .go,
      .spawn, .pop 2, .go .go, .go .go, .go .go, .go (.act .join), .go .go, .go .fail, .go .go,
      .go .go]
    (fun s => s.completed && decide (s.ready = 0 ∧ s.greenWaiters = [2])) (by decide)
  simp only [Bool.and_eq_true, decide_eq_true_eq] at htest
  obtain ⟨hcompleted, hready, hwaiters⟩ := htest
  exact ⟨⟨s, 0⟩, Relation.ReflTransGen.mono (fun _ _ hs => StepIf.step hs) _ _ hreach, hcompleted,
    rfl, hready, hwaiters⟩

end ZzLang.Conc.Join
