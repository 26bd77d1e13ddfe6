import ZzLang.Library.MpmcRing
import ZzLang.Library.ThreadPool
import Mathlib.Data.Finset.Basic

/-!
# Channels and the tasks that wait on them

A channel has two tiers: a lock-free ring, and a queue behind a mutex for the values that do
not fit. A receiver that finds both empty waits: a green task is suspended and registered with
the channel, every other receiver sleeps on a condition variable. A sender first publishes its
value, then takes the list of registered tasks and, for each of them, pops a value, leaves it
in the task's deliver slot and makes the task ready.

The model has one channel and any number of threads and tasks. A thread is where it stands in
the code (`Pc`), and `Pc.step` is its next step. A step is one access to an atomic, or a
stretch of code under one lock without such accesses; the accesses to the ring are steps of
their own also where the mutex of the channel is held. Where the code leaves something open, a
weak exchange that may fail, how long to spin, what a task does next, the step takes a
`Choice`.

What an executor thread does with a task is part of the model as far as values and wakeups are
concerned: taking it out of its registry entry, handing it the delivered value, running it,
parking it and putting it back, and reaping it at the end. The operations a task performs are
run by the thread that runs its slice (`Caller.slice`), and the slice goes on when they return.

`sent` and `received` record, in order, the values that `chan.send` was called with and those
that receivers were given.
-/

namespace ZzLang.Conc

open MpmcRing ThreadPool

/-- A green task. -/
abbrev TaskId := ℕ

/-- The number of cells of the ring. -/
def ringCap : ℕ := 1024

theorem two_le_ringCap : 2 ≤ ringCap := by decide

-- the size is never computed with
attribute [irreducible] ringCap

/-! ### Where a thread stands -/

/-- Who runs an operation: a thread of its own, or the slice of a task. -/
inductive Caller
  | thread
  | slice (t : TaskId)
  deriving DecidableEq

/-- How a `chan.recv` waits: a green task is suspended, other receivers block their thread. -/
inductive Receiver
  | green (t : TaskId)
  | blocking (c : Caller)
  deriving DecidableEq

/-- The lock-free pops that need the channel to be free of waiters and spilled values: the fast
path of `chan.recv`, its spin before sleeping, and the spin of `park_chan`. -/
inductive Gate
  | fast (r : Receiver)
  | spin (c : Caller)
  | parkSpin (t : TaskId)
  deriving DecidableEq

/-- The three checks of a gate. -/
inductive Flag
  | greenParked
  | cvarWaiters
  | spill
  deriving DecidableEq

/-- Where `try_dequeue` is called from. -/
inductive Site
  | gated (g : Gate)
  | slow (r : Receiver)
  | tryRecv (c : Caller)
  | wake (c : Caller) (wid : TaskId) (ws : List TaskId)
  | park (t : TaskId)
  deriving DecidableEq

/-- The steps of one attempt of `try_enqueue`. -/
inductive EnqStage
  | load
  | seq (pos : ℕ)
  | cas (pos : ℕ)
  | publish (pos : ℕ)
  deriving DecidableEq

/-- The steps of one attempt of `try_dequeue`. -/
inductive DeqStage (V : Type)
  | load
  | seq (pos : ℕ)
  | cas (pos : ℕ)
  | release (pos : ℕ) (value : Option V)

/-- Where a thread stands. -/
inductive Pc (V : Type)
  /-- In `try_enqueue`, with so many attempts left. -/
  | enq (c : Caller) (v : V) (tries : ℕ) (stage : EnqStage)
  /-- `chan_send` with a full ring. -/
  | spill (c : Caller) (v : V)
  /-- `service_chan_waiters` after an enqueue. -/
  | service (c : Caller)
  /-- The loop over the waiters taken from the channel. -/
  | wakes (c : Caller) (ws : List TaskId)
  /-- `wake_chan_waiter` with what it popped. -/
  | woken (c : Caller) (wid : TaskId) (ws : List TaskId) (value : Option V)
  | deliver (c : Caller) (wid : TaskId) (ws : List TaskId) (v : V)
  | enqueue (c : Caller) (wid : TaskId) (ws : List TaskId)
  | repark (c : Caller) (wid : TaskId) (ws : List TaskId)
  | notify (c : Caller)
  /-- A check before a lock-free pop. -/
  | gate (g : Gate) (flag : Flag)
  /-- In `try_dequeue`, with so many attempts left. -/
  | deq (site : Site) (tries : ℕ) (stage : DeqStage V)
  /-- `try_dequeue` has returned. -/
  | got (site : Site) (value : Option V)
  | recvLock (r : Receiver)
  /-- The receive loop with the lock held. -/
  | recvLoop (c : Caller)
  | spinAgain (c : Caller)
  | sleepAnnounce (c : Caller)
  | sleepTail (c : Caller)
  | sleepHead (c : Caller) (tail : ℕ)
  | asleep (c : Caller)
  | sleepDone (c : Caller)
  | tryRecv (c : Caller)
  | parkAgain (t : TaskId)
  | parkLock (t : TaskId)
  /-- Registered, with the lock held. -/
  | parkCheck (t : TaskId)
  | parkResume (t : TaskId) (v : V)
  | parkEnqueue (t : TaskId)
  | parkPutBack (t : TaskId)
  | runSlice (t : TaskId)
  | takeTask (t : TaskId)
  | takeDeliver (t : TaskId)
  /-- The task runs. -/
  | slice (t : TaskId)
  | yieldSlice (t : TaskId)
  | complete (t : TaskId)

/-- What a thread or a task may do next. -/
inductive Act (V : Type)
  | send (v : V)
  | recv
  /-- `chan.recv` below an interpreter frame, where a task cannot be suspended. -/
  | recvNested
  | tryRecv
  /-- The timeslice is over. -/
  | yieldNow
  | finish

/-- What the code leaves open. -/
inductive Choice (V : Type)
  | go
  | fail
  | act (a : Act V)

/-! ### The shared state -/

/-- The channel, the registry and queue of the executor, and the record of values. -/
structure Shared (V : Type) where
  ring : Buffer V
  spill : ℕ
  greenParked : Bool
  cvarWaiters : ℕ
  /-- The mutex of the channel is held. -/
  locked : Bool
  queue : List V
  greenWaiters : List TaskId
  /-- The tasks with a registry entry. -/
  live : Finset TaskId
  /-- The entry holds the task. -/
  stored : TaskId → Bool
  deliver : TaskId → Option V
  /-- The ids in the executor's queues. -/
  ready : Multiset TaskId
  nextId : TaskId
  sent : List V
  received : List V

namespace Shared

variable {V : Type}

/-- A fresh channel and no tasks. -/
def new : Shared V where
  ring := .new
  spill := 0
  greenParked := false
  cvarWaiters := 0
  locked := false
  queue := []
  greenWaiters := []
  live := ∅
  stored := fun _ => false
  deliver := fun _ => none
  ready := 0
  nextId := 1
  sent := []
  received := []

/-- Take the mutex. -/
def lock (s : Shared V) : Shared V :=
  { s with locked := true }

/-- Give the mutex back. -/
def unlock (s : Shared V) : Shared V :=
  { s with locked := false }

/-- Leave the rest of the spill queue. -/
def popSpill (s : Shared V) (queue : List V) : Shared V :=
  { s with queue, spill := s.spill - 1 }

/-- A receiver is given a value. -/
def receive (s : Shared V) (v : V) : Shared V :=
  { s with received := s.received ++ [v] }

/-- `unpark_chan_waiter`. -/
def unpark (s : Shared V) (t : TaskId) : Shared V :=
  let greenWaiters := s.greenWaiters.filter (· ≠ t)
  { s with
    greenWaiters
    greenParked := if greenWaiters.isEmpty then false else s.greenParked }

/-- Register a waiter. -/
def register (s : Shared V) (t : TaskId) : Shared V :=
  { s with greenWaiters := s.greenWaiters ++ [t], greenParked := true }

/-- Take the list of waiters: the head of `service_chan_waiters`. -/
def takeWaiters (s : Shared V) : Shared V :=
  { s with greenWaiters := [], greenParked := false }

/-- Put an id into a queue of the executor. -/
def enqueueTask (s : Shared V) (t : TaskId) : Shared V :=
  { s with ready := t ::ₘ s.ready }

/-- Put the task back into its entry. -/
def store (s : Shared V) (t : TaskId) : Shared V :=
  { s with stored := Function.update s.stored t true }

end Shared

variable {V : Type}

/-! ### What follows an operation -/

/-- The operation has returned. -/
def Caller.resume : Caller → Option (Pc V)
  | thread => none
  | slice t => some (.slice t)

def Receiver.resume : Receiver → Option (Pc V)
  | green t => some (.slice t)
  | blocking c => c.resume

/-- The gate is closed, or the pop behind it found nothing. -/
def Gate.refused : Gate → Pc V
  | fast r => .recvLock r
  | spin c => .spinAgain c
  | parkSpin t => .parkAgain t

/-- What happens with the result of `try_dequeue`. -/
def Site.after (site : Site) (value : Option V) (s : Shared V) : Shared V × Option (Pc V) :=
  match site, value with
  | .gated (.fast r), some v => (s.receive v, r.resume)
  | .gated (.spin c), some v => ((s.receive v).unlock, c.resume)
  | .gated (.parkSpin t), some v => (s, some (.parkResume t v))
  | .gated g, none => (s, some g.refused)
  | .slow r, some v => ((s.receive v).unlock, r.resume)
  -- the value of the yielded call is filled in later
  | .slow (.green t), none => (s.unlock, some (.gate (.parkSpin t) .greenParked))
  | .slow (.blocking c), none => (s, some (.gate (.spin c) .greenParked))
  | .tryRecv c, some v => ((s.receive v).unlock, c.resume)
  | .tryRecv c, none => (s.unlock, c.resume)
  | .wake c wid ws, value => (s.unlock, some (.woken c wid ws value))
  | .park t, some v => ((s.unpark t).unlock, some (.parkResume t v))
  | .park t, none => (s.unlock, some (.parkPutBack t))

/-- What an act starts. -/
def Act.start (c : Caller) (s : Shared V) : Act V → Option (Shared V × Option (Pc V))
  | .send v => some ({ s with sent := s.sent ++ [v] }, some (.enq c v 4 .load))
  | .recv =>
    match c with
    | .thread => some (s, some (.gate (.fast (.blocking c)) .greenParked))
    | .slice t => some (s, some (.gate (.fast (.green t)) .greenParked))
  | .recvNested => some (s, some (.gate (.fast (.blocking c)) .greenParked))
  | .tryRecv => some (s, some (.tryRecv c))
  | .yieldNow =>
    match c with
    | .thread => none
    | .slice t => some (s, some (.yieldSlice t))
  | .finish =>
    match c with
    | .thread => none
    | .slice t => some (s, some (.complete t))

/-! ### Steps -/

/-- `LfRing::try_enqueue`. -/
def tryEnqueue (ch : Choice V) (c : Caller) (v : V) (tries : ℕ) (s : Shared V) :
    EnqStage → Shared V × Option (Pc V)
  | .load => (s, some (.enq c v tries (.seq s.ring.tail)))
  | .seq pos =>
    let seq := s.ring.seq (pos % ringCap)
    if seq = pos then (s, some (.enq c v tries (.cas pos)))
    else if seq < pos then (s, some (.spill c v))
    else (s, some (retry tries))
  | .cas pos =>
    match ch with
    | .go =>
      if s.ring.tail = pos then
        ({ s with ring := s.ring.claimTail }, some (.enq c v tries (.publish pos)))
      else (s, some (retry tries))
    -- the weak exchange may fail for no reason
    | _ => (s, some (retry tries))
  | .publish pos => ({ s with ring := s.ring.publish ringCap pos v }, some (.service c))
where
  /-- The next attempt, if there is one. -/
  retry : ℕ → Pc V
    | 0 | 1 => .spill c v
    | n + 2 => .enq c v (n + 1) .load

/-- `LfRing::try_dequeue`. -/
def tryDequeue (ch : Choice V) (site : Site) (tries : ℕ) (s : Shared V) :
    DeqStage V → Shared V × Option (Pc V)
  | .load => (s, some (.deq site tries (.seq s.ring.head)))
  | .seq pos =>
    let seq := s.ring.seq (pos % ringCap)
    if seq = pos + 1 then (s, some (.deq site tries (.cas pos)))
    else if seq < pos + 1 then (s, some (.got site none))
    else (s, some (retry tries))
  | .cas pos =>
    match ch with
    | .go =>
      if s.ring.head = pos then
        ({ s with ring := s.ring.claimHead ringCap },
          some (.deq site tries (.release pos (s.ring.val (pos % ringCap)))))
      else (s, some (retry tries))
    | _ => (s, some (retry tries))
  | .release pos value => ({ s with ring := s.ring.release ringCap pos }, some (.got site value))
where
  /-- The next attempt, if there is one. -/
  retry : ℕ → Pc V
    | 0 | 1 => .got site none
    | n + 2 => .deq site (n + 1) .load

/-- A check before a lock-free pop. -/
def checkGate (g : Gate) (s : Shared V) : Flag → Pc V
  | .greenParked => if s.greenParked then g.refused else .gate g .cvarWaiters
  | .cvarWaiters => if s.cvarWaiters = 0 then .gate g .spill else g.refused
  | .spill => if s.spill = 0 then .deq (.gated g) 4 .load else g.refused

/-- The next step of a thread. There is none while it waits for the mutex, or when the choice
is not one for this place. -/
def Pc.step (ch : Choice V) (p : Pc V) (s : Shared V) : Option (Shared V × Option (Pc V)) :=
  match p with
  | .enq c v tries stage => some (tryEnqueue ch c v tries s stage)
  | .spill c v =>
    if s.locked then none
    else
      let s' := { s with queue := s.queue ++ [v], spill := s.spill + 1 }
      some (s'.takeWaiters, some (.wakes c s.greenWaiters))
  | .service c => if s.locked then none else some (s.takeWaiters, some (.wakes c s.greenWaiters))
  | .wakes c [] => some (s, some (.notify c))
  | .wakes c (wid :: ws) =>
    if s.locked then none
    else
      match s.queue with
      | v :: queue => some (s.popSpill queue, some (.woken c wid ws (some v)))
      | [] => some (s.lock, some (.deq (.wake c wid ws) 4 .load))
  | .woken c wid ws value =>
    if wid ∈ s.live then
      match value with
      | some v => some (s, some (.deliver c wid ws v))
      | none => some (s, some (.repark c wid ws))
    -- an unknown task: the value that was popped for it is dropped
    else some (s, some (.wakes c ws))
  | .deliver c wid ws v =>
    some ({ s with deliver := Function.update s.deliver wid (some v) }, some (.enqueue c wid ws))
  | .enqueue c wid ws => some (s.enqueueTask wid, some (.wakes c ws))
  | .repark c wid ws => if s.locked then none else some (s.register wid, some (.wakes c ws))
  -- sleepers may wake at any time, so that the notification itself changes nothing
  | .notify c => some (s, c.resume)
  | .gate g flag => some (s, some (checkGate g s flag))
  | .deq site tries stage => some (tryDequeue ch site tries s stage)
  | .got site value => some (site.after value s)
  | .recvLock r =>
    if s.locked then none
    else
      match s.queue with
      | v :: queue => some ((s.popSpill queue).receive v, r.resume)
      | [] => some (s.lock, some (.deq (.slow r) 4 .load))
  | .recvLoop c =>
    match s.queue with
    | v :: queue => some (((s.popSpill queue).receive v).unlock, c.resume)
    | [] => some (s, some (.deq (.slow (.blocking c)) 4 .load))
  | .spinAgain c =>
    match ch with
    | .go => some (s, some (.gate (.spin c) .greenParked))
    | _ => some (s, some (.sleepAnnounce c))
  | .sleepAnnounce c => some ({ s with cvarWaiters := s.cvarWaiters + 1 }, some (.sleepTail c))
  | .sleepTail c =>
    if s.queue.isEmpty then some (s, some (.sleepHead c s.ring.tail))
    else some (s, some (.sleepDone c))
  | .sleepHead c tail =>
    if tail = s.ring.head then some (s.unlock, some (.asleep c)) else some (s, some (.sleepDone c))
  | .asleep c => if s.locked then none else some (s.lock, some (.sleepTail c))
  | .sleepDone c => some ({ s with cvarWaiters := s.cvarWaiters - 1 }, some (.recvLoop c))
  | .tryRecv c =>
    if s.locked then none
    else
      match s.queue with
      | v :: queue => some ((s.popSpill queue).receive v, c.resume)
      | [] => some (s.lock, some (.deq (.tryRecv c) 4 .load))
  | .parkAgain t =>
    match ch with
    | .go => some (s, some (.gate (.parkSpin t) .greenParked))
    | _ => some (s, some (.parkLock t))
  | .parkLock t => if s.locked then none else some ((s.register t).lock, some (.parkCheck t))
  | .parkCheck t =>
    match s.queue with
    | v :: queue => some (((s.popSpill queue).unpark t).unlock, some (.parkResume t v))
    | [] => some (s, some (.deq (.park t) 4 .load))
  | .parkResume t v => some ((s.receive v).store t, some (.parkEnqueue t))
  | .parkEnqueue t => some (s.enqueueTask t, none)
  | .parkPutBack t => some (s.store t, none)
  | .runSlice t => some (s, if t ∈ s.live then some (.takeTask t) else none)
  | .takeTask t =>
    if s.stored t then
      some ({ s with stored := Function.update s.stored t false }, some (.takeDeliver t))
    -- the thread that parks the task has not put it back yet
    else some (s.enqueueTask t, none)
  | .takeDeliver t =>
    match s.deliver t with
    | some v =>
      some (({ s with deliver := Function.update s.deliver t none }).receive v, some (.slice t))
    | none => some (s, some (.slice t))
  | .slice t =>
    match ch with
    | .act a => a.start (.slice t) s
    | _ => none
  | .yieldSlice t => some (s.store t, some (.parkEnqueue t))
  | .complete t =>
    some ({ s with
      live := s.live.erase t
      deliver := Function.update s.deliver t none }, none)

/-- The position an attempt of `try_enqueue` has claimed. -/
def EnqStage.claimed : EnqStage → Option ℕ
  | .publish pos => some pos
  | _ => none

/-- What an attempt of `try_dequeue` has claimed and taken. -/
def DeqStage.claimed : DeqStage V → Option (ℕ × Option V)
  | .release pos value => some (pos, value)
  | _ => none

/-- What a step of `try_enqueue` does: it goes on, gives up, claims the tail or publishes. -/
inductive EnqStep (c : Caller) (v : V) (s : Shared V) : EnqStage → Shared V × Option (Pc V) → Prop
  | again {stage stage' : EnqStage} (tries' : ℕ) (h : stage.claimed = none)
      (h' : stage'.claimed = none) : EnqStep c v s stage (s, some (.enq c v tries' stage'))
  | spills {stage : EnqStage} (h : stage.claimed = none) :
      EnqStep c v s stage (s, some (.spill c v))
  | claims {pos : ℕ} (tries' : ℕ) (h : s.ring.tail = pos) : EnqStep c v s (.cas pos)
      ({ s with ring := s.ring.claimTail }, some (.enq c v tries' (.publish pos)))
  | publishes {pos : ℕ} : EnqStep c v s (.publish pos)
      ({ s with ring := s.ring.publish ringCap pos v }, some (.service c))

theorem tryEnqueue_step (ch : Choice V) (c : Caller) (v : V) (tries : ℕ) (s : Shared V)
    (stage : EnqStage) : EnqStep c v s stage (tryEnqueue ch c v tries s stage) := by
  have hretry : ∀ {stage : EnqStage}, stage.claimed = none →
      EnqStep c v s stage (s, some (tryEnqueue.retry c v tries)) := by
    intro stage h
    rcases tries with _ | _ | n
    · exact .spills h
    · exact .spills h
    · exact .again _ h rfl
  rcases stage with _ | pos | pos | pos
  · exact .again _ rfl rfl
  · simp only [tryEnqueue]
    split_ifs
    · exact .again _ rfl rfl
    · exact .spills rfl
    · exact hretry rfl
  · rcases ch with _ | _ | a <;> simp only [tryEnqueue]
    · split_ifs with htail
      · exact .claims _ htail
      · exact hretry rfl
    · exact hretry rfl
    · exact hretry rfl
  · exact .publishes

/-- What a step of `try_dequeue` does: it goes on, returns nothing, claims the head or releases
the cell. -/
inductive DeqStep (site : Site) (s : Shared V) : DeqStage V → Shared V × Option (Pc V) → Prop
  | again {stage stage' : DeqStage V} (tries' : ℕ) (h : stage.claimed = none)
      (h' : stage'.claimed = none) : DeqStep site s stage (s, some (.deq site tries' stage'))
  | empty {stage : DeqStage V} (h : stage.claimed = none) :
      DeqStep site s stage (s, some (.got site none))
  | claims {pos : ℕ} (tries' : ℕ) (h : s.ring.head = pos) : DeqStep site s (.cas pos)
      ({ s with ring := s.ring.claimHead ringCap },
        some (.deq site tries' (.release pos (s.ring.val (pos % ringCap)))))
  | releases {pos : ℕ} {value : Option V} : DeqStep site s (.release pos value)
      ({ s with ring := s.ring.release ringCap pos }, some (.got site value))

theorem tryDequeue_step (ch : Choice V) (site : Site) (tries : ℕ) (s : Shared V)
    (stage : DeqStage V) : DeqStep site s stage (tryDequeue ch site tries s stage) := by
  have hretry : ∀ {stage : DeqStage V}, stage.claimed = none →
      DeqStep site s stage (s, some (tryDequeue.retry site tries)) := by
    intro stage h
    rcases tries with _ | _ | n
    · exact .empty h
    · exact .empty h
    · exact .again _ h rfl
  rcases stage with _ | pos | pos | ⟨pos, value⟩
  · exact .again _ rfl rfl
  · simp only [tryDequeue]
    split_ifs
    · exact .again _ rfl rfl
    · exact .empty rfl
    · exact hretry rfl
  · rcases ch with _ | _ | a <;> simp only [tryDequeue]
    · split_ifs with hhead
      · exact .claims _ hhead
      · exact hretry rfl
    · exact hretry rfl
    · exact hretry rfl
  · exact .releases

/-- What the step of a thread does: a constructor for each way on from each place. -/
inductive StepCase (s : Shared V) : Pc V → Shared V → Option (Pc V) → Prop
  | enq {ch c v tries stage s' next} (heq : tryEnqueue ch c v tries s stage = (s', next))
      (hstep : EnqStep c v s stage (s', next)) : StepCase s (.enq c v tries stage) s' next
  | spill {c v} (hfree : s.locked = false) : StepCase s (.spill c v)
      { s with queue := s.queue ++ [v], spill := s.spill + 1 }.takeWaiters
      (some (.wakes c s.greenWaiters))
  | service {c} (hfree : s.locked = false) :
      StepCase s (.service c) s.takeWaiters (some (.wakes c s.greenWaiters))
  | wakesNil {c} : StepCase s (.wakes c []) s (some (.notify c))
  | wakesPop {c wid ws v queue} (hfree : s.locked = false) (hqueue : s.queue = v :: queue) :
      StepCase s (.wakes c (wid :: ws)) (s.popSpill queue) (some (.woken c wid ws (some v)))
  | wakesRing {c wid ws} (hfree : s.locked = false) (hqueue : s.queue = []) :
      StepCase s (.wakes c (wid :: ws)) s.lock (some (.deq (.wake c wid ws) 4 .load))
  | wokenValue {c wid ws v} (hlive : wid ∈ s.live) :
      StepCase s (.woken c wid ws (some v)) s (some (.deliver c wid ws v))
  | wokenNone {c wid ws} (hlive : wid ∈ s.live) :
      StepCase s (.woken c wid ws none) s (some (.repark c wid ws))
  | wokenDead {c wid ws value} (hdead : wid ∉ s.live) :
      StepCase s (.woken c wid ws value) s (some (.wakes c ws))
  | deliver {c wid ws v} : StepCase s (.deliver c wid ws v)
      { s with deliver := Function.update s.deliver wid (some v) } (some (.enqueue c wid ws))
  | enqueue {c wid ws} :
      StepCase s (.enqueue c wid ws) (s.enqueueTask wid) (some (.wakes c ws))
  | repark {c wid ws} (hfree : s.locked = false) :
      StepCase s (.repark c wid ws) (s.register wid) (some (.wakes c ws))
  | notify {c} : StepCase s (.notify c) s c.resume
  | gate {g flag} : StepCase s (.gate g flag) s (some (checkGate g s flag))
  | deq {ch site tries stage s' next} (heq : tryDequeue ch site tries s stage = (s', next))
      (hstep : DeqStep site s stage (s', next)) : StepCase s (.deq site tries stage) s' next
  | got {site value} :
      StepCase s (.got site value) (site.after value s).1 (site.after value s).2
  | recvPop {r v queue} (hfree : s.locked = false) (hqueue : s.queue = v :: queue) :
      StepCase s (.recvLock r) ((s.popSpill queue).receive v) r.resume
  | recvRing {r} (hfree : s.locked = false) (hqueue : s.queue = []) :
      StepCase s (.recvLock r) s.lock (some (.deq (.slow r) 4 .load))
  | loopPop {c v queue} (hqueue : s.queue = v :: queue) :
      StepCase s (.recvLoop c) ((s.popSpill queue).receive v).unlock c.resume
  | loopRing {c} (hqueue : s.queue = []) :
      StepCase s (.recvLoop c) s (some (.deq (.slow (.blocking c)) 4 .load))
  | spinAgain {c} : StepCase s (.spinAgain c) s (some (.gate (.spin c) .greenParked))
  | spinOver {c} : StepCase s (.spinAgain c) s (some (.sleepAnnounce c))
  | sleepAnnounce {c} : StepCase s (.sleepAnnounce c)
      { s with cvarWaiters := s.cvarWaiters + 1 } (some (.sleepTail c))
  | sleepTail {c} : StepCase s (.sleepTail c) s (some (.sleepHead c s.ring.tail))
  | sleepHead {c tail} : StepCase s (.sleepHead c tail) s.unlock (some (.asleep c))
  | sleepTailDone {c} : StepCase s (.sleepTail c) s (some (.sleepDone c))
  | sleepHeadDone {c tail} : StepCase s (.sleepHead c tail) s (some (.sleepDone c))
  | asleep {c} (hfree : s.locked = false) : StepCase s (.asleep c) s.lock (some (.sleepTail c))
  | sleepDone {c} : StepCase s (.sleepDone c)
      { s with cvarWaiters := s.cvarWaiters - 1 } (some (.recvLoop c))
  | tryPop {c v queue} (hfree : s.locked = false) (hqueue : s.queue = v :: queue) :
      StepCase s (.tryRecv c) ((s.popSpill queue).receive v) c.resume
  | tryRing {c} (hfree : s.locked = false) (hqueue : s.queue = []) :
      StepCase s (.tryRecv c) s.lock (some (.deq (.tryRecv c) 4 .load))
  | parkAgain {t} : StepCase s (.parkAgain t) s (some (.gate (.parkSpin t) .greenParked))
  | parkOver {t} : StepCase s (.parkAgain t) s (some (.parkLock t))
  | parkLock {t} (hfree : s.locked = false) :
      StepCase s (.parkLock t) (s.register t).lock (some (.parkCheck t))
  | parkPop {t v queue} (hqueue : s.queue = v :: queue) : StepCase s (.parkCheck t)
      ((s.popSpill queue).unpark t).unlock (some (.parkResume t v))
  | parkRing {t} (hqueue : s.queue = []) :
      StepCase s (.parkCheck t) s (some (.deq (.park t) 4 .load))
  | parkResume {t v} :
      StepCase s (.parkResume t v) ((s.receive v).store t) (some (.parkEnqueue t))
  | parkEnqueue {t} : StepCase s (.parkEnqueue t) (s.enqueueTask t) none
  | parkPutBack {t} : StepCase s (.parkPutBack t) (s.store t) none
  | runSlice {t} (hlive : t ∈ s.live) : StepCase s (.runSlice t) s (some (.takeTask t))
  | runDead {t} (hdead : t ∉ s.live) : StepCase s (.runSlice t) s none
  | takeTask {t} : StepCase s (.takeTask t)
      { s with stored := Function.update s.stored t false } (some (.takeDeliver t))
  | takeMissing {t} : StepCase s (.takeTask t) (s.enqueueTask t) none
  | takeDeliver {t v} (hslot : s.deliver t = some v) : StepCase s (.takeDeliver t)
      ({ s with deliver := Function.update s.deliver t none }.receive v) (some (.slice t))
  | takeNothing {t} (hslot : s.deliver t = none) :
      StepCase s (.takeDeliver t) s (some (.slice t))
  | slice {t a s' next} (h : Act.start (.slice t) s a = some (s', next)) :
      StepCase s (.slice t) s' next
  | yieldSlice {t} : StepCase s (.yieldSlice t) (s.store t) (some (.parkEnqueue t))
  | complete {t} : StepCase s (.complete t)
      { s with live := s.live.erase t, deliver := Function.update s.deliver t none } none

theorem step_cases {s s' : Shared V} {p : Pc V} {next : Option (Pc V)} {ch : Choice V}
    (h : p.step ch s = some (s', next)) : StepCase s p s' next := by
  rcases p with ⟨c, v, tries, stage⟩ | ⟨c, v⟩ | c | ⟨c, _ | ⟨wid, ws⟩⟩ | ⟨c, wid, ws, _ | v⟩ |
    ⟨c, wid, ws, v⟩ | ⟨c, wid, ws⟩ | ⟨c, wid, ws⟩ | c | ⟨g, flag⟩ | ⟨site, tries, stage⟩ |
    ⟨site, value⟩ | r | c | c | c | c | ⟨c, tail⟩ | c | c | c | t | t | t | ⟨t, v⟩ | t | t | t | t |
    t | t | t | t
  case enq =>
    have heq := Option.some.inj h
    exact .enq heq (heq ▸ tryEnqueue_step ch c v tries s stage)
  case deq =>
    have heq := Option.some.inj h
    exact .deq heq (heq ▸ tryDequeue_step ch site tries s stage)
  case got =>
    have hgot : StepCase s (.got site value) (site.after value s).1 (site.after value s).2 := .got
    rwa [show site.after value s = (s', next) from Option.some.inj h] at hgot
  case slice =>
    rcases ch with _ | _ | a
    · cases h
    · cases h
    · exact .slice h
  all_goals
    simp only [Pc.step] at h
    repeat' split at h
    all_goals
      cases h
    all_goals
      constructor <;> first | assumption | exact eq_false_of_ne_true ‹_›

/-- The moves of a thread. -/
def Moves (p : Pc V) (s s' : Shared V) (next : Option (Pc V)) : Prop :=
  ∃ ch, p.step ch s = some (s', next)

/-- What happens from outside: a thread starts an operation, a task is spawned, a worker takes
an id from the queues. -/
inductive Outside : Shared V → Shared V → Option (Pc V) → Prop
  | start {s s' : Shared V} {next : Option (Pc V)} (a : Act V)
      (h : a.start .thread s = some (s', next)) : Outside s s' next
  | spawn (s : Shared V) :
      Outside s ({ s with live := insert s.nextId s.live, nextId := s.nextId + 1 }.store
        s.nextId |>.enqueueTask s.nextId) none
  | pop {s : Shared V} {t : TaskId} {ready : Multiset TaskId} (h : s.ready = t ::ₘ ready) :
      Outside s { s with ready } (some (.runSlice t))

/-- The system. -/
abbrev System (V : Type) := Pool (Shared V) (Pc V)

namespace System

/-- A fresh channel without threads. -/
def new : System V :=
  ⟨.new, 0⟩

/-- One step of the system. -/
def Step : System V → System V → Prop :=
  ThreadPool.Step Moves Outside

/-- The states of all runs. -/
def Reachable (P : System V) : Prop :=
  Relation.ReflTransGen Step new P

end System

end ZzLang.Conc
