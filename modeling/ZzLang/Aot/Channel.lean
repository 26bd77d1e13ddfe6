import ZzLang.Library.RingThreads

/-!
# Channels of compiled programs

The runtime of compiled programs has channels of its own. As in the interpreter there is a
lock-free ring and a spill queue behind a lock, but a sender decides under the lock: it hands its
value to the oldest registered waiter if there is one, and otherwise puts it into the ring, or into
the queue when the ring has no room. A receiver that finds nothing registers its frame, looks once
more, and then suspends its task or blocks its thread until a sender fills the frame's slot.

A thread of the model is one operation on the channel, given by where it stands in the code (`Pc`).
A step is one access to an atomic, or a stretch of code under the lock without other accesses than
to the two counters that shadow the queue and the list of waiters. What the code leaves open comes
as a flag: a weak exchange that may fail, whether to spin once more, whether another task was run
instead of going to sleep. A thread that sleeps may wake at any time, so that notifications change
nothing, nor do the counters of sleepers that save them. Tasks that run nested in a waiting or a
sending thread are threads of their own here.

`sent` and `received` record the values, in order, that sends were called with and receivers given.
-/

namespace ZzLang.Aot

open MpmcRing ThreadPool

/-- `ZZ_RING_CAP`. -/
def ringCap : ℕ := 1024

theorem two_le_ringCap : 2 ≤ ringCap := by decide

-- the size is never computed with
attribute [irreducible] ringCap

/-! ### Where a thread stands -/

/-- A frame between two of its receives: it is fresh for every receive, since its slot is cleared
when the task resumes. -/
structure Frame where
  id : ℕ
  /-- The frame belongs to a task, which suspends. Other frames block their thread. -/
  isTask : Bool
deriving DecidableEq

/-- `zz_chan_recv`, `zz_chan_try_recv` and `zz_chan_recv_green` with a frame. -/
inductive Recv
  | blocking
  | tryRecv
  | green (f : Frame)
deriving DecidableEq

/-- The lock-free pops: at the start of a receive, and while a blocking one spins. -/
inductive Gate
  | fast (o : Recv)
  | spin
deriving DecidableEq

/-- Where `zz_ring_try_dequeue` is called from: behind a gate, under the lock, and once more under
the lock when the frame has been registered. -/
inductive Site
  | free (g : Gate)
  | locked (o : Recv)
  | recheck (f : Frame)
deriving DecidableEq

/-- Where a thread stands. -/
inductive Pc (V : Type)
  /-- `zz_chan_send` before the lock. -/
  | send (v : V)
  /-- In `zz_ring_try_enqueue` under the lock, with so many attempts left. -/
  | enq (v : V) (tries : ℕ) (phase : EnqPhase)
  /-- Published, the lock still held. -/
  | sent
  /-- No room in the ring, the lock still held. -/
  | spill (v : V)
  /-- A task has been handed a value and is to be made ready. -/
  | requeue (f : Frame)
  | gateWaiters (g : Gate)
  | gateSpill (g : Gate)
  /-- In `zz_ring_try_dequeue`, with so many attempts left. -/
  | deq (site : Site) (tries : ℕ) (phase : DeqPhase V)
  /-- `zz_ring_try_dequeue` has returned. -/
  | got (site : Site) (value : Option V)
  | spinStart
  | spinAgain
  /-- Before the lock of the slow path. -/
  | lock (o : Recv)
  | sleepLock
  /-- The checks before sleeping, with the lock held; the second time the sleeper is announced. -/
  | sleepTail (announced : Bool)
  | sleepHead (announced : Bool) (tail : ℕ)
  | asleep
  /-- A registered frame that blocks its thread. -/
  | parked (f : Frame)

/-! ### The shared state -/

/-- The channel, the slots of the frames, the tasks that have been made ready, and the record of
values. -/
structure Shared (V : Type) where
  ring : Buffer V
  locked : Bool
  queue : List V
  /-- `spill_count`. -/
  spillCount : ℕ
  waiters : List Frame
  /-- `green_waiters`. -/
  greenWaiters : ℕ
  /-- The value slots of the frames, by the number of the frame. -/
  slots : ℕ → Option V
  ready : Multiset Frame
  nextId : ℕ
  sent : List V
  received : List V

namespace Shared

variable {V : Type}

/-- `zz_chan_new`. -/
def new : Shared V where
  ring := .new
  locked := false
  queue := []
  spillCount := 0
  waiters := []
  greenWaiters := 0
  slots := fun _ => none
  ready := 0
  nextId := 0
  sent := []
  received := []

def lock (s : Shared V) : Shared V := { s with locked := true }

def unlock (s : Shared V) : Shared V := { s with locked := false }

/-- A receiver is given a value. -/
def receive (s : Shared V) (v : V) : Shared V := { s with received := s.received ++ [v] }

/-- Leave the rest of the spill queue. -/
def popSpill (s : Shared V) (queue : List V) : Shared V :=
  { s with queue, spillCount := s.spillCount - 1 }

/-- Put a value at the end of the spill queue. -/
def pushSpill (s : Shared V) (v : V) : Shared V :=
  { s with queue := s.queue ++ [v], spillCount := s.spillCount + 1 }

/-- `zz_chan_handoff_locked` for the oldest waiter. -/
def handoff (s : Shared V) (f : Frame) (ws : List Frame) (v : V) : Shared V :=
  { s with
    waiters := ws
    greenWaiters := s.greenWaiters - 1
    slots := Function.update s.slots f.id (some v) }

/-- `zz_chan_wait_register`. -/
def register (s : Shared V) (f : Frame) : Shared V :=
  { s with waiters := s.waiters ++ [f], greenWaiters := s.greenWaiters + 1 }

/-- `zz_gwait_unregister_tail`. -/
def unregister (s : Shared V) (f : Frame) : Shared V :=
  if f ∈ s.waiters then
    { s with waiters := s.waiters.erase f, greenWaiters := s.greenWaiters - 1 }
  else s

/-- The value of a frame is taken and its slot cleared. -/
def takeSlot (s : Shared V) (f : Frame) (v : V) : Shared V :=
  ({ s with slots := Function.update s.slots f.id none }).receive v

end Shared

variable {V : Type}

/-! ### Steps -/

/-- Where a thread goes whose lock-free pop is refused or finds nothing. -/
def Gate.missed : Gate → Pc V
  | fast .blocking => .spinStart
  | fast o => .lock o
  | spin => .spinAgain

/-- Where a thread goes that finds the gate closed: spinning ends. -/
def Gate.refused : Gate → Pc V
  | spin => .lock .blocking
  | g => g.missed

/-- What happens with the result of `zz_ring_try_dequeue`. -/
def Site.after (ok : Bool) (s : Shared V) : Site → Option V → Shared V × Option (Pc V)
  | .free _, some v => (s.receive v, none)
  | .free g, none => (s, some g.missed)
  | .locked _, some v => ((s.receive v).unlock, none)
  -- a task that was run in the meantime leads back to the head of the loop
  | .locked .blocking, none => (s.unlock, some (if ok then .sleepLock else .lock .blocking))
  | .locked .tryRecv, none => (s.unlock, none)
  | .locked (.green f), none =>
    let s := s.register f
    match s.queue with
    | v :: queue => ((((s.popSpill queue).unregister f).receive v).unlock, none)
    | [] => (s, some (.deq (.recheck f) 4 .load))
  | .recheck f, some v => (((s.unregister f).receive v).unlock, none)
  | .recheck f, none => (s.unlock, if f.isTask then none else some (.parked f))

/-- The next step of a thread. There is none while it waits for the lock or for its slot. -/
def Pc.step (ok : Bool) (s : Shared V) : Pc V → Option (Shared V × Option (Pc V))
  | .send v =>
    if s.locked then none
    else
      match s.waiters with
      | f :: ws => some (s.handoff f ws v, if f.isTask then some (.requeue f) else none)
      | [] => some (s.lock, some (.enq v 4 .load))
  | .enq v tries phase =>
    match enqStep ringCap ok v tries s.ring phase with
    | (ring, .go tries phase) => some ({ s with ring }, some (.enq v tries phase))
    | (ring, .full) => some ({ s with ring }, some (.spill v))
    | (ring, .done) => some ({ s with ring }, some .sent)
  | .sent => some (s.unlock, none)
  | .spill v => some ((s.pushSpill v).unlock, none)
  | .requeue f => some ({ s with ready := f ::ₘ s.ready }, none)
  | .gateWaiters g => some (s, some (if s.greenWaiters = 0 then .gateSpill g else g.refused))
  | .gateSpill g => some (s, some (if s.spillCount = 0 then .deq (.free g) 4 .load else g.refused))
  | .deq site tries phase =>
    match deqStep ringCap ok tries s.ring phase with
    | (ring, .go tries phase) => some ({ s with ring }, some (.deq site tries phase))
    | (ring, .miss) => some ({ s with ring }, some (.got site none))
    | (ring, .got value) => some ({ s with ring }, some (.got site value))
  | .got site value => some (site.after ok s value)
  | .spinStart => some (s, some (if s.spillCount = 0 then .gateWaiters .spin else .lock .blocking))
  | .spinAgain => some (s, some (if ok then .gateWaiters .spin else .lock .blocking))
  | .lock o =>
    if s.locked then none
    else
      match s.queue with
      | v :: queue => some ((s.popSpill queue).receive v, none)
      | [] => some (s.lock, some (.deq (.locked o) 4 .load))
  | .sleepLock => if s.locked then none else some (s.lock, some (.sleepTail false))
  | .sleepTail announced =>
    match s.queue with
    | _ :: _ => some (s.unlock, some (.lock .blocking))
    | [] => some (s, some (.sleepHead announced s.ring.tail))
  | .sleepHead announced tail =>
    if tail ≠ s.ring.head then some (s.unlock, some (.lock .blocking))
    else if announced then some (s.unlock, some .asleep)
    else some (s, some (.sleepTail true))
  | .asleep => if s.locked then none else some (s.lock, some (.sleepTail true))
  | .parked f =>
    if s.locked then none
    else
      match s.slots f.id with
      | some v => some (s.takeSlot f v, none)
      | none => none

/-- The moves of a thread. -/
def Moves (p : Pc V) (s s' : Shared V) (next : Option (Pc V)) : Prop :=
  ∃ ok, p.step ok s = some (s', next)

/-- What happens from outside: an operation starts, or a task that was handed a value resumes. -/
inductive Outside : Shared V → Shared V → Option (Pc V) → Prop
  | send (s : Shared V) (v : V) : Outside s { s with sent := s.sent ++ [v] } (some (.send v))
  | recv (s : Shared V) : Outside s s (some (.gateWaiters (.fast .blocking)))
  | tryRecv (s : Shared V) : Outside s s (some (.gateWaiters (.fast .tryRecv)))
  | green (s : Shared V) (isTask : Bool) : Outside s { s with nextId := s.nextId + 1 }
      (some (.gateWaiters (.fast (.green ⟨s.nextId, isTask⟩))))
  | resume {s : Shared V} {f : Frame} {ready : Multiset Frame} {v : V}
      (hready : s.ready = f ::ₘ ready) (hslot : s.slots f.id = some v) :
      Outside s ({ s with ready }.takeSlot f v) none

/-- The system. -/
abbrev System (V : Type) := Pool (Shared V) (Pc V)

namespace System

/-- A fresh channel without operations. -/
def new : System V := ⟨.new, 0⟩

/-- One step of the system. -/
def Step : System V → System V → Prop := ThreadPool.Step Moves Outside

/-- The states of all runs. -/
def Reachable (P : System V) : Prop := Relation.ReflTransGen Step new P

end System

end ZzLang.Aot
