import Mathlib.Algebra.BigOperators.Group.Finset.Piecewise
import Mathlib.Data.Fintype.Basic
import Mathlib.Logic.Relation
import Mathlib.Tactic.Abel
import ZzLang.Aot.Deque

/-!
# The executor of compiled programs

Each worker has a deque (`Aot.Deque`); threads that are no workers, and workers whose deque is full,
put their tasks into one injector, a circular buffer behind a lock that grows when it is full. A
worker runs a task, which may enqueue others and may run tasks of the worker's own deque while it
waits, and looks for the next one: in its own deque, in the deques of others, in the injector. When
it finds none it parks: with the lock of the injector held it looks everywhere once more, and gives
the lock back only to sleep.

What a worker does between two operations is left open, as is the order in which it visits the
other deques. A worker that sleeps may wake at any time, so that notifications and the counter of
sleepers change nothing. A worker that is started when another one blocks has been there from the
start, with an empty deque. `enqueued` and `handed` record the tasks that `zz_enqueue_task` was
called with and those that a worker was given to run.
-/

namespace ZzLang.Aot

open Circular

variable {D T : Type}

/-! ### The injector -/

/-- The injector, with the record of what it holds, oldest first. -/
structure Injector (T : Type) where
  buf : ℕ → Option T
  len : ℕ
  cap : ℕ
  head : ℕ
  content : List T

namespace Injector

/-- The injector before the first push. -/
def new : Injector T := ⟨fun _ => none, 0, 0, 0, []⟩

/-- Double the buffer, and lay out what it holds from its start. -/
def grow (inj : Injector T) : Injector T :=
  { inj with
    buf := if inj.head = 0 then inj.buf
      else fun i => if i < inj.len then inj.buf ((inj.head + i) % inj.cap) else inj.buf i
    cap := if inj.cap = 0 then 64 else inj.cap * 2
    head := 0 }

/-- `zz_injector_push`, once there is room. -/
def append (inj : Injector T) (t : T) : Injector T :=
  { inj with
    buf := Function.update inj.buf ((inj.head + inj.len) % inj.cap) (some t)
    len := inj.len + 1
    content := inj.content ++ [t] }

/-- `zz_injector_push`. -/
def push (inj : Injector T) (t : T) : Injector T :=
  if inj.len = inj.cap then inj.grow.append t else inj.append t

/-- The task that is taken next. -/
def front (inj : Injector T) : Option T := inj.buf inj.head

/-- What is left when the first task has been taken. -/
def pop (inj : Injector T) : Injector T :=
  { inj with
    head := (inj.head + 1) % inj.cap
    len := inj.len - 1
    content := inj.content.tail }

/-- The injector holds its tasks in the order they were pushed, from the head on. -/
structure Ok (inj : Injector T) : Prop where
  len_le : inj.len ≤ inj.cap
  head_le : inj.head = 0 ∨ inj.head < inj.cap
  content : inj.content.map some = window inj.cap inj.buf inj.head inj.len

variable {inj : Injector T}

theorem ok_new : (new : Injector T).Ok := ⟨le_rfl, .inl rfl, rfl⟩

theorem Ok.length_content (h : inj.Ok) : inj.content.length = inj.len := by
  have := congrArg List.length h.content
  simpa using this

theorem Ok.grow (h : inj.Ok) : inj.grow.Ok ∧ inj.grow.len < inj.grow.cap := by
  have hcap : inj.len < inj.grow.cap := by
    have := h.len_le
    simp only [Injector.grow]
    split_ifs <;> omega
  refine ⟨⟨hcap.le, .inl rfl, h.content.trans (window_linear _ _ hcap.le fun i hi => ?_).symm⟩, hcap⟩
  have hlen := h.len_le
  simp only [Injector.grow]
  split_ifs with hhead
  · rw [hhead, Nat.zero_add, Nat.mod_eq_of_lt (by omega)]
  · exact if_pos hi

theorem Ok.append (h : inj.Ok) (hroom : inj.len < inj.cap) (t : T) : (inj.append t).Ok where
  len_le := hroom
  head_le := h.head_le
  content := by
    change (inj.content ++ [t]).map some = window inj.cap
      (Function.update inj.buf ((inj.head + inj.len) % inj.cap) (some t)) inj.head (inj.len + 1)
    rw [window_succ, window_update _ _ hroom, Function.update_self, List.map_append, h.content]
    rfl

/-- A push adds the task at the end, whether or not the buffer grows. -/
theorem Ok.push (h : inj.Ok) (t : T) :
    (inj.push t).Ok ∧ (inj.push t).content = inj.content ++ [t] := by
  simp only [Injector.push]
  split_ifs with hfull
  · exact ⟨h.grow.1.append h.grow.2 t, rfl⟩
  · exact ⟨h.append (Nat.lt_of_le_of_ne h.len_le hfull) t, rfl⟩

/-- The task that is taken is the oldest. -/
theorem Ok.pop (h : inj.Ok) (hne : inj.len ≠ 0) :
    inj.pop.Ok ∧ ∃ t, inj.front = some t ∧ inj.content = t :: inj.pop.content := by
  have hlen := h.len_le
  have hhead : inj.head < inj.cap := h.head_le.elim (by omega) id
  have hcontent := h.content
  rw [show inj.len = inj.len - 1 + 1 by omega, window_succ_cons, Nat.mod_eq_of_lt hhead] at hcontent
  obtain ⟨t, ts, hcons, ht, hts⟩ := List.map_eq_cons_iff.mp hcontent
  have htail : inj.content.tail = ts := by rw [hcons, List.tail_cons]
  refine ⟨⟨?_, .inr (Nat.mod_lt _ (by omega)), ?_⟩, t, ht.symm, hcons.trans ?_⟩
  · exact show inj.len - 1 ≤ inj.cap by omega
  · exact (congrArg (List.map some) htail).trans (hts.trans (window_mod _ _).symm)
  · exact congrArg (t :: ·) htail.symm

end Injector

/-! ### The workers -/

/-- Whether a worker looks for a task with the lock of the injector held. -/
inductive Mode
  | hot
  | parked
deriving DecidableEq

/-- Where a worker stands. -/
inductive Post (D T : Type)
  /-- It runs a task, or is between two operations. -/
  | run
  /-- `zz_enqueue_task`, before it reads the top of the deque. -/
  | enqueue (t : T)
  /-- An operation on its own deque. -/
  | own (m : Mode) (o : Owner T)
  /-- Before the lock of `zz_injector_push`. -/
  | inject (t : T)
  /-- `zz_steal_siblings`, before it has chosen where to start. -/
  | siblings
  /-- `zz_steal_siblings`, with these deques left. -/
  | steal (m : Mode) (victims : List D)
  /-- `zz_deque_steal`. -/
  | rob (m : Mode) (victims : List D) (victim : D) (th : Thief T)
  /-- `zz_injector_steal`, before its check without the lock. -/
  | probe
  /-- `zz_injector_steal`, before the lock. -/
  | take
  /-- Before the lock of the parking path, or asleep there. -/
  | park
  /-- The look into the injector on the parking path. -/
  | parkInjector

namespace Post

/-- The phase of the operation on the own deque. -/
def owner : Post D T → Option (Owner T)
  | own _ o => some o
  | _ => none

/-- The deque that is being stolen from. -/
def robs : Post D T → Option (D × Thief T)
  | rob _ _ victim th => some (victim, th)
  | _ => none

/-- The task that a worker is about to put somewhere. -/
def hand : Post D T → Multiset T
  | enqueue t | inject t => {t}
  | own _ o => o.hand
  | _ => 0

/-- Where a pop or a round of steals leads that finds nothing. -/
def missed : Mode → Post D T → Post D T
  | .hot, _ => run
  | .parked, next => next

/-- Whether a worker runs a task or is between two operations. -/
def isRun : Post D T → Bool
  | run => true
  | _ => false

theorem eq_run {pc : Post D T} (h : pc.isRun = true) : pc = run := by
  cases pc with
  | run => rfl
  | _ => cases h

end Post

/-- The executor. -/
structure Executor (D T : Type) where
  deques : D → Deque T
  pcs : D → Post D T
  inj : Injector T
  locked : Bool
  /-- The tasks that other threads are about to push into the injector. -/
  waiting : Multiset T
  enqueued : Multiset T
  handed : Multiset T

namespace Executor

/-- The executor before any task. -/
def new : Executor D T where
  deques := fun _ => .new
  pcs := fun _ => .run
  inj := .new
  locked := false
  waiting := 0
  enqueued := 0
  handed := 0

variable [DecidableEq D]

/-- The worker goes on elsewhere. -/
def goto (s : Executor D T) (d : D) (pc : Post D T) : Executor D T :=
  { s with pcs := Function.update s.pcs d pc }

/-- The state of a deque changes. -/
def setDeque (s : Executor D T) (d : D) (dq : Deque T) : Executor D T :=
  { s with deques := Function.update s.deques d dq }

/-- The worker has a task to run, and gives back the lock if it has parked. -/
def handOut (s : Executor D T) (d : D) (m : Mode) (value : Option T) : Executor D T :=
  { s with
    handed := value.toList + s.handed
    locked := match m with
      | .hot => s.locked
      | .parked => false
    pcs := Function.update s.pcs d .run }

/-- The next step of a worker. There is none while it runs a task, while the lock is not free, and
where it has a choice. -/
def move (s : Executor D T) (d : D) : Option (Executor D T) :=
  match s.pcs d with
  | .run | .siblings => none
  | .enqueue t =>
    some (s.goto d
      (if sizeSub (s.deques d).bottom (s.deques d).top < dequeCap then
        .own .hot (.write t (s.deques d).bottom)
      else .inject t))
  | .own m o =>
    match (s.deques d).own o with
    | (dq, .go o) => some ((s.setDeque d dq).goto d (.own m o))
    | (dq, .pushed) => some ((s.setDeque d dq).goto d .run)
    | (dq, .empty) => some ((s.setDeque d dq).goto d (Post.missed m .siblings))
    | (dq, .got value) => some ((s.setDeque d dq).handOut d m value)
  | .inject t => if s.locked then none else some ({ s with inj := s.inj.push t }.goto d .run)
  | .steal m [] => some (s.goto d (Post.missed m .parkInjector))
  | .steal m (victim :: victims) => some (s.goto d (.rob m victims victim .top))
  | .rob m victims victim th =>
    match (s.deques victim).rob th with
    | (dq, .go th) => some ((s.setDeque victim dq).goto d (.rob m victims victim th))
    | (dq, .miss) => some ((s.setDeque victim dq).goto d (.steal m victims))
    | (dq, .got value) => some ((s.setDeque victim dq).handOut d m value)
  | .probe => some (s.goto d (if s.inj.len = 0 then .run else .take))
  | .take =>
    if s.locked then none
    else if s.inj.len = 0 then some (s.goto d .run)
    else some ({ s with inj := s.inj.pop }.handOut d .hot s.inj.front)
  | .park =>
    if s.locked then none else some ({ s with locked := true }.goto d (.own .parked .popBottom))
  | .parkInjector =>
    if s.inj.len = 0 then some ({ s with locked := false }.goto d .park)
    else some ({ s with inj := s.inj.pop }.handOut d .parked s.inj.front)

/-- One step: a worker moves, chooses what to do next or where to start a round of steals, or
another thread enqueues a task. -/
inductive Step : Executor D T → Executor D T → Prop
  | move {s s' : Executor D T} {d : D} (h : s.move d = some s') : Step s s'
  | enqueue {s : Executor D T} {d : D} (t : T) (h : s.pcs d = .run) :
      Step s ({ s with enqueued := t ::ₘ s.enqueued }.goto d (.enqueue t))
  | look {s : Executor D T} {d : D} {pc : Post D T} (h : s.pcs d = .run)
      (hpc : pc = .own .hot .popBottom ∨ (∃ victims, pc = .steal .hot victims) ∨ pc = .probe ∨
        pc = .park) : Step s (s.goto d pc)
  | siblings {s : Executor D T} {d : D} (victims : List D) (h : s.pcs d = .siblings) :
      Step s (s.goto d (.steal .parked victims))
  | call {s : Executor D T} (t : T) :
      Step s { s with enqueued := t ::ₘ s.enqueued, waiting := t ::ₘ s.waiting }
  | inject {s : Executor D T} {t : T} {waiting : Multiset T} (h : s.waiting = t ::ₘ waiting)
      (hfree : s.locked = false) : Step s { s with inj := s.inj.push t, waiting }

/-- The states of all runs. -/
def Reachable (s : Executor D T) : Prop := Relation.ReflTransGen Step new s

/-! ### The deques and their thieves -/

/-- Every deque is in order, and every thief knows what it has to. -/
structure DequesOk (deques : D → Deque T) (pcs : D → Post D T) : Prop where
  ok : ∀ d, (deques d).Ok (pcs d).owner
  seen : ∀ e victim th, (pcs e).robs = some (victim, th) →
    (deques victim).Seen (pcs victim).owner th

/-- A worker moves on, and one deque changes. -/
theorem DequesOk.update {deques : D → Deque T} {pcs : D → Post D T} (h : DequesOk deques pcs)
    {d v : D} {dq : Deque T} {pc : Post D T} (hok : dq.Ok (Function.update pcs d pc v).owner)
    (hother : d ≠ v → pc.owner = (pcs d).owner)
    (hseen : ∀ th, (deques v).Seen (pcs v).owner th → dq.Seen (Function.update pcs d pc v).owner th)
    (hrobs : ∀ u th, pc.robs = some (u, th) →
      (Function.update deques v dq u).Seen (Function.update pcs d pc u).owner th) :
    DequesOk (Function.update deques v dq) (Function.update pcs d pc) := by
  have howner : ∀ u, u ≠ v → (Function.update pcs d pc u).owner = (pcs u).owner := by
    intro u hu
    rcases eq_or_ne u d with rfl | hne
    · rw [Function.update_self, hother hu]
    · rw [Function.update_of_ne hne]
  refine ⟨fun u => ?_, fun e u th he => ?_⟩
  · rcases eq_or_ne u v with rfl | hu
    · rwa [Function.update_self]
    · rw [Function.update_of_ne hu, howner u hu]
      exact h.ok u
  · rcases eq_or_ne e d with rfl | hne
    · rw [Function.update_self] at he
      exact hrobs u th he
    · rw [Function.update_of_ne hne] at he
      have hold := h.seen e u th he
      rcases eq_or_ne u v with rfl | hu
      · rw [Function.update_self]
        exact hseen th hold
      · rwa [Function.update_of_ne hu, howner u hu]

/-- A worker moves on without an operation on a deque. -/
theorem DequesOk.goto {deques : D → Deque T} {pcs : D → Post D T} (h : DequesOk deques pcs) {d : D}
    {pc : Post D T} (hok : (deques d).Ok pc.owner)
    (hseen : ∀ th, (deques d).Seen (pcs d).owner th → (deques d).Seen pc.owner th)
    (hrobs : ∀ u th, pc.robs = some (u, th) → th = .top) :
    DequesOk deques (Function.update pcs d pc) := by
  have hupdate := @DequesOk.update _ _ _ deques pcs h d d (deques d) pc
    (by rwa [Function.update_self]) (fun hne => absurd rfl hne)
    (by rwa [Function.update_self]) (fun u th he => by rw [hrobs u th he]; trivial)
  rwa [Function.update_eq_self] at hupdate

/-- A worker moves on that had no operation on its own deque under way, and has none. -/
theorem DequesOk.walk {deques : D → Deque T} {pcs : D → Post D T} (h : DequesOk deques pcs) {d : D}
    {pc : Post D T} (hold : (pcs d).owner = none) (hpc : pc.owner = none)
    (hrobs : ∀ u th, pc.robs = some (u, th) → th = .top) :
    DequesOk deques (Function.update pcs d pc) :=
  h.goto (by have := h.ok d; rwa [hpc, ← hold]) (by rw [hold, hpc]; exact fun _ => id) hrobs

/-! ### What a move does -/

/-- The tasks in all deques. -/
def stored [Fintype D] (deques : D → Deque T) : Multiset T := ∑ d, ((deques d).content : Multiset T)

/-- The tasks that workers are about to put somewhere. -/
def hands [Fintype D] (pcs : D → Post D T) : Multiset T := ∑ d, (pcs d).hand

/-- A move of a worker: what becomes of the deques, of the injector and of the tasks. -/
structure Moved (s : Executor D T) (d : D) (s' : Executor D T) (pc : Post D T) : Prop where
  pcs : s'.pcs = Function.update s.pcs d pc
  deques : DequesOk s'.deques s'.pcs
  inj : s'.inj.Ok
  enqueued : s'.enqueued = s.enqueued
  waiting : s'.waiting = s.waiting
  /-- The deque that has changed, if any. -/
  changed : ∃ v dq, s'.deques = Function.update s.deques v dq ∧
    s'.handed + dq.content + s'.inj.content + pc.hand =
      s.handed + (s.deques v).content + s.inj.content + (s.pcs d).hand

variable {s s' : Executor D T} {d : D}

/-- A worker moves on without an operation. -/
theorem Moved.walk (hdeques : DequesOk s.deques s.pcs) (hinj : s.inj.Ok) {pc : Post D T}
    (hs' : s' = { s with locked := s'.locked }.goto d pc) (hold : (s.pcs d).owner = none)
    (hpc : pc.owner = none) (hrobs : ∀ u th, pc.robs = some (u, th) → th = .top)
    (hhand : pc.hand = (s.pcs d).hand) : Moved s d s' pc := by
  rw [hs']
  refine ⟨rfl, hdeques.walk hold hpc hrobs, hinj, rfl, rfl, d, s.deques d, ?_, ?_⟩
  · exact (Function.update_eq_self d s.deques).symm
  · rw [hhand]
    rfl

/-- A worker starts an operation on its own deque. -/
theorem Moved.start (hdeques : DequesOk s.deques s.pcs) (hinj : s.inj.Ok) {m : Mode} {o : Owner T}
    (hs' : s' = { s with locked := s'.locked }.goto d (.own m o)) (hold : (s.pcs d).owner = none)
    (hok : (s.deques d).Ok (some o)) (hlast : (s.deques d).last (some o) = (s.deques d).bottom)
    (hhand : o.hand = (s.pcs d).hand) : Moved s d s' (.own m o) := by
  rw [hs']
  refine ⟨rfl, hdeques.goto hok ?_ (by simp [Post.robs]), hinj, rfl, rfl, d, s.deques d, ?_, ?_⟩
  · rw [hold]
    exact fun th hs => hs.start hlast
  · exact (Function.update_eq_self d s.deques).symm
  · rw [← hhand]
    rfl

/-- A worker makes a step in its own deque. -/
theorem moved_own (hdeques : DequesOk s.deques s.pcs) (hinj : s.inj.Ok) {m : Mode} {o : Owner T}
    (hpc : s.pcs d = .own m o) (h : s.move d = some s') : ∃ pc, Moved s d s' pc := by
  have hok : (s.deques d).Ok (some o) := by
    have := hdeques.ok d
    rwa [hpc] at this
  obtain ⟨hok', howned⟩ := hok.own
  have hseen := fun th (hs : (s.deques d).Seen (s.pcs d).owner th) =>
    Deque.Seen.own hok (show (s.deques d).Seen (some o) th by rwa [hpc] at hs)
  simp only [move, hpc] at h
  revert h hok' howned hseen
  generalize (s.deques d).own o = r
  rcases r with ⟨dq, next⟩
  intro hok' howned hseen h
  -- the deque and the place of the worker change together
  have hupdate : ∀ pc : Post D T, pc.owner = next.owner → (∀ u th, pc.robs ≠ some (u, th)) →
      DequesOk (Function.update s.deques d dq) (Function.update s.pcs d pc) := by
    intro pc hnext hrobs
    refine hdeques.update ?_ (fun hne => absurd rfl hne) ?_ fun u th he => absurd he (hrobs u th)
    · rwa [Function.update_self, hnext]
    · rwa [Function.update_self, hnext]
  have hnone : (∀ u th, (Post.run : Post D T).robs ≠ some (u, th)) ∧
      ∀ u th, (Post.missed m .siblings : Post D T).robs ≠ some (u, th) := by
    rcases m with _ | _ <;> exact ⟨by simp [Post.robs], by simp [Post.robs, Post.missed]⟩
  cases howned with
  | go o' ho hcontent =>
    cases h
    refine ⟨.own m o', rfl, hupdate _ rfl (by simp [Post.robs]), hinj, rfl, rfl, d, dq, rfl, ?_⟩
    rw [hpc, hcontent, show (Post.own m o' : Post D T).hand = o'.hand from rfl, ho]
    rfl
  | push t bottom hcontent =>
    cases h
    refine ⟨.run, rfl, hupdate _ rfl hnone.1, hinj, rfl, rfl, d, dq, rfl, ?_⟩
    rw [hpc, hcontent, ← Multiset.coe_add]
    change s.handed + (_ + {t}) + s.inj.content + 0 = s.handed + _ + s.inj.content + {t}
    abel
  | empty ho hcontent =>
    cases h
    have hrest : (Post.missed m .siblings : Post D T).owner = none ∧
        (Post.missed m .siblings : Post D T).hand = 0 := by
      rcases m with _ | _ <;> exact ⟨rfl, rfl⟩
    refine ⟨_, rfl, hupdate _ hrest.1 hnone.2, hinj, rfl, rfl, d, dq, rfl, ?_⟩
    rw [hpc, hcontent, hrest.2, show (Post.own m o : Post D T).hand = 0 from ho]
    rfl
  | pop t ho hcontent =>
    cases h
    refine ⟨.run, rfl, hupdate _ rfl hnone.1, hinj, rfl, rfl, d, dq, rfl, ?_⟩
    rw [hpc, hcontent, ← Multiset.coe_add, show (Post.own m o : Post D T).hand = 0 from ho]
    change {t} + s.handed + _ + s.inj.content + 0 = s.handed + (_ + {t}) + s.inj.content + 0
    abel

/-- A worker makes a step in the deque it steals from. -/
theorem moved_rob (hdeques : DequesOk s.deques s.pcs) (hinj : s.inj.Ok) {m : Mode}
    {victims : List D} {v : D} {th : Thief T} (hpc : s.pcs d = .rob m victims v th)
    (h : s.move d = some s') : ∃ pc, Moved s d s' pc := by
  have hok := hdeques.ok v
  have hsees := hdeques.seen d v th (by rw [hpc]; rfl)
  obtain ⟨hok', hrobbed⟩ := hok.rob hsees
  have hseen : ∀ th', (s.deques v).Seen (s.pcs v).owner th' →
      ((s.deques v).rob th).1.Seen (s.pcs v).owner th' := fun th' hs => hs.rob_other hsees
  have hnext : ∀ th', ((s.deques v).rob th).2 = .go th' → (s.deques v).Seen (s.pcs v).owner th' :=
    fun th' heq => Deque.Seen.rob hok hsees heq
  have howner : ∀ pc : Post D T, pc.owner = none →
      (Function.update s.pcs d pc v).owner = (s.pcs v).owner := by
    intro pc hnone
    rcases eq_or_ne v d with rfl | hne
    · rw [Function.update_self, hnone, hpc]
      rfl
    · rw [Function.update_of_ne hne]
  simp only [move, hpc] at h
  revert h hok' hrobbed hseen hnext
  generalize (s.deques v).rob th = r
  rcases r with ⟨dq, next⟩
  intro hok' hrobbed hseen hnext h
  have hupdate : ∀ pc : Post D T, pc.owner = none →
      (∀ u th', pc.robs = some (u, th') → u = v ∧ dq.Seen (s.pcs v).owner th') →
      DequesOk (Function.update s.deques v dq) (Function.update s.pcs d pc) := by
    intro pc hnone hrobs
    refine hdeques.update ?_ (fun _ => by rw [hnone, hpc]; rfl) ?_ fun u th' he => ?_
    · rwa [howner pc hnone]
    · rwa [howner pc hnone]
    · obtain ⟨rfl, hs⟩ := hrobs u th' he
      rwa [Function.update_self, howner pc hnone]
  cases hrobbed with
  | go th' hsame =>
    cases h
    have hs := hsame ▸ hnext th' rfl
    refine ⟨.rob m victims v th', rfl, hupdate _ rfl ?_, hinj, rfl, rfl, v, dq, rfl, ?_⟩
    · rintro u th'' ⟨⟩
      exact ⟨rfl, hs⟩
    · rw [hpc, show dq = s.deques v from hsame]
      rfl
  | miss hsame =>
    cases h
    refine ⟨.steal m victims, rfl, hupdate _ rfl (by simp [Post.robs]), hinj, rfl, rfl, v, dq, rfl,
      ?_⟩
    rw [hpc, show dq = s.deques v from hsame]
    rfl
  | steal t hcontent =>
    cases h
    refine ⟨.run, rfl, hupdate _ rfl (by simp [Post.robs]), hinj, rfl, rfl, v, dq, rfl, ?_⟩
    rw [hpc, hcontent, ← Multiset.cons_coe, ← Multiset.singleton_add]
    change {t} + s.handed + _ + s.inj.content + 0 = s.handed + ({t} + _) + s.inj.content + 0
    abel

/-- A worker takes a task out of the injector. -/
theorem moved_pop (hdeques : DequesOk s.deques s.pcs) (hinj : s.inj.Ok) (m : Mode)
    (hne : s.inj.len ≠ 0) (hold : (s.pcs d).owner = none) (hhand : (s.pcs d).hand = 0) :
    Moved s d ({ s with inj := s.inj.pop }.handOut d m s.inj.front) .run := by
  obtain ⟨hok, t, hfront, hcontent⟩ := hinj.pop hne
  refine ⟨rfl, hdeques.walk hold rfl (by simp [Post.robs]), hok, rfl, rfl, d, s.deques d,
    (Function.update_eq_self d s.deques).symm, ?_⟩
  rw [hhand, hcontent, ← Multiset.cons_coe, ← Multiset.singleton_add]
  simp only [handOut, hfront]
  change {t} + s.handed + _ + (s.inj.pop.content : Multiset T) + 0 =
    s.handed + _ + ({t} + (s.inj.pop.content : Multiset T)) + 0
  abel

/-- **What a move of a worker does.** -/
theorem moved (hdeques : DequesOk s.deques s.pcs) (hinj : s.inj.Ok) (h : s.move d = some s') :
    ∃ pc, Moved s d s' pc := by
  have hwalk : ∀ {locked : Bool} {pc : Post D T}, s' = { s with locked }.goto d pc →
      (s.pcs d).owner = none → pc.owner = none →
      (∀ u th, pc.robs = some (u, th) → th = .top) → pc.hand = (s.pcs d).hand →
      ∃ pc, Moved s d s' pc := by
    rintro locked pc rfl hold hpc hrobs hhand
    exact ⟨pc, .walk hdeques hinj rfl hold hpc hrobs hhand⟩
  have hok : (s.pcs d).owner = none → (s.deques d).Ok none := by
    intro hold
    have := hdeques.ok d
    rwa [hold] at this
  rcases hpc : s.pcs d with _ | t | ⟨m, o⟩ | t | _ | ⟨m, _ | ⟨v, victims⟩⟩ | ⟨m, victims, v, th⟩ |
    _ | _ | _ | _
  case own => exact moved_own hdeques hinj hpc h
  case rob => exact moved_rob hdeques hinj hpc h
  all_goals
    have hold : (s.pcs d).owner = none := by rw [hpc]; rfl
    simp only [move, hpc] at h
  case run | siblings => cases h
  case enqueue =>
    have hhand : (s.pcs d).hand = {t} := by rw [hpc]; rfl
    split_ifs at h with hroom <;> cases h
    · exact ⟨_, .start hdeques hinj rfl hold ((hok hold).write_of_room hroom t) rfl hhand.symm⟩
    · exact hwalk rfl hold rfl (by simp [Post.robs]) hhand.symm
  case inject =>
    split_ifs at h
    cases h
    obtain ⟨hpush, hcontent⟩ := hinj.push t
    refine ⟨.run, rfl, hdeques.walk hold rfl (by simp [Post.robs]), hpush, rfl, rfl, d, s.deques d,
      (Function.update_eq_self d s.deques).symm, ?_⟩
    rw [hpc]
    change s.handed + _ + ((s.inj.push t).content : Multiset T) + 0 =
      s.handed + _ + s.inj.content + {t}
    rw [hcontent, ← Multiset.coe_add, add_zero, add_assoc (s.handed + _)]
    rfl
  case steal.nil =>
    cases h
    rcases m with _ | _ <;>
      exact hwalk rfl hold rfl (by simp [Post.robs, Post.missed]) (by rw [hpc]; rfl)
  case steal.cons =>
    cases h
    refine hwalk rfl hold rfl ?_ (by rw [hpc]; rfl)
    rintro u th ⟨⟩
    rfl
  case probe =>
    split_ifs at h <;> cases h <;> exact hwalk rfl hold rfl (by simp [Post.robs]) (by rw [hpc]; rfl)
  case take =>
    split_ifs at h with hlocked hzero <;> cases h
    · exact hwalk rfl hold rfl (by simp [Post.robs]) (by rw [hpc]; rfl)
    · exact ⟨.run, moved_pop hdeques hinj .hot hzero hold (by rw [hpc]; rfl)⟩
  case park =>
    split_ifs at h
    cases h
    exact ⟨_, .start hdeques hinj rfl hold (hok hold).pop rfl (by rw [hpc]; rfl)⟩
  case parkInjector =>
    split_ifs at h with hzero <;> cases h
    · exact hwalk rfl hold rfl (by simp [Post.robs]) (by rw [hpc]; rfl)
    · exact ⟨.run, moved_pop hdeques hinj .parked hzero hold (by rw [hpc]; rfl)⟩

/-! ### Every run -/

section Run

variable [Fintype D]

/-- A sum in which one summand changes. -/
theorem sum_update {α M : Type*} [AddCommMonoid M] (f : α → M) (g : D → α) (d : D) (a : α) :
    ∑ e, f (Function.update g d a e) + f (g d) = ∑ e, f (g e) + f a := by
  have hupdate : ∀ e, f (Function.update g d a e) =
      Function.update (fun e => f (g e)) d (f a) e := by
    intro e
    rcases eq_or_ne e d with rfl | hne
    · simp
    · simp [Function.update_of_ne hne]
  simp only [hupdate]
  rw [Finset.sum_update_of_mem (Finset.mem_univ d),
    ← Finset.sum_erase_add _ _ (Finset.mem_univ d), Finset.sdiff_singleton_eq_erase]
  abel

/-- The deques, their thieves and the injector are in order, and the tasks enqueued are those handed
out and those still held. -/
structure Inv (s : Executor D T) : Prop where
  deques : DequesOk s.deques s.pcs
  inj : s.inj.Ok
  tasks : s.enqueued = s.handed + stored s.deques + s.inj.content + hands s.pcs + s.waiting

omit [DecidableEq D] in
theorem inv_new : Inv (new : Executor D T) where
  deques := ⟨fun _ => Deque.ok_new, by simp [new, Post.robs]⟩
  inj := Injector.ok_new
  tasks := by simp [new, stored, hands, Deque.new, Injector.new, Post.hand]

theorem Moved.inv {pc : Post D T} (hinv : Inv s) (h : Moved s d s' pc) : Inv s' := by
  refine ⟨h.deques, h.inj, ?_⟩
  obtain ⟨v, dq, hdeques, hchanged⟩ := h.changed
  have hstored := sum_update (fun dq : Deque T => (dq.content : Multiset T)) s.deques v dq
  have hhands := sum_update Post.hand s.pcs d pc
  rw [h.enqueued, h.waiting, hinv.tasks]
  simp only [stored, hands, hdeques, h.pcs]
  refine congrArg (· + s.waiting) ?_
  -- what the worker and the deque had before is added on both sides
  refine add_right_cancel (b := ((s.deques v).content : Multiset T) + (s.pcs d).hand) ?_
  calc s.handed + ∑ e, ((s.deques e).content : Multiset T) + s.inj.content + ∑ e, (s.pcs e).hand +
        ((s.deques v).content + (s.pcs d).hand)
      = s.handed + (s.deques v).content + s.inj.content + (s.pcs d).hand +
          ∑ e, ((s.deques e).content : Multiset T) + ∑ e, (s.pcs e).hand := by abel
    _ = s'.handed + s'.inj.content + (∑ e, ((s.deques e).content : Multiset T) + dq.content) +
          (∑ e, (s.pcs e).hand + pc.hand) := by
        rw [← hchanged]
        abel
    _ = _ := by
        rw [← hstored, ← hhands]
        abel

/-- A worker chooses what to do next. -/
theorem inv_look {pc : Post D T} (hinv : Inv s) (hold : (s.pcs d).owner = none)
    (hhand : (s.pcs d).hand = 0)
    (hpc : pc = .own .hot .popBottom ∨ (∃ m victims, pc = .steal m victims) ∨ pc = .probe ∨
      pc = .park) : Inv (s.goto d pc) := by
  have hok : (s.deques d).Ok none := by
    have := hinv.deques.ok d
    rwa [hold] at this
  have hmoved : Moved s d (s.goto d pc) pc := by
    rcases hpc with rfl | ⟨m, victims, rfl⟩ | rfl | rfl
    · exact .start hinv.deques hinv.inj rfl hold hok.pop rfl hhand.symm
    all_goals exact .walk hinv.deques hinv.inj rfl hold rfl (by simp [Post.robs]) hhand.symm
  exact hmoved.inv hinv

theorem Inv.step (hinv : Inv s) (h : Step s s') : Inv s' := by
  cases h with
  | move h =>
    obtain ⟨pc, hmoved⟩ := moved hinv.deques hinv.inj h
    exact hmoved.inv hinv
  | @enqueue d t h =>
    have hold : (s.pcs d).owner = none := by rw [h]; rfl
    refine ⟨hinv.deques.walk hold rfl (by simp [Post.robs]), hinv.inj, ?_⟩
    have hhands : hands (Function.update s.pcs d (.enqueue t)) = hands s.pcs + {t} := by
      have hsum := sum_update Post.hand s.pcs d (.enqueue t)
      rwa [h, show (Post.run : Post D T).hand = 0 from rfl, add_zero] at hsum
    simp only [goto, hhands, hinv.tasks, ← Multiset.singleton_add]
    abel
  | look h hpc =>
    refine inv_look hinv (by rw [h]; rfl) (by rw [h]; rfl) ?_
    rcases hpc with hpc | ⟨victims, hpc⟩ | hpc | hpc
    · exact .inl hpc
    · exact .inr (.inl ⟨.hot, victims, hpc⟩)
    · exact .inr (.inr (.inl hpc))
    · exact .inr (.inr (.inr hpc))
  | siblings victims h =>
    exact inv_look hinv (by rw [h]; rfl) (by rw [h]; rfl) (.inr (.inl ⟨_, victims, rfl⟩))
  | call t =>
    refine ⟨hinv.deques, hinv.inj, ?_⟩
    simp only [hinv.tasks, ← Multiset.singleton_add]
    abel
  | @inject t waiting h hfree =>
    obtain ⟨hpush, hcontent⟩ := hinv.inj.push t
    refine ⟨hinv.deques, hpush, ?_⟩
    simp only [hinv.tasks, h, hcontent, ← Multiset.coe_add, Multiset.coe_singleton,
      ← Multiset.singleton_add]
    abel

theorem Reachable.inv (h : s.Reachable) : Inv s := by
  induction h with
  | refl => exact inv_new
  | tail _ hstep ih => exact ih.step hstep

/-- The owner of the deque is between two operations, and nobody steals from it. -/
def AtRest (s : Executor D T) (d : D) : Prop :=
  (s.pcs d).owner = none ∧ ∀ e th, (s.pcs e).robs ≠ some (d, th)

/-- **Every task runs once, and a deque is in order unless its owner has won an exchange.** In every
reachable state the tasks enqueued are those handed out, those at the positions of the deques and of
the injector, and those that a thread is about to put there; the injector holds its tasks in the
order they were pushed; and at rest a deque is in order if and only if its owner has never won the
exchange for the only task left. -/
theorem tasks_held_once (hreach : s.Reachable) :
    (s.enqueued = s.handed + stored s.deques + s.inj.content + hands s.pcs + s.waiting ∧
      ∀ d, (s.deques d).content.map some = window dequeCap (s.deques d).buf (s.deques d).top
        ((s.deques d).last (s.pcs d).owner - (s.deques d).top)) ∧
    (∀ d, s.AtRest d → ((s.deques d).InOrder ↔ (s.deques d).won = false)) ∧
    s.inj.content.length = s.inj.len ∧
      s.inj.content.map some = window s.inj.cap s.inj.buf s.inj.head s.inj.len := by
  have hinv := hreach.inv
  refine ⟨⟨hinv.tasks, fun d => (hinv.deques.ok d).content⟩, fun d hrest => ?_,
    hinv.inj.length_content, hinv.inj.content⟩
  have hok := hinv.deques.ok d
  rw [hrest.1] at hok
  exact hok.inOrder_iff

end Run

/-! ### One worker -/

/-- The state after so many moves of a worker. -/
def play (d : D) : ℕ → Executor D T → Option (Executor D T)
  | 0, s => some s
  | n + 1, s => (s.move d).bind (play d n)

theorem reachable_of_play {n : ℕ} (hreach : s.Reachable) (h : s.play d n = some s') :
    s'.Reachable := by
  induction n generalizing s with
  | zero =>
    cases h
    exact hreach
  | succ n ih =>
    obtain ⟨s₁, hmove, hrest⟩ := Option.bind_eq_some_iff.mp h
    exact ih (hreach.tail (.move hmove)) hrest

/-- The first task is about to be enqueued by a worker. -/
def first : Executor Unit ℕ := { (new : Executor Unit ℕ) with enqueued := {7} }.goto () (.enqueue 7)

theorem atRest_of_isRun {s : Executor Unit ℕ} (h : (s.pcs ()).isRun = true) : s.AtRest () := by
  refine ⟨by rw [Post.eq_run h]; rfl, fun _ th => ?_⟩
  rw [Post.eq_run h]
  simp [Post.robs]

theorem first_reachable : first.Reachable := by
  have hstep : Step (new : Executor Unit ℕ) _ := .enqueue (d := ()) 7 rfl
  exact Relation.ReflTransGen.single hstep

/-- The worker has pushed the task. -/
theorem tasks_held_once_first :
    ∃ s : Executor Unit ℕ, s.Reachable ∧ (s.deques ()).content = [7] ∧ (s.deques ()).InOrder ∧
      s.enqueued = s.handed + stored s.deques + s.inj.content + hands s.pcs + s.waiting := by
  have htest : (first.play () 3).any (fun s => decide ((s.deques ()).content = [7] ∧
      (s.deques ()).won = false) && (s.pcs ()).isRun) = true := by decide +kernel
  rcases hplay : first.play () 3 with _ | s
  · simp [hplay] at htest
  · simp only [hplay, Option.any_some, Bool.and_eq_true, decide_eq_true_eq] at htest
    obtain ⟨⟨hcontent, hwon⟩, hrun⟩ := htest
    have hreach := reachable_of_play first_reachable hplay
    have hall := tasks_held_once hreach
    exact ⟨s, hreach, hcontent, (hall.2.1 () (atRest_of_isRun hrun)).mpr hwon, hall.1.1⟩

/-- A worker enqueues a task and takes it out again: nothing is going on, and the top of its deque
is past the bottom. -/
theorem lone_pop_drifts :
    ∃ s : Executor Unit ℕ, s.Reachable ∧ s.AtRest () ∧ s.handed = {7} ∧
      (s.deques ()).top = 1 ∧ (s.deques ()).bottom = 0 ∧ ¬(s.deques ()).InOrder := by
  have htest : (first.play () 3).any (fun s => (s.pcs ()).isRun &&
      ((s.goto () (.own .hot .popBottom)).play () 3).any fun s' => (s'.pcs ()).isRun &&
        decide (s'.handed = {7} ∧ (s'.deques ()).top = 1 ∧ (s'.deques ()).bottom = 0)) = true := by
    decide +kernel
  rcases hplay : first.play () 3 with _ | s
  · simp [hplay] at htest
  · simp only [hplay, Option.any_some, Bool.and_eq_true] at htest
    obtain ⟨hrun, htest⟩ := htest
    have hreach := reachable_of_play first_reachable hplay
    rcases hplay' : (s.goto () (.own .hot .popBottom)).play () 3 with _ | s'
    · simp [hplay'] at htest
    · simp only [hplay', Option.any_some, Bool.and_eq_true, decide_eq_true_eq] at htest
      obtain ⟨hrun', hhanded, htop, hbottom⟩ := htest
      refine ⟨s', reachable_of_play (hreach.tail (.look (Post.eq_run hrun) (.inl rfl))) hplay',
        atRest_of_isRun hrun', hhanded, htop, hbottom, fun horder => ?_⟩
      have := horder.top_le
      omega

end Executor

end ZzLang.Aot
