import ZzLang.Conc.Mutex
import Mathlib.Data.Multiset.UnionInter

/-!
# Where a task is

A task with a registry entry is in one place at a time: in the list of waiters of the channel,
in a queue of the executor, or with one thread, which runs it, parks it, or is about to wake it.
The thread that parks a task gives it up at the registration, although it has not yet put the
task back into its entry: from then on a sender may take it from the list.

A deliver slot is filled only by the thread that has taken the task from the list, and the task
is then on its way through the executor's queue to the thread that empties the slot. So a slot
is empty whenever a sender is about to fill it, and when the task ends.
-/

namespace ZzLang.Conc

open MpmcRing ThreadPool

variable {V : Type} {s s' : Shared V} {p : Pc V} {next : Option (Pc V)} {ch : Choice V}

attribute [local simp] Shared.lock Shared.unlock Shared.popSpill Shared.receive Shared.unpark
  Shared.register Shared.takeWaiters Shared.enqueueTask Shared.store

/-! ### The tasks a thread has -/

def Caller.tasks : Caller → Multiset TaskId
  | thread => 0
  | slice t => {t}

def Receiver.tasks : Receiver → Multiset TaskId
  | green t => {t}
  | blocking c => c.tasks

def Gate.tasks : Gate → Multiset TaskId
  | fast r => r.tasks
  | spin c => c.tasks
  | parkSpin t => {t}

def Site.tasks : Site → Multiset TaskId
  | gated g => g.tasks
  | slow r => r.tasks
  | tryRecv c => c.tasks
  | wake c wid ws => c.tasks + wid ::ₘ ws
  | park _ => 0

namespace Pc

/-- The tasks that are with this thread. -/
def tasks : Pc V → Multiset TaskId
  | .enq c _ _ _ | .spill c _ | .service c | .notify c => c.tasks
  | .wakes c ws => c.tasks + ws
  | .woken c wid ws _ | .deliver c wid ws _ | .enqueue c wid ws | .repark c wid ws =>
    c.tasks + wid ::ₘ ws
  | .gate g _ => g.tasks
  | .deq site _ _ | .got site _ => site.tasks
  | .recvLock r => r.tasks
  | .recvLoop c | .spinAgain c | .sleepAnnounce c | .sleepTail c | .sleepHead c _ | .asleep c
  | .sleepDone c | .tryRecv c => c.tasks
  | .parkCheck _ | .parkPutBack _ => 0
  | .parkAgain t | .parkLock t | .parkResume t _ | .parkEnqueue t | .runSlice t | .takeTask t
  | .takeDeliver t | .slice t | .yieldSlice t | .complete t => {t}

/-- The tasks with this thread whose deliver slot may hold a value. -/
def due : Pc V → Multiset TaskId
  | .enqueue _ wid _ => {wid}
  | .runSlice t | .takeTask t | .takeDeliver t => {t}
  | _ => 0

theorem due_le_tasks (p : Pc V) : p.due ≤ p.tasks := by
  rcases p with _ | _ | _ | _ | _ | _ | ⟨c, wid, ws⟩ | _ | _ | _ | _ | _ | _ | _ | _ | _ | _ | _ |
    _ | _ | _ | _ | _ | _ | _ | _ | _ | _ | _ | _ | _ | _ | _
  case enqueue => simp [due, tasks]
  all_goals first | exact Multiset.zero_le _ | exact le_rfl

end Pc

/-- The tasks that are with nobody: registered with the channel, or in the executor's queue. -/
def Shared.waiting (s : Shared V) : Multiset TaskId :=
  s.greenWaiters + s.ready

/-! ### One step -/

theorem tasks_resume (c : Caller) : (c.resume : Option (Pc V)).elim 0 Pc.tasks = c.tasks := by
  rcases c with _ | t <;> rfl

theorem tasks_resume_receiver (r : Receiver) :
    (r.resume : Option (Pc V)).elim 0 Pc.tasks = r.tasks := by
  rcases r with t | c
  · rfl
  · exact tasks_resume c

theorem tasks_checkGate (g : Gate) (s : Shared V) (flag : Flag) :
    (checkGate g s flag).tasks = g.tasks := by
  rcases flag with _ | _ | _ <;> simp only [checkGate] <;> split_ifs <;>
    first | rfl | (rcases g with _ | _ | _ <;> rfl)

/-- Leaving the list of waiters. -/
theorem waiting_unpark {t : TaskId} (hnodup : s.greenWaiters.Nodup) (ht : t ∈ s.greenWaiters) :
    (s.unpark t).waiting + {t} = s.waiting := by
  have herase : s.greenWaiters.filter (fun u => decide (u ≠ t)) = s.greenWaiters.erase t := by
    rw [hnodup.erase_eq_filter]
    exact List.filter_congr fun u _ => Bool.eq_iff_iff.mpr (by simp)
  have hcons : t ::ₘ (s.greenWaiters.erase t : Multiset TaskId) = s.greenWaiters :=
    Multiset.coe_eq_coe.mpr (List.perm_cons_erase ht).symm
  simp only [Shared.waiting, Shared.unpark, herase]
  rw [← hcons, Multiset.cons_add, add_comm, Multiset.singleton_add]

/-- What a step does to the tasks: it moves them between the thread, the list and the queue, or
it reaps one. -/
inductive TaskStep (s s' : Shared V) (p : Pc V) (next : Option (Pc V)) : Prop
  | moved (hlive : s'.live = s.live)
      (htasks : s'.waiting + next.elim 0 Pc.tasks = s.waiting + p.tasks)
  | reaped (t : TaskId) (hp : p = .complete t) (hlive : s'.live = s.live.erase t)
      (hwaiting : s'.waiting = s.waiting) (hnext : next = none)

theorem tasks_after (site : Site) (value : Option V) (s : Shared V)
    (hnodup : s.greenWaiters.Nodup)
    (hreg : ∀ t, site.registering = some t → t ∈ s.greenWaiters) :
    (site.after value s).1.live = s.live ∧ (site.after value s).1.nextId = s.nextId ∧
      (site.after value s).1.waiting + (site.after value s).2.elim 0 Pc.tasks =
        s.waiting + site.tasks := by
  rcases site with (r | c | t) | (t | c) | c | ⟨c, wid, ws⟩ | t <;> rcases value with _ | v
  case park.some =>
    refine ⟨rfl, rfl, ?_⟩
    exact (waiting_unpark hnodup (hreg t rfl)).trans (add_zero _).symm
  all_goals
    refine ⟨rfl, rfl, ?_⟩
    first
    | rfl
    | exact congrArg (s.waiting + ·) (tasks_resume _)
    | exact congrArg (s.waiting + ·) (tasks_resume_receiver _)

theorem tasks_start {a : Act V} {c : Caller} (h : a.start c s = some (s', next)) :
    s'.live = s.live ∧ s'.nextId = s.nextId ∧ s'.waiting = s.waiting ∧ s'.deliver = s.deliver ∧
      s'.ready = s.ready ∧ next.elim 0 Pc.tasks = c.tasks := by
  rcases a with v | _ | _ | _ | _ | _ <;> rcases c with _ | t <;> cases h <;>
    exact ⟨rfl, rfl, rfl, rfl, rfl, rfl⟩

/-- The tasks of a step, when those of the thread are alive and the one it registers is in the
list. -/
theorem task_cases (hlive : ∀ t ∈ p.tasks, t ∈ s.live) (hnodup : s.greenWaiters.Nodup)
    (hreg : ∀ t, p.registering = some t → t ∈ s.greenWaiters)
    (h : p.step ch s = some (s', next)) : s'.nextId = s.nextId ∧ TaskStep s s' p next := by
  replace h := step_cases h
  cases h with
  | enq _ hstep | deq _ hstep =>
    rcases hstep with _ | _ | _ | _ <;> exact ⟨rfl, .moved rfl rfl⟩
  | @got site value =>
    obtain ⟨hlive', hid, htasks⟩ := tasks_after site value s hnodup hreg
    exact ⟨hid, .moved hlive' htasks⟩
  | @gate g flag =>
    exact ⟨rfl, .moved rfl (congrArg (s.waiting + ·) (tasks_checkGate g s flag))⟩
  | slice h =>
    obtain ⟨hlive', hid, hwaiting, -, -, hn⟩ := tasks_start h
    exact ⟨hid, .moved hlive' (by rw [hwaiting, hn]; rfl)⟩
  | @complete t => exact ⟨rfl, .reaped t rfl rfl rfl rfl⟩
  | @parkPop t =>
    exact ⟨rfl, .moved rfl ((waiting_unpark hnodup (hreg t rfl)).trans (add_zero _).symm)⟩
  | wokenDead hdead | runDead hdead => exact absurd (hlive _ (by simp [Pc.tasks])) hdead
  | _ =>
    refine ⟨rfl, .moved rfl ?_⟩
    first
    | rfl
    | exact congrArg (s.waiting + ·) (tasks_resume _)
    | exact congrArg (s.waiting + ·) (tasks_resume_receiver _)
    | (simp only [Shared.waiting, Pc.tasks, Option.elim_some, Option.elim_none,
        Shared.takeWaiters, Shared.register, Shared.enqueueTask, Shared.lock,
        Multiset.coe_nil, ← Multiset.coe_add, ← Multiset.singleton_add, Multiset.coe_singleton]
       abel)

/-! ### Deliver slots -/

/-- The tasks on their way to the thread that empties their slot. -/
def dueTasks (s : Shared V) (q : Option (Pc V)) : Multiset TaskId :=
  s.ready + q.elim 0 Pc.due

/-- What a step does to the slots: a task stays on its way until its slot is empty, and a task
whose slot is filled is on its way. -/
def DueStep (s s' : Shared V) (p : Pc V) (next : Option (Pc V)) : Prop :=
  ∀ t, s'.deliver t ≠ none → (t ∈ dueTasks s (some p) → t ∈ dueTasks s' next) ∧
    (s.deliver t = none → t ∈ dueTasks s' next)

/-- A step that leaves the slots alone and loses nobody. -/
theorem DueStep.of_le (hdeliver : s'.deliver = s.deliver)
    (hle : dueTasks s (some p) ≤ dueTasks s' next) : DueStep s s' p next := by
  intro t ht
  refine ⟨fun hmem => Multiset.mem_of_le hle hmem, fun hnone => ?_⟩
  rw [hdeliver] at ht
  exact absurd hnone ht

theorem due_step (hlive : ∀ t ∈ p.tasks, t ∈ s.live) (h : p.step ch s = some (s', next)) :
    DueStep s s' p next := by
  have hidle : ∀ {s' : Shared V} {p : Pc V} {next : Option (Pc V)}, s'.deliver = s.deliver →
      s'.ready = s.ready → p.due = 0 → DueStep s s' p next := by
    intro s' p next hdeliver hready hp
    refine .of_le hdeliver ?_
    simp [dueTasks, hready, hp]
  replace h := step_cases h
  cases h with
  | enq _ hstep | deq _ hstep => rcases hstep with _ | _ | _ | _ <;> exact hidle rfl rfl rfl
  | @got site value =>
    have hafter : (site.after value s).1.deliver = s.deliver ∧
        (site.after value s).1.ready = s.ready := by
      rcases site with (r | c | t) | (t | c) | c | ⟨c, wid, ws⟩ | t <;> rcases value with _ | v <;>
        exact ⟨rfl, rfl⟩
    exact hidle hafter.1 hafter.2 rfl
  | slice h =>
    obtain ⟨-, -, -, hdeliver, hready, -⟩ := tasks_start h
    exact hidle hdeliver hready rfl
  | @deliver c wid ws v =>
    intro t ht
    refine ⟨fun hmem => ?_, fun hnone => ?_⟩
    · exact Multiset.mem_of_le (by simp [dueTasks, Pc.due]) hmem
    · rcases eq_or_ne t wid with rfl | hne
      · simp [dueTasks, Pc.due]
      · exact absurd hnone (by simpa [Function.update_of_ne hne] using ht)
  | enqueue => exact .of_le rfl (by simp [dueTasks, Pc.due, ← Multiset.singleton_add, add_comm])
  | @parkEnqueue t =>
    exact .of_le rfl (by simpa [dueTasks, Pc.due] using Multiset.le_cons_self s.ready t)
  | runSlice | takeTask => exact .of_le rfl (by simp [dueTasks, Pc.due])
  | runDead hdead => exact absurd (hlive _ (by simp [Pc.tasks])) hdead
  | takeMissing =>
    exact .of_le rfl (by simp [dueTasks, Pc.due, ← Multiset.singleton_add, add_comm])
  -- the slot of the task is empty now, and the other tasks are where they were
  | @takeDeliver t | @takeNothing t | @complete t =>
    intro u hu
    have hne : u ≠ t := by
      rintro rfl
      simp_all
    refine ⟨fun hmem => ?_, fun hnone => ?_⟩
    · simpa [dueTasks, Pc.due, hne] using hmem
    · refine absurd hnone ?_
      first
      | exact hu
      | simpa [Function.update_of_ne hne] using hu
  | _ => exact hidle rfl rfl rfl

/-! ### The invariant -/

/-- Every task is in one place and alive, ids are fresh, and a task whose slot holds a value is
on its way. -/
structure TaskInv (P : System V) : Prop where
  nodup : (P.shared.waiting + total Pc.tasks P.threads).Nodup
  live : ∀ t ∈ P.shared.waiting + total Pc.tasks P.threads, t ∈ P.shared.live
  fresh : ∀ t ∈ P.shared.live, t < P.shared.nextId
  due : ∀ t, P.shared.deliver t ≠ none → t ∈ P.shared.ready + total Pc.due P.threads

namespace TaskInv

variable {rest : Multiset (Pc V)}

theorem nodup_waiters {P : System V} (hinv : TaskInv P) : P.shared.greenWaiters.Nodup := by
  have hle : (P.shared.greenWaiters : Multiset TaskId) ≤
      P.shared.waiting + total Pc.tasks P.threads :=
    (Multiset.le_add_right _ _).trans (Multiset.le_add_right _ _)
  exact Multiset.coe_nodup.mp (Multiset.nodup_of_le hle hinv.nodup)

theorem live_tasks (hinv : TaskInv ⟨s, p ::ₘ rest⟩) : ∀ t ∈ p.tasks, t ∈ s.live := by
  intro t ht
  exact hinv.live t (by simp [ht])

/-- A task with a thread that is not on its way has an empty slot. -/
theorem deliver_eq_none (hinv : TaskInv ⟨s, p ::ₘ rest⟩) {t : TaskId} (ht : t ∈ p.tasks)
    (hdue : t ∉ p.due) : s.deliver t = none := by
  by_contra hne
  have hmem := hinv.due t hne
  simp only [total_cons, Multiset.mem_add, hdue, false_or] at hmem
  have hdisj := Multiset.nodup_add.mp (show (p.tasks + (s.waiting + total Pc.tasks rest)).Nodup by
    simpa [add_left_comm, add_comm, add_assoc] using hinv.nodup)
  refine Multiset.disjoint_left.mp hdisj.2.2 ht ?_
  rcases hmem with hready | hrest
  · simp [Shared.waiting, hready]
  · simp [Multiset.mem_of_le (total_le Pc.due_le_tasks rest) hrest]

theorem due_move (hinv : TaskInv ⟨s, p ::ₘ rest⟩) (hstep : DueStep s s' p next) :
    ∀ t, s'.deliver t ≠ none → t ∈ s'.ready + total Pc.due (with? next rest) := by
  intro t ht
  have hiff : ∀ s : Shared V, ∀ q : Option (Pc V), t ∈ s.ready + total Pc.due (with? q rest) ↔
      t ∈ dueTasks s q ∨ t ∈ total Pc.due rest := by
    intro s q
    rw [total_with?, ← add_assoc, Multiset.mem_add]
    rfl
  obtain ⟨hkeep, hnew⟩ := hstep t ht
  rw [hiff]
  by_cases hold : s.deliver t = none
  · exact .inl (hnew hold)
  · exact ((hiff s (some p)).mp (hinv.due t hold)).imp_left hkeep

theorem move (hinv : TaskInv ⟨s, p ::ₘ rest⟩)
    (hreg : ∀ t, p.registering = some t → t ∈ s.greenWaiters) (hmoves : Moves p s s' next) :
    TaskInv ⟨s', with? next rest⟩ := by
  obtain ⟨ch, h⟩ := hmoves
  have hdue := hinv.due_move (due_step hinv.live_tasks h)
  obtain ⟨hid, hstep⟩ := task_cases hinv.live_tasks hinv.nodup_waiters hreg h
  rcases hstep with ⟨hlive, htasks⟩ | ⟨t, rfl, hlive, hwaiting, rfl⟩
  · have heq : s'.waiting + total Pc.tasks (with? next rest) =
        s.waiting + total Pc.tasks (p ::ₘ rest) := by
      rw [total_with?, total_cons, ← add_assoc, htasks, add_assoc]
    refine ⟨?_, ?_, ?_, hdue⟩
    · simpa only [heq] using hinv.nodup
    · simpa only [heq, hlive] using hinv.live
    · simpa only [hlive, hid] using hinv.fresh
  · have heq : s.waiting + total Pc.tasks (.complete t ::ₘ rest) =
        t ::ₘ (s.waiting + total Pc.tasks rest) := by
      rw [total_cons, add_left_comm]
      rfl
    have hnodup := hinv.nodup
    have hmem := hinv.live
    simp only [heq] at hnodup hmem
    refine ⟨?_, ?_, ?_, hdue⟩
    · simpa only [hwaiting, with?_none] using (Multiset.nodup_cons.mp hnodup).2
    · intro u hu
      simp only [hwaiting, with?_none] at hu
      have hne : u ≠ t := by
        rintro rfl
        exact (Multiset.nodup_cons.mp hnodup).1 hu
      simp only [hlive]
      exact Finset.mem_erase.mpr ⟨hne, hmem u (Multiset.mem_cons_of_mem hu)⟩
    · intro u hu
      simp only [hlive] at hu
      simp only [hid]
      exact hinv.fresh u (Finset.mem_of_mem_erase hu)

/-- A fresh task has an id and an empty slot of its own. -/
theorem notMem_nextId {P : System V} (hinv : TaskInv P) :
    P.shared.nextId ∉ P.shared.live ∧ P.shared.deliver P.shared.nextId = none := by
  have hlive : P.shared.nextId ∉ P.shared.live := fun hmem => lt_irrefl _ (hinv.fresh _ hmem)
  refine ⟨hlive, ?_⟩
  by_contra hne
  refine hlive (hinv.live _ ?_)
  rcases Multiset.mem_add.mp (hinv.due _ hne) with hready | hdue
  · simp [Shared.waiting, hready]
  · simp [Multiset.mem_of_le (total_le Pc.due_le_tasks P.threads) hdue]

theorem outside {threads : Multiset (Pc V)} (hinv : TaskInv ⟨s, threads⟩)
    (houtside : Outside s s' next) : TaskInv ⟨s', with? next threads⟩ := by
  cases houtside with
  | start a h =>
    obtain ⟨hlive, hid, hwaiting, hdeliver, hready, hn⟩ := tasks_start h
    have heq : s'.waiting + total Pc.tasks (with? next threads) =
        s.waiting + total Pc.tasks threads := by
      rw [total_with?, hn, hwaiting]
      exact congrArg (s.waiting + ·) (zero_add _)
    refine ⟨?_, ?_, ?_, ?_⟩
    · simpa only [heq] using hinv.nodup
    · simpa only [heq, hlive] using hinv.live
    · simpa only [hlive, hid] using hinv.fresh
    · intro t ht
      simp only [hdeliver] at ht
      refine Multiset.mem_of_le ?_ (hinv.due t ht)
      simp only [hready, total_with?]
      exact add_le_add le_rfl (Multiset.le_add_left _ _)
  | spawn =>
    obtain ⟨hfresh, hslot⟩ := hinv.notMem_nextId
    have hnew : s.nextId ∉ s.waiting + total Pc.tasks threads := fun hmem =>
      hfresh (hinv.live _ hmem)
    have heq : (s.greenWaiters : Multiset TaskId) + s.nextId ::ₘ s.ready +
        total Pc.tasks threads = s.nextId ::ₘ (s.waiting + total Pc.tasks threads) := by
      rw [Multiset.add_cons, Multiset.cons_add]
      rfl
    refine ⟨?_, ?_, ?_, ?_⟩
    · exact heq ▸ Multiset.nodup_cons.mpr ⟨hnew, hinv.nodup⟩
    · intro t ht
      rcases Multiset.mem_cons.mp (heq ▸ ht : t ∈ s.nextId ::ₘ _) with rfl | ht
      · exact Finset.mem_insert_self _ _
      · exact Finset.mem_insert_of_mem (hinv.live t ht)
    · intro t ht
      rcases Finset.mem_insert.mp ht with rfl | ht
      · exact Nat.lt_succ_self _
      · exact (hinv.fresh t ht).trans (Nat.lt_succ_self _)
    · intro t ht
      refine Multiset.mem_of_le ?_ (hinv.due t ht)
      exact add_le_add (Multiset.le_cons_self _ _) le_rfl
  | @pop t ready hready =>
    have heq : ((s.greenWaiters : Multiset TaskId) + ready) +
        total Pc.tasks (.runSlice t ::ₘ threads) = s.waiting + total Pc.tasks threads := by
      rw [total_cons, Shared.waiting, hready, ← Multiset.singleton_add]
      simp only [Pc.tasks]
      abel
    refine ⟨?_, ?_, hinv.fresh, ?_⟩
    · exact heq ▸ hinv.nodup
    · intro u hu
      exact hinv.live u (heq ▸ hu)
    · intro u hu
      have hmem := hinv.due u hu
      simp only [hready] at hmem
      simpa [Pc.due, or_left_comm, or_assoc] using hmem

end TaskInv

theorem taskInv_new : TaskInv (System.new : System V) where
  nodup := by simp [System.new, Shared.waiting, Shared.new]
  live := by simp [System.new, Shared.waiting, Shared.new]
  fresh := by simp [System.new, Shared.new]
  due := by simp [System.new, Shared.new]

end ZzLang.Conc
