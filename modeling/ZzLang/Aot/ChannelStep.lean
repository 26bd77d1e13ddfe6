import ZzLang.Aot.Channel

/-!
# What a step on a channel can do

Everything the proofs about channels use of the code is one list (`StepCase`): a step either moves
a thread along without touching the channel, or takes or leaves the lock, or it is one of the steps
that move a value, a frame or a position of the ring. That the ring is in order (`ringOk_move`) and
that the lock is held by one thread at a time (`mutex_move`) is read off the list, as are the
properties of the later modules.
-/

namespace ZzLang.Aot

open MpmcRing ThreadPool

variable {V : Type} {s s' : Shared V} {p : Pc V} {next : Option (Pc V)}
  {rest threads : Multiset (Pc V)}

/-! ### What a thread is doing -/

/-- The part of an operation on the ring that a thread is in. -/
def Pc.view : Pc V → RingView V
  | .enq _ _ phase => .enq phase
  | .deq _ _ phase => .deq phase
  | _ => .away

/-- A place that is reached with the lock held. -/
def Site.holds : Site → ℕ
  | .free _ => 0
  | .locked _ | .recheck _ => 1

/-- One for a thread that holds the lock. -/
def Pc.holds : Pc V → ℕ
  | .enq .. | .sent | .spill _ | .sleepTail _ | .sleepHead .. => 1
  | .deq site _ _ | .got site _ => site.holds
  | _ => 0

/-- The frame of a receive that has not registered it, by its number. -/
def Recv.fresh : Recv → Multiset ℕ
  | .green f => {f.id}
  | _ => 0

/-- As above, for a lock-free pop. -/
def Gate.fresh : Gate → Multiset ℕ
  | .fast o => o.fresh
  | .spin => 0

/-- As above, for any pop. -/
def Site.fresh : Site → Multiset ℕ
  | .free g => g.fresh
  | .locked o => o.fresh
  | .recheck _ => 0

/-- The frame that a thread has and has not registered. -/
def Pc.fresh : Pc V → Multiset ℕ
  | .gateWaiters g | .gateSpill g => g.fresh
  | .deq site _ _ | .got site _ => site.fresh
  | .lock o => o.fresh
  | _ => 0

/-- A receive that is neither at the ring nor in possession of a value. -/
inductive Pc.Light : Pc V → Prop
  | gateWaiters (g : Gate) : Light (.gateWaiters g)
  | gateSpill (g : Gate) : Light (.gateSpill g)
  | missedFree (g : Gate) : Light (.got (.free g) none)
  | missedLocked (o : Recv) : Light (.got (.locked o) none)
  | spinStart : Light .spinStart
  | spinAgain : Light .spinAgain
  | lock (o : Recv) : Light (.lock o)
  | sleepLock : Light .sleepLock
  | sleepTail (announced : Bool) : Light (.sleepTail announced)
  | sleepHead (announced : Bool) (tail : ℕ) : Light (.sleepHead announced tail)
  | asleep : Light .asleep

theorem Pc.Light.view (h : p.Light) : p.view = .away := by
  cases h <;> rfl

/-! ### The list -/

/-- Where a thread goes after a step of `zz_ring_try_enqueue`. -/
def afterEnq (v : V) : EnqNext → Pc V
  | .go tries phase => .enq v tries phase
  | .full => .spill v
  | .done => .sent

/-- Where a thread goes after a step of `zz_ring_try_dequeue`. -/
def afterDeq (site : Site) : DeqNext V → Pc V
  | .go tries phase => .deq site tries phase
  | .miss => .got site none
  | .got value => .got site value

/-- What a step can do. -/
inductive StepCase (s : Shared V) : Pc V → Shared V → Option (Pc V) → Prop
  | walk {p q : Pc V} (hp : p.Light) (hq : q.Light) (hholds : q.holds = p.holds)
      (hfresh : q.fresh = p.fresh) : StepCase s p s (some q)
  | acquire {p q : Pc V} (hfree : s.locked = false) (hp : p.Light) (hq : q.Light)
      (hholds : p.holds = 0) (hholds' : q.holds = 1) (hfresh : q.fresh = p.fresh) :
      StepCase s p s.lock (some q)
  | leave {p : Pc V} {next : Option (Pc V)} (hp : p.Light) (hnext : ∀ q ∈ next, q.Light)
      (hholds : p.holds = 1) (hholds' : next.elim 0 Pc.holds = 0)
      (hfresh : next.elim 0 Pc.fresh ≤ p.fresh) : StepCase s p s.unlock next
  | handoff {v : V} {f : Frame} {ws : List Frame} (hfree : s.locked = false)
      (hwaiters : s.waiters = f :: ws) :
      StepCase s (.send v) (s.handoff f ws v) (if f.isTask then some (.requeue f) else none)
  | offer {v : V} (hfree : s.locked = false) (hwaiters : s.waiters = []) :
      StepCase s (.send v) s.lock (some (.enq v 4 .load))
  | enq {v : V} {tries : ℕ} {phase : EnqPhase} {ring : Buffer V} {n : EnqNext}
      (hring : EnqCase ringCap v s.ring phase (ring, n))
      (hview : (RingView.enq phase : RingView V).Seen ringCap s.ring →
        ViewStep ringCap s.ring ring (.enq phase) n.view) :
      StepCase s (.enq v tries phase) { s with ring } (some (afterEnq v n))
  | sent : StepCase s .sent s.unlock none
  | spill {v : V} : StepCase s (.spill v) (s.pushSpill v).unlock none
  | requeue {f : Frame} : StepCase s (.requeue f) { s with ready := f ::ₘ s.ready } none
  | gate {g : Gate} (hspill : s.spillCount = 0) :
      StepCase s (.gateSpill g) s (some (.deq (.free g) 4 .load))
  | deq {site : Site} {tries : ℕ} {phase : DeqPhase V} {ring : Buffer V} {n : DeqNext V}
      (hring : DeqCase ringCap s.ring phase (ring, n))
      (hview : (RingView.deq phase).Seen ringCap s.ring →
        ViewStep ringCap s.ring ring (.deq phase) n.view) :
      StepCase s (.deq site tries phase) { s with ring } (some (afterDeq site n))
  | slow {o : Recv} (hfree : s.locked = false) (hqueue : s.queue = []) :
      StepCase s (.lock o) s.lock (some (.deq (.locked o) 4 .load))
  | pop {o : Recv} {v : V} {queue : List V} (hfree : s.locked = false)
      (hqueue : s.queue = v :: queue) : StepCase s (.lock o) ((s.popSpill queue).receive v) none
  | takeFree {g : Gate} {v : V} : StepCase s (.got (.free g) (some v)) (s.receive v) none
  | takeLocked {o : Recv} {v : V} :
      StepCase s (.got (.locked o) (some v)) (s.receive v).unlock none
  | register {f : Frame} (hqueue : s.queue = []) :
      StepCase s (.got (.locked (.green f)) none) (s.register f)
        (some (.deq (.recheck f) 4 .load))
  | registerPop {f : Frame} {v : V} {queue : List V} (hqueue : s.queue = v :: queue) :
      StepCase s (.got (.locked (.green f)) none)
        ((((s.register f).popSpill queue).unregister f).receive v).unlock none
  | takeRecheck {f : Frame} {v : V} :
      StepCase s (.got (.recheck f) (some v)) ((s.unregister f).receive v).unlock none
  | suspend {f : Frame} : StepCase s (.got (.recheck f) none) s.unlock
      (if f.isTask then none else some (.parked f))
  | takeSlot {f : Frame} {v : V} (hfree : s.locked = false) (hslot : s.slots f.id = some v) :
      StepCase s (.parked f) (s.takeSlot f v) none

theorem Gate.light_refused (g : Gate) : (g.refused : Pc V).Light ∧
    (g.refused : Pc V).holds = 0 ∧ (g.refused : Pc V).fresh = g.fresh := by
  rcases g with (_ | _ | f) | _ <;> exact ⟨by constructor, rfl, rfl⟩

theorem Gate.light_missed (g : Gate) : (g.missed : Pc V).Light ∧
    (g.missed : Pc V).holds = 0 ∧ (g.missed : Pc V).fresh = g.fresh := by
  rcases g with (_ | _ | f) | _ <;> exact ⟨by constructor, rfl, rfl⟩

theorem stepCase_after (ok : Bool) (s : Shared V) (site : Site) (value : Option V) :
    StepCase s (.got site value) (site.after ok s value).1 (site.after ok s value).2 := by
  rcases site with g | o | f <;> rcases value with _ | v
  · obtain ⟨hlight, hholds, hfresh⟩ := g.light_missed (V := V)
    exact .walk (.missedFree g) hlight hholds hfresh
  · exact .takeFree
  · rcases o with _ | _ | f
    · refine .leave (.missedLocked _) ?_ rfl ?_ ?_ <;> rcases ok with _ | _
      · rintro q ⟨⟩
        exact .lock _
      · rintro q ⟨⟩
        exact .sleepLock
      all_goals rfl
    · exact .leave (.missedLocked _) (by simp [Site.after]) rfl rfl le_rfl
    · rcases hqueue : s.queue with _ | ⟨v, queue⟩
      · have hafter : (Site.locked (.green f)).after ok s none =
            (s.register f, some (.deq (.recheck f) 4 .load)) := by
          simp only [Site.after, Shared.register, hqueue]
        rw [hafter]
        exact .register hqueue
      · have hafter : (Site.locked (.green f)).after ok s none =
            (((((s.register f).popSpill queue).unregister f).receive v).unlock, none) := by
          simp only [Site.after, Shared.register, hqueue]
        rw [hafter]
        exact .registerPop hqueue
  · exact .takeLocked
  · exact .suspend
  · exact .takeRecheck

/-- **A step is one of the list.** -/
theorem stepCase {ok : Bool} (h : p.step ok s = some (s', next)) : StepCase s p s' next := by
  rcases p with v | ⟨v, tries, phase⟩ | _ | v | f | g | g | ⟨site, tries, phase⟩ | ⟨site, value⟩ |
    _ | _ | o | _ | announced | ⟨announced, tail⟩ | _ | f
  case enq =>
    have hring := enqStep_case ringCap ok v tries s.ring phase
    have hview : (RingView.enq phase : RingView V).Seen ringCap s.ring → ViewStep ringCap s.ring
        (enqStep ringCap ok v tries s.ring phase).1 (.enq phase)
        (enqStep ringCap ok v tries s.ring phase).2.view := enqStep_view
    simp only [Pc.step] at h
    revert h hring hview
    rcases enqStep ringCap ok v tries s.ring phase with ⟨ring, _ | _ | _⟩ <;>
      rintro ⟨⟩ hring hview <;> exact .enq hring hview
  case deq =>
    have hring := deqStep_case ringCap ok tries s.ring phase
    have hview : (RingView.deq phase).Seen ringCap s.ring → ViewStep ringCap s.ring
        (deqStep ringCap ok tries s.ring phase).1 (.deq phase)
        (deqStep ringCap ok tries s.ring phase).2.view := deqStep_view
    simp only [Pc.step] at h
    revert h hring hview
    rcases deqStep ringCap ok tries s.ring phase with ⟨ring, _ | _ | _⟩ <;>
      rintro ⟨⟩ hring hview <;> exact .deq hring hview
  case got =>
    have hafter := stepCase_after ok s site value
    rw [Option.some.inj h] at hafter
    exact hafter
  case send =>
    simp only [Pc.step] at h
    split_ifs at h with hlocked
    split at h
    · cases h
      exact .handoff (by simpa using hlocked) ‹_›
    · cases h
      exact .offer (by simpa using hlocked) ‹_›
  case lock =>
    simp only [Pc.step] at h
    split_ifs at h with hlocked
    split at h
    · cases h
      exact .pop (by simpa using hlocked) ‹_›
    · cases h
      exact .slow (by simpa using hlocked) ‹_›
  case parked =>
    simp only [Pc.step] at h
    split_ifs at h with hlocked
    split at h
    · cases h
      exact .takeSlot (by simpa using hlocked) ‹_›
    · cases h
  case gateWaiters =>
    cases h
    split_ifs
    · exact .walk (.gateWaiters g) (.gateSpill g) rfl rfl
    · obtain ⟨hlight, hholds, hfresh⟩ := g.light_refused (V := V)
      exact .walk (.gateWaiters g) hlight hholds hfresh
  case gateSpill =>
    cases h
    split_ifs with hspill
    · exact .gate hspill
    · obtain ⟨hlight, hholds, hfresh⟩ := g.light_refused (V := V)
      exact .walk (.gateSpill g) hlight hholds hfresh
  case spinStart =>
    cases h
    split_ifs
    · exact .walk .spinStart (.gateWaiters _) rfl rfl
    · exact .walk .spinStart (.lock _) rfl rfl
  case spinAgain =>
    cases h
    split_ifs
    · exact .walk .spinAgain (.gateWaiters _) rfl rfl
    · exact .walk .spinAgain (.lock _) rfl rfl
  case sleepLock =>
    simp only [Pc.step] at h
    split_ifs at h with hlocked
    cases h
    exact .acquire (by simpa using hlocked) .sleepLock (.sleepTail _) rfl rfl rfl
  case asleep =>
    simp only [Pc.step] at h
    split_ifs at h with hlocked
    cases h
    exact .acquire (by simpa using hlocked) .asleep (.sleepTail _) rfl rfl rfl
  case sleepTail =>
    simp only [Pc.step] at h
    split at h <;> cases h
    · exact .leave (.sleepTail _) (by rintro q ⟨⟩; exact .lock _) rfl rfl le_rfl
    · exact .walk (.sleepTail _) (.sleepHead _ _) rfl rfl
  case sleepHead =>
    simp only [Pc.step] at h
    split_ifs at h <;> cases h
    · exact .leave (.sleepHead _ _) (by rintro q ⟨⟩; exact .lock _) rfl rfl le_rfl
    · exact .leave (.sleepHead _ _) (by rintro q ⟨⟩; exact .asleep) rfl rfl le_rfl
    · exact .walk (.sleepHead _ _) (.sleepTail _) rfl rfl
  case sent =>
    cases h
    exact .sent
  case spill =>
    cases h
    exact .spill
  case requeue =>
    cases h
    exact .requeue

/-! ### Unregistering changes the list only -/

namespace Shared

theorem unregister_eq (s : Shared V) (f : Frame) :
    ∃ ws n, s.unregister f = { s with waiters := ws, greenWaiters := n } := by
  rw [unregister]
  split_ifs
  · exact ⟨_, _, rfl⟩
  · exact ⟨s.waiters, s.greenWaiters, rfl⟩

@[simp] theorem unregister_ring (s : Shared V) (f : Frame) : (s.unregister f).ring = s.ring := by
  obtain ⟨ws, n, heq⟩ := s.unregister_eq f
  rw [heq]

@[simp] theorem unregister_locked (s : Shared V) (f : Frame) :
    (s.unregister f).locked = s.locked := by
  obtain ⟨ws, n, heq⟩ := s.unregister_eq f
  rw [heq]

@[simp] theorem unregister_queue (s : Shared V) (f : Frame) :
    (s.unregister f).queue = s.queue := by
  obtain ⟨ws, n, heq⟩ := s.unregister_eq f
  rw [heq]

@[simp] theorem unregister_spillCount (s : Shared V) (f : Frame) :
    (s.unregister f).spillCount = s.spillCount := by
  obtain ⟨ws, n, heq⟩ := s.unregister_eq f
  rw [heq]

@[simp] theorem unregister_slots (s : Shared V) (f : Frame) :
    (s.unregister f).slots = s.slots := by
  obtain ⟨ws, n, heq⟩ := s.unregister_eq f
  rw [heq]

@[simp] theorem unregister_nextId (s : Shared V) (f : Frame) :
    (s.unregister f).nextId = s.nextId := by
  obtain ⟨ws, n, heq⟩ := s.unregister_eq f
  rw [heq]

@[simp] theorem unregister_sent (s : Shared V) (f : Frame) : (s.unregister f).sent = s.sent := by
  obtain ⟨ws, n, heq⟩ := s.unregister_eq f
  rw [heq]

@[simp] theorem unregister_received (s : Shared V) (f : Frame) :
    (s.unregister f).received = s.received := by
  obtain ⟨ws, n, heq⟩ := s.unregister_eq f
  rw [heq]

@[simp] theorem unregister_waiters (s : Shared V) (f : Frame) :
    (s.unregister f).waiters = s.waiters.erase f := by
  rw [unregister]
  split_ifs with hmem
  · rfl
  · exact (List.erase_of_not_mem hmem).symm

end Shared

/-! ### The ring -/

/-- The ring is in order. -/
abbrev RingInv (P : System V) : Prop := RingOk ringCap Shared.ring Pc.view P

theorem view_afterEnq (v : V) (n : EnqNext) : (afterEnq v n).view = n.view := by
  rcases n with _ | _ | _ <;> rfl

theorem view_afterDeq (site : Site) (n : DeqNext V) : (afterDeq site n).view = n.view := by
  rcases n with _ | _ | _ <;> rfl

/-- A step of a thread is a step of an operation on the ring, or leaves the ring alone. -/
theorem StepCase.viewStep (h : StepCase s p s' next) (hseen : p.view.Seen ringCap s.ring) :
    ViewStep ringCap s.ring s'.ring p.view (viewNext Pc.view next) := by
  have hclear : ∀ {q : Pc V}, q.view = .away → q.view.Clear ringCap s.ring := by
    intro q hq
    rw [hq]
    exact RingView.clear_away _
  cases h with
  | walk hp hq => exact .still rfl hp.view (hclear hq.view)
  | acquire _ hp hq => exact .still rfl hp.view (hclear hq.view)
  | leave hp hnext =>
    rcases next with _ | q
    · exact .still rfl hp.view (RingView.clear_away _)
    · exact .still rfl hp.view (hclear (hnext q rfl).view)
  | enq hring hview =>
    have hafter := hview hseen
    rwa [← view_afterEnq] at hafter
  | deq hring hview =>
    have hafter := hview hseen
    rwa [← view_afterDeq] at hafter
  | handoff _ _ =>
    refine .still rfl rfl ?_
    split_ifs <;> exact RingView.clear_away _
  | suspend =>
    refine .still rfl rfl ?_
    split_ifs <;> exact RingView.clear_away _
  | offer | gate _ | slow _ _ => exact .still rfl rfl ⟨rfl, rfl, trivial⟩
  | register _ => exact .still rfl rfl ⟨rfl, rfl, trivial⟩
  | registerPop _ =>
    refine .still ?_ rfl (RingView.clear_away _)
    simp only [Shared.unlock, Shared.receive, Shared.unregister_ring]
    rfl
  | takeRecheck =>
    refine .still ?_ rfl (RingView.clear_away _)
    simp only [Shared.unlock, Shared.receive, Shared.unregister_ring]
  | _ => exact .still rfl rfl (RingView.clear_away _)

theorem ringInv_move (hinv : RingInv ⟨s, p ::ₘ rest⟩) (h : StepCase s p s' next) :
    RingInv ⟨s', with? next rest⟩ :=
  RingOk.move two_le_ringCap hinv (h.viewStep (hinv.seen p (Multiset.mem_cons_self p rest)))

/-- What happens from outside leaves everything but the slots, the ready tasks, the numbers of the
frames and the record of values alone. -/
theorem Outside.same (h : Outside s s' next) : s'.ring = s.ring ∧ s'.locked = s.locked ∧
    s'.queue = s.queue ∧ s'.spillCount = s.spillCount ∧ s'.waiters = s.waiters ∧
    s'.greenWaiters = s.greenWaiters := by
  cases h <;> exact ⟨rfl, rfl, rfl, rfl, rfl, rfl⟩

/-- A thread that starts is away from the ring and does not hold the lock. -/
theorem Outside.start (h : Outside s s' next) :
    viewNext Pc.view next = .away ∧ next.elim 0 Pc.holds = 0 := by
  cases h <;> exact ⟨rfl, rfl⟩

/-! ### The lock -/

/-- The lock is taken exactly if some thread holds it, and then one does. -/
def MutexInv (P : System V) : Prop := total Pc.holds P.threads = P.shared.locked.toNat

theorem holds_afterEnq (v : V) (n : EnqNext) : (afterEnq v n).holds = 1 := by
  rcases n with _ | _ | _ <;> rfl

theorem holds_afterDeq (site : Site) (n : DeqNext V) : (afterDeq site n).holds = site.holds := by
  rcases n with _ | _ | _ <;> rfl

/-- A step takes the lock when it is free and leaves it when the thread holds it. -/
theorem StepCase.holds (h : StepCase s p s' next) (hle : p.holds ≤ s.locked.toNat) :
    s'.locked.toNat + p.holds = s.locked.toNat + next.elim 0 Pc.holds := by
  have hleave : p.holds = 1 → s.locked = true := by
    intro hp
    rw [hp] at hle
    rcases hlocked : s.locked with _ | _
    · rw [hlocked] at hle
      exact absurd hle (by decide)
    · rfl
  cases h with
  | walk _ _ hholds => rw [Option.elim_some, hholds]
  | acquire hfree _ _ hholds hholds' => simp [Shared.lock, hfree, hholds, hholds']
  | leave _ _ hholds hholds' => simp [Shared.unlock, hleave hholds, hholds, hholds']
  | handoff _ _ => split_ifs <;> rfl
  | offer hfree _ | slow hfree _ =>
    simp only [Shared.lock, hfree]
    rfl
  | enq _ _ => rw [Option.elim_some, holds_afterEnq]; rfl
  | deq _ _ => rw [Option.elim_some, holds_afterDeq]; rfl
  | sent | spill | takeLocked | takeRecheck | registerPop =>
    rw [hleave rfl]
    rfl
  | suspend =>
    rw [hleave rfl]
    split_ifs <;> rfl
  | _ => rfl

theorem mutexInv_move (hinv : MutexInv ⟨s, p ::ₘ rest⟩) (h : StepCase s p s' next) :
    MutexInv ⟨s', with? next rest⟩ := by
  simp only [MutexInv, total_cons, total_with?] at hinv ⊢
  have hholds := h.holds (by omega)
  omega

theorem mutexInv_outside (hinv : MutexInv ⟨s, threads⟩) (h : Outside s s' next) :
    MutexInv ⟨s', with? next threads⟩ := by
  simp only [MutexInv, total_with?, h.start.2, zero_add, h.same.2.1] at hinv ⊢
  exact hinv

/-- While the lock is free, nobody holds it. -/
theorem MutexInv.holds_eq_zero {P : System V} (hinv : MutexInv P)
    (hfree : P.shared.locked = false) (hp : p ∈ P.threads) : p.holds = 0 := by
  obtain ⟨others, hothers⟩ := Multiset.exists_cons_of_mem hp
  rw [MutexInv, hothers, total_cons, hfree] at hinv
  exact (Nat.add_eq_zero_iff.mp hinv).1

/-- Two threads do not hold the lock. -/
theorem MutexInv.holds_rest (hinv : MutexInv ⟨s, p ::ₘ rest⟩) (hp : p.holds = 1) {q : Pc V}
    (hq : q ∈ rest) : q.holds = 0 := by
  obtain ⟨others, rfl⟩ := Multiset.exists_cons_of_mem hq
  have hle := s.locked.toNat_le
  simp only [MutexInv, total_cons] at hinv
  omega

end ZzLang.Aot
