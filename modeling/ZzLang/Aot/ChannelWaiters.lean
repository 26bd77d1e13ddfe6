import ZzLang.Aot.ChannelFlow
import ZzLang.Library.Schedule

/-!
# No stranded waiter

A receiver that finds nothing registers its frame and looks once more, with the lock held all the
time. If the second look finds the ring empty, no value is left behind: none is sent without the
lock, and later sends see the frame. But lock-free receivers that passed the gates before the frame
was registered go on, and after four lost races the second look gives up, whether or not there is a
value. If those receivers then stop, the frame waits while a value lies in the ring
(`frame_left_with_value`).

That is all that can go wrong: in the runs where the second look is only outraced while the ring is
empty, a channel at rest that holds a value has no frame registered (`conserved_and_served`).
-/

namespace ZzLang.Aot

open MpmcRing Buffer ThreadPool

variable {V : Type} {s s' : Shared V} {p : Pc V} {next : Option (Pc V)}
  {rest threads : Multiset (Pc V)}

/-! ### Where a frame is registered -/

/-- The frame that a thread has registered and looks once more for. -/
def Pc.registering : Pc V → Option Frame
  | .deq (.recheck f) _ _ | .got (.recheck f) _ => some f
  | _ => none

/-- A sender that has found no waiter and has not left the lock. -/
def Pc.Enqueues : Pc V → Prop
  | .enq .. | .sent | .spill _ => True
  | _ => False

/-- The second look has given up. -/
def Pc.Missed : Pc V → Prop
  | .got (.recheck _) none => True
  | _ => False

/-- The second look gives up after its last attempt though the ring need not be empty. -/
def Outraced (p : Pc V) (s : Shared V) (next : Option (Pc V)) : Prop :=
  ∃ f tries phase, p = .deq (.recheck f) tries phase ∧ phase.Overtaken ringCap s.ring ∧
    next = some (.got (.recheck f) none)

/-- A step in which the second look is only outraced while the ring is empty. -/
inductive PatientStep : System V → System V → Prop
  | move {p : Pc V} {s s' : Shared V} {next : Option (Pc V)} {rest : Multiset (Pc V)}
      (h : Moves p s s' next) (hpatient : Outraced p s next → s.ring.head = s.ring.tail) :
      PatientStep ⟨s, p ::ₘ rest⟩ ⟨s', with? next rest⟩
  | outside {s s' : Shared V} {next : Option (Pc V)} {threads : Multiset (Pc V)}
      (h : Outside s s' next) : PatientStep ⟨s, threads⟩ ⟨s', with? next threads⟩

theorem PatientStep.step {P P' : System V} (h : PatientStep P P') : System.Step P P' := by
  rcases h with ⟨h, _⟩ | h
  · exact Step.move h
  · exact Step.outside h

theorem Pc.holds_of_registering {f : Frame} (h : p.registering = some f) : p.holds = 1 := by
  rcases p with _ | _ | _ | _ | _ | _ | _ | ⟨_ | _ | _, _, _⟩ | ⟨_ | _ | _, _⟩ | _ <;>
    first | rfl | cases h

theorem Pc.holds_of_enqueues (h : p.Enqueues) : p.holds = 1 := by
  cases p with
  | enq | sent | spill => rfl
  | _ => exact h.elim

theorem Pc.not_spill (h : ¬p.Enqueues) : ¬∃ v, p = .spill v := by
  rintro ⟨v, rfl⟩
  exact h trivial

theorem Pc.Missed.registering (h : p.Missed) : ∃ f, p.registering = some f := by
  rcases p with _ | _ | _ | _ | _ | _ | _ | _ | ⟨_ | _ | f, _ | _⟩ | _ <;>
    first | exact ⟨_, rfl⟩ | exact h.elim

theorem Pc.Light.registering (h : p.Light) : p.registering = none := by
  cases h <;> rfl

theorem Pc.Light.not_enqueues (h : p.Light) : ¬p.Enqueues := by
  cases h <;> exact id

/-! ### What a step does to an idle channel -/

/-- Neither tier holds a value or a claimed position. -/
structure Shared.Idle (s : Shared V) : Prop where
  ring : s.ring.head = s.ring.tail
  queue : s.queue = []

/-- An empty ring stays so unless a sender enqueues. -/
theorem StepCase.ring_idle (h : StepCase s p s' next) (hring : RingInv ⟨s, p ::ₘ rest⟩)
    (hempty : s.ring.head = s.ring.tail) : s'.ring.head = s'.ring.tail ∨ p.Enqueues := by
  cases h with
  | enq _ _ => exact .inr trivial
  | @deq site tries phase ring n hstep _ =>
    refine .inl ?_
    cases hstep with
    | claim tries' =>
      have hseen := hring.seen _ (Multiset.mem_cons_self _ rest)
      have := (hring.ok.full_of_seen two_le_ringCap hseen).1
      exact absurd hempty this.ne
    | _ => exact hempty
  | registerPop _ =>
    refine .inl ?_
    simp only [Shared.unlock, Shared.receive, Shared.unregister_ring]
    exact hempty
  | takeRecheck =>
    refine .inl ?_
    simp only [Shared.unlock, Shared.receive, Shared.unregister_ring]
    exact hempty
  | _ => exact .inl hempty

/-- An empty spill queue stays so unless a sender spills. -/
theorem StepCase.queue_idle (h : StepCase s p s' next) (hempty : s.queue = []) :
    s'.queue = [] ∨ ∃ v, p = .spill v := by
  cases h with
  | @spill v => exact .inr ⟨v, rfl⟩
  | pop _ hqueue | registerPop hqueue =>
    rw [hempty] at hqueue
    cases hqueue
  | takeRecheck =>
    refine .inl ?_
    simp only [Shared.unlock, Shared.receive, Shared.unregister_queue]
    exact hempty
  | _ => exact .inl hempty

/-- The list of waiters is untouched except by these steps. -/
inductive WaitersCase (s : Shared V) (p : Pc V) (s' : Shared V) (next : Option (Pc V)) : Prop
  | same (hwaiters : s'.waiters = s.waiters) (hreg : next.bind Pc.registering = p.registering)
      (henq : ∀ q ∈ next, q.Enqueues → p.Enqueues ∨ s.waiters = [])
  | handoff (hfree : s.locked = false) (hp : ¬p.Enqueues)
      (hwaiters : s.waiters = [] → s'.waiters = [])
      (hnext : ∀ q ∈ next, q.registering = none ∧ ¬q.Enqueues)
  | register (f : Frame) (hp : p = .got (.locked (.green f)) none) (hqueue : s.queue = [])
      (hwaiters : s'.waiters = s.waiters ++ [f]) (hnext : next = some (.deq (.recheck f) 4 .load))
  | late (f : Frame) (hp : p = .got (.locked (.green f)) none) (hqueue : s.queue ≠ [])
      (hwaiters : s'.waiters = (s.waiters ++ [f]).erase f) (hnext : next = none)
  | take (f : Frame) (hp : p.registering = some f) (hwaiters : s'.waiters = s.waiters.erase f)
      (hnext : next = none)
  | suspend (f : Frame) (hp : p = .got (.recheck f) none) (hwaiters : s'.waiters = s.waiters)
      (hnext : ∀ q ∈ next, q.registering = none ∧ ¬q.Enqueues)

theorem StepCase.waitersCase (h : StepCase s p s' next) : WaitersCase s p s' next := by
  cases h with
  | walk hp hq | acquire _ hp hq =>
    refine .same rfl (hq.registering.trans hp.registering.symm) ?_
    rintro _ ⟨⟩ henq
    exact absurd henq hq.not_enqueues
  | leave hp hnext =>
    refine .same rfl ?_ fun q hq henq => absurd henq (hnext q hq).not_enqueues
    rw [hp.registering]
    rcases next with _ | q
    · rfl
    · exact (hnext q rfl).registering
  | handoff hfree hwaiters =>
    refine .handoff hfree id (by simp [hwaiters]) ?_
    split_ifs
    · rintro _ ⟨⟩
      exact ⟨rfl, id⟩
    · simp
  | offer _ hwaiters => exact .same rfl rfl fun _ _ _ => .inr hwaiters
  | @enq v tries phase ring n _ _ =>
    refine .same rfl ?_ fun _ _ _ => .inl trivial
    rcases n with _ | _ | _ <;> rfl
  | @deq site tries phase ring n _ _ =>
    refine .same rfl ?_ ?_
    · rcases n with _ | _ | _ <;> rcases site with _ | _ | _ <;> rfl
    · rintro _ ⟨⟩ henq
      rcases n with _ | _ | _ <;> exact henq.elim
  | gate _ | slow _ _ => exact .same rfl rfl (by rintro _ ⟨⟩ henq; exact henq.elim)
  | @register f hqueue => exact .register f rfl hqueue rfl rfl
  | @registerPop f v queue hqueue =>
    refine .late f rfl (by simp [hqueue]) ?_ rfl
    simp only [Shared.unlock, Shared.receive, Shared.unregister_waiters]
    rfl
  | @takeRecheck f v => exact .take f rfl (Shared.unregister_waiters s f) rfl
  | @suspend f =>
    refine .suspend f rfl rfl ?_
    split_ifs
    · simp
    · rintro _ ⟨⟩
      exact ⟨rfl, id⟩
  | _ => exact .same rfl rfl (by simp)

/-! ### The invariant -/

/-- If a frame is registered, the channel is idle, or a thread is about to look once more for the
only one. -/
structure WaitInv (P : System V) : Prop where
  listed : P.shared.waiters ≠ [] → P.shared.Idle ∨
    ∃ p ∈ P.threads, ∃ f, p.registering = some f ∧ P.shared.waiters = [f]
  enqueues : ∀ p ∈ P.threads, p.Enqueues → P.shared.waiters = []
  queue : ∀ p ∈ P.threads, ∀ f, p.registering = some f → P.shared.queue = []
  missed : ∀ p ∈ P.threads, p.Missed → P.shared.ring.head = P.shared.ring.tail

theorem enqueues_move (hinv : WaitInv ⟨s, p ::ₘ rest⟩) (hmutex : MutexInv ⟨s, p ::ₘ rest⟩)
    (h : WaitersCase s p s' next) : ∀ q ∈ with? next rest, q.Enqueues → s'.waiters = [] := by
  intro q hq henq
  have hp := hinv.enqueues p (Multiset.mem_cons_self p rest)
  have hold : q ∈ rest → s.waiters = [] :=
    fun hq => hinv.enqueues q (Multiset.mem_cons_of_mem hq) henq
  -- a thread with the lock is the only one that enqueues
  have halone : p.holds = 1 → q ∉ rest := by
    intro hholds hq
    have := hmutex.holds_rest hholds hq
    rw [Pc.holds_of_enqueues henq] at this
    exact one_ne_zero this
  rcases mem_with?.mp hq with hq | hq
  · cases h with
    | same hwaiters _ hnext => exact hwaiters.trans ((hnext q hq henq).elim hp id)
    | handoff _ _ _ hnext | suspend _ _ _ hnext => exact absurd henq (hnext q hq).2
    | register _ _ _ _ hnext =>
      cases hnext.symm.trans hq
      exact henq.elim
    | late _ _ _ _ hnext | take _ _ _ hnext => cases hnext.symm.trans hq
  · cases h with
    | same hwaiters _ _ | suspend _ _ hwaiters _ => exact hwaiters.trans (hold hq)
    | handoff _ _ hwaiters _ => exact hwaiters (hold hq)
    | register _ hp | late _ hp => exact absurd hq (halone (by rw [hp]; rfl))
    | take f hreg => exact absurd hq (halone (Pc.holds_of_registering hreg))

theorem queue_move (hinv : WaitInv ⟨s, p ::ₘ rest⟩) (hmutex : MutexInv ⟨s, p ::ₘ rest⟩)
    (h : StepCase s p s' next) :
    ∀ q ∈ with? next rest, ∀ f, q.registering = some f → s'.queue = [] := by
  intro q hq f hreg
  have hempty : s.queue = [] ∧ ¬p.Enqueues := by
    rcases mem_with?.mp hq with rfl | hq
    · cases h.waitersCase with
      | same _ hsame _ =>
        have hp : p.registering = some f := hsame.symm.trans hreg
        refine ⟨hinv.queue p (Multiset.mem_cons_self p rest) f hp, fun henq => ?_⟩
        cases p with
        | enq | sent | spill => cases hp
        | _ => exact henq.elim
      | handoff _ _ _ hnext | suspend _ _ _ hnext => rw [(hnext q rfl).1] at hreg; cases hreg
      | register _ hp hqueue _ _ =>
        refine ⟨hqueue, ?_⟩
        rw [hp]
        exact id
      | late _ _ _ _ hnext | take _ _ _ hnext => cases hnext
    · refine ⟨hinv.queue q (Multiset.mem_cons_of_mem hq) f hreg, fun henq => ?_⟩
      have := hmutex.holds_rest (Pc.holds_of_enqueues henq) hq
      rw [Pc.holds_of_registering hreg] at this
      exact one_ne_zero this
  exact (h.queue_idle hempty.1).resolve_right (Pc.not_spill hempty.2)

/-- A second look that gives up without being outraced has found the ring empty. -/
theorem missed_move (hinv : WaitInv ⟨s, p ::ₘ rest⟩) (hring : RingInv ⟨s, p ::ₘ rest⟩)
    (hmutex : MutexInv ⟨s, p ::ₘ rest⟩) (hpatient : Outraced p s next → s.ring.head = s.ring.tail)
    (h : StepCase s p s' next) :
    ∀ q ∈ with? next rest, q.Missed → s'.ring.head = s'.ring.tail := by
  intro q hq hmissed
  obtain ⟨f, hreg⟩ := hmissed.registering
  rcases mem_with?.mp hq with hq | hq
  · have hmem : p ∈ p ::ₘ rest := Multiset.mem_cons_self p rest
    cases h with
    | walk _ hlight | acquire _ _ hlight =>
      cases hq
      rw [hlight.registering] at hreg
      cases hreg
    | leave _ hnext =>
      rw [(hnext q hq).registering] at hreg
      cases hreg
    | handoff _ _ | suspend =>
      split_ifs at hq
      cases hq
      exact hmissed.elim
    | @enq _ _ _ _ n =>
      cases hq
      rcases n with _ | _ | _ <;> exact hmissed.elim
    | @deq site tries phase ring n hstep _ =>
      cases hq
      cases hstep with
      | again _ _ _ | claim _ => exact hmissed.elim
      | @unfilled pos hseq =>
        rcases site with _ | _ | f
        · exact hmissed.elim
        · exact hmissed.elim
        · refine hring.empty_of_miss two_le_ringCap hmem rfl hseq fun q hq => ?_
          -- the thread has the lock, so that nobody is about to publish
          rcases Multiset.mem_cons.mp hq with rfl | hq
          · rfl
          · refine Multiset.eq_zero_of_forall_notMem fun pos hpos => ?_
            have := hmutex.holds_rest rfl hq
            rw [Pc.holds_of_writing hpos] at this
            exact one_ne_zero this
      | outraced hover =>
        rcases site with _ | _ | f
        · exact hmissed.elim
        · exact hmissed.elim
        · exact hpatient ⟨f, tries, phase, rfl, hover, rfl⟩
      | release pos value =>
        have hsome : value.isSome := hring.seen _ hmem
        rcases value with _ | v
        · cases hsome
        · rcases site with _ | _ | _ <;> exact hmissed.elim
    | offer | gate _ | slow _ _ | register _ =>
      cases hq
      exact hmissed.elim
    | _ => cases hq
  · have hempty := hinv.missed q (Multiset.mem_cons_of_mem hq) hmissed
    refine (h.ring_idle hring hempty).resolve_right fun henq => ?_
    have := hmutex.holds_rest (Pc.holds_of_enqueues henq) hq
    rw [Pc.holds_of_registering hreg] at this
    exact one_ne_zero this

theorem listed_move (hinv : WaitInv ⟨s, p ::ₘ rest⟩) (hring : RingInv ⟨s, p ::ₘ rest⟩)
    (hmutex : MutexInv ⟨s, p ::ₘ rest⟩) (h : StepCase s p s' next) (hne : s'.waiters ≠ []) :
    s'.Idle ∨ ∃ q ∈ with? next rest, ∃ f, q.registering = some f ∧ s'.waiters = [f] := by
  have hmem : p ∈ p ::ₘ rest := Multiset.mem_cons_self p rest
  -- an idle channel with a waiter stays idle, since nobody enqueues
  have hidle : s.Idle → s.waiters ≠ [] ∨ p.registering ≠ none → s'.Idle := by
    rintro ⟨hempty, hnil⟩ hwaiters
    have henq : ¬p.Enqueues := by
      intro henq
      rcases hwaiters with hwaiters | hreg
      · exact hwaiters (hinv.enqueues p hmem henq)
      · cases p with
        | enq | sent | spill => exact hreg rfl
        | _ => exact henq.elim
    exact ⟨(h.ring_idle hring hempty).resolve_right henq,
      (h.queue_idle hnil).resolve_right (Pc.not_spill henq)⟩
  have hfree : p.holds = 1 → s.waiters ≠ [] → p.registering = none → s.Idle := by
    intro hholds hwaiters hp
    rcases hinv.listed hwaiters with hold | ⟨q, hq, f, hreg, -⟩
    · exact hold
    · rcases Multiset.mem_cons.mp hq with rfl | hq
      · rw [hp] at hreg
        cases hreg
      · have := hmutex.holds_rest hholds hq
        rw [Pc.holds_of_registering hreg] at this
        exact absurd this one_ne_zero
  cases h.waitersCase with
  | same hwaiters hreg _ =>
    rw [hwaiters] at hne
    rcases hinv.listed hne with hold | ⟨q, hq, f, hf, hone⟩
    · exact .inl (hidle hold (.inl hne))
    · refine .inr ?_
      rcases Multiset.mem_cons.mp hq with rfl | hq
      · obtain ⟨q', hq', hf'⟩ := Option.bind_eq_some_iff.mp (hreg.trans hf)
        exact ⟨q', mem_with?.mpr (.inl hq'), f, hf', hwaiters.trans hone⟩
      · exact ⟨q, mem_with?.mpr (.inr hq), f, hf, hwaiters.trans hone⟩
  | handoff hlocked hp hwaiters _ =>
    have hne' : s.waiters ≠ [] := fun hnil => hne (hwaiters hnil)
    rcases hinv.listed hne' with hold | ⟨q, hq, f, hf, -⟩
    · exact .inl (hidle hold (.inl hne'))
    · have := hmutex.holds_eq_zero hlocked hq
      rw [Pc.holds_of_registering hf] at this
      exact absurd this one_ne_zero
  | register f hp hqueue hwaiters hnext =>
    rcases hnil : s.waiters with _ | ⟨f', ws⟩
    · refine .inr ⟨_, mem_with?.mpr (.inl hnext), f, rfl, ?_⟩
      rw [hwaiters, hnil]
      rfl
    · have hne' : s.waiters ≠ [] := by simp [hnil]
      exact .inl (hidle (hfree (by rw [hp]; rfl) hne' (by rw [hp]; rfl)) (.inl hne'))
  | late f hp hqueue hwaiters _ =>
    rcases hnil : s.waiters with _ | ⟨f', ws⟩
    · rw [hwaiters, hnil] at hne
      simp at hne
    · have hold := hfree (by rw [hp]; rfl) (by simp [hnil]) (by rw [hp]; rfl)
      exact absurd hold.queue hqueue
  | take f hp hwaiters _ =>
    have hne' : s.waiters ≠ [] := by
      intro hnil
      rw [hwaiters, hnil] at hne
      exact hne rfl
    rcases hinv.listed hne' with hold | ⟨q, hq, f', hf, hone⟩
    · exact .inl (hidle hold (.inl hne'))
    · rcases Multiset.mem_cons.mp hq with rfl | hq
      · cases hp.symm.trans hf
        rw [hwaiters, hone] at hne
        simp at hne
      · have := hmutex.holds_rest (Pc.holds_of_registering hp) hq
        rw [Pc.holds_of_registering hf] at this
        exact absurd this one_ne_zero
  | suspend f hp hwaiters _ =>
    subst hp
    have hempty := hinv.missed _ hmem trivial
    have hnil := hinv.queue _ hmem f rfl
    exact .inl (hidle ⟨hempty, hnil⟩ (.inr (by simp [Pc.registering])))

theorem waitInv_move (hinv : WaitInv ⟨s, p ::ₘ rest⟩) (hring : RingInv ⟨s, p ::ₘ rest⟩)
    (hmutex : MutexInv ⟨s, p ::ₘ rest⟩) (hpatient : Outraced p s next → s.ring.head = s.ring.tail)
    (h : StepCase s p s' next) : WaitInv ⟨s', with? next rest⟩ where
  listed := listed_move hinv hring hmutex h
  enqueues := enqueues_move hinv hmutex h.waitersCase
  queue := queue_move hinv hmutex h
  missed := missed_move hinv hring hmutex hpatient h

theorem waitInv_outside (hinv : WaitInv ⟨s, threads⟩) (h : Outside s s' next) :
    WaitInv ⟨s', with? next threads⟩ := by
  obtain ⟨hring, -, hqueue, -, hwaiters, -⟩ := h.same
  have hstart : ∀ q ∈ next, ¬q.Enqueues ∧ q.registering = none := by
    intro q hq
    cases h <;> cases hq <;> exact ⟨id, rfl⟩
  have hold : ∀ {q : Pc V}, q ∈ with? next threads → q.Enqueues ∨ q.registering ≠ none →
      q ∈ threads := by
    intro q hq hsome
    rcases mem_with?.mp hq with hq | hq
    · exact absurd hsome (by simp [hstart q hq])
    · exact hq
  refine ⟨fun hne => ?_, fun q hq henq => ?_, fun q hq f hf => ?_, fun q hq hmissed => ?_⟩
  · rw [hwaiters] at hne
    rcases hinv.listed hne with ⟨hempty, hnil⟩ | ⟨q, hq, f, hf, hone⟩
    · exact .inl ⟨hring ▸ hempty, hqueue ▸ hnil⟩
    · exact .inr ⟨q, mem_with?.mpr (.inr hq), f, hf, hwaiters.trans hone⟩
  · exact hwaiters.trans (hinv.enqueues q (hold hq (.inl henq)) henq)
  · exact hqueue.trans (hinv.queue q (hold hq (.inr (by simp [hf]))) f hf)
  · obtain ⟨f, hf⟩ := hmissed.registering
    have hempty := hinv.missed q (hold hq (.inr (by simp [hf]))) hmissed
    exact hring ▸ hempty

theorem waitInv_new : WaitInv (System.new : System V) where
  listed := fun hne => absurd rfl hne
  enqueues := by simp [System.new]
  queue := by simp [System.new]
  missed := by simp [System.new]

/-! ### Every run -/

/-- The states of the runs in which every step is patient. -/
def System.PatientlyReachable (P : System V) : Prop :=
  Relation.ReflTransGen PatientStep System.new P

theorem System.PatientlyReachable.reachable {P : System V} (h : P.PatientlyReachable) :
    P.Reachable :=
  Relation.ReflTransGen.mono (fun _ _ (hs : PatientStep _ _) => hs.step) _ _ h

theorem System.PatientlyReachable.waitInv {P : System V} (hreach : P.PatientlyReachable) :
    WaitInv P := by
  induction hreach with
  | refl => exact waitInv_new
  | tail hbefore hstep ih =>
    have hinv := (System.PatientlyReachable.reachable hbefore).channelInv
    rcases hstep with ⟨⟨ok, h⟩, hpatient⟩ | h
    · exact waitInv_move ih hinv.ring hinv.mutex hpatient (stepCase h)
    · exact waitInv_outside ih h

/-- No operation is in progress: every thread sleeps in a blocking receive, or until its frame is
given a value. -/
def Quiescent (P : System V) : Prop :=
  ∀ p ∈ P.threads, p = .asleep ∨ ∃ f, p = .parked f

/-- **No value is lost and no waiter is stranded.** In every reachable state the values sent are
those received, those in the ring, in the spill queue and in the slots, and those in the hands of
operations, and the two counters are right. In a run whose steps are patient, a channel at rest
whose ring or spill queue holds a value has no frame registered. -/
theorem conserved_and_served (P : System V) :
    (P.Reachable →
      (P.shared.sent : Multiset V) = P.shared.received + items ringCap P.shared.ring +
        P.shared.queue + P.shared.slotValues + total Pc.hand P.threads ∧
      (P.shared.locked = false → P.shared.spillCount = P.shared.queue.length ∧
        P.shared.greenWaiters = P.shared.waiters.length)) ∧
    (P.PatientlyReachable → Quiescent P →
      items ringCap P.shared.ring ≠ [] ∨ P.shared.queue ≠ [] → P.shared.waiters = []) := by
  refine ⟨fun hreach => ⟨?_, fun _ => ?_⟩, fun hreach hquiet hvalue => ?_⟩
  · rw [hreach.channelInv.conserved]
    simp only [Flow.values, Shared.flow]
    abel
  · exact ⟨hreach.channelInv.counted.spill, hreach.channelInv.counted.waiters⟩
  · by_contra hne
    rcases hreach.waitInv.listed hne with ⟨hempty, hnil⟩ | ⟨p, hp, f, hreg, -⟩
    · exact hvalue.elim (fun h => h (items_eq_nil hempty)) fun h => h hnil
    · rcases hquiet p hp with rfl | ⟨f', rfl⟩ <;> cases hreg

/-! ### Undisturbed operations -/

/-- Where a lone send that finds room and nobody waiting, or a lone `zz_chan_try_recv` that takes a
value from the ring, stands. -/
def Pc.Calm : Pc V → Prop
  | .send _ | .enq .. | .sent | .gateWaiters (.fast .tryRecv) | .gateSpill (.fast .tryRecv)
  | .deq (.free (.fast .tryRecv)) _ _ | .got (.free (.fast .tryRecv)) _ => True
  | _ => False

/-- One such operation is under way, or none, and no frame waits or has a value. -/
structure Calm (P : System V) : Prop where
  waiters : P.shared.waiters = []
  slots : P.shared.slotValues = 0
  threads : ∃ next, P.threads = with? next 0 ∧ ∀ p ∈ next, p.Calm

/-- Nobody waits and no frame has a value. -/
def Shared.NoFrames (s : Shared V) : Prop := s.waiters = [] ∧ s.slotValues = 0

/-- The state after an undisturbed send. -/
def Shared.sentAlone (s : Shared V) (v : V) : Shared V :=
  { s with
    ring := (s.ring.claimTail).publish ringCap s.ring.tail v
    locked := false
    sent := s.sent ++ [v] }

/-- The state after an undisturbed `zz_chan_try_recv` that takes a value from the ring. -/
def Shared.receivedAlone (s : Shared V) (v : V) : Shared V :=
  { s with
    ring := (s.ring.claimHead ringCap).release ringCap s.ring.head
    received := s.received ++ [v] }

section Lone

variable {R : System V → System V → Prop}
  (hR : ∀ P P', System.Step P P' → Calm P → Calm P' → R P P')

include hR

theorem lone_start (h : Outside s s' next) (hs : s.NoFrames) (hs' : s'.NoFrames)
    (hnext : ∀ q ∈ next, q.Calm) : R ⟨s, 0⟩ ⟨s', with? next 0⟩ :=
  hR _ _ (Step.outside h) ⟨hs.1, hs.2, none, rfl, by simp⟩ ⟨hs'.1, hs'.2, next, rfl, hnext⟩

theorem lone_move (h : p.step true s = some (s', next)) (hs : s.NoFrames) (hp : p.Calm)
    (hs' : s'.NoFrames) (hnext : ∀ q ∈ next, q.Calm) :
    R ⟨s, with? (some p) 0⟩ ⟨s', with? next 0⟩ :=
  hR _ _ (show System.Step ⟨s, p ::ₘ 0⟩ _ from Step.move ⟨true, h⟩)
    ⟨hs.1, hs.2, some p, rfl, by rintro _ ⟨⟩; exact hp⟩ ⟨hs'.1, hs'.2, next, rfl, hnext⟩

/-- An undisturbed send. -/
theorem lone_send {s : Shared V} (v : V) (hfree : s.locked = false) (hs : s.NoFrames)
    (hroom : s.ring.seq (s.ring.tail % ringCap) = s.ring.tail) :
    Relation.ReflTransGen R ⟨s, 0⟩ ⟨s.sentAlone v, 0⟩ := by
  have calm : ∀ {p : Pc V}, p.Calm → ∀ q ∈ some p, q.Calm := by
    rintro p hp q ⟨⟩
    exact hp
  have hsend : (Pc.send v).step true { s with sent := s.sent ++ [v] } =
      some ({ s with sent := s.sent ++ [v] }.lock, some (.enq v 4 .load)) := by
    simp [Pc.step, hfree, hs.1]
  have hseq : (Pc.enq v 4 (.seq s.ring.tail)).step true { s with sent := s.sent ++ [v] }.lock =
      some ({ s with sent := s.sent ++ [v] }.lock, some (.enq v 4 (.cas s.ring.tail))) := by
    simp [Pc.step, enqStep, Shared.lock, hroom]
  have hcas : (Pc.enq v 4 (.cas s.ring.tail)).step true { s with sent := s.sent ++ [v] }.lock =
      some ({ { s with sent := s.sent ++ [v] }.lock with ring := s.ring.claimTail },
        some (.enq v 4 (.publish s.ring.tail))) := by
    simp [Pc.step, enqStep, Shared.lock]
  have hsent : (Pc.sent : Pc V).step true { { s with sent := s.sent ++ [v] }.lock with
      ring := (s.ring.claimTail).publish ringCap s.ring.tail v } = some (s.sentAlone v, none) := rfl
  exact Relation.ReflTransGen.single (lone_start hR (.send s v) hs hs (calm trivial))
    |>.tail (lone_move hR hsend hs trivial hs (calm trivial))
    |>.tail (lone_move hR rfl hs trivial hs (calm trivial))
    |>.tail (lone_move hR hseq hs trivial hs (calm trivial))
    |>.tail (lone_move hR hcas hs trivial hs (calm trivial))
    |>.tail (lone_move hR rfl hs trivial hs (calm trivial))
    |>.tail (lone_move hR hsent hs trivial hs (by simp))

/-- An undisturbed `zz_chan_try_recv` of a value in the ring. -/
theorem lone_tryRecv {s : Shared V} {v : V} (hs : s.NoFrames) (hspill : s.spillCount = 0)
    (hcount : s.greenWaiters = 0) (hfull : s.ring.seq (s.ring.head % ringCap) = s.ring.head + 1)
    (hval : s.ring.val (s.ring.head % ringCap) = some v) :
    Relation.ReflTransGen R ⟨s, 0⟩ ⟨s.receivedAlone v, 0⟩ := by
  have calm : ∀ {p : Pc V}, p.Calm → ∀ q ∈ some p, q.Calm := by
    rintro p hp q ⟨⟩
    exact hp
  have hgate : (Pc.gateWaiters (.fast .tryRecv)).step true s =
      some (s, some (.gateSpill (.fast .tryRecv))) := by
    simp [Pc.step, hcount]
  have hgate' : (Pc.gateSpill (.fast .tryRecv)).step true s =
      some (s, some (.deq (.free (.fast .tryRecv)) 4 .load)) := by
    simp [Pc.step, hspill]
  have hseq : (Pc.deq (.free (.fast .tryRecv)) 4 (.seq s.ring.head)).step true s =
      some (s, some (.deq (.free (.fast .tryRecv)) 4 (.cas s.ring.head))) := by
    simp [Pc.step, deqStep, hfull]
  have hcas : (Pc.deq (.free (.fast .tryRecv)) 4 (.cas s.ring.head)).step true s =
      some ({ s with ring := s.ring.claimHead ringCap },
        some (.deq (.free (.fast .tryRecv)) 4 (.release s.ring.head (some v)))) := by
    simp [Pc.step, deqStep, hval]
  have hgot : (Pc.got (.free (.fast .tryRecv)) (some v)).step true { s with
      ring := (s.ring.claimHead ringCap).release ringCap s.ring.head } =
        some (s.receivedAlone v, none) := rfl
  exact Relation.ReflTransGen.single (lone_start hR (.tryRecv s) hs hs (calm trivial))
    |>.tail (lone_move hR hgate hs trivial hs (calm trivial))
    |>.tail (lone_move hR hgate' hs trivial hs (calm trivial))
    |>.tail (lone_move hR rfl hs trivial hs (calm trivial))
    |>.tail (lone_move hR hseq hs trivial hs (calm trivial))
    |>.tail (lone_move hR hcas hs trivial hs (calm trivial))
    |>.tail (lone_move hR rfl hs trivial hs (calm trivial))
    |>.tail (lone_move hR hgot hs trivial hs (by simp))

end Lone

/-! ### Two runs -/

theorem Pc.Calm.not_outraced (hp : p.Calm) : ¬Outraced p s next := by
  rintro ⟨f, tries, phase, rfl, -, -⟩
  exact hp

/-- The thread of a calm system is calm. -/
theorem Calm.thread (hcalm : Calm ⟨s, p ::ₘ rest⟩) : p.Calm := by
  obtain ⟨next, hthreads, hp⟩ := hcalm.threads
  have hmem : p ∈ with? next (0 : Multiset (Pc V)) := hthreads ▸ Multiset.mem_cons_self p rest
  rcases mem_with?.mp hmem with hmem | hmem
  · exact hp p hmem
  · cases Multiset.notMem_zero p hmem

theorem patientStep_of_calm {P P' : System V} (h : System.Step P P') (hcalm : Calm P) :
    PatientStep P P' := by
  rcases h with h | h
  · exact .move h fun houtraced => absurd houtraced hcalm.thread.not_outraced
  · exact .outside h

/-- A value that was sent while nobody waited. -/
theorem conserved_and_served_sent :
    ∃ P : System ℕ, P.PatientlyReachable ∧ Quiescent P ∧ items ringCap P.shared.ring = [7] ∧
      P.shared.waiters = [] := by
  have hreach : System.PatientlyReachable (V := ℕ) ⟨Shared.new.sentAlone 7, 0⟩ :=
    lone_send (fun _ _ h hcalm _ => patientStep_of_calm h hcalm) 7 rfl ⟨rfl, rfl⟩
      (by simp [Shared.new, Buffer.new])
  have hquiet : Quiescent (V := ℕ) ⟨Shared.new.sentAlone 7, 0⟩ := by simp [Quiescent]
  have hitems : items ringCap (Shared.new.sentAlone 7 : Shared ℕ).ring = [7] := by
    simp [items, Shared.sentAlone, Shared.new, Buffer.new, Buffer.claimTail, Buffer.publish]
  refine ⟨_, hreach, hquiet, hitems, ?_⟩
  exact (conserved_and_served _).2 hreach hquiet (.inl (by simp [hitems]))

/-- What happens from outside, in a schedule. -/
inductive Call (V : Type)
  | send (v : V)
  | tryRecv
  | greenTask

/-- The start of an operation. -/
def Call.start (s : Shared V) : Call V → Option (Shared V × Option (Pc V))
  | .send v => some ({ s with sent := s.sent ++ [v] }, some (.send v))
  | .tryRecv => some (s, some (.gateWaiters (.fast .tryRecv)))
  | .greenTask => some ({ s with nextId := s.nextId + 1 },
      some (.gateWaiters (.fast (.green ⟨s.nextId, true⟩))))

theorem outside_of_start (c : Call V) (s s' : Shared V) (next : Option (Pc V))
    (h : c.start s = some (s', next)) : Outside s s' next := by
  rcases c with v | _ | _ <;> cases h
  · exact .send s v
  · exact .tryRecv s
  · exact .green s true

/-- The thread with this number makes so many moves. -/
def moves (n i : ℕ) : List (ThreadPool.Event (Call ℕ) Bool) := List.replicate n (.move i true)

/-- Thread 4 loses the four attempts of a pop to others. -/
def lostRaces : List (ThreadPool.Event (Call ℕ) Bool) :=
  (List.replicate 4 (moves 2 4 ++ [.outside .tryRecv] ++ moves 7 5 ++ moves 1 4)).flatten

/-- Thirteen values are sent and four receivers pass the gates. Another receiver loses a lock-free
pop and a pop under the lock to eight others, registers its frame, and loses the second look to the
four. -/
def strand : List (ThreadPool.Event (Call ℕ) Bool) :=
  ((List.range 13).map fun v => .outside (.send v) :: moves 6 0).flatten ++
    (List.range 4).flatMap (fun i => .outside .tryRecv :: moves 2 i) ++
    [.outside .greenTask] ++ moves 2 4 ++ lostRaces ++ moves 2 4 ++ lostRaces ++ moves 1 4 ++
    (List.range 4).flatMap (fun i => moves 2 (4 - i) ++ moves 5 0 ++ moves 1 (3 - i)) ++ moves 1 0

/-- The task is registered and suspended, the ring holds a value, and nothing is going on. -/
theorem frame_left_with_value :
    ∃ P : System ℕ, P.Reachable ∧ P.threads = 0 ∧ P.shared.ready = 0 ∧
      items ringCap P.shared.ring = [12] ∧ P.shared.waiters = [⟨0, true⟩] := by
  obtain ⟨s, threads, hreach, htest⟩ := @exists_reaches _ _ _ _ (fun c s => Call.start s c)
    (fun ok s p => Pc.step ok s p) Moves Outside
    (fun c s s' next h => outside_of_start c s s' next h)
    (fun ok p s s' next h => ⟨ok, h⟩) strand .new
    (fun s threads => threads.isEmpty && decide (s.ready = 0 ∧ items ringCap s.ring = [12] ∧
      s.waiters = [⟨0, true⟩])) (by decide +kernel)
  simp only [Bool.and_eq_true, decide_eq_true_eq, List.isEmpty_iff] at htest
  obtain ⟨hthreads, hready, hitems, hwaiters⟩ := htest
  exact ⟨_, hreach, by simp [hthreads], hready, hitems, hwaiters⟩

/-! ### Exclusion -/

/-- **Nothing is in two hands**: not the mutex, no cell of the ring, and no frame without a value,
which is at most once among those that are registered or with a thread. The slots of these are
empty. -/
theorem frames_exclusive {P : System V} (hreach : P.Reachable) :
    total Pc.holds P.threads = P.shared.locked.toNat ∧
      P.shared.ring.tail ≤ P.shared.ring.head + ringCap ∧
      ((total (fun p => p.view.writing) P.threads +
        total (fun p => p.view.releasing) P.threads).map (· % ringCap)).Nodup ∧
      (P.shared.waiting + total Pc.fresh P.threads).Nodup ∧
      ∀ i ∈ P.shared.waiting + total Pc.fresh P.threads, P.shared.slots i = none := by
  have hinv := hreach.channelInv
  exact ⟨hinv.mutex, hinv.ring.ok.tail_le two_le_ringCap,
    hinv.ring.ok.nodup_cells two_le_ringCap, hinv.frames.nodup,
    fun i hi => (hinv.frames.empty i hi).2⟩

/-- A task has registered its frame, and the channel is empty. -/
theorem frames_exclusive_registered : ∃ P : System ℕ, P.Reachable ∧
    P.shared.waiters = [⟨0, true⟩] ∧ P.shared.slots 0 = none := by
  obtain ⟨s, threads, hreach, htest⟩ := @exists_reaches _ _ _ _ (fun c s => Call.start s c)
    (fun ok s p => Pc.step ok s p) Moves Outside
    (fun c s s' next h => outside_of_start c s s' next h)
    (fun ok p s s' next h => ⟨ok, h⟩) ([.outside .greenTask] ++ moves 9 0) .new
    (fun s _ => decide (s.waiters = [⟨0, true⟩])) (by decide)
  have hwaiters := of_decide_eq_true htest
  refine ⟨_, hreach, hwaiters, (frames_exclusive hreach).2.2.2.2 0 ?_⟩
  simp [Shared.waiting, hwaiters]

end ZzLang.Aot
