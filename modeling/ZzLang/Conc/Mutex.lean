import ZzLang.Conc.RingInvariant

/-!
# The mutex of the channel

Which stretches of the code run with the mutex held, and that at most one thread is in one of
them. From this follows what a parking task relies on: between its registration and the end of
that critical section it is still in the list of waiters, because only a thread that holds or
takes the mutex changes the list.
-/

namespace ZzLang.Conc

open MpmcRing ThreadPool

variable {V : Type} {s s' : Shared V} {p : Pc V} {next : Option (Pc V)} {ch : Choice V}

attribute [local simp] Shared.lock Shared.unlock Shared.popSpill Shared.receive Shared.unpark
  Shared.register Shared.takeWaiters Shared.enqueueTask Shared.store

/-- The lock-free pop in the spin of a receiver runs with the mutex held, the others do not. -/
def Gate.holds : Gate → ℕ
  | spin _ => 1
  | fast _ | parkSpin _ => 0

def Site.holds : Site → ℕ
  | gated g => g.holds
  | _ => 1

/-- The task that a pop under the mutex is for, when that task has been registered. -/
def Site.registering : Site → Option TaskId
  | park t => some t
  | _ => none

namespace Pc

/-- One for a thread that holds the mutex. -/
def holds : Pc V → ℕ
  | .gate g _ => g.holds
  | .deq site _ _ | .got site _ => site.holds
  | .recvLoop _ | .spinAgain _ | .sleepAnnounce _ | .sleepTail _ | .sleepHead _ _
  | .sleepDone _ | .parkCheck _ => 1
  | _ => 0

/-- The task that the thread has registered and not yet left to the senders. -/
def registering : Pc V → Option TaskId
  | .parkCheck t => some t
  | .deq site _ _ | .got site _ => site.registering
  | _ => none

theorem holds_of_registering {t : TaskId} (h : p.registering = some t) : p.holds = 1 := by
  rcases p with _ | _ | _ | _ | _ | _ | _ | _ | _ | _ | ⟨site, _, _⟩ | ⟨site, _⟩ | _ | _ | _ | _ | _ |
    _ | _ | _ | _ | _ | _ | _ | _ | _ | _ | _ | _ | _ | _ | _ | _
  case deq => rcases site with _ | _ | _ | _ | _ <;> first | rfl | cases h
  case got => rcases site with _ | _ | _ | _ | _ <;> first | rfl | cases h
  all_goals first | rfl | cases h

end Pc

/-! ### One step -/

theorem holds_resume (c : Caller) : (c.resume : Option (Pc V)).elim 0 Pc.holds = 0 := by
  rcases c with _ | t <;> rfl

theorem holds_resume_receiver (r : Receiver) :
    (r.resume : Option (Pc V)).elim 0 Pc.holds = 0 := by
  rcases r with t | c
  · rfl
  · exact holds_resume c

theorem holds_refused (g : Gate) : (g.refused : Pc V).holds = g.holds := by
  rcases g with r | c | t <;> rfl

theorem holds_checkGate (g : Gate) (s : Shared V) (flag : Flag) :
    (checkGate g s flag).holds = g.holds := by
  rcases flag with _ | _ | _ <;> simp only [checkGate] <;> split_ifs <;>
    first | exact holds_refused g | rfl

theorem after_locked (site : Site) (value : Option V) (s : Shared V)
    (hl : site.holds = 1 → s.locked = true) :
    (site.after value s).1.locked.toNat + site.holds =
      s.locked.toNat + (site.after value s).2.elim 0 Pc.holds := by
  rcases site with (r | c | t) | (t | c) | c | ⟨c, wid, ws⟩ | t <;> rcases value with _ | v
  all_goals
    first
    | rfl
    | exact congrArg (s.locked.toNat + ·) (holds_resume _).symm
    | exact congrArg (s.locked.toNat + ·) (holds_resume_receiver _).symm
    | simp_all [Site.after, Site.holds, Gate.holds, Pc.holds, holds_resume, holds_resume_receiver]

theorem start_locked {a : Act V} {c : Caller} (h : a.start c s = some (s', next)) :
    s'.locked = s.locked ∧ next.elim 0 Pc.holds = 0 := by
  rcases a with v | _ | _ | _ | _ | _ <;> rcases c with _ | t <;> cases h <;> exact ⟨rfl, rfl⟩

/-- A step takes the mutex for the thread, gives it back, or leaves it where it is. -/
theorem holds_step (hl : p.holds = 1 → s.locked = true) (h : p.step ch s = some (s', next)) :
    s'.locked.toNat + p.holds = s.locked.toNat + next.elim 0 Pc.holds := by
  replace h := step_cases h
  cases h with
  | enq _ hstep | deq _ hstep => rcases hstep with _ | _ | _ | _ <;> rfl
  | @got site value => exact after_locked site value s hl
  | @gate g flag => exact congrArg (s.locked.toNat + ·) (holds_checkGate g s flag).symm
  | slice h =>
    obtain ⟨hs, hn⟩ := start_locked h
    rw [hs, hn]
    rfl
  | _ =>
    first
    | rfl
    | exact congrArg (s.locked.toNat + ·) (holds_resume _).symm
    | exact congrArg (s.locked.toNat + ·) (holds_resume_receiver _).symm
    | simp_all [Pc.holds, holds_resume, Site.holds]

theorem registering_resume (c : Caller) : ∀ q ∈ (c.resume : Option (Pc V)), q.registering = none := by
  intro q hq
  rcases c with _ | t <;> cases hq
  rfl

theorem registering_resume_receiver (r : Receiver) :
    ∀ q ∈ (r.resume : Option (Pc V)), q.registering = none := by
  intro q hq
  rcases r with t | c
  · cases hq
    rfl
  · exact registering_resume c q hq

theorem registering_checkGate (g : Gate) (s : Shared V) (flag : Flag) :
    (checkGate g s flag).registering = none := by
  rcases flag with _ | _ | _ <;> simp only [checkGate] <;> split_ifs <;>
    first | rfl | (rcases g with _ | _ | _ <;> rfl)

theorem registering_start {a : Act V} {c : Caller} (h : a.start c s = some (s', next)) :
    s'.greenWaiters = s.greenWaiters ∧ ∀ q ∈ next, q.registering = none := by
  rcases a with v | _ | _ | _ | _ | _ <;> rcases c with _ | t <;> cases h <;>
    exact ⟨rfl, by rintro q ⟨⟩; rfl⟩

/-- The pop for a parking task was the last thing under its lock. -/
theorem registering_after (site : Site) (value : Option V) (s : Shared V) :
    ((site.after value s).1.greenWaiters = s.greenWaiters ∨ site.holds = 1) ∧
      ∀ q ∈ (site.after value s).2, q.registering = none := by
  rcases site with (r | c | t) | (t | c) | c | ⟨c, wid, ws⟩ | t <;> rcases value with _ | v
  all_goals
    first
    | exact ⟨.inl rfl, registering_resume _⟩
    | exact ⟨.inl rfl, registering_resume_receiver _⟩
    | exact ⟨.inl rfl, by rintro q ⟨⟩; rfl⟩
    | exact ⟨.inr rfl, by rintro q ⟨⟩; rfl⟩

/-- Without the mutex a step leaves the list of waiters alone, and a task that is registering is
in the list. -/
theorem waiters_step (hreg : ∀ t, p.registering = some t → t ∈ s.greenWaiters)
    (h : p.step ch s = some (s', next)) :
    (s'.greenWaiters = s.greenWaiters ∨ s.locked = false ∨ p.holds = 1) ∧
      ∀ q ∈ next, ∀ t, q.registering = some t → t ∈ s'.greenWaiters := by
  have hnone : ∀ {ws : List TaskId}, (∀ q ∈ next, q.registering = none) →
      ∀ q ∈ next, ∀ t, q.registering = some t → t ∈ ws := by
    intro ws hn q hq t ht
    rw [hn q hq] at ht
    cases ht
  replace h := step_cases h
  cases h with
  | enq _ hstep =>
    rcases hstep with _ | _ | _ | _ <;> exact ⟨.inl rfl, hnone (by rintro q ⟨⟩; rfl)⟩
  | deq _ hstep =>
    rcases hstep with _ | _ | _ | _ <;> refine ⟨.inl rfl, ?_⟩ <;> rintro q ⟨⟩ <;> exact hreg
  | @got site value =>
    obtain ⟨hwaiters, hn⟩ := registering_after site value s
    exact ⟨hwaiters.imp_right .inr, hnone hn⟩
  | @gate g flag => exact ⟨.inl rfl, hnone (by rintro q ⟨⟩; exact registering_checkGate g s flag)⟩
  | slice h =>
    obtain ⟨hwaiters, hn⟩ := registering_start h
    exact ⟨.inl hwaiters, hnone hn⟩
  | parkPop => exact ⟨.inr (.inr rfl), hnone (by rintro q ⟨⟩; rfl)⟩
  | parkLock hfree => exact ⟨.inr (.inl hfree), by simp [Pc.registering]⟩
  | parkRing =>
    refine ⟨.inl rfl, ?_⟩
    rintro q ⟨⟩
    exact hreg
  | _ =>
    first
    | exact ⟨.inl rfl, hnone (registering_resume _)⟩
    | exact ⟨.inl rfl, hnone (registering_resume_receiver _)⟩
    | exact ⟨.inl rfl, hnone (by rintro q ⟨⟩ <;> rfl)⟩
    | exact ⟨.inr (.inl ‹_›), hnone (by rintro q ⟨⟩; rfl)⟩

/-! ### The invariant -/

/-- The mutex is held by the one thread that is in a critical section, and a task that is
registering is in the list of waiters. -/
structure MutexInv (P : System V) : Prop where
  holds : total Pc.holds P.threads = P.shared.locked.toNat
  registered : ∀ p ∈ P.threads, ∀ t, p.registering = some t → t ∈ P.shared.greenWaiters

/-- Nobody holds the mutex in a group of threads that hold it zero times. -/
theorem holds_eq_zero {threads : Multiset (Pc V)} (h : total Pc.holds threads = 0)
    (hp : p ∈ threads) : p.holds = 0 := by
  obtain ⟨rest, rfl⟩ := Multiset.exists_cons_of_mem hp
  rw [total_cons] at h
  omega

/-- Nobody holds a mutex that is free. -/
theorem MutexInv.holds_of_free {P : System V} (hinv : MutexInv P) (hfree : P.shared.locked = false)
    (hp : p ∈ P.threads) : p.holds = 0 := by
  refine holds_eq_zero ?_ hp
  rw [hinv.holds, hfree]
  rfl

theorem mutexInv_move {rest : Multiset (Pc V)} (hinv : MutexInv ⟨s, p ::ₘ rest⟩)
    (hmoves : Moves p s s' next) : MutexInv ⟨s', with? next rest⟩ := by
  obtain ⟨ch, h⟩ := hmoves
  obtain ⟨hholds, hreg⟩ := hinv
  simp only [total_cons] at hholds
  have hle := s.locked.toNat_le
  have hlocked : p.holds = 1 → s.locked = true := by
    intro hp
    rw [← Bool.toNat_eq_one]
    omega
  have hstep := holds_step hlocked h
  obtain ⟨hchange, hnext⟩ := waiters_step (hreg p (by simp)) h
  refine ⟨?_, ?_⟩
  · simp only [total_with?]
    omega
  · intro q hq t ht
    rcases mem_with?.mp hq with hq | hq
    · exact hnext q hq t ht
    · rcases hchange with hsame | hother
      · simpa only [hsame] using hreg q (by simp [hq]) t ht
      · -- the list has changed, and then nobody else is in a critical section
        have hrest : total Pc.holds rest = 0 := by
          rcases hother with hfree | hp
          · rw [hfree, Bool.toNat_false] at hholds
            omega
          · omega
        have := holds_eq_zero hrest hq
        rw [Pc.holds_of_registering ht] at this
        cases this

theorem mutexInv_step {P P' : System V} (hinv : MutexInv P) (hstep : System.Step P P') :
    MutexInv P' := by
  rcases hstep with hmoves | @⟨s, s', next, threads, houtside⟩
  · exact mutexInv_move hinv hmoves
  · obtain ⟨hholds, hreg⟩ := hinv
    have hout : s'.locked = s.locked ∧ s'.greenWaiters = s.greenWaiters ∧
        next.elim 0 Pc.holds = 0 ∧ ∀ q ∈ next, q.registering = none := by
      rcases houtside with ⟨a, h⟩ | _ | h
      · obtain ⟨hl, hn⟩ := start_locked h
        obtain ⟨hw, hr⟩ := registering_start h
        exact ⟨hl, hw, hn, hr⟩
      · exact ⟨rfl, rfl, rfl, nofun⟩
      · exact ⟨rfl, rfl, rfl, by rintro q ⟨⟩; rfl⟩
    obtain ⟨hl, hw, hn, hr⟩ := hout
    refine ⟨?_, ?_⟩
    · simp only [total_with?, hn, hl]
      simpa using hholds
    · intro q hq t ht
      rcases mem_with?.mp hq with hq | hq
      · rw [hr q hq] at ht
        cases ht
      · simpa only [hw] using hreg q hq t ht

theorem mutexInv_new : MutexInv (System.new : System V) :=
  ⟨rfl, by simp [System.new]⟩

end ZzLang.Conc
