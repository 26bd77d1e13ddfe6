import ZzLang.Aot.ChannelWaiters

/-!
# The order of values

One sender and one receiver. The values are in order as long as those in the spill queue are older
than those in the ring: `sent = received ++ hands ++ queue ++ ring ++ sender`, where the hands are
those of the receiver and the slot of its frame.

Two things break this. A value is spilled when the ring is full, and then everything in the ring is
older than it: after 1024 values in the ring the next one sent is the first one received
(`overflow_received_first`). And a receiver whose second look gives up while the ring holds a value
is handed the next value over the heads of those in the ring. The order is kept in the runs where
neither happens, and where no lock-free pop is past its check of the spill queue when a value is
spilled (`received_in_order`).
-/

namespace ZzLang.Aot

open MpmcRing Buffer ThreadPool

variable {V : Type} {s s' : Shared V} {p : Pc V} {next : Option (Pc V)}
  {rest threads : Multiset (Pc V)}

/-! ### Operations under way -/

/-- One for a call of `zz_chan_send` that has not returned. -/
def Pc.sending : Pc V → ℕ
  | .send _ | .enq .. | .sent | .spill _ | .requeue _ => 1
  | _ => 0

/-- One for a receive that has not registered its frame. -/
def Site.receiving : Site → ℕ
  | .free _ | .locked _ => 1
  | .recheck _ => 0

/-- One for a receive that has not returned and has not registered its frame. -/
def Pc.receiving : Pc V → ℕ
  | .deq site _ _ | .got site _ => site.receiving
  | .gateWaiters _ | .gateSpill _ | .spinStart | .spinAgain | .lock _ | .sleepLock | .sleepTail _
  | .sleepHead .. | .asleep => 1
  | _ => 0

/-- The sends under way. -/
def sends (P : System V) : ℕ := total Pc.sending P.threads

/-- The receives under way: of registered frames, of frames that have got a value, and of
threads. -/
def receives (P : System V) : ℕ :=
  P.shared.waiters.length + P.shared.slotValues.card + total Pc.receiving P.threads

/-- At most one send and at most one receive is under way. -/
structure Solo (P : System V) : Prop where
  sends_le : sends P ≤ 1
  receives_le : receives P ≤ 1

/-- A step of a system with one sender and one receiver. -/
def SoloStep (P P' : System V) : Prop := System.Step P P' ∧ Solo P'

/-- A pop that has not claimed a position. -/
def Pc.Pops : Pc V → Prop
  | .deq _ _ (.release ..) => False
  | .deq .. => True
  | _ => False

/-- A lock-free one. -/
def Pc.PopsUnlocked (p : Pc V) : Prop := p.Pops ∧ p.holds = 0

/-- A step of such a system that is patient, and in which a value is only spilled while the ring is
empty and no lock-free pop is past its check. -/
inductive FifoStep : System V → System V → Prop
  | move {p : Pc V} {s s' : Shared V} {next : Option (Pc V)} {rest : Multiset (Pc V)}
      (h : Moves p s s' next) (hsolo : Solo ⟨s', with? next rest⟩)
      (hpatient : Outraced p s next → s.ring.head = s.ring.tail)
      (hspill : ∀ v, p = .spill v → s.ring.head = s.ring.tail ∧ ∀ q ∈ rest, ¬q.PopsUnlocked) :
      FifoStep ⟨s, p ::ₘ rest⟩ ⟨s', with? next rest⟩
  | outside {s s' : Shared V} {next : Option (Pc V)} {threads : Multiset (Pc V)}
      (h : Outside s s' next) (hsolo : Solo ⟨s', with? next threads⟩) :
      FifoStep ⟨s, threads⟩ ⟨s', with? next threads⟩

theorem FifoStep.patient {P P' : System V} (h : FifoStep P P') : PatientStep P P' := by
  rcases h with ⟨h, _, hpatient, _⟩ | ⟨h, _⟩
  · exact .move h hpatient
  · exact .outside h

/-! ### A frame that is looked once more for is in the list -/

/-- A thread that looks once more has its frame in the list. -/
def Registered (P : System V) : Prop :=
  ∀ p ∈ P.threads, ∀ f, p.registering = some f → f ∈ P.shared.waiters

theorem registered_move (hinv : Registered ⟨s, p ::ₘ rest⟩) (hmutex : MutexInv ⟨s, p ::ₘ rest⟩)
    (h : WaitersCase s p s' next) : Registered ⟨s', with? next rest⟩ := by
  intro q hq f hreg
  have halone : p.holds = 1 → q ∉ rest := by
    intro hholds hq
    have := hmutex.holds_rest hholds hq
    rw [Pc.holds_of_registering hreg] at this
    exact one_ne_zero this
  have hnot : (∀ q ∈ next, q.registering = none ∧ ¬q.Enqueues) → next ≠ some q := by
    rintro hnext rfl
    rw [(hnext q rfl).1] at hreg
    cases hreg
  rw [mem_with?] at hq
  cases h with
  | same hwaiters hsame _ =>
    refine (congrArg (f ∈ ·) hwaiters).mpr ?_
    rcases hq with rfl | hq
    · exact hinv p (Multiset.mem_cons_self p rest) f (hsame.symm.trans hreg)
    · exact hinv q (Multiset.mem_cons_of_mem hq) f hreg
  | handoff hfree _ _ hnext =>
    have hq := hq.resolve_left (hnot hnext)
    have := hmutex.holds_eq_zero hfree (Multiset.mem_cons_of_mem hq)
    rw [Pc.holds_of_registering hreg] at this
    exact absurd this one_ne_zero
  | register f' hp _ hwaiters hnext =>
    rcases hq with hq | hq
    · cases hnext.symm.trans hq
      cases hreg
      simp [hwaiters]
    · exact absurd hq (halone (by rw [hp]; rfl))
  | late f' hp _ _ hnext =>
    rcases hq with hq | hq
    · cases hnext.symm.trans hq
    · exact absurd hq (halone (by rw [hp]; rfl))
  | take f' hp _ hnext =>
    rcases hq with hq | hq
    · cases hnext.symm.trans hq
    · exact absurd hq (halone (Pc.holds_of_registering hp))
  | suspend f' hp _ hnext =>
    exact absurd (hq.resolve_left (hnot hnext)) (halone (by rw [hp]; rfl))

theorem registered_outside (hinv : Registered ⟨s, threads⟩) (h : Outside s s' next) :
    Registered ⟨s', with? next threads⟩ := by
  intro q hq f hreg
  have hwaiters := h.same.2.2.2.2.1
  rcases mem_with?.mp hq with hnext | hold
  · cases h <;> cases hnext <;> cases hreg
  · exact (congrArg (f ∈ ·) hwaiters).mpr (hinv q hold f hreg)

/-! ### At most one value in either hand -/

/-- One for a thread that looks once more. -/
def Pc.registers (p : Pc V) : ℕ := p.registering.elim 0 fun _ => 1

theorem Pc.registers_le_holds (p : Pc V) : p.registers ≤ p.holds := by
  rcases hreg : p.registering with _ | f
  · simp [registers, hreg]
  · simp [registers, hreg, holds_of_registering hreg]

theorem card_held_le (value : Option V) : (held value).card ≤ 1 := by
  rcases value with _ | v <;> simp

theorem Pc.card_taken_le (p : Pc V) : p.taken.card ≤ p.receiving + p.registers := by
  rcases p with _ | _ | _ | _ | _ | _ | _ | ⟨site, tries, _ | _ | _ | ⟨pos, value⟩⟩ |
    ⟨site, value⟩ | _
  case deq.release => rcases site with _ | _ | _ <;> exact card_held_le value
  case got => rcases site with _ | _ | _ <;> exact card_held_le value
  all_goals exact Nat.zero_le _

theorem Pc.card_offered_le (p : Pc V) : p.offered.card ≤ p.sending := by
  rcases p with _ | _ | _ | _ | _ <;> simp [offered, sending]

/-- A value on its way belongs to a receive: to that of a thread, or of a frame in the list. -/
theorem card_taken (hreg : ∀ p ∈ threads, ∀ f, p.registering = some f → f ∈ s.waiters)
    (hholds : total Pc.holds threads ≤ 1) :
    (total Pc.taken threads).card ≤ s.waiters.length + total Pc.receiving threads := by
  have hle : (total Pc.taken threads).card ≤
      total Pc.receiving threads + total Pc.registers threads := by
    rw [card_total, ← total_add]
    exact total_le Pc.card_taken_le threads
  have hone : total Pc.registers threads ≤ 1 :=
    (total_le Pc.registers_le_holds threads).trans hholds
  rcases Nat.eq_zero_or_pos (total Pc.registers threads) with hzero | hpos
  · omega
  · -- some thread looks once more, and its frame is in the list
    have hmem : ∃ p ∈ threads, p.registers ≠ 0 := by
      by_contra hcon
      simp only [not_exists, not_and, not_not] at hcon
      have : total Pc.registers threads = 0 := by
        rw [total, Multiset.map_congr rfl hcon]
        simp
      omega
    obtain ⟨p, hp, hne⟩ := hmem
    rcases hp' : p.registering with _ | f
    · simp [Pc.registers, hp'] at hne
    · have := List.length_pos_of_mem (hreg p hp f hp')
      omega

theorem Solo.card_taken_le {P : System V} (hsolo : Solo P) (hmutex : MutexInv P)
    (hreg : Registered P) : (P.shared.slotValues + total Pc.taken P.threads).card ≤ 1 := by
  have hle := card_taken hreg (by rw [hmutex]; exact P.shared.locked.toNat_le)
  have := hsolo.receives_le
  rw [receives] at this
  rw [Multiset.card_add]
  omega

theorem Solo.card_offered_le {P : System V} (hsolo : Solo P) :
    (total Pc.offered P.threads).card ≤ 1 := by
  rw [card_total]
  exact (total_le Pc.card_offered_le P.threads).trans hsolo.sends_le

/-- A list of at most one value that has this one. -/
theorem eq_singleton_of_coe {hs : List V} {v : V} {others : Multiset V}
    (h : (hs : Multiset V) = {v} + others) (hle : ({v} + others).card ≤ 1) :
    hs = [v] ∧ others = 0 := by
  rw [Multiset.card_add, Multiset.card_singleton] at hle
  have hnone : others = 0 := Multiset.card_eq_zero.mp (by omega)
  rw [hnone, add_zero] at h
  exact ⟨Multiset.coe_eq_singleton.mp h, hnone⟩

/-! ### The invariant -/

/-- The values sent are, in this order, those received, those on their way to a receiver, those in
the spill queue, those in the ring, and those a sender has. -/
def Flow.Ordered (f : Flow V) (hs ks : List V) : Prop :=
  f.sent = f.received ++ hs ++ f.queue ++ f.items ++ ks

/-- The values are in order, and a pop of the ring has seen the spill queue empty. -/
structure FifoInv (P : System V) : Prop where
  order : ∃ hs ks : List V, (hs : Multiset V) = P.shared.slotValues + total Pc.taken P.threads ∧
    (ks : Multiset V) = total Pc.offered P.threads ∧ P.shared.flow.Ordered hs ks
  pops : ∀ p ∈ P.threads, p.Pops → P.shared.queue = []
  registered : Registered P
  solo : Solo P

/-- A step keeps the values in order. -/
theorem order_move (hinv : FifoInv ⟨s, p ::ₘ rest⟩) (hmutex : MutexInv ⟨s, p ::ₘ rest⟩)
    (hwait : WaitInv ⟨s, p ::ₘ rest⟩) (hmutex' : MutexInv ⟨s', with? next rest⟩)
    (hreg' : Registered ⟨s', with? next rest⟩) (hsolo' : Solo ⟨s', with? next rest⟩)
    (hspill : ∀ v, p = .spill v → s.ring.head = s.ring.tail) (hstep : FlowStep s s' p next) :
    ∃ hs ks : List V, (hs : Multiset V) = s'.slotValues + total Pc.taken (with? next rest) ∧
      (ks : Multiset V) = total Pc.offered (with? next rest) ∧ s'.flow.Ordered hs ks := by
  obtain ⟨hs, ks, hhs, hks, hsent⟩ := hinv.order
  have htaken_le := hinv.solo.card_taken_le hmutex hinv.registered
  have hoffered_le := hinv.solo.card_offered_le
  have htaken_le' := hsolo'.card_taken_le hmutex' hreg'
  have hreceives := hinv.solo.receives_le
  rw [receives] at hreceives
  simp only [total_cons] at hhs hks htaken_le hoffered_le hreceives
  simp only [total_with?] at htaken_le' ⊢
  rw [← add_assoc] at hhs htaken_le htaken_le' ⊢
  -- before a value is taken, none is on its way
  have hnone : ∀ {v : V}, s'.slotValues + next.elim 0 Pc.taken =
      {v} + (s.slotValues + p.taken) → hs = [] := by
    intro v heq
    rw [heq, add_assoc, ← hhs] at htaken_le'
    rw [← Multiset.coe_eq_zero, ← Multiset.card_eq_zero]
    rw [Multiset.card_add, Multiset.card_singleton] at htaken_le'
    omega
  -- a sender that lets go of its value has no other
  have hlast : ∀ {v : V}, p.offered = {v} + next.elim 0 Pc.offered →
      ks = [v] ∧ next.elim 0 Pc.offered + total Pc.offered rest = 0 := by
    intro v heq
    rw [heq, add_assoc] at hks hoffered_le
    exact eq_singleton_of_coe hks hoffered_le
  cases hstep with
  | idle hflow htaken hoffered =>
    exact ⟨hs, ks, by rw [htaken, hhs], by rw [hoffered, hks], hflow ▸ hsent⟩
  | handoff v hp hfree hwaiters hflow htaken hoffered =>
    obtain ⟨rfl, hzero⟩ := hlast hoffered
    have hnil := hnone htaken
    subst hnil
    -- a frame waits, so that both tiers are empty
    have hidle : s.Idle := by
      rcases hwait.listed hwaiters with hidle | ⟨q, hq, f, hreg, -⟩
      · exact hidle
      · have := hmutex.holds_eq_zero hfree hq
        rw [Pc.holds_of_registering hreg] at this
        exact absurd this one_ne_zero
    have hitems : s.flow.items = [] := items_eq_nil hidle.ring
    have hqueue : s.flow.queue = [] := hidle.queue
    refine ⟨[v], [], ?_, hzero.symm, ?_⟩
    · rw [htaken, add_assoc, ← hhs]
      rfl
    · rw [hflow]
      simpa [Flow.Ordered, hitems, hqueue] using hsent
  | publish v hflow htaken hoffered =>
    obtain ⟨rfl, hzero⟩ := hlast hoffered
    refine ⟨hs, [], by rw [htaken, hhs], hzero.symm, ?_⟩
    rw [hflow]
    simpa [Flow.Ordered] using hsent
  | push v hp hflow htaken hoffered =>
    obtain ⟨rfl, hzero⟩ := hlast hoffered
    have hitems : s.flow.items = [] := items_eq_nil (hspill v hp)
    refine ⟨hs, [], by rw [htaken, hhs], hzero.symm, ?_⟩
    have hqueue : s.flow.queue = s.queue := rfl
    rw [hflow]
    simpa [Flow.Ordered, hitems, hqueue] using hsent
  | claim v hp hitems hflow htaken hoffered =>
    obtain ⟨site, tries, pos, rfl⟩ := hp
    have hqueue : s.flow.queue = [] := hinv.pops _ (Multiset.mem_cons_self _ _) trivial
    have hnil := hnone htaken
    subst hnil
    refine ⟨[v], ks, ?_, by rw [hoffered, hks], ?_⟩
    · rw [htaken, add_assoc, ← hhs]
      rfl
    · rw [hflow]
      simpa [Flow.Ordered, hqueue, hitems] using hsent
  | receive v queue hp hqueue hflow htaken hoffered =>
    -- the receive that takes the value is the only one
    have hp' : p.receiving = 1 ∧ p.taken = 0 := by
      rcases hp with ⟨o, rfl⟩ | ⟨f, rfl⟩ <;> exact ⟨rfl, rfl⟩
    have hnil : hs = [] := by
      have hreg : ∀ q ∈ rest, ∀ f, q.registering = some f → f ∈ s.waiters := fun q hq =>
        hinv.registered q (Multiset.mem_cons_of_mem hq)
      have hle := card_taken hreg
        (by have := s.locked.toNat_le; simp only [MutexInv, total_cons] at hmutex; omega)
      rw [← Multiset.coe_eq_zero, ← Multiset.card_eq_zero, hhs, hp'.2, add_zero, Multiset.card_add]
      omega
    subst hnil
    refine ⟨[], ks, by rw [htaken, hhs], by rw [hoffered, hks], ?_⟩
    rw [hflow]
    simpa [Flow.Ordered, hqueue, Shared.flow] using hsent
  | give v hflow htaken hoffered =>
    rw [← htaken, add_assoc] at hhs htaken_le
    obtain ⟨rfl, hzero⟩ := eq_singleton_of_coe hhs htaken_le
    refine ⟨[], ks, hzero.symm, by rw [hoffered, hks], ?_⟩
    rw [hflow]
    simpa [Flow.Ordered, Shared.flow] using hsent

/-- A pop starts after the spill queue was seen empty. -/
theorem StepCase.pops (hcounted : Counted s) (h : StepCase s p s' next) :
    ∀ q ∈ next, q.Pops → s'.queue = s.queue ∧ (p.Pops ∨ s.queue = []) := by
  intro q hq hpops
  cases h with
  | walk _ hlight | acquire _ _ hlight =>
    cases hq
    cases hlight <;> exact hpops.elim
  | leave _ hnext => cases hnext q hq <;> exact hpops.elim
  | handoff _ _ | suspend =>
    rw [Option.mem_def] at hq
    split_ifs at hq
    cases hq
    exact hpops.elim
  | offer _ _ =>
    cases hq
    exact hpops.elim
  | @enq _ _ _ _ n =>
    cases hq
    rcases n with _ | _ | _ <;> exact hpops.elim
  | gate hspill =>
    refine ⟨rfl, .inr (List.eq_nil_of_length_eq_zero ?_)⟩
    rw [← hcounted.spill, hspill]
  | @deq site tries phase ring n hstep _ =>
    cases hq
    refine ⟨rfl, .inl ?_⟩
    cases hstep with
    | @again _ phase' tries' h h' =>
      rcases phase with _ | _ | _ | ⟨pos, value⟩
      · trivial
      · trivial
      · trivial
      · exact absurd rfl (h pos value)
    | _ => exact hpops.elim
  | slow _ hqueue => exact ⟨rfl, .inr hqueue⟩
  | register hqueue => exact ⟨rfl, .inr hqueue⟩
  | _ => cases hq

/-- A pop under way has seen the spill queue empty: a value is not spilled while a lock-free pop
is under way, nor while the lock is held for one. -/
theorem pops_move (hinv : FifoInv ⟨s, p ::ₘ rest⟩) (hchannel : ChannelInv ⟨s, p ::ₘ rest⟩)
    (hspill : ∀ v, p = .spill v → ∀ q ∈ rest, ¬q.PopsUnlocked) (h : StepCase s p s' next) :
    ∀ q ∈ with? next rest, q.Pops → s'.queue = [] := by
  intro q hq hpops
  rcases mem_with?.mp hq with hq | hq
  · obtain ⟨hsame, hp⟩ := h.pops hchannel.counted q hq hpops
    exact hsame.trans (hp.elim (hinv.pops p (Multiset.mem_cons_self p rest)) id)
  · refine (h.queue_idle (hinv.pops q (Multiset.mem_cons_of_mem hq) hpops)).resolve_right ?_
    rintro ⟨v, rfl⟩
    exact hspill v rfl q hq ⟨hpops, hchannel.mutex.holds_rest rfl hq⟩

/-- From outside a send is started, a task takes the value of its frame, or nothing happens to the
values. -/
theorem order_outside (hframes : FrameInv ⟨s, threads⟩) (hinv : FifoInv ⟨s, threads⟩)
    (hmutex : MutexInv ⟨s, threads⟩) (h : Outside s s' next) :
    ∃ hs ks : List V, (hs : Multiset V) = s'.slotValues + total Pc.taken (with? next threads) ∧
      (ks : Multiset V) = total Pc.offered (with? next threads) ∧ s'.flow.Ordered hs ks := by
  obtain ⟨hs, ks, hhs, hks, hsent⟩ := hinv.order
  simp only [total_with?]
  cases h with
  | send v =>
    refine ⟨hs, ks ++ [v], hhs.trans (congrArg (s.slotValues + ·) (zero_add _).symm), ?_, ?_⟩
    · rw [← Multiset.coe_add, hks, add_comm]
      rfl
    · exact (congrArg (· ++ [v]) hsent).trans (List.append_assoc ..)
  | green isTask =>
    have hslots : { s with nextId := s.nextId + 1 }.slotValues = s.slotValues := by
      simp only [Shared.slotValues, Finset.sum_range_succ,
        show s.slots s.nextId = none from hframes.unused _ le_rfl, held_none, add_zero]
    exact ⟨hs, ks, hhs.trans (congrArg₂ (· + ·) hslots.symm (zero_add _).symm),
      hks.trans (zero_add _).symm, hsent⟩
  | @resume f ready v hready hslot =>
    have hlt : f.id < s.nextId := by
      by_contra hcon
      rw [hframes.unused f.id (not_lt.mp hcon)] at hslot
      cases hslot
    have hupdate := s.slotValues_update hlt none
    rw [hslot, held_none, held_some, add_zero, add_comm] at hupdate
    have hle := hinv.solo.card_taken_le hmutex hinv.registered
    change (hs : Multiset V) = s.slotValues + total Pc.taken threads at hhs
    change (s.slotValues + total Pc.taken threads).card ≤ 1 at hle
    rw [← hupdate, add_assoc] at hhs hle
    obtain ⟨rfl, hzero⟩ := eq_singleton_of_coe hhs hle
    refine ⟨[], ks, ?_, hks.trans (zero_add _).symm, ?_⟩
    · rw [Option.elim_none, zero_add]
      exact hzero.symm
    · simpa [Flow.Ordered, Shared.flow, Shared.takeSlot, Shared.receive] using hsent
  | _ => exact ⟨hs, ks, hhs.trans (congrArg (s.slotValues + ·) (zero_add _).symm),
      hks.trans (zero_add _).symm, hsent⟩

theorem fifoInv_outside (hchannel : ChannelInv ⟨s, threads⟩) (hinv : FifoInv ⟨s, threads⟩)
    (hsolo' : Solo ⟨s', with? next threads⟩) (h : Outside s s' next) :
    FifoInv ⟨s', with? next threads⟩ where
  order := order_outside hchannel.frames hinv hchannel.mutex h
  pops := by
    intro q hq hpops
    rcases mem_with?.mp hq with hnext | hold
    · cases h <;> cases hnext <;> exact hpops.elim
    · exact h.same.2.2.1.trans (hinv.pops q hold hpops)
  registered := registered_outside hinv.registered h
  solo := hsolo'

theorem fifoInv_new : FifoInv (System.new : System V) where
  order := ⟨[], [], rfl, rfl, rfl⟩
  pops := by simp [System.new]
  registered := by simp [Registered, System.new]
  solo := ⟨Nat.zero_le 1, Nat.zero_le 1⟩

/-! ### Every run -/

theorem fifoInv_of_run {P : System V} (hrun : Relation.ReflTransGen FifoStep System.new P) :
    P.PatientlyReachable ∧ FifoInv P := by
  induction hrun with
  | refl => exact ⟨.refl, fifoInv_new⟩
  | tail _ hstep ih =>
    obtain ⟨hreach, hinv⟩ := ih
    have hchannel := (System.PatientlyReachable.reachable hreach).channelInv
    have hwait := System.PatientlyReachable.waitInv hreach
    refine ⟨hreach.tail hstep.patient, ?_⟩
    rcases hstep with ⟨⟨ok, h⟩, hsolo', -, hspill⟩ | ⟨h, hsolo'⟩
    · have hcase := stepCase h
      have hmutex' := mutexInv_move hchannel.mutex hcase
      have hreg' := registered_move hinv.registered hchannel.mutex hcase.waitersCase
      exact ⟨order_move hinv hchannel.mutex hwait hmutex' hreg' hsolo'
          (fun v hp => (hspill v hp).1)
          (hcase.flowStep hchannel.ring hchannel.frames hchannel.newest),
        pops_move hinv hchannel (fun v hp => (hspill v hp).2) hcase, hreg', hsolo'⟩
    · exact fifoInv_outside hchannel hinv hsolo' h

/-- **The values are received in the order they were sent**, in every run with one sender and one
receiver in which a value is only spilled while the ring is empty and no lock-free pop is past
its check of the spill queue, and the second look only gives up while the ring is empty. -/
theorem received_in_order {P : System V} (hrun : Relation.ReflTransGen FifoStep System.new P) :
    P.shared.received <+: P.shared.sent := by
  obtain ⟨hs, ks, -, -, hsent⟩ := (fifoInv_of_run hrun).2.order
  refine ⟨hs ++ P.shared.queue ++ items ringCap P.shared.ring ++ ks, ?_⟩
  simpa [Flow.Ordered, Shared.flow] using hsent.symm

/-! ### Two runs -/

theorem Pc.counts_le (p : Pc V) : p.sending ≤ 1 ∧ p.receiving ≤ 1 := by
  rcases p with _ | _ | _ | _ | _ | _ | _ | ⟨_ | _ | _, _, _⟩ | ⟨_ | _ | _, _⟩ | _ <;>
    simp [sending, receiving, Site.receiving]

theorem solo_of_noFrames (hs : s.NoFrames) : Solo ⟨s, with? next 0⟩ := by
  have hnext : next.elim 0 Pc.sending ≤ 1 ∧ next.elim 0 Pc.receiving ≤ 1 := by
    rcases next with _ | p
    · exact ⟨Nat.zero_le 1, Nat.zero_le 1⟩
    · exact p.counts_le
  refine ⟨?_, ?_⟩
  · simpa [sends, total_with?] using hnext.1
  · simpa [receives, total_with?, hs.1, hs.2] using hnext.2

theorem solo_of_calm {P : System V} (hcalm : Calm P) : Solo P := by
  obtain ⟨hwaiters, hslots, next, hthreads, hnext⟩ := hcalm
  rcases P with ⟨s, threads⟩
  cases hthreads
  exact solo_of_noFrames ⟨hwaiters, hslots⟩

theorem fifoStep_of_calm {P P' : System V} (h : System.Step P P') (hcalm : Calm P)
    (hcalm' : Calm P') : FifoStep P P' := by
  rcases h with h | h
  · refine .move h (solo_of_calm hcalm') (fun houtraced => ?_) fun v hp => ?_
    · exact absurd houtraced hcalm.thread.not_outraced
    · have := hcalm.thread
      rw [hp] at this
      exact this.elim
  · exact .outside h (solo_of_calm hcalm')

/-- The state after an undisturbed send that spills its value. -/
def Shared.spilledAlone (s : Shared V) (v : V) : Shared V :=
  { s with
    locked := false
    queue := s.queue ++ [v]
    spillCount := s.spillCount + 1
    sent := s.sent ++ [v] }

theorem fifoStep_move {ok : Bool} (h : p.step ok s = some (s', next)) (hs' : s'.NoFrames)
    (hpatient : Outraced p s next → s.ring.head = s.ring.tail)
    (hspill : ∀ v, p = .spill v → s.ring.head = s.ring.tail) :
    FifoStep ⟨s, with? (some p) 0⟩ ⟨s', with? next 0⟩ :=
  show FifoStep ⟨s, p ::ₘ 0⟩ _ from
    .move ⟨ok, h⟩ (solo_of_noFrames hs') hpatient fun v hp => ⟨hspill v hp, by simp⟩

/-- An attempt to enqueue whose weak exchange fails. -/
theorem lone_attempt {s : Shared V} {v : V} {tries : ℕ} (q : Pc V) (hs : s.NoFrames)
    (hroom : s.ring.seq (s.ring.tail % ringCap) = s.ring.tail)
    (hempty : s.ring.head = s.ring.tail)
    (hfail : (Pc.enq v tries (.cas s.ring.tail)).step false s = some (s, some q)) :
    Relation.ReflTransGen FifoStep ⟨s, with? (some (.enq v tries .load)) 0⟩
      ⟨s, with? (some q) 0⟩ := by
  have hload : (Pc.enq v tries .load).step true s =
      some (s, some (.enq v tries (.seq s.ring.tail))) := rfl
  have hseq : (Pc.enq v tries (.seq s.ring.tail)).step true s =
      some (s, some (.enq v tries (.cas s.ring.tail))) := by
    simp [Pc.step, enqStep, hroom]
  exact Relation.ReflTransGen.single (fifoStep_move hload hs (fun _ => hempty) fun _ _ => hempty)
    |>.tail (fifoStep_move hseq hs (fun _ => hempty) fun _ _ => hempty)
    |>.tail (fifoStep_move hfail hs (fun _ => hempty) fun _ _ => hempty)

/-- An undisturbed send whose four exchanges fail while the ring is empty. -/
theorem lone_refused {s : Shared V} (v : V) (hfree : s.locked = false) (hs : s.NoFrames)
    (hroom : s.ring.seq (s.ring.tail % ringCap) = s.ring.tail)
    (hempty : s.ring.head = s.ring.tail) :
    Relation.ReflTransGen FifoStep ⟨s, 0⟩ ⟨s.spilledAlone v, 0⟩ := by
  have hsend : (Pc.send v).step true { s with sent := s.sent ++ [v] } =
      some ({ s with sent := s.sent ++ [v] }.lock, some (.enq v 4 .load)) := by
    simp [Pc.step, hfree, hs.1]
  have hspill : (Pc.spill v).step true { s with sent := s.sent ++ [v] }.lock =
      some (s.spilledAlone v, none) := rfl
  have hstart : FifoStep ⟨s, 0⟩ ⟨{ s with sent := s.sent ++ [v] }, with? (some (.send v)) 0⟩ :=
    .outside (.send s v) (solo_of_noFrames hs)
  exact (Relation.ReflTransGen.single hstart)
    |>.tail (fifoStep_move hsend hs (fun _ => hempty) fun _ _ => hempty)
    |>.trans (lone_attempt (.enq v 3 .load) hs hroom hempty rfl)
    |>.trans (lone_attempt (.enq v 2 .load) hs hroom hempty rfl)
    |>.trans (lone_attempt (.enq v 1 .load) hs hroom hempty rfl)
    |>.trans (lone_attempt (.spill v) hs hroom hempty rfl)
    |>.tail (fifoStep_move hspill hs (fun _ => hempty) fun _ _ => hempty)

/-- An undisturbed `zz_chan_try_recv` that takes a spilled value. -/
theorem lone_popSpill {s : Shared V} {v : V} {queue : List V} (hfree : s.locked = false)
    (hs : s.NoFrames) (hqueue : s.queue = v :: queue) (hspill : s.spillCount ≠ 0)
    (hcount : s.greenWaiters = 0) :
    Relation.ReflTransGen FifoStep ⟨s, 0⟩ ⟨(s.popSpill queue).receive v, 0⟩ := by
  have hgate : (Pc.gateWaiters (.fast .tryRecv)).step true s =
      some (s, some (.gateSpill (.fast .tryRecv))) := by
    simp [Pc.step, hcount]
  have hgate' : (Pc.gateSpill (.fast .tryRecv)).step true s = some (s, some (.lock .tryRecv)) := by
    simp [Pc.step, hspill, Gate.refused, Gate.missed]
  have hpop : (Pc.lock .tryRecv).step true s = some ((s.popSpill queue).receive v, none) := by
    simp [Pc.step, hfree, hqueue]
  have hstart : FifoStep ⟨s, 0⟩ ⟨s, with? (some (.gateWaiters (.fast .tryRecv))) 0⟩ :=
    .outside (.tryRecv s) (solo_of_noFrames hs)
  exact (Relation.ReflTransGen.single hstart)
    |>.tail (fifoStep_move hgate hs (by simp [Outraced]) (by simp))
    |>.tail (fifoStep_move hgate' hs (by simp [Outraced]) (by simp))
    |>.tail (fifoStep_move hpop hs (by simp [Outraced]) (by simp))

/-- The second of three values is spilled, into an empty ring, and the third one is not. -/
def twoTiers : Shared ℕ :=
  (((Shared.new.sentAlone 7).receivedAlone 7).spilledAlone 8).sentAlone 9

/-- Three values are sent on both ways and received. -/
theorem received_in_order_three :
    ∃ P : System ℕ, Relation.ReflTransGen FifoStep System.new P ∧ P.shared.sent = [7, 8, 9] ∧
      P.shared.received = [7, 8, 9] ∧ P.shared.received <+: P.shared.sent := by
  have hcap : 1 % ringCap = 1 := Nat.mod_eq_of_lt two_le_ringCap
  have hrun : Relation.ReflTransGen FifoStep (System.new : System ℕ)
      ⟨((twoTiers.popSpill []).receive 8).receivedAlone 9, 0⟩ := by
    refine (lone_send (fun _ _ => fifoStep_of_calm) 7 rfl ⟨rfl, rfl⟩ ?_)
      |>.trans (lone_tryRecv (fun _ _ => fifoStep_of_calm) ⟨rfl, rfl⟩ rfl rfl ?_ ?_)
      |>.trans (lone_refused 8 rfl ⟨rfl, rfl⟩ ?_ rfl)
      |>.trans (lone_send (fun _ _ => fifoStep_of_calm) 9 rfl ⟨rfl, rfl⟩ ?_)
      |>.trans (lone_popSpill rfl ⟨rfl, rfl⟩ rfl (by decide) rfl)
      |>.trans (lone_tryRecv (fun _ _ => fifoStep_of_calm) ⟨rfl, rfl⟩ rfl rfl ?_ ?_)
    all_goals
      simp [Shared.sentAlone, Shared.spilledAlone, Shared.receivedAlone, Shared.popSpill,
        Shared.receive, Shared.new, Buffer.new, Buffer.claimTail, Buffer.publish, Buffer.claimHead,
        Buffer.release, hcap]
  exact ⟨_, hrun, rfl, rfl, received_in_order hrun⟩

/-- The state after so many undisturbed sends. -/
def filled : ℕ → Shared ℕ
  | 0 => .new
  | n + 1 => (filled n).sentAlone n

/-- Everything but the ring and the record of what was sent is as in a fresh channel. -/
structure Shared.Filled (s : Shared ℕ) (n : ℕ) : Prop where
  free : s.locked = false
  frames : s.NoFrames
  queue : s.queue = []
  spill : s.spillCount = 0
  waiters : s.greenWaiters = 0
  received : s.received = []
  sent : s.sent = List.range n
  tail : s.ring.tail = n

theorem filled_rest (n : ℕ) : (filled n).Filled n := by
  induction n with
  | zero => exact ⟨rfl, ⟨rfl, rfl⟩, rfl, rfl, rfl, rfl, rfl, rfl⟩
  | succ n ih =>
    refine ⟨rfl, ih.frames, ih.queue, ih.spill, ih.waiters, ih.received, ?_, ?_⟩
    · rw [List.range_succ, ← ih.sent]
      rfl
    · exact congrArg (· + 1) ih.tail

theorem filled_seq {n : ℕ} (hn : n ≤ ringCap) :
    (∀ i < n, (filled n).ring.seq i = i + 1) ∧ ∀ i, n ≤ i → (filled n).ring.seq i = i := by
  induction n with
  | zero => exact ⟨by simp, fun i _ => rfl⟩
  | succ n ih =>
    obtain ⟨hbelow, habove⟩ := ih (by omega)
    have hseq : (filled (n + 1)).ring.seq = Function.update (filled n).ring.seq n (n + 1) := by
      simp [filled, Shared.sentAlone, Buffer.publish, Buffer.claimTail, (filled_rest n).tail,
        Nat.mod_eq_of_lt (show n < ringCap by omega)]
    refine ⟨fun i hi => ?_, fun i hi => ?_⟩
    · rcases eq_or_ne i n with rfl | hne
      · simp [hseq]
      · rw [hseq, Function.update_of_ne hne]
        exact hbelow i (by omega)
    · rw [hseq, Function.update_of_ne (by omega)]
      exact habove i (by omega)

theorem filled_reachable {n : ℕ} (hn : n ≤ ringCap) :
    Relation.ReflTransGen SoloStep System.new ⟨filled n, 0⟩ := by
  induction n with
  | zero => exact .refl
  | succ n ih =>
    have hrest := filled_rest n
    refine (ih (by omega)).trans
      (lone_send (fun _ _ h _ hcalm' => ⟨h, solo_of_calm hcalm'⟩) n hrest.free hrest.frames ?_)
    rw [hrest.tail, Nat.mod_eq_of_lt (by omega)]
    exact (filled_seq (by omega)).2 n le_rfl

theorem soloStep_start (h : Outside s s' next) (hs' : s'.NoFrames) :
    SoloStep ⟨s, 0⟩ ⟨s', with? next 0⟩ :=
  ⟨Step.outside h, solo_of_noFrames hs'⟩

theorem soloStep_move (h : p.step true s = some (s', next)) (hs' : s'.NoFrames) :
    SoloStep ⟨s, with? (some p) 0⟩ ⟨s', with? next 0⟩ :=
  ⟨show System.Step ⟨s, p ::ₘ 0⟩ _ from Step.move ⟨true, h⟩, solo_of_noFrames hs'⟩

/-- An undisturbed send that finds the ring full. -/
theorem lone_spill {s : Shared V} (v : V) (hfree : s.locked = false) (hs : s.NoFrames)
    (hfull : s.ring.seq (s.ring.tail % ringCap) < s.ring.tail) :
    Relation.ReflTransGen SoloStep ⟨s, 0⟩ ⟨s.spilledAlone v, 0⟩ := by
  have hsend : (Pc.send v).step true { s with sent := s.sent ++ [v] } =
      some ({ s with sent := s.sent ++ [v] }.lock, some (.enq v 4 .load)) := by
    simp [Pc.step, hfree, hs.1]
  have hseq : (Pc.enq v 4 (.seq s.ring.tail)).step true { s with sent := s.sent ++ [v] }.lock =
      some ({ s with sent := s.sent ++ [v] }.lock, some (.spill v)) := by
    simp [Pc.step, enqStep, Shared.lock, hfull, hfull.ne]
  have hspill : (Pc.spill v).step true { s with sent := s.sent ++ [v] }.lock =
      some (s.spilledAlone v, none) := rfl
  exact Relation.ReflTransGen.single (soloStep_start (.send s v) hs)
    |>.tail (soloStep_move hsend hs)
    |>.tail (soloStep_move rfl hs)
    |>.tail (soloStep_move hseq hs)
    |>.tail (soloStep_move hspill hs)

/-- The state after an undisturbed `zz_chan_try_recv` that finds the value just spilled. -/
def Shared.spilledReceived (s : Shared V) (v : V) : Shared V :=
  ((s.spilledAlone v).popSpill []).receive v

/-- An undisturbed send that finds the ring full, and a `zz_chan_try_recv` after it. -/
theorem lone_spill_tryRecv {s : Shared V} (v : V) (hfree : s.locked = false) (hs : s.NoFrames)
    (hqueue : s.queue = []) (hcount : s.greenWaiters = 0)
    (hfull : s.ring.seq (s.ring.tail % ringCap) < s.ring.tail) :
    Relation.ReflTransGen SoloStep ⟨s, 0⟩ ⟨s.spilledReceived v, 0⟩ := by
  have hgate : (Pc.gateWaiters (.fast .tryRecv)).step true (s.spilledAlone v) =
      some (s.spilledAlone v, some (.gateSpill (.fast .tryRecv))) := by
    simp [Pc.step, Shared.spilledAlone, hcount]
  have hgate' : (Pc.gateSpill (.fast .tryRecv)).step true (s.spilledAlone v) =
      some (s.spilledAlone v, some (.lock .tryRecv)) := by
    simp [Pc.step, Shared.spilledAlone, Gate.refused, Gate.missed]
  have hpop : (Pc.lock .tryRecv).step true (s.spilledAlone v) =
      some (s.spilledReceived v, none) := by
    simp [Pc.step, Shared.spilledAlone, Shared.spilledReceived, hqueue]
  exact (lone_spill v hfree hs hfull)
    |>.tail (soloStep_start (.tryRecv _) hs)
    |>.tail (soloStep_move hgate hs)
    |>.tail (soloStep_move hgate' hs)
    |>.tail (soloStep_move hpop hs)

/-- 1024 values fill the ring, one more is spilled, and it is the first to be received. -/
theorem overflow_received_first :
    ∃ P : System ℕ, Relation.ReflTransGen SoloStep System.new P ∧
      P.shared.sent = List.range (ringCap + 1) ∧ P.shared.received = [ringCap] ∧
      ¬P.shared.received <+: P.shared.sent := by
  have hcap := two_le_ringCap
  have hrest := filled_rest ringCap
  have hfull : (filled ringCap).ring.seq ((filled ringCap).ring.tail % ringCap) <
      (filled ringCap).ring.tail := by
    rw [hrest.tail, Nat.mod_self, (filled_seq le_rfl).1 0 (by omega)]
    omega
  have hrun := (filled_reachable le_rfl).trans
    (lone_spill_tryRecv ringCap hrest.free hrest.frames hrest.queue hrest.waiters hfull)
  have hsent : ((filled ringCap).spilledReceived ringCap).sent = List.range (ringCap + 1) := by
    rw [List.range_succ, ← hrest.sent]
    rfl
  have hreceived : ((filled ringCap).spilledReceived ringCap).received = [ringCap] :=
    congrArg (· ++ [ringCap]) hrest.received
  refine ⟨_, hrun, hsent, hreceived, ?_⟩
  rw [hreceived, hsent, List.range_succ_eq_map]
  rintro ⟨later, hlater⟩
  have := (List.cons.inj hlater).1
  omega

end ZzLang.Aot
