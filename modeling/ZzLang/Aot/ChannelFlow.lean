import ZzLang.Aot.ChannelStep

/-!
# The way of a value

A value goes from the hands of a sender into the slot of a waiting frame, into the ring or into the
spill queue, and from there, possibly through the hands of a receiver, to the receive that returns
it. A step moves one value one place on, or none (`FlowStep`), so that at all times the values sent
are those in the places together.

Two facts make the places what they seem to be. A sender publishes into the ring under the lock, so
that the position it publishes is the newest and the values in the ring have an order. And a waiting
frame has an empty slot: it is registered at most once, and gets a value only when it leaves the
list (`FrameInv`).
-/

namespace ZzLang.Aot

open MpmcRing Buffer ThreadPool

variable {V : Type} {s s' : Shared V} {p : Pc V} {next : Option (Pc V)}
  {rest threads : Multiset (Pc V)}

/-! ### Counters -/

/-- The two counters show the lengths of the queue and of the list of waiters. -/
structure Counted (s : Shared V) : Prop where
  spill : s.spillCount = s.queue.length
  waiters : s.greenWaiters = s.waiters.length

namespace Counted

theorem popSpill {v : V} {queue : List V} (h : Counted s) (hqueue : s.queue = v :: queue) :
    Counted (s.popSpill queue) where
  spill := by
    have hspill := h.spill
    rw [hqueue, List.length_cons] at hspill
    exact Nat.sub_eq_of_eq_add hspill
  waiters := h.waiters

theorem register (h : Counted s) (f : Frame) : Counted (s.register f) where
  spill := h.spill
  waiters := by simp [Shared.register, h.waiters]

theorem unregister (h : Counted s) (f : Frame) : Counted (s.unregister f) := by
  rw [Shared.unregister]
  split_ifs with hmem
  · exact ⟨h.spill, by simp [h.waiters, List.length_erase_of_mem hmem]⟩
  · exact h

theorem step (hc : Counted s) (h : StepCase s p s' next) : Counted s' := by
  cases h with
  | handoff _ hwaiters =>
    refine ⟨hc.spill, ?_⟩
    have hlength := hc.waiters
    rw [hwaiters, List.length_cons] at hlength
    exact Nat.sub_eq_of_eq_add hlength
  | spill => exact ⟨by simp [Shared.unlock, Shared.pushSpill, hc.spill], hc.waiters⟩
  | pop _ hqueue => exact ⟨(hc.popSpill hqueue).spill, hc.waiters⟩
  | register _ => exact hc.register _
  | @registerPop f v queue hqueue =>
    have hpop : Counted ((s.register f).popSpill queue) := (hc.register f).popSpill hqueue
    obtain ⟨hspill, hwaiters⟩ := hpop.unregister f
    exact ⟨hspill, hwaiters⟩
  | @takeRecheck f v => exact ⟨(hc.unregister f).spill, (hc.unregister f).waiters⟩
  | _ => exact ⟨hc.spill, hc.waiters⟩

end Counted

/-! ### Frames -/

/-- The frames in the list of waiters, by their numbers. -/
def Shared.waiting (s : Shared V) : Multiset ℕ :=
  (s.waiters.map Frame.id : List ℕ)

/-- The frames that have not got a value yet are distinct, and their slots are empty. -/
structure FrameInv (P : System V) : Prop where
  nodup : (P.shared.waiting + total Pc.fresh P.threads).Nodup
  empty : ∀ i ∈ P.shared.waiting + total Pc.fresh P.threads,
    i < P.shared.nextId ∧ P.shared.slots i = none
  unused : ∀ i, P.shared.nextId ≤ i → P.shared.slots i = none

theorem fresh_afterDeq (site : Site) (n : DeqNext V) : (afterDeq site n).fresh = site.fresh := by
  rcases n with _ | _ | _ <;> rfl

theorem waiting_unregister_le (s : Shared V) (f : Frame) :
    (s.unregister f).waiting ≤ s.waiting := by
  rw [Shared.waiting, Shared.unregister_waiters]
  exact Multiset.coe_le.mpr ((List.erase_sublist.map Frame.id).subperm)

theorem waiting_register (s : Shared V) (f : Frame) :
    (s.register f).waiting = s.waiting + {f.id} := by
  simp only [Shared.waiting, Shared.register, List.map_append, ← Multiset.coe_add]
  rfl

/-- No step makes a frame wait that did not, and a slot is only filled when its frame leaves. -/
theorem StepCase.frames (h : StepCase s p s' next) :
    s'.waiting + next.elim 0 Pc.fresh ≤ s.waiting + p.fresh ∧ s'.nextId = s.nextId ∧
      ∀ i, s'.slots i = none ∨ s'.slots i = s.slots i ∨
        s'.waiting + next.elim 0 Pc.fresh + {i} = s.waiting + p.fresh := by
  have hkeep : s'.slots = s.slots → ∀ i, s'.slots i = none ∨ s'.slots i = s.slots i ∨
      s'.waiting + next.elim 0 Pc.fresh + {i} = s.waiting + p.fresh :=
    fun heq i => .inr (.inl (congrFun heq i))
  cases h with
  | walk _ _ _ hfresh => exact ⟨by rw [Option.elim_some, hfresh], rfl, hkeep rfl⟩
  | acquire _ _ _ _ _ hfresh =>
    exact ⟨by rw [Option.elim_some, hfresh]; exact le_rfl, rfl, hkeep rfl⟩
  | leave _ _ _ _ hfresh => exact ⟨add_le_add le_rfl hfresh, rfl, hkeep rfl⟩
  | @handoff v f ws hfree hwaiters =>
    have hgone : (s.handoff f ws v).waiting +
        (if f.isTask then some (.requeue f) else none : Option (Pc V)).elim 0 Pc.fresh + {f.id} =
          s.waiting + (Pc.send v).fresh := by
      have hnone : (if f.isTask then some (.requeue f) else none : Option (Pc V)).elim 0
          Pc.fresh = 0 := by
        split_ifs <;> rfl
      have hold : s.waiting = f.id ::ₘ (s.handoff f ws v).waiting := by
        rw [Shared.waiting, hwaiters]
        rfl
      rw [hnone, hold, add_zero, ← Multiset.singleton_add, add_comm]
      exact (add_zero _).symm
    refine ⟨hgone ▸ Multiset.le_add_right _ _, rfl, fun i => ?_⟩
    rcases eq_or_ne i f.id with rfl | hne
    · exact .inr (.inr hgone)
    · exact .inr (.inl (Function.update_of_ne hne ..))
  | offer | gate _ | slow _ _ => exact ⟨le_rfl, rfl, hkeep rfl⟩
  | enq _ _ =>
    refine ⟨?_, rfl, hkeep rfl⟩
    rename_i n _ _
    rcases n with _ | _ | _ <;> exact le_rfl
  | deq _ _ => exact ⟨by rw [Option.elim_some, fresh_afterDeq]; exact le_rfl, rfl, hkeep rfl⟩
  | @register f hqueue =>
    exact ⟨(add_zero _).le.trans (waiting_register s f).le, rfl, hkeep rfl⟩
  | @registerPop f v queue hqueue =>
    have hslots : ((((s.register f).popSpill queue).unregister f).receive v).unlock.slots =
        s.slots := by
      simp only [Shared.unlock, Shared.receive, Shared.unregister_slots]
      rfl
    have hid : ((((s.register f).popSpill queue).unregister f).receive v).unlock.nextId =
        s.nextId := by
      simp only [Shared.unlock, Shared.receive, Shared.unregister_nextId]
      rfl
    refine ⟨?_, hid, hkeep hslots⟩
    exact (add_zero _).le.trans
      ((waiting_unregister_le _ f).trans (waiting_register s f).le)
  | @takeRecheck f v =>
    refine ⟨?_, Shared.unregister_nextId .., hkeep (Shared.unregister_slots ..)⟩
    exact (add_zero _).le.trans ((waiting_unregister_le s f).trans (add_zero _).ge)
  | @takeSlot f v hfree hslot =>
    refine ⟨le_rfl, rfl, fun i => ?_⟩
    rcases eq_or_ne i f.id with rfl | hne
    · exact .inl (Function.update_self ..)
    · exact .inr (.inl (Function.update_of_ne hne ..))
  | suspend => exact ⟨by split_ifs <;> exact le_rfl, rfl, hkeep rfl⟩
  | _ => exact ⟨add_le_add le_rfl (Multiset.zero_le _), rfl, hkeep rfl⟩

theorem frameInv_move (hinv : FrameInv ⟨s, p ::ₘ rest⟩) (h : StepCase s p s' next) :
    FrameInv ⟨s', with? next rest⟩ := by
  obtain ⟨hnodup, hempty, hunused⟩ := hinv
  obtain ⟨hle, hid, hslots⟩ := h.frames
  simp only [total_cons, ← add_assoc] at hnodup hempty
  have hle' := add_le_add hle (le_refl (total Pc.fresh rest))
  have hcons : ∀ i, s'.waiting + next.elim 0 Pc.fresh + {i} = s.waiting + p.fresh →
      s.waiting + p.fresh + total Pc.fresh rest =
        i ::ₘ (s'.waiting + next.elim 0 Pc.fresh + total Pc.fresh rest) := by
    intro i heq
    rw [← heq, ← Multiset.singleton_add]
    abel
  refine ⟨?_, ?_, ?_⟩ <;> simp only [total_with?, ← add_assoc, hid]
  · exact Multiset.nodup_of_le hle' hnodup
  · intro i hi
    obtain ⟨hlt, hslot⟩ := hempty i (Multiset.mem_of_le hle' hi)
    refine ⟨hlt, ?_⟩
    rcases hslots i with hnone | hsame | heq
    · exact hnone
    · exact hsame.trans hslot
    · rw [hcons i heq] at hnodup
      exact absurd hi (Multiset.nodup_cons.mp hnodup).1
  · intro i hi
    rcases hslots i with hnone | hsame | heq
    · exact hnone
    · exact hsame.trans (hunused i hi)
    · have := (hempty i (by rw [hcons i heq]; exact Multiset.mem_cons_self _ _)).1
      exact absurd hi (by omega)

theorem frameInv_outside (hinv : FrameInv ⟨s, threads⟩) (h : Outside s s' next) :
    FrameInv ⟨s', with? next threads⟩ := by
  obtain ⟨hnodup, hempty, hunused⟩ := hinv
  cases h with
  | green isTask =>
    simp only at hnodup hempty hunused
    have hnew : s.nextId ∉ s.waiting + total Pc.fresh threads :=
      fun hmem => lt_irrefl _ (hempty _ hmem).1
    have hsum : s.waiting + total Pc.fresh (with? (some (.gateWaiters (.fast
        (.green ⟨s.nextId, isTask⟩)))) threads) =
          s.nextId ::ₘ (s.waiting + total Pc.fresh threads) := by
      rw [with?_some, total_cons, ← Multiset.singleton_add]
      exact add_left_comm ..
    refine ⟨?_, ?_, fun i hi => hunused i (Nat.le_of_succ_le hi)⟩
    · exact (congrArg Multiset.Nodup hsum).mpr (Multiset.nodup_cons.mpr ⟨hnew, hnodup⟩)
    · intro i hi
      rcases Multiset.mem_cons.mp (hsum ▸ hi) with rfl | hi
      · exact ⟨Nat.lt_succ_self _, hunused _ le_rfl⟩
      · exact ⟨Nat.lt_succ_of_lt (hempty i hi).1, (hempty i hi).2⟩
  | @resume f ready v hready hslot =>
    have hnone : ∀ i, s.slots i = none → Function.update s.slots f.id none i = none := by
      intro i hi
      rcases eq_or_ne i f.id with rfl | hne
      · exact Function.update_self ..
      · rwa [Function.update_of_ne hne]
    exact ⟨hnodup, fun i hi => ⟨(hempty i hi).1, hnone i (hempty i hi).2⟩,
      fun i hi => hnone i (hunused i hi)⟩
  | _ =>
    refine ⟨?_, ?_, hunused⟩ <;> rw [total_with?] <;> rw [show Option.elim (some _) 0 Pc.fresh =
      (0 : Multiset ℕ) from rfl, zero_add]
    · exact hnodup
    · exact hempty

/-! ### The newest position -/

theorem Pc.holds_of_writing {pos : ℕ} (h : pos ∈ p.view.writing) : p.holds = 1 := by
  cases p with
  | enq v tries phase => rfl
  | _ => cases h

/-- A thread that publishes a position claims it under the lock. -/
theorem StepCase.newest (h : StepCase s p s' next)
    (hp : ∀ pos ∈ p.view.writing, pos + 1 = s.ring.tail) :
    (∀ q ∈ next, ∀ pos ∈ q.view.writing, pos + 1 = s'.ring.tail) ∧
      (s'.ring.tail = s.ring.tail ∨ p.holds = 1) := by
  have haway : ∀ {q : Pc V}, q.view = .away → ∀ pos ∈ q.view.writing, pos + 1 = s'.ring.tail := by
    intro q hq pos hpos
    rw [hq] at hpos
    cases hpos
  have hsome : ∀ {q : Pc V}, q.view.writing = 0 → ∀ q' ∈ some q, ∀ pos ∈ q'.view.writing,
      pos + 1 = s'.ring.tail := by
    rintro q hq _ ⟨⟩ pos hpos
    rw [hq] at hpos
    cases hpos
  cases h with
  | walk _ hq => exact ⟨by rintro _ ⟨⟩; exact haway hq.view, .inl rfl⟩
  | acquire _ _ hq => exact ⟨by rintro _ ⟨⟩; exact haway hq.view, .inl rfl⟩
  | leave _ hnext => exact ⟨fun q hq => haway (hnext q hq).view, .inl rfl⟩
  | handoff _ _ =>
    refine ⟨?_, .inl rfl⟩
    split_ifs
    · exact hsome rfl
    · simp
  | suspend =>
    refine ⟨?_, .inl rfl⟩
    split_ifs
    · simp
    · exact hsome rfl
  | enq hring _ =>
    refine ⟨?_, .inr rfl⟩
    cases hring with
    | @again _ phase' tries _ h' =>
      refine hsome ?_
      rcases phase' with _ | _ | _ | pos
      · rfl
      · rfl
      · rfl
      · exact absurd rfl (h' pos)
    | full _ => exact hsome rfl
    | claim tries =>
      rintro _ ⟨⟩ pos hpos
      rw [Multiset.mem_singleton.mp hpos]
      rfl
    | publish pos => exact hsome rfl
  | @deq site tries phase ring n hring _ =>
    refine ⟨hsome ?_, .inl ?_⟩
    · rcases n with _ | _ | _ <;> rfl
    · cases hring <;> rfl
  | offer | gate _ | slow _ _ | register _ => exact ⟨hsome rfl, .inl rfl⟩
  | registerPop _ =>
    refine ⟨by simp, .inl ?_⟩
    simp only [Shared.unlock, Shared.receive, Shared.unregister_ring]
    rfl
  | takeRecheck =>
    refine ⟨by simp, .inl ?_⟩
    simp only [Shared.unlock, Shared.receive, Shared.unregister_ring]
  | _ => exact ⟨by simp, .inl rfl⟩

/-- The position that is being written is the newest. -/
def Newest (P : System V) : Prop :=
  ∀ p ∈ P.threads, ∀ pos ∈ p.view.writing, pos + 1 = P.shared.ring.tail

theorem newest_move (hinv : Newest ⟨s, p ::ₘ rest⟩) (hmutex : MutexInv ⟨s, p ::ₘ rest⟩)
    (h : StepCase s p s' next) : Newest ⟨s', with? next rest⟩ := by
  obtain ⟨hnext, htail⟩ := h.newest (hinv p (Multiset.mem_cons_self p rest))
  intro q hq pos hpos
  rcases mem_with?.mp hq with hq | hq
  · exact hnext q hq pos hpos
  · have hold := hinv q (Multiset.mem_cons_of_mem hq) pos hpos
    rcases htail with htail | hholds
    · exact hold.trans htail.symm
    · have := hmutex.holds_rest hholds hq
      rw [Pc.holds_of_writing hpos] at this
      exact absurd this one_ne_zero

theorem newest_outside (hinv : Newest ⟨s, threads⟩) (h : Outside s s' next) :
    Newest ⟨s', with? next threads⟩ := by
  intro q hq pos hpos
  rcases mem_with?.mp hq with hq | hq
  · have haway := h.start.1
    rw [hq] at haway
    rw [show q.view = .away from haway] at hpos
    cases hpos
  · exact (hinv q hq pos hpos).trans (congrArg Buffer.tail h.same.1.symm)

/-! ### Where a value can be -/

/-- The value of a place that may be empty. -/
def held (value : Option V) : Multiset V := value.elim 0 fun v => {v}

@[simp] theorem held_none : held (none : Option V) = 0 := rfl

@[simp] theorem held_some (v : V) : held (some v) = {v} := rfl

/-- What a receiver has in its hands. -/
def Pc.taken : Pc V → Multiset V
  | .deq _ _ (.release _ value) | .got _ value => held value
  | _ => 0

/-- What a sender has in its hands. -/
def Pc.offered : Pc V → Multiset V
  | .send v | .enq v _ _ | .spill v => {v}
  | _ => 0

/-- The value an operation in progress has in its hands. -/
def Pc.hand (p : Pc V) : Multiset V := p.offered + p.taken

/-- The values in the slots of the frames. -/
def Shared.slotValues (s : Shared V) : Multiset V :=
  ∑ i ∈ Finset.range s.nextId, held (s.slots i)

/-- The parts of the channel that values pass through in order. -/
structure Flow (V : Type) where
  sent : List V
  received : List V
  queue : List V
  items : List V

/-- The record of values, and the values in the spill queue and in the ring. -/
def Shared.flow (s : Shared V) : Flow V where
  sent := s.sent
  received := s.received
  queue := s.queue
  items := items ringCap s.ring

theorem Shared.slotValues_update (s : Shared V) {i : ℕ} (hi : i < s.nextId) (o : Option V) :
    (∑ j ∈ Finset.range s.nextId, held (Function.update s.slots i o j)) + held (s.slots i) =
      s.slotValues + held o :=
  sum_elim_update s.slots (Finset.mem_range.mpr hi) o

/-! ### One step -/

/-- A step moves one value one place on, or none. -/
inductive FlowStep (s s' : Shared V) (p : Pc V) (next : Option (Pc V)) : Prop
  | idle (hflow : s'.flow = s.flow)
      (htaken : s'.slotValues + next.elim 0 Pc.taken = s.slotValues + p.taken)
      (hoffered : next.elim 0 Pc.offered = p.offered)
  | handoff (v : V) (hp : p = .send v) (hfree : s.locked = false) (hwaiters : s.waiters ≠ [])
      (hflow : s'.flow = s.flow)
      (htaken : s'.slotValues + next.elim 0 Pc.taken = {v} + (s.slotValues + p.taken))
      (hoffered : p.offered = {v} + next.elim 0 Pc.offered)
  | publish (v : V) (hflow : s'.flow = { s.flow with items := s.flow.items ++ [v] })
      (htaken : s'.slotValues + next.elim 0 Pc.taken = s.slotValues + p.taken)
      (hoffered : p.offered = {v} + next.elim 0 Pc.offered)
  | push (v : V) (hp : p = .spill v) (hflow : s'.flow = { s.flow with queue := s.queue ++ [v] })
      (htaken : s'.slotValues + next.elim 0 Pc.taken = s.slotValues + p.taken)
      (hoffered : p.offered = {v} + next.elim 0 Pc.offered)
  | claim (v : V) (hp : ∃ site tries pos, p = .deq site tries (.cas pos))
      (hitems : s.flow.items = v :: s'.flow.items)
      (hflow : s'.flow = { s.flow with items := s'.flow.items })
      (htaken : s'.slotValues + next.elim 0 Pc.taken = {v} + (s.slotValues + p.taken))
      (hoffered : next.elim 0 Pc.offered = p.offered)
  | receive (v : V) (queue : List V)
      (hp : (∃ o, p = .lock o) ∨ ∃ f, p = .got (.locked (.green f)) none)
      (hqueue : s.queue = v :: queue)
      (hflow : s'.flow = { s.flow with queue, received := s.received ++ [v] })
      (htaken : s'.slotValues + next.elim 0 Pc.taken = s.slotValues + p.taken)
      (hoffered : next.elim 0 Pc.offered = p.offered)
  | give (v : V) (hflow : s'.flow = { s.flow with received := s.received ++ [v] })
      (htaken : {v} + (s'.slotValues + next.elim 0 Pc.taken) = s.slotValues + p.taken)
      (hoffered : next.elim 0 Pc.offered = p.offered)

theorem Pc.Light.hands (h : p.Light) : p.taken = 0 ∧ p.offered = 0 := by
  cases h <;> exact ⟨rfl, rfl⟩

/-- Taking one more value. -/
theorem add_taken (d : Multiset V) (v : V) : d + {v} = {v} + (d + 0) := by
  rw [add_zero, add_comm]

/-- **What a step does to the values.** -/
theorem StepCase.flowStep (hring : RingInv ⟨s, p ::ₘ rest⟩) (hframe : FrameInv ⟨s, p ::ₘ rest⟩)
    (hnewest : Newest ⟨s, p ::ₘ rest⟩) (h : StepCase s p s' next) : FlowStep s s' p next := by
  have hok := hring.ok
  have hseen := hring.seen p (Multiset.mem_cons_self p rest)
  have htail := hok.tail_le two_le_ringCap
  cases h with
  | walk hp hq | acquire _ hp hq =>
    exact .idle rfl (congrArg (s.slotValues + ·) (hq.hands.1.trans hp.hands.1.symm))
      (by rw [Option.elim_some, hp.hands.2, hq.hands.2])
  | leave hp hnext =>
    have hhands : next.elim 0 Pc.taken = 0 ∧ next.elim 0 Pc.offered = 0 := by
      rcases next with _ | q
      · exact ⟨rfl, rfl⟩
      · exact (hnext q rfl).hands
    exact .idle rfl (by rw [hhands.1, hp.hands.1]; rfl) (by rw [hhands.2, hp.hands.2])
  | @handoff v f ws hfree hwaiters =>
    have hmem : f.id ∈ s.waiting := by
      rw [Shared.waiting, hwaiters]
      exact List.mem_cons_self
    obtain ⟨hlt, hslot⟩ := hframe.empty f.id (Multiset.mem_add.mpr (.inl hmem))
    have hupdate := s.slotValues_update hlt (some v)
    rw [show s.slots f.id = none from hslot, held_none, add_zero] at hupdate
    have hnext : (if f.isTask then some (.requeue f) else none : Option (Pc V)).elim 0 Pc.taken =
        0 ∧ (if f.isTask then some (.requeue f) else none : Option (Pc V)).elim 0 Pc.offered =
          0 := by
      split_ifs <;> exact ⟨rfl, rfl⟩
    refine .handoff v rfl hfree (by simp [hwaiters]) rfl ?_ ?_
    · rw [hnext.1, add_zero]
      exact hupdate.trans (add_taken _ v)
    · rw [hnext.2, add_zero]
      exact rfl
  | @enq v tries phase ring n hstep _ =>
    cases hstep with
    | again _ _ _ => exact .idle rfl rfl rfl
    | full _ => exact .idle rfl rfl rfl
    | claim tries =>
      refine .idle ?_ rfl rfl
      have hfree := hok.free_of_seen two_le_ringCap hseen
      simp only [Shared.flow, items_claimTail hok.head_le hfree.2.1]
    | publish pos =>
      refine .publish v ?_ rfl rfl
      have hlast := hnewest _ (Multiset.mem_cons_self _ rest) pos (Multiset.mem_singleton_self pos)
      have hwriting := hok.writing pos (by simp [Pc.view, RingView.writing])
      simp only [Shared.flow, items_publish hlast hwriting.1 htail
        (hring.cell_eq_none two_le_ringCap rfl) v]
  | @deq site tries phase ring n hstep _ =>
    have hunclaimed : ∀ {tries : ℕ} {phase : DeqPhase V},
        (∀ pos value, phase ≠ .release pos value) → (Pc.deq site tries phase).taken = 0 := by
      rintro tries (_ | _ | _ | ⟨pos, value⟩) hne
      · rfl
      · rfl
      · rfl
      · exact absurd rfl (hne pos value)
    cases hstep with
    | again _ h h' =>
      refine .idle rfl ?_ rfl
      rw [hunclaimed h, Option.elim_some, afterDeq, hunclaimed h']
    | unfilled _ => exact .idle rfl rfl rfl
    | outraced h =>
      refine .idle rfl ?_ rfl
      rw [hunclaimed h.ne_release]
      rfl
    | claim tries' =>
      obtain ⟨hlt, -, hsome⟩ := hok.full_of_seen two_le_ringCap hseen
      obtain ⟨v, hval⟩ := Option.isSome_iff_exists.mp hsome
      refine .claim v ⟨site, tries, _, rfl⟩ (items_claimHead hlt htail hval) rfl ?_ rfl
      rw [hval]
      exact add_taken s.slotValues v
    | release pos value => exact .idle rfl rfl rfl
  | @pop o v queue hfree hqueue => exact .receive v queue (.inl ⟨o, rfl⟩) hqueue rfl rfl rfl
  | @registerPop f v queue hqueue =>
    have hsame : (((s.register f).popSpill queue).unregister f).slotValues = s.slotValues := by
      simp only [Shared.slotValues, Shared.unregister_slots, Shared.unregister_nextId]
      rfl
    refine .receive v queue (.inr ⟨f, rfl⟩) hqueue ?_ (congrArg (· + 0) hsame) rfl
    simp only [Shared.flow, Shared.unlock, Shared.receive, Shared.unregister_ring,
      Shared.unregister_sent, Shared.unregister_received, Shared.unregister_queue]
    rfl
  | @takeRecheck f v =>
    have hsame : (s.unregister f).slotValues = s.slotValues := by
      simp only [Shared.slotValues, Shared.unregister_slots, Shared.unregister_nextId]
    refine .give v ?_ ?_ rfl
    · simp only [Shared.flow, Shared.unlock, Shared.receive, Shared.unregister_ring,
        Shared.unregister_sent, Shared.unregister_received, Shared.unregister_queue]
    · exact (congrArg ({v} + ·) (congrArg (· + 0) hsame)).trans (add_taken _ v).symm
  | @takeFree g v => exact .give v rfl (add_taken _ v).symm rfl
  | @takeLocked o v => exact .give v rfl (add_taken _ v).symm rfl
  | @takeSlot f v hfree hslot =>
    have hlt : f.id < s.nextId := by
      by_contra hcon
      rw [hframe.unused f.id (not_lt.mp hcon)] at hslot
      cases hslot
    have hupdate := s.slotValues_update hlt none
    rw [hslot, held_none, held_some] at hupdate
    exact .give v rfl ((add_taken _ v).symm.trans hupdate) rfl
  | suspend => exact .idle rfl (by split_ifs <;> rfl) (by split_ifs <;> rfl)
  | @spill v => exact .push v rfl rfl rfl rfl
  | _ => exact .idle rfl rfl rfl

/-! ### Every run -/

/-- The values that have come through, and those in the queue and in the ring. -/
def Flow.values (f : Flow V) : Multiset V := f.received + f.queue + f.items

theorem elim_hand (next : Option (Pc V)) :
    next.elim 0 Pc.hand = next.elim 0 Pc.offered + next.elim 0 Pc.taken := by
  rcases next with _ | p <;> rfl

/-- A step loses no value. -/
theorem FlowStep.conserve (h : FlowStep s s' p next) :
    (s'.flow.sent : Multiset V) + (s.flow.values + s.slotValues + p.hand) =
      s.flow.sent + (s'.flow.values + s'.slotValues + next.elim 0 Pc.hand) := by
  have hsplit : s'.flow.values + s'.slotValues + next.elim 0 Pc.hand =
      s'.flow.values + (s'.slotValues + next.elim 0 Pc.taken) + next.elim 0 Pc.offered := by
    rw [elim_hand]
    abel
  cases h with
  | idle hflow htaken hoffered =>
    rw [hsplit, htaken, hoffered, hflow, Pc.hand]
    abel
  | handoff v hp hfree hwaiters hflow htaken hoffered =>
    rw [hsplit, htaken, hflow, Pc.hand, hoffered]
    abel
  | publish v hflow htaken hoffered =>
    rw [hsplit, htaken, hflow, Pc.hand, hoffered]
    simp only [Flow.values, ← Multiset.coe_add, Multiset.coe_singleton]
    abel
  | push v hp hflow htaken hoffered =>
    rw [hsplit, htaken, hflow, Pc.hand, hoffered]
    simp only [Flow.values, ← Multiset.coe_add, Multiset.coe_singleton, Shared.flow]
    abel
  | claim v hp hitems hflow htaken hoffered =>
    rw [hsplit, htaken, hoffered, hflow, Pc.hand]
    simp only [Flow.values, hitems, ← Multiset.cons_coe, ← Multiset.singleton_add]
    abel
  | receive v queue hp hqueue hflow htaken hoffered =>
    rw [hsplit, htaken, hoffered, hflow, Pc.hand]
    simp only [Flow.values, Shared.flow, hqueue, ← Multiset.cons_coe, ← Multiset.singleton_add,
      ← Multiset.coe_add]
    abel
  | give v hflow htaken hoffered =>
    have hgiven : s.flow.values + s.slotValues + p.hand = s.flow.values +
        ({v} + (s'.slotValues + next.elim 0 Pc.taken)) + p.offered := by
      rw [htaken, Pc.hand]
      abel
    rw [hgiven, hsplit, hoffered, hflow]
    simp only [Flow.values, Shared.flow, ← Multiset.coe_add, Multiset.coe_singleton]
    abel

/-- The values sent are those received and those on their way. -/
def Conserved (P : System V) : Prop :=
  (P.shared.sent : Multiset V) =
    P.shared.flow.values + P.shared.slotValues + total Pc.hand P.threads

theorem conserved_move (hinv : Conserved ⟨s, p ::ₘ rest⟩) (h : FlowStep s s' p next) :
    Conserved ⟨s', with? next rest⟩ := by
  have hstep := h.conserve
  simp only [Conserved, total_cons] at hinv
  simp only [Conserved, total_with?]
  -- the same values on both sides, with the old ones sent added to each
  refine add_left_cancel (a := (s.sent : Multiset V)) ?_
  calc (s.sent : Multiset V) + s'.sent
      = s'.flow.sent + (s.flow.values + s.slotValues + p.hand) + total Pc.hand rest := by
        rw [hinv]
        simp only [Shared.flow]
        abel
    _ = s.sent + (s'.flow.values + s'.slotValues + (next.elim 0 Pc.hand + total Pc.hand rest)) := by
        rw [hstep]
        simp only [Shared.flow]
        abel

theorem conserved_outside (hframe : FrameInv ⟨s, threads⟩) (hinv : Conserved ⟨s, threads⟩)
    (h : Outside s s' next) : Conserved ⟨s', with? next threads⟩ := by
  simp only [Conserved] at hinv
  simp only [Conserved, total_with?]
  cases h with
  | send v =>
    simp only [← Multiset.coe_add, hinv, Multiset.coe_singleton]
    change _ = _ + ({v} + 0 + total Pc.hand threads)
    simp only [Flow.values, Shared.flow, Shared.slotValues]
    abel
  | green isTask =>
    have hslots : { s with nextId := s.nextId + 1 }.slotValues = s.slotValues := by
      simp only [Shared.slotValues, Finset.sum_range_succ,
        show s.slots s.nextId = none from hframe.unused _ le_rfl, held_none, add_zero]
    rw [hslots, hinv]
    change _ = _ + (0 + 0 + total Pc.hand threads)
    rw [zero_add, zero_add]
    rfl
  | @resume f ready v hready hslot =>
    have hlt : f.id < s.nextId := by
      by_contra hcon
      rw [hframe.unused f.id (not_lt.mp hcon)] at hslot
      cases hslot
    have hupdate := s.slotValues_update hlt none
    rw [hslot, held_none, held_some, add_zero] at hupdate
    change (s.sent : Multiset V) = _
    rw [hinv, ← hupdate]
    simp only [Flow.values, Shared.flow, Shared.takeSlot, Shared.receive, Shared.slotValues,
      ← Multiset.coe_add, Multiset.coe_singleton, Option.elim_none]
    abel
  | _ =>
    rw [hinv]
    change _ = _ + (0 + 0 + total Pc.hand threads)
    rw [zero_add, zero_add]

/-- The invariants of the channel. -/
structure ChannelInv (P : System V) : Prop where
  ring : RingInv P
  mutex : MutexInv P
  counted : Counted P.shared
  frames : FrameInv P
  newest : Newest P
  conserved : Conserved P

theorem channelInv_new : ChannelInv (System.new : System V) where
  ring := ringOk_new rfl
  mutex := rfl
  counted := ⟨rfl, rfl⟩
  frames := ⟨Multiset.nodup_zero, by simp [System.new, Shared.new, Shared.waiting], fun _ _ => rfl⟩
  newest := by simp [Newest, System.new]
  conserved := rfl

theorem ChannelInv.move (hinv : ChannelInv ⟨s, p ::ₘ rest⟩) (h : StepCase s p s' next) :
    ChannelInv ⟨s', with? next rest⟩ where
  ring := ringInv_move hinv.ring h
  mutex := mutexInv_move hinv.mutex h
  counted := hinv.counted.step h
  frames := frameInv_move hinv.frames h
  newest := newest_move hinv.newest hinv.mutex h
  conserved := conserved_move hinv.conserved (h.flowStep hinv.ring hinv.frames hinv.newest)

theorem ChannelInv.outside (hinv : ChannelInv ⟨s, threads⟩) (h : Outside s s' next) :
    ChannelInv ⟨s', with? next threads⟩ where
  ring := hinv.ring.outside h.same.1 h.start.1
  mutex := mutexInv_outside hinv.mutex h
  counted := by
    obtain ⟨-, -, hqueue, hspill, hwaiters, hcount⟩ := h.same
    exact ⟨by rw [hspill, hqueue]; exact hinv.counted.spill,
      by rw [hcount, hwaiters]; exact hinv.counted.waiters⟩
  frames := frameInv_outside hinv.frames h
  newest := newest_outside hinv.newest h
  conserved := conserved_outside hinv.frames hinv.conserved h

/-- **The invariants hold in every reachable state.** -/
theorem System.Reachable.channelInv {P : System V} (h : P.Reachable) : ChannelInv P := by
  induction h with
  | refl => exact channelInv_new
  | tail _ hstep ih =>
    rcases hstep with ⟨ok, h⟩ | h
    · exact ih.move (stepCase h)
    · exact ih.outside h

end ZzLang.Aot
