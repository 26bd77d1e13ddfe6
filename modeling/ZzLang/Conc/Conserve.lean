import ZzLang.Conc.Schedule
import ZzLang.Conc.Tasks

/-!
# No value is lost or duplicated

Between `chan.send` and the receiver a value is in one of five places: in the hands of an
operation, in the ring, in the spill queue, in the deliver slot of a task, or received. Every
step moves it from one of these to another (`values_step`), so that the values sent are at all
times those in the five places together.

That a slot is empty when it is filled, and when its task ends, comes from `Conc.Tasks`; that a
cell of the ring is empty when it is published, from `Conc.RingInvariant`.
-/

namespace ZzLang.Conc

open MpmcRing Buffer ThreadPool

variable {V : Type} {s s' : Shared V} {p : Pc V} {next : Option (Pc V)} {ch : Choice V}

/-- The value of a place that may be empty. -/
def held (value : Option V) : Multiset V :=
  value.elim 0 fun v => {v}

@[simp] theorem held_none : held (none : Option V) = 0 := rfl

@[simp] theorem held_some (v : V) : held (some v) = {v} := rfl

/-- The value an operation in progress has in its hands. -/
def Pc.hand : Pc V → Multiset V
  | .enq _ v _ _ | .spill _ v | .deliver _ _ _ v | .parkResume _ v => {v}
  | .woken _ _ _ value | .got _ value | .deq _ _ (.release _ value) => held value
  | _ => 0

namespace Shared

/-- The values in the deliver slots. -/
def delivered (s : Shared V) : Multiset V :=
  ∑ t ∈ s.live, held (s.deliver t)

/-- The values of the channel that no operation has in its hands. -/
def worth (s : Shared V) : Multiset V :=
  s.received + contents ringCap s.ring + s.queue + s.delivered

theorem delivered_update (s : Shared V) {t : TaskId} (ht : t ∈ s.live) (o : Option V) :
    { s with deliver := Function.update s.deliver t o }.delivered + held (s.deliver t) =
      s.delivered + held o :=
  sum_elim_update s.deliver ht o

theorem worth_update (s : Shared V) {t : TaskId} (ht : t ∈ s.live) (o : Option V) :
    { s with deliver := Function.update s.deliver t o }.worth + held (s.deliver t) =
      s.worth + held o := by
  simp only [worth, add_assoc, s.delivered_update ht o]

@[simp] theorem worth_lock (s : Shared V) : s.lock.worth = s.worth := rfl

@[simp] theorem worth_unlock (s : Shared V) : s.unlock.worth = s.worth := rfl

@[simp] theorem worth_unpark (s : Shared V) (t : TaskId) : (s.unpark t).worth = s.worth := rfl

@[simp] theorem worth_register (s : Shared V) (t : TaskId) : (s.register t).worth = s.worth := rfl

@[simp] theorem worth_takeWaiters (s : Shared V) : s.takeWaiters.worth = s.worth := rfl

@[simp] theorem worth_enqueueTask (s : Shared V) (t : TaskId) :
    (s.enqueueTask t).worth = s.worth := rfl

@[simp] theorem worth_store (s : Shared V) (t : TaskId) : (s.store t).worth = s.worth := rfl

@[simp] theorem worth_receive (s : Shared V) (v : V) : (s.receive v).worth = s.worth + {v} := by
  simp only [worth, receive, delivered, ← Multiset.coe_add, Multiset.coe_singleton]
  abel

theorem worth_popSpill (s : Shared V) {v : V} {queue : List V} (h : s.queue = v :: queue) :
    (s.popSpill queue).worth + {v} = s.worth := by
  simp only [worth, popSpill, delivered, h, ← Multiset.cons_coe, ← Multiset.singleton_add]
  abel

/-- A task without a value ends. -/
theorem delivered_reap (s : Shared V) {t : TaskId} (ht : s.deliver t = none) :
    { s with live := s.live.erase t, deliver := Function.update s.deliver t none }.delivered =
      s.delivered := by
  have hdeliver : Function.update s.deliver t none = s.deliver := by
    rw [← ht, Function.update_eq_self]
  simp only [delivered, hdeliver]
  exact Finset.sum_erase _ (by simp [ht])

/-- A fresh task has no value. -/
theorem delivered_spawn (s : Shared V) {t : TaskId} (ht : t ∉ s.live)
    (hslot : s.deliver t = none) : { s with live := insert t s.live }.delivered = s.delivered := by
  simp only [delivered, Finset.sum_insert ht, hslot, held_none, zero_add]

end Shared

/-! ### One step -/

theorem hand_resume (c : Caller) : (c.resume : Option (Pc V)).elim 0 Pc.hand = 0 := by
  rcases c with _ | t <;> rfl

theorem hand_resume_receiver (r : Receiver) :
    (r.resume : Option (Pc V)).elim 0 Pc.hand = 0 := by
  rcases r with t | c
  · rfl
  · exact hand_resume c

theorem hand_checkGate (g : Gate) (s : Shared V) (flag : Flag) :
    (checkGate g s flag).hand = 0 := by
  rcases flag with _ | _ | _ <;> simp only [checkGate] <;> split_ifs <;>
    first | rfl | (rcases g with _ | _ | _ <;> rfl)

/-- The values of a step: what was there and what is newly sent is there afterwards. -/
def ValueStep (s s' : Shared V) (p : Pc V) (next : Option (Pc V)) : Prop :=
  s'.sent + (s.worth + p.hand) = s.sent + (s'.worth + next.elim 0 Pc.hand)

/-- A step that sends nothing. -/
theorem ValueStep.of_eq (hsent : s'.sent = s.sent)
    (h : s'.worth + next.elim 0 Pc.hand = s.worth + p.hand) : ValueStep s s' p next := by
  rw [ValueStep, hsent, h]

theorem values_after (site : Site) (value : Option V) (s : Shared V) :
    ValueStep s (site.after value s).1 (.got site value) (site.after value s).2 := by
  rcases site with (r | c | t) | (t | c) | c | ⟨c, wid, ws⟩ | t <;> rcases value with _ | v <;>
    refine .of_eq rfl ?_ <;>
    simp [Site.after, Pc.hand, Gate.refused, hand_resume, hand_resume_receiver]

theorem values_start {a : Act V} {c : Caller} (h : a.start c s = some (s', next)) :
    s'.sent + s.worth = s.sent + (s'.worth + next.elim 0 Pc.hand) := by
  rcases a with v | _ | _ | _ | _ | _ <;> rcases c with _ | t <;> cases h
  all_goals
    simp [Pc.hand, Shared.worth, Shared.delivered, ← Multiset.coe_add]
  all_goals abel

/-- A step moves values between the five places. The tasks of the thread are alive, those
that are not on their way have an empty slot, and so has the cell that the thread publishes. -/
theorem values_step (hlive : ∀ t ∈ p.tasks, t ∈ s.live)
    (hslot : ∀ t ∈ p.tasks, t ∉ p.due → s.deliver t = none)
    (hcell : ∀ pos ∈ p.writing, s.ring.val (pos % ringCap) = none)
    (h : p.step ch s = some (s', next)) : ValueStep s s' p next := by
  replace h := step_cases h
  cases h with
  | enq _ hstep =>
    rcases hstep with _ | _ | _ | @⟨pos⟩
    · exact .of_eq rfl rfl
    · exact .of_eq rfl rfl
    · exact .of_eq rfl rfl
    · refine .of_eq rfl ?_
      have hpub := contents_publish two_le_ringCap (hcell pos (by simp [Pc.writing]))
      simp only [Shared.worth, Shared.delivered, hpub, Pc.hand, Option.elim_some]
      abel
  | @deq _ site _ _ _ _ _ hstep =>
    have hhand : ∀ {tries : ℕ} {stage : DeqStage V}, stage.claimed = none →
        (Pc.deq site tries stage).hand = 0 := by
      rintro _ (_ | _ | _ | _) hclaimed <;> first | rfl | cases hclaimed
    rcases hstep with ⟨_, hclaimed, hclaimed'⟩ | hclaimed | ⟨_, hhead⟩ | _
    · refine .of_eq rfl ?_
      rw [hhand hclaimed, Option.elim_some, hhand hclaimed']
    · refine .of_eq rfl ?_
      rw [hhand hclaimed]
      rfl
    · refine .of_eq rfl ?_
      have hclaim := contents_claimHead two_le_ringCap s.ring
      simp only [Shared.worth, Shared.delivered, Pc.hand, Option.elim_some, ← hclaim, ← hhead,
        held]
      abel
    · exact .of_eq rfl rfl
  | @got site value => exact values_after site value s
  | @gate g flag => exact .of_eq rfl (congrArg (s.worth + ·) (hand_checkGate g s flag))
  | slice h =>
    rw [ValueStep, ← values_start h]
    simp [Pc.hand]
  | spill =>
    refine .of_eq rfl ?_
    simp only [Shared.worth_takeWaiters]
    simp only [Shared.worth, Shared.delivered, Pc.hand, Option.elim_some, ← Multiset.coe_add,
      Multiset.coe_singleton]
    abel
  | wokenValue | wokenNone | takeNothing | takeMissing => exact .of_eq rfl rfl
  | wokenDead hdead => exact absurd (hlive _ (by simp [Pc.tasks])) hdead
  | @deliver c wid ws v =>
    have hempty := hslot wid (by simp [Pc.tasks]) (by simp [Pc.due])
    have hupdate := s.worth_update (hlive wid (by simp [Pc.tasks])) (some v)
    refine .of_eq rfl ?_
    simpa [hempty, Pc.hand] using hupdate
  | @takeDeliver t v hfull =>
    have hupdate := s.worth_update (hlive t (by simp [Pc.tasks])) none
    refine .of_eq rfl ?_
    simp_all [Pc.hand]
  | @complete t =>
    refine .of_eq rfl ?_
    have hreap := s.delivered_reap (hslot t (by simp [Pc.tasks]) (by simp [Pc.due]))
    simp only [Shared.worth, hreap]
    rfl
  | sleepAnnounce | sleepDone | takeTask =>
    exact .of_eq rfl (by simp [Pc.hand, Shared.worth, Shared.delivered])
  | _ =>
    refine .of_eq rfl ?_
    first
    | (simp [Pc.hand, hand_resume, hand_resume_receiver]; done)
    | simpa [Pc.hand, hand_resume, hand_resume_receiver] using s.worth_popSpill (by assumption)

/-! ### The length of the spill queue -/

theorem spill_step (hspill : s.spill = s.queue.length) (h : p.step ch s = some (s', next)) :
    s'.spill = s'.queue.length := by
  have hpop : ∀ {v : V} {queue : List V}, s.queue = v :: queue → s.spill - 1 = queue.length := by
    intro v queue hqueue
    rw [hspill, hqueue]
    rfl
  replace h := step_cases h
  cases h with
  | enq _ hstep | deq _ hstep => rcases hstep with _ | _ | _ | _ <;> exact hspill
  | @got site value =>
    have hafter : (site.after value s).1.spill = s.spill ∧
        (site.after value s).1.queue = s.queue := by
      rcases site with (r | c | t) | (t | c) | c | ⟨c, wid, ws⟩ | t <;> rcases value with _ | v <;>
        exact ⟨rfl, rfl⟩
    rw [hafter.1, hafter.2, hspill]
  | @slice t a s' next h => rcases a with v | _ | _ | _ | _ | _ <;> cases h <;> exact hspill
  | spill => simp [Shared.takeWaiters, hspill]
  | _ => first | exact hspill | exact hpop (by assumption)

/-! ### Every run -/

/-- The values sent are those in the five places, and the counter of the spill queue is right. -/
structure Conserved (P : System V) : Prop where
  values : (P.shared.sent : Multiset V) = P.shared.worth + total Pc.hand P.threads
  spill : P.shared.spill = P.shared.queue.length

/-- The invariants of the channel. -/
structure ChannelInv (P : System V) : Prop where
  ring : RingInv P
  mutex : MutexInv P
  tasks : TaskInv P
  conserved : Conserved P

theorem channelInv_new : ChannelInv (System.new : System V) where
  ring := ringInv_new
  mutex := mutexInv_new
  tasks := taskInv_new
  conserved := ⟨by simp [System.new, Shared.worth, Shared.new, Shared.delivered, contents_new], rfl⟩

/-- The cell that a thread is about to publish is empty. -/
theorem RingInv.cell_eq_none {rest : Multiset (Pc V)} (hinv : RingInv ⟨s, p ::ₘ rest⟩) :
    ∀ pos ∈ p.writing, s.ring.val (pos % ringCap) = none := by
  intro pos hpos
  exact hinv.ok.val_eq_none_of_writing two_le_ringCap (by simp [hpos])

theorem conserved_move {rest : Multiset (Pc V)} (hinv : ChannelInv ⟨s, p ::ₘ rest⟩)
    (hmoves : Moves p s s' next) : Conserved ⟨s', with? next rest⟩ := by
  obtain ⟨ch, h⟩ := hmoves
  have hstep := values_step hinv.tasks.live_tasks (fun t => hinv.tasks.deliver_eq_none)
    hinv.ring.cell_eq_none h
  have hvalues := hinv.conserved.values
  refine ⟨?_, spill_step hinv.conserved.spill h⟩
  simp only [total_cons] at hvalues
  simp only [total_with?]
  -- the same values on both sides, with the old ones sent added to each
  refine add_left_cancel (a := (s.sent : Multiset V)) ?_
  calc (s.sent : Multiset V) + s'.sent
      = s.worth + (p.hand + total Pc.hand rest) + s'.sent := by rw [hvalues]
    _ = s'.sent + (s.worth + p.hand) + total Pc.hand rest := by abel
    _ = s.sent + (s'.worth + next.elim 0 Pc.hand) + total Pc.hand rest := by rw [hstep]
    _ = s.sent + (s'.worth + (next.elim 0 Pc.hand + total Pc.hand rest)) := by abel

theorem conserved_outside {threads : Multiset (Pc V)} (hinv : ChannelInv ⟨s, threads⟩)
    (houtside : Outside s s' next) : Conserved ⟨s', with? next threads⟩ := by
  have hvalues := hinv.conserved.values
  cases houtside with
  | start a h =>
    have hstart := values_start h
    refine ⟨?_, ?_⟩
    · simp only [total_with?]
      refine add_left_cancel (a := (s.sent : Multiset V)) ?_
      calc (s.sent : Multiset V) + s'.sent
          = s'.sent + s.worth + total Pc.hand threads := by rw [hvalues]; abel
        _ = s.sent + (s'.worth + next.elim 0 Pc.hand) + total Pc.hand threads := by rw [hstart]
        _ = s.sent + (s'.worth + (next.elim 0 Pc.hand + total Pc.hand threads)) := by abel
    · rcases a with v | _ | _ | _ | _ | _ <;> cases h <;> exact hinv.conserved.spill
  | spawn =>
    obtain ⟨hfresh, hslot⟩ := hinv.tasks.notMem_nextId
    refine ⟨?_, hinv.conserved.spill⟩
    have hspawn := s.delivered_spawn hfresh hslot
    refine hvalues.trans (congrArg (· + total Pc.hand threads) ?_)
    exact congrArg (s.received + contents ringCap s.ring + s.queue + ·) hspawn.symm
  | @pop t ready hready =>
    refine ⟨?_, hinv.conserved.spill⟩
    simpa [Pc.hand, Shared.worth, Shared.delivered] using hvalues

theorem channelInv_step {P P' : System V} (hinv : ChannelInv P) (hstep : System.Step P P') :
    ChannelInv P' := by
  refine ⟨ringInv_step hinv.ring hstep, mutexInv_step hinv.mutex hstep, ?_, ?_⟩
  · rcases hstep with @⟨p, s, s', next, rest, hmoves⟩ | houtside
    · exact hinv.tasks.move (hinv.mutex.registered p (by simp)) hmoves
    · exact hinv.tasks.outside houtside
  · rcases hstep with hmoves | houtside
    · exact conserved_move hinv hmoves
    · exact conserved_outside hinv houtside

theorem System.Reachable.channelInv {P : System V} (hreach : P.Reachable) : ChannelInv P := by
  induction hreach with
  | refl => exact channelInv_new
  | tail _ hstep ih => exact channelInv_step ih hstep

/-- A slot changes when it is emptied, or when a sender fills it. -/
theorem deliver_step (h : p.step ch s = some (s', next)) (t : TaskId) :
    s'.deliver t = s.deliver t ∨ s'.deliver t = none ∨ ∃ c ws v, p = .deliver c t ws v := by
  have hupdate : ∀ {u : TaskId}, Function.update s.deliver u none t = s.deliver t ∨
      Function.update s.deliver u none t = none := by
    intro u
    rcases eq_or_ne t u with rfl | hne
    · exact .inr (Function.update_self ..)
    · exact .inl (Function.update_of_ne hne ..)
  replace h := step_cases h
  cases h with
  | enq _ hstep | deq _ hstep => rcases hstep with _ | _ | _ | _ <;> exact .inl rfl
  | @got site value =>
    have hafter : (site.after value s).1.deliver = s.deliver := by
      rcases site with (r | c | t) | (t | c) | c | ⟨c, wid, ws⟩ | t <;> rcases value with _ | v <;>
        rfl
    exact .inl (congrFun hafter t)
  | @slice _ a _ _ h => rcases a with v | _ | _ | _ | _ | _ <;> cases h <;> exact .inl rfl
  | @deliver c wid ws v =>
    rcases eq_or_ne t wid with rfl | hne
    · exact .inr (.inr ⟨c, ws, v, rfl⟩)
    · exact .inl (Function.update_of_ne hne ..)
  | complete | takeDeliver => exact hupdate.imp_right .inl
  | _ => exact .inl rfl

/-- A slot that holds a value keeps it until it is emptied. -/
theorem ChannelInv.deliver_kept {P P' : System V} (hinv : ChannelInv P)
    (hstep : System.Step P P') (t : TaskId) (hfull : P.shared.deliver t ≠ none) :
    P'.shared.deliver t = P.shared.deliver t ∨ P'.shared.deliver t = none := by
  rcases hstep with @⟨p, s, s', next, rest, ch, h⟩ | @⟨s, s', next, threads, houtside⟩
  · rcases deliver_step h t with hsame | hnone | ⟨c, ws, v, rfl⟩
    · exact .inl hsame
    · exact .inr hnone
    · exact absurd (hinv.tasks.deliver_eq_none (by simp [Pc.tasks]) (by simp [Pc.due])) hfull
  · refine .inl ?_
    cases houtside with
    | start a h => rw [(tasks_start h).2.2.2.1]
    | spawn => rfl
    | pop h => rfl

/-- **No value is lost or duplicated.** In every state of every run, the values that were sent
are those that receivers were given, those in the ring, in the spill queue and in deliver slots,
and those in the hands of operations. No slot is overwritten while it holds a value, and the
counter of the spill queue is its length. -/
theorem values_conserved {P : System V} (hreach : P.Reachable) :
    (P.shared.sent : Multiset V) =
        P.shared.received + contents ringCap P.shared.ring + P.shared.queue +
          P.shared.delivered + total Pc.hand P.threads ∧
      (∀ c wid ws v, Pc.deliver c wid ws v ∈ P.threads → P.shared.deliver wid = none) ∧
      (∀ P', System.Step P P' → ∀ t, P.shared.deliver t ≠ none →
        P'.shared.deliver t = P.shared.deliver t ∨ P'.shared.deliver t = none) ∧
      (P.shared.locked = false → P.shared.spill = P.shared.queue.length) := by
  have hinv := hreach.channelInv
  refine ⟨hinv.conserved.values, ?_, fun P' hstep => hinv.deliver_kept hstep, fun _ =>
    hinv.conserved.spill⟩
  intro c wid ws v hmem
  obtain ⟨rest, hrest⟩ := Multiset.exists_cons_of_mem hmem
  have htasks : TaskInv ⟨P.shared, .deliver c wid ws v ::ₘ rest⟩ := hrest ▸ hinv.tasks
  exact htasks.deliver_eq_none (by simp [Pc.tasks]) (by simp [Pc.due])

/-- A sender has left its value in the slot of the parked task, and has yet to make it ready. -/
theorem delivered_value_conserved :
    ∃ P : System ℕ, P.Reachable ∧ P.shared.sent = [7] ∧ P.shared.deliver 1 = some 7 ∧
      (P.shared.sent : Multiset ℕ) =
        P.shared.received + contents ringCap P.shared.ring + P.shared.queue +
          P.shared.delivered + total Pc.hand P.threads := by
  obtain ⟨s, threads, hreach, htest⟩ := exists_reachable
    (parkFirst ++ [Event.start (.send 7)] ++ moves 13 0)
    (fun s _ => decide (s.sent = [7] ∧ s.deliver 1 = some 7)) (by decide)
  obtain ⟨hsent, hslot⟩ := of_decide_eq_true htest
  exact ⟨⟨s, threads⟩, hreach, hsent, hslot, (values_conserved hreach).1⟩

/-- **Nothing is in two hands**: not the mutex, no cell of the ring, and no green task, which is at
most once among those that wait, are ready or are with a thread. A task whose slot holds a value is
ready, or with a thread that makes it ready or takes the value. -/
theorem channel_exclusive {P : System V} (hreach : P.Reachable) :
    total Pc.holds P.threads = P.shared.locked.toNat ∧
      P.shared.ring.tail ≤ P.shared.ring.head + ringCap ∧
      ((total Pc.writing P.threads + total Pc.releasing P.threads).map (· % ringCap)).Nodup ∧
      (P.shared.waiting + total Pc.tasks P.threads).Nodup ∧
      ∀ t, P.shared.deliver t ≠ none → t ∈ P.shared.ready + total Pc.due P.threads := by
  have hinv := hreach.channelInv
  exact ⟨hinv.mutex.holds, hinv.ring.ok.tail_le two_le_ringCap,
    hinv.ring.ok.nodup_cells two_le_ringCap, hinv.tasks.nodup, hinv.tasks.due⟩

/-- A sender has left its value in the slot of the parked task, and is about to make it ready. -/
theorem channel_exclusive_delivered : ∃ P : System ℕ, P.Reachable ∧ P.shared.deliver 1 = some 7 ∧
    P.shared.ready = 0 ∧ 1 ∈ total Pc.due P.threads := by
  obtain ⟨s, threads, hreach, htest⟩ := exists_reachable
    (parkFirst ++ [Event.start (.send 7)] ++ moves 13 0)
    (fun s _ => decide (s.deliver 1 = some 7 ∧ s.ready = 0)) (by decide)
  obtain ⟨hslot, hready⟩ := of_decide_eq_true htest
  have hdue := (channel_exclusive hreach).2.2.2.2 1 (by simp [hslot])
  exact ⟨_, hreach, hslot, hready, by simpa [hready] using hdue⟩

end ZzLang.Conc
