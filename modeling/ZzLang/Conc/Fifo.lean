import ZzLang.Conc.Waiters

/-!
# The order of values

One sender and one receiver. A value goes from the hands of the sender into the ring or the
spill queue, from there into the hands of whoever receives it, and is received. Both tiers keep
their own order, and the spill queue is drained first. So the values are in order as long as
those in the spill queue are older than those in the ring:
`sent = received ++ hands ++ queue ++ ring ++ sender`.

But a value is spilled when the ring is full, and then everything in the ring is older than it:
after 1024 values in the ring the next one sent is the first one received
(`spilled_value_received_first`). The order is kept in the runs where a value is only spilled
while the ring is empty and no lock-free pop is past its check of the spill queue
(`received_prefix_sent`).
-/

namespace ZzLang.Conc

open MpmcRing Buffer ThreadPool

variable {V : Type} {s s' : Shared V} {p : Pc V} {next : Option (Pc V)} {ch : Choice V}
  {rest threads : Multiset (Pc V)}

/-! ### Operations under way -/

/-- One for a call of `chan.send` that has not returned. -/
def Pc.sending : Pc V → ℕ
  | .enq .. | .spill .. | .service _ | .wakes .. | .woken .. | .deliver .. | .enqueue ..
  | .repark .. | .notify _ | .deq (.wake ..) _ _ | .got (.wake ..) _ => 1
  | _ => 0

/-- The receives that a pop is made for, apart from a registered one. -/
def Site.receiving : Site → ℕ
  | gated _ | slow _ | tryRecv _ => 1
  | wake _ _ ws => ws.length + 1
  | park _ => 0

/-- The calls of `chan.recv` and `chan.try_recv` that have not returned and that this thread
makes or is about to serve. -/
def Pc.receiving : Pc V → ℕ
  | .wakes _ ws | .enqueue _ _ ws => ws.length
  | .woken _ _ ws _ | .deliver _ _ ws _ | .repark _ _ ws => ws.length + 1
  | .deq site _ _ | .got site _ => site.receiving
  | .gate .. | .recvLock _ | .recvLoop _ | .spinAgain _ | .sleepAnnounce _ | .sleepTail _
  | .sleepHead .. | .asleep _ | .sleepDone _ | .tryRecv _ | .parkAgain _ | .parkLock _
  | .parkResume .. => 1
  | _ => 0

/-- The sends under way. -/
def sends (P : System V) : ℕ :=
  total Pc.sending P.threads

/-- The receives under way: of registered tasks, of tasks with a delivered value, and of
threads. -/
def receives (P : System V) : ℕ :=
  P.shared.greenWaiters.length + P.shared.delivered.card + total Pc.receiving P.threads

/-- At most one send and at most one receive is under way. -/
structure Solo (P : System V) : Prop where
  sends_le : sends P ≤ 1
  receives_le : receives P ≤ 1

/-- A step of a system with one sender and one receiver. -/
def SoloStep (P P' : System V) : Prop :=
  System.Step P P' ∧ Solo P'

/-- A lock-free pop that is past its check of the spill queue and has not claimed a cell. -/
def Pc.PopsUnlocked : Pc V → Prop
  | .deq (.gated _) _ stage => stage.claimed = none
  | _ => False

/-- A step of such a system in which a value is only spilled while the ring is empty and no
lock-free pop is past its check. -/
inductive FifoStep : System V → System V → Prop
  | move {p : Pc V} {s s' : Shared V} {next : Option (Pc V)} {rest : Multiset (Pc V)}
      (h : Moves p s s' next) (hsolo : Solo ⟨s', with? next rest⟩)
      (hspill : ∀ c v, p = .spill c v →
        s.ring.head = s.ring.tail ∧ ∀ q ∈ rest, ¬q.PopsUnlocked) :
      FifoStep ⟨s, p ::ₘ rest⟩ ⟨s', with? next rest⟩
  | outside {s s' : Shared V} {next : Option (Pc V)} {threads : Multiset (Pc V)}
      (h : Outside s s' next) (hsolo : Solo ⟨s', with? next threads⟩) :
      FifoStep ⟨s, threads⟩ ⟨s', with? next threads⟩

/-! ### The values on their way -/

/-- What a thread has in its hands on the way to a receiver. -/
def Pc.taken : Pc V → Multiset V
  | .deliver _ _ _ v | .parkResume _ v => {v}
  | .woken _ _ _ value | .got _ value | .deq _ _ (.release _ value) => held value
  | _ => 0

/-- What a sender has in its hands. -/
def Pc.offered : Pc V → Multiset V
  | .enq _ v _ _ | .spill _ v => {v}
  | _ => 0

/-- The parts of the channel that values pass through in order. -/
structure Flow (V : Type) where
  sent : List V
  received : List V
  queue : List V
  items : List V

/-- The values sent are, in this order, those received, those on their way to a receiver, those in
the spill queue, those in the ring, and those a sender has. -/
def Flow.Ordered (f : Flow V) (hs ks : List V) : Prop :=
  f.sent = f.received ++ hs ++ f.queue ++ f.items ++ ks

def Shared.flow (s : Shared V) : Flow V where
  sent := s.sent
  received := s.received
  queue := s.queue
  items := items ringCap s.ring

@[simp] theorem Shared.flow_received (s : Shared V) : s.flow.received = s.received := rfl

@[simp] theorem Shared.flow_queue (s : Shared V) : s.flow.queue = s.queue := rfl

/-- A step moves one value on, or none. -/
inductive FlowStep (s s' : Shared V) (p : Pc V) (next : Option (Pc V)) : Prop
  | idle (hflow : s'.flow = s.flow)
      (htaken : s'.delivered + next.elim 0 Pc.taken = s.delivered + p.taken)
      (hoffered : next.elim 0 Pc.offered = p.offered)
  | send (v : V) (hflow : s'.flow = { s.flow with sent := s.sent ++ [v] })
      (htaken : s'.delivered + next.elim 0 Pc.taken = s.delivered + p.taken)
      (hoffered : next.elim 0 Pc.offered = {v} + p.offered)
  | publish (v : V) (hflow : s'.flow = { s.flow with items := s.flow.items ++ [v] })
      (htaken : s'.delivered + next.elim 0 Pc.taken = s.delivered + p.taken)
      (hoffered : p.offered = {v} + next.elim 0 Pc.offered)
  | push (c : Caller) (v : V) (hp : p = .spill c v)
      (hflow : s'.flow = { s.flow with queue := s.queue ++ [v] })
      (htaken : s'.delivered + next.elim 0 Pc.taken = s.delivered + p.taken)
      (hoffered : p.offered = {v} + next.elim 0 Pc.offered)
  | claim (v : V) (hp : ∃ site tries stage, p = .deq site tries stage ∧ stage.claimed = none)
      (hitems : s.flow.items = v :: s'.flow.items)
      (hflow : s'.flow = { s.flow with items := s'.flow.items })
      (htaken : s'.delivered + next.elim 0 Pc.taken = {v} + (s.delivered + p.taken))
      (hoffered : next.elim 0 Pc.offered = p.offered)
  | pop (v : V) (hqueue : s.queue = v :: s'.queue)
      (hflow : s'.flow = { s.flow with queue := s'.queue })
      (htaken : s'.delivered + next.elim 0 Pc.taken = {v} + (s.delivered + p.taken))
      (hoffered : next.elim 0 Pc.offered = p.offered)
  | receive (v : V) (hp : p.receiving = 1 ∧ p.taken = 0) (hqueue : s.queue = v :: s'.queue)
      (hflow : s'.flow = { s.flow with queue := s'.queue, received := s.received ++ [v] })
      (htaken : s'.delivered + next.elim 0 Pc.taken = s.delivered + p.taken)
      (hoffered : next.elim 0 Pc.offered = p.offered)
  | give (v : V) (hflow : s'.flow = { s.flow with received := s.received ++ [v] })
      (htaken : {v} + (s'.delivered + next.elim 0 Pc.taken) = s.delivered + p.taken)
      (hoffered : next.elim 0 Pc.offered = p.offered)

theorem taken_resume (c : Caller) : (c.resume : Option (Pc V)).elim 0 Pc.taken = 0 := by
  rcases c with _ | t <;> rfl

theorem offered_resume (c : Caller) : (c.resume : Option (Pc V)).elim 0 Pc.offered = 0 := by
  rcases c with _ | t <;> rfl

theorem taken_resume_receiver (r : Receiver) :
    (r.resume : Option (Pc V)).elim 0 Pc.taken = 0 := by
  rcases r with t | c
  · rfl
  · exact taken_resume c

theorem offered_resume_receiver (r : Receiver) :
    (r.resume : Option (Pc V)).elim 0 Pc.offered = 0 := by
  rcases r with t | c
  · rfl
  · exact offered_resume c

theorem checkGate_hands (g : Gate) (s : Shared V) (flag : Flag) :
    (checkGate g s flag).taken = 0 ∧ (checkGate g s flag).offered = 0 := by
  rcases flag with _ | _ | _ <;> simp only [checkGate] <;> split_ifs <;>
    first | exact ⟨rfl, rfl⟩ | (rcases g with _ | _ | _ <;> exact ⟨rfl, rfl⟩)

theorem flow_after (site : Site) (value : Option V) (s : Shared V) :
    FlowStep s (site.after value s).1 (.got site value) (site.after value s).2 := by
  rcases site with (r | c | t) | r | c | ⟨c, wid, ws⟩ | t <;> rcases value with _ | v
  case slow.none => rcases r with t | c <;> exact .idle rfl rfl rfl
  all_goals
    first
    | exact .idle rfl rfl rfl
    | exact .idle rfl (by rw [Site.after, taken_resume]; rfl) (offered_resume _)
    | exact .give v rfl (by rw [Site.after, taken_resume, add_comm, add_zero]; rfl)
        (offered_resume _)
    | exact .give v rfl (by rw [Site.after, taken_resume_receiver, add_comm, add_zero]; rfl)
        (offered_resume_receiver _)

theorem flow_start {a : Act V} {c : Caller} {p : Pc V} (h : a.start c s = some (s', next))
    (htaken : p.taken = 0) (hoffered : p.offered = 0) : FlowStep s s' p next := by
  rcases a with v | _ | _ | _ | _ | _ <;> rcases c with _ | t <;> cases h
  all_goals
    first
    | exact .idle rfl (by rw [htaken]; rfl) (by rw [hoffered]; rfl)
    | exact .send v rfl (by rw [htaken]; rfl) (by rw [hoffered]; rfl)

/-- Taking one more value. -/
theorem add_taken (d : Multiset V) (v : V) : d + {v} = {v} + (d + 0) := by
  rw [add_zero, add_comm]

/-- What a step does to the values. The thread that publishes has the newest position. -/
theorem flow_cases (hinv : ChannelInv ⟨s, p ::ₘ rest⟩)
    (hlast : ∀ pos ∈ p.writing, pos + 1 = s.ring.tail) (h : p.step ch s = some (s', next)) :
    FlowStep s s' p next := by
  have hok := hinv.ring.ok
  have hseen := hinv.ring.seen p (by simp)
  have htail := hok.tail_le two_le_ringCap
  have hlive := hinv.tasks.live_tasks
  replace h := step_cases h
  cases h with
  | @enq _ c v tries _ _ _ _ hstep =>
    rcases hstep with _ | _ | ⟨tries', rfl⟩ | @⟨pos⟩
    · exact .idle rfl rfl rfl
    · exact .idle rfl rfl rfl
    · refine .idle ?_ rfl rfl
      have hfree := hok.free_of_seen two_le_ringCap hseen
      simp only [Shared.flow, items_claimTail hok.head_le hfree.2.1]
    · refine .publish v ?_ rfl rfl
      have hpos : pos ∈ (Pc.enq c v tries (.publish pos)).writing := by simp [Pc.writing]
      have hwriting := hok.writing pos (by simp [Pc.writing])
      simp only [Shared.flow, items_publish (hlast pos hpos) hwriting.1 htail
        (hinv.ring.cell_eq_none pos hpos) v]
  | @deq _ site tries _ _ _ _ hstep =>
    have htaken : ∀ {tries : ℕ} {stage : DeqStage V}, stage.claimed = none →
        (Pc.deq site tries stage).taken = 0 := by
      rintro _ (_ | _ | _ | _) hclaimed <;> first | rfl | cases hclaimed
    rcases hstep with ⟨_, hclaimed, hclaimed'⟩ | hclaimed | ⟨_, rfl⟩ | _
    · exact .idle rfl (by rw [htaken hclaimed, Option.elim_some, htaken hclaimed']) rfl
    · exact .idle rfl (by rw [htaken hclaimed]; rfl) rfl
    · obtain ⟨hlt, -, hsome⟩ := hok.full_of_seen two_le_ringCap hseen
      obtain ⟨v, hval⟩ := Option.isSome_iff_exists.mp hsome
      refine .claim v ⟨site, tries, _, rfl, rfl⟩ (items_claimHead hlt htail hval) rfl ?_ rfl
      rw [hval]
      exact add_taken s.delivered v
    · exact .idle rfl rfl rfl
  | @got site value => exact flow_after site value s
  | @gate g flag =>
    obtain ⟨htaken, hoffered⟩ := checkGate_hands g s flag
    exact .idle rfl (congrArg (s.delivered + ·) htaken) hoffered
  | slice h => exact flow_start h rfl rfl
  | @spill c v => exact .push c v rfl rfl rfl rfl
  | wokenDead hdead => exact absurd (hlive _ (by simp [Pc.tasks])) hdead
  | @deliver c wid ws v =>
    have hempty := hinv.tasks.deliver_eq_none (t := wid) (by simp [Pc.tasks]) (by simp [Pc.due])
    have hupdate := s.delivered_update (hlive wid (by simp [Pc.tasks])) (some v)
    rw [hempty] at hupdate
    exact .idle rfl hupdate rfl
  | @takeDeliver t v hslot =>
    have hupdate := s.delivered_update (hlive t (by simp [Pc.tasks])) none
    refine .give v rfl ?_ rfl
    rw [hslot] at hupdate
    exact (add_taken _ v).symm.trans hupdate
  | @complete t =>
    have hreap := s.delivered_reap
      (hinv.tasks.deliver_eq_none (t := t) (by simp [Pc.tasks]) (by simp [Pc.due]))
    exact .idle rfl (congrArg (· + 0) hreap) rfl
  | @parkResume t v => exact .give v rfl (add_taken s.delivered v).symm rfl
  | recvPop _ hqueue =>
    exact .receive _ ⟨rfl, rfl⟩ hqueue rfl (by rw [taken_resume_receiver]; rfl)
      (offered_resume_receiver _)
  | tryPop _ hqueue | loopPop hqueue =>
    exact .receive _ ⟨rfl, rfl⟩ hqueue rfl (by rw [taken_resume]; rfl) (offered_resume _)
  | wakesPop _ hqueue | parkPop hqueue =>
    exact .pop _ hqueue rfl (add_taken s.delivered _) rfl
  | notify => exact .idle rfl (by rw [taken_resume]; rfl) (offered_resume _)
  | _ => exact .idle rfl rfl rfl

/-! ### At most one value in either hand -/

/-- One for a thread that registers a task. -/
def Pc.registers (p : Pc V) : ℕ :=
  p.registering.elim 0 fun _ => 1

theorem Pc.registers_le_holds (p : Pc V) : p.registers ≤ p.holds := by
  rcases hreg : p.registering with _ | t
  · simp [registers, hreg]
  · simp [registers, hreg, holds_of_registering hreg]

theorem card_held_le (value : Option V) : (held value).card ≤ 1 := by
  rcases value with _ | v <;> simp

theorem Pc.card_taken_le (p : Pc V) : p.taken.card ≤ p.receiving + p.registers := by
  have hsite : ∀ (site : Site) (value : Option V),
      (held value).card ≤ site.receiving + site.registering.elim 0 fun _ => 1 := by
    intro site value
    refine (card_held_le value).trans ?_
    rcases site with _ | _ | _ | _ | _ <;> simp [Site.receiving, Site.registering]
  rcases p with _ | _ | _ | _ | ⟨c, wid, ws, value⟩ | _ | _ | _ | _ | _ |
    ⟨site, tries, _ | _ | _ | ⟨pos, value⟩⟩ | ⟨site, value⟩ | _
  case woken => exact (card_held_le value).trans (by simp [receiving, registers, registering])
  case deq.release => exact hsite site value
  case got => exact hsite site value
  all_goals simp [taken, receiving, registers, registering]

theorem Pc.card_offered_le (p : Pc V) : p.offered.card ≤ p.sending := by
  rcases p with _ | _ | _ <;> simp [offered, sending]

/-- A value on its way belongs to a receive: to that of a thread, or of a task in the list. -/
theorem card_taken (hreg : ∀ p ∈ threads, ∀ t, p.registering = some t → t ∈ s.greenWaiters)
    (hholds : total Pc.holds threads ≤ 1) :
    (total Pc.taken threads).card ≤ s.greenWaiters.length + total Pc.receiving threads := by
  have hle : (total Pc.taken threads).card ≤
      total Pc.receiving threads + total Pc.registers threads := by
    rw [card_total, ← total_add]
    exact total_le Pc.card_taken_le threads
  have hone : total Pc.registers threads ≤ 1 :=
    (total_le Pc.registers_le_holds threads).trans hholds
  rcases Nat.eq_zero_or_pos (total Pc.registers threads) with hzero | hpos
  · omega
  · -- a thread registers a task, which is in the list
    have hmem : ∃ p ∈ threads, p.registers ≠ 0 := by
      by_contra hcon
      simp only [not_exists, not_and, not_not] at hcon
      have : total Pc.registers threads = 0 := by
        rw [total, Multiset.map_congr rfl hcon]
        simp
      omega
    obtain ⟨p, hp, hne⟩ := hmem
    rcases hp' : p.registering with _ | t
    · simp [Pc.registers, hp'] at hne
    · have := List.length_pos_of_mem (hreg p hp t hp')
      omega

theorem Solo.card_taken_le {P : System V} (hsolo : Solo P) (hmutex : MutexInv P) :
    (P.shared.delivered + total Pc.taken P.threads).card ≤ 1 := by
  have hle := card_taken hmutex.registered (by rw [hmutex.holds]; exact P.shared.locked.toNat_le)
  have := hsolo.receives_le
  rw [receives] at this
  rw [Multiset.card_add]
  omega

theorem Solo.card_offered_le {P : System V} (hsolo : Solo P) :
    (total Pc.offered P.threads).card ≤ 1 := by
  rw [card_total]
  exact (total_le Pc.card_offered_le P.threads).trans hsolo.sends_le

/-- A list of at most one value that has this one. -/
theorem eq_singleton_of_coe {hs : List V} {v : V} {rest : Multiset V}
    (h : (hs : Multiset V) = {v} + rest) (hle : ({v} + rest).card ≤ 1) : hs = [v] ∧ rest = 0 := by
  rw [Multiset.card_add, Multiset.card_singleton] at hle
  have hrest : rest = 0 := Multiset.card_eq_zero.mp (by omega)
  rw [hrest, add_zero] at h
  exact ⟨Multiset.coe_eq_singleton.mp h, hrest⟩

/-! ### The invariant -/

/-- A pop that has not claimed a cell. -/
def Pc.Pops : Pc V → Prop
  | .deq _ _ stage => stage.claimed = none
  | _ => False

/-- The values are in order, a pop of the ring has seen the spill queue empty, and a position
that is being written is the newest. -/
structure FifoInv (P : System V) : Prop where
  order : ∃ hs ks : List V, (hs : Multiset V) = P.shared.delivered + total Pc.taken P.threads ∧
    (ks : Multiset V) = total Pc.offered P.threads ∧ P.shared.flow.Ordered hs ks
  pops : ∀ p ∈ P.threads, p.Pops → P.shared.queue = []
  last : ∀ p ∈ P.threads, ∀ pos ∈ p.writing, pos + 1 = P.shared.ring.tail
  solo : Solo P

theorem not_pops_resume (c : Caller) : ∀ q ∈ (c.resume : Option (Pc V)), ¬q.Pops := by
  intro q hq
  rcases c with _ | t <;> cases hq
  exact id

theorem not_pops_resume_receiver (r : Receiver) :
    ∀ q ∈ (r.resume : Option (Pc V)), ¬q.Pops := by
  intro q hq
  rcases r with t | c
  · cases hq
    exact id
  · exact not_pops_resume c q hq

/-- A pop starts after the spill queue was seen empty. -/
theorem pops_step (hspill : s.spill = s.queue.length) (h : p.step ch s = some (s', next)) :
    ∀ q ∈ next, q.Pops → s'.queue = s.queue ∧ (p.Pops ∨ s.queue = []) := by
  intro q hq hpops
  replace h := step_cases h
  cases h with
  | enq _ hstep => rcases hstep with _ | _ | _ | _ <;> cases hq <;> exact hpops.elim
  | deq _ hstep =>
    rcases hstep with ⟨_, hclaimed, _⟩ | _ | _ | _
    · exact ⟨rfl, .inl hclaimed⟩
    · cases hq
      exact hpops.elim
    · cases hq
      cases hpops
    · cases hq
      exact hpops.elim
  | @got site value =>
    rcases site with (r | c | t) | (t | c) | c | ⟨c, wid, ws⟩ | t <;> rcases value with _ | v
    all_goals
      first
      | exact absurd hpops (not_pops_resume _ q hq)
      | exact absurd hpops (not_pops_resume_receiver _ q hq)
      | (cases hq; exact hpops.elim)
  | @gate g flag =>
    cases hq
    have hrefused : ¬(g.refused : Pc V).Pops := by
      rcases g with _ | _ | _ <;> exact id
    rcases flag with _ | _ | _ <;> simp only [checkGate] at hpops <;> split_ifs at hpops with hflag
    all_goals
      first
      | exact absurd hpops hrefused
      | exact hpops.elim
      | exact ⟨rfl, .inr (List.eq_nil_of_length_eq_zero (hspill ▸ hflag))⟩
  | @slice _ a _ _ h =>
    rcases a with v | _ | _ | _ | _ | _ <;> cases h <;> cases hq <;> exact hpops.elim
  | recvRing _ hqueue | tryRing _ hqueue | wakesRing _ hqueue | loopRing hqueue
  | parkRing hqueue => exact ⟨rfl, .inr hqueue⟩
  | _ =>
    first
    | exact absurd hpops (not_pops_resume _ q hq)
    | exact absurd hpops (not_pops_resume_receiver _ q hq)
    | (cases hq <;> exact hpops.elim)

/-- A step keeps the values in order. -/
theorem order_move (hinv : FifoInv ⟨s, p ::ₘ rest⟩) (hmutex : MutexInv ⟨s, p ::ₘ rest⟩)
    (hmutex' : MutexInv ⟨s', with? next rest⟩) (hsolo' : Solo ⟨s', with? next rest⟩)
    (hspill : ∀ c v, p = .spill c v → s.ring.head = s.ring.tail) (hstep : FlowStep s s' p next) :
    ∃ hs ks : List V, (hs : Multiset V) = s'.delivered + total Pc.taken (with? next rest) ∧
      (ks : Multiset V) = total Pc.offered (with? next rest) ∧ s'.flow.Ordered hs ks := by
  obtain ⟨hs, ks, hhs, hks, hsent⟩ := hinv.order
  have htaken_le := hinv.solo.card_taken_le hmutex
  have hoffered_le := hinv.solo.card_offered_le
  have htaken_le' := hsolo'.card_taken_le hmutex'
  have hreceives := hinv.solo.receives_le
  rw [receives] at hreceives
  simp only [total_cons] at hhs hks htaken_le hoffered_le hreceives
  simp only [total_with?] at htaken_le' ⊢
  rw [← add_assoc] at hhs htaken_le htaken_le' ⊢
  -- before a value is taken, none is on its way
  have hnone : ∀ {v : V}, s'.delivered + next.elim 0 Pc.taken = {v} + (s.delivered + p.taken) →
      hs = [] := by
    intro v heq
    rw [heq, add_assoc, ← hhs] at htaken_le'
    rw [← Multiset.coe_eq_zero, ← Multiset.card_eq_zero]
    rw [Multiset.card_add, Multiset.card_singleton] at htaken_le'
    omega
  -- a sender that lets go of its value has no other
  have hlast : ∀ {v : V}, p.offered = {v} + next.elim 0 Pc.offered →
      ks = [v] ∧ next.elim 0 Pc.offered + total Pc.offered rest = 0 := by
    intro v heq
    rw [heq, add_assoc] at hks hoffered_le
    exact eq_singleton_of_coe hks hoffered_le
  cases hstep with
  | idle hflow htaken hoffered =>
    exact ⟨hs, ks, by rw [htaken, hhs], by rw [hoffered, hks], hflow ▸ hsent⟩
  | send v hflow htaken hoffered =>
    refine ⟨hs, ks ++ [v], by rw [htaken, hhs], ?_, ?_⟩
    · rw [hoffered, add_assoc, ← hks, ← Multiset.coe_add, add_comm]
      rfl
    · rw [hflow]
      exact (congrArg (· ++ [v]) hsent).trans (List.append_assoc ..)
  | publish v hflow htaken hoffered =>
    obtain ⟨rfl, hzero⟩ := hlast hoffered
    refine ⟨hs, [], by rw [htaken, hhs], hzero.symm, ?_⟩
    rw [hflow]
    simpa [Flow.Ordered] using hsent
  | push c v hp hflow htaken hoffered =>
    obtain ⟨rfl, hzero⟩ := hlast hoffered
    have hitems : s.flow.items = [] := items_eq_nil (hspill c v hp)
    refine ⟨hs, [], by rw [htaken, hhs], hzero.symm, ?_⟩
    rw [hflow]
    simpa [Flow.Ordered, hitems] using hsent
  | claim v hp hitems hflow htaken hoffered =>
    obtain ⟨site, tries, stage, rfl, hclaimed⟩ := hp
    have hqueue : s.queue = [] := hinv.pops _ (Multiset.mem_cons_self _ _) hclaimed
    have hnil := hnone htaken
    subst hnil
    refine ⟨[v], ks, ?_, by rw [hoffered, hks], ?_⟩
    · rw [htaken, add_assoc, ← hhs]
      rfl
    · rw [hflow]
      simpa [Flow.Ordered, hqueue, hitems] using hsent
  | pop v hqueue hflow htaken hoffered =>
    have hnil := hnone htaken
    subst hnil
    refine ⟨[v], ks, ?_, by rw [hoffered, hks], ?_⟩
    · rw [htaken, add_assoc, ← hhs]
      rfl
    · rw [hflow]
      simpa [Flow.Ordered, hqueue] using hsent
  | receive v hp hqueue hflow htaken hoffered =>
    -- the receive that takes the value is the only one
    have hnil : hs = [] := by
      have hreg : ∀ q ∈ rest, ∀ t, q.registering = some t → t ∈ s.greenWaiters := fun q hq =>
        hmutex.registered q (by simp [hq])
      have hle := card_taken hreg
        (by have := hmutex.holds; have := s.locked.toNat_le; simp only [total_cons] at *; omega)
      rw [← Multiset.coe_eq_zero, ← Multiset.card_eq_zero, hhs, hp.2, add_zero, Multiset.card_add]
      omega
    subst hnil
    refine ⟨[], ks, by rw [htaken, hhs], by rw [hoffered, hks], ?_⟩
    rw [hflow]
    simpa [Flow.Ordered, hqueue] using hsent
  | give v hflow htaken hoffered =>
    rw [← htaken, add_assoc] at hhs htaken_le
    obtain ⟨rfl, hzero⟩ := eq_singleton_of_coe hhs htaken_le
    refine ⟨[], ks, hzero.symm, by rw [hoffered, hks], ?_⟩
    rw [hflow]
    simpa [Flow.Ordered] using hsent

/-- A pop is lock-free or made with the mutex held. -/
theorem pops_cases (h : p.Pops) : p.PopsUnlocked ∨ p.holds = 1 := by
  rcases p with _ | _ | _ | _ | _ | _ | _ | _ | _ | _ | ⟨site, tries, stage⟩ | _
  case deq =>
    rcases site with g | _ | _ | _ | _
    · exact .inl h
    all_goals exact .inr rfl
  all_goals exact h.elim

/-- A pop under way has seen the spill queue empty: a value is not spilled while a lock-free pop
is under way, nor while the mutex is held for one. -/
theorem pops_move (hinv : FifoInv ⟨s, p ::ₘ rest⟩) (hchannel : ChannelInv ⟨s, p ::ₘ rest⟩)
    (hspill : ∀ c v, p = .spill c v → ∀ q ∈ rest, ¬q.PopsUnlocked)
    (h : p.step ch s = some (s', next)) : ∀ q ∈ with? next rest, q.Pops → s'.queue = [] := by
  intro q hq hpops
  rcases mem_with?.mp hq with hq | hq
  · obtain ⟨hsame, hp⟩ := pops_step hchannel.conserved.spill h q hq hpops
    exact hsame.trans (hp.elim (hinv.pops p (by simp)) id)
  · rcases queue_step (hinv.pops q (by simp [hq]) hpops) h with hqueue | ⟨⟨c, v, rfl⟩, hdrains⟩
    · exact hqueue
    · have hfree : q.holds = 0 := hchannel.mutex.holds_of_free hdrains.1 (by simp [hq])
      rcases pops_cases hpops with hunlocked | hlocked
      · exact absurd hunlocked (hspill c v rfl q hq)
      · omega

theorem Pc.sending_of_writing {pos : ℕ} (h : pos ∈ p.writing) : p.sending = 1 := by
  rcases p with ⟨c, v, tries, stage⟩ | _
  · rfl
  all_goals cases h

/-- The sender that claims the tail is the only one. -/
theorem last_move (hinv : FifoInv ⟨s, p ::ₘ rest⟩) (hring : RingInv ⟨s, p ::ₘ rest⟩)
    (hsolo' : Solo ⟨s', with? next rest⟩) (h : p.step ch s = some (s', next)) :
    ∀ q ∈ with? next rest, ∀ pos ∈ q.writing, pos + 1 = s'.ring.tail := by
  intro q hq pos hpos
  have hold : q ∈ rest → pos + 1 = s.ring.tail := fun hq => hinv.last q (by simp [hq]) pos hpos
  rcases ring_cases (hring.seen p (by simp)) h with ⟨hr, _, hnext⟩ |
    ⟨hr, _, _, c, v, tries, rfl⟩ | ⟨c, v, tries, pos', rfl, hr, hnext⟩ |
    ⟨hr, _, _, site, tries, rfl⟩ | ⟨site, tries, pos', value, rfl, hr, hnext⟩ <;>
    rcases mem_with?.mp hq with hq | hq
  · simp [(hnext q hq).writing] at hpos
  · rw [hr, hold hq]
  · cases hq
    rw [Multiset.mem_singleton.mp hpos, hr]
    rfl
  · have hle := hsolo'.sends_le
    obtain ⟨others, rfl⟩ := Multiset.exists_cons_of_mem hq
    simp only [sends, with?_some, total_cons, Pc.sending_of_writing hpos] at hle
    simp [Pc.sending] at hle
  · simp [((hnext q hq).clear s.ring).writing] at hpos
  · rw [hr, hold hq]
    rfl
  · cases hq
    cases hpos
  · rw [hr, hold hq]
    rfl
  · simp [((hnext q hq).clear s.ring).writing] at hpos
  · rw [hr, hold hq]
    rfl

/-- From outside a send is started, or nothing happens to the values. -/
theorem flow_outside (hchannel : ChannelInv ⟨s, threads⟩) (h : Outside s s' next) :
    s'.delivered = s.delivered ∧ next.elim 0 Pc.taken = 0 ∧ (∀ q ∈ next, ¬q.Pops) ∧
      ∃ vs : List V, s'.flow = { s.flow with sent := s.sent ++ vs } ∧
        next.elim 0 Pc.offered = vs := by
  cases h with
  | start a h =>
    rcases a with v | _ | _ | _ | _ | _ <;> cases h
    · exact ⟨rfl, rfl, by rintro q ⟨⟩; exact id, [v], rfl, rfl⟩
    all_goals
      refine ⟨rfl, rfl, by rintro q ⟨⟩; exact id, [], ?_, rfl⟩
      simp only [List.append_nil]
      rfl
  | spawn =>
    obtain ⟨hfresh, hslot⟩ := hchannel.tasks.notMem_nextId
    refine ⟨s.delivered_spawn hfresh hslot, rfl, by simp, [], ?_, rfl⟩
    simp only [List.append_nil]
    rfl
  | pop h =>
    refine ⟨rfl, rfl, by rintro q ⟨⟩; exact id, [], ?_, rfl⟩
    simp only [List.append_nil]
    rfl

theorem fifoInv_outside (hinv : FifoInv ⟨s, threads⟩) (hchannel : ChannelInv ⟨s, threads⟩)
    (hsolo' : Solo ⟨s', with? next threads⟩) (h : Outside s s' next) :
    FifoInv ⟨s', with? next threads⟩ := by
  obtain ⟨hs, ks, hhs, hks, hsent⟩ := hinv.order
  obtain ⟨hring, hoff⟩ := outside_ring h
  obtain ⟨hdelivered, htaken, hpops, vs, hflow, hoffered⟩ := flow_outside hchannel h
  refine ⟨⟨hs, ks ++ vs, ?_, ?_, ?_⟩, ?_, ?_, hsolo'⟩
  · simp only [total_with?, htaken, hdelivered, zero_add]
    exact hhs
  · simp only [total_with?, hoffered, ← hks, ← Multiset.coe_add]
    exact add_comm _ _
  · simp only [hflow]
    exact (congrArg (· ++ vs) hsent).trans (List.append_assoc ..)
  · intro q hq hpop
    have hqueue : s'.queue = s.queue := congrArg Flow.queue hflow
    rcases mem_with?.mp hq with hq | hq
    · exact absurd hpop (hpops q hq)
    · exact hqueue.trans (hinv.pops q hq hpop)
  · intro q hq pos hpos
    simp only [hring]
    rcases mem_with?.mp hq with hq | hq
    · simp [((hoff q hq).clear s.ring).writing] at hpos
    · exact hinv.last q hq pos hpos

theorem fifoInv_new : FifoInv (System.new : System V) where
  order := ⟨[], [], rfl, rfl, rfl⟩
  pops := by simp [System.new]
  last := by simp [System.new]
  solo := ⟨Nat.zero_le 1, Nat.zero_le 1⟩

/-! ### Every run -/

theorem FifoStep.step {P P' : System V} (h : FifoStep P P') : System.Step P P' := by
  rcases h with ⟨h, _, _⟩ | ⟨h, _⟩
  · exact Step.move h
  · exact Step.outside h

theorem fifoInv_of_run {P : System V} (hrun : Relation.ReflTransGen FifoStep System.new P) :
    P.Reachable ∧ FifoInv P := by
  induction hrun with
  | refl => exact ⟨.refl, fifoInv_new⟩
  | tail _ hstep ih =>
    obtain ⟨hreach, hinv⟩ := ih
    have hreach' := hreach.tail hstep.step
    have hchannel := hreach.channelInv
    have hchannel' := System.Reachable.channelInv hreach'
    refine ⟨hreach', ?_⟩
    rcases hstep with @⟨p, s, s', next, rest, ⟨ch, h⟩, hsolo', hspill⟩ | ⟨h, hsolo'⟩
    · have hlast := hinv.last p (by simp)
      exact ⟨order_move hinv hchannel.mutex hchannel'.mutex hsolo' (fun c v hp => (hspill c v hp).1)
          (flow_cases hchannel hlast h),
        pops_move hinv hchannel (fun c v hp => (hspill c v hp).2) h,
        last_move hinv hchannel.ring hsolo' h, hsolo'⟩
    · exact fifoInv_outside hinv hchannel hsolo' h

/-- **The values are received in the order they were sent**, in every run with one sender and one
receiver in which a value is only spilled while the ring is empty and no lock-free pop is past
its check of the spill queue. -/
theorem received_prefix_sent {P : System V} (hrun : Relation.ReflTransGen FifoStep System.new P) :
    P.shared.received <+: P.shared.sent := by
  obtain ⟨hs, ks, -, -, hsent⟩ := (fifoInv_of_run hrun).2.order
  refine ⟨hs ++ P.shared.queue ++ items ringCap P.shared.ring ++ ks, ?_⟩
  simpa [Flow.Ordered, Shared.flow] using hsent.symm

/-! ### Two runs -/

theorem solo_of_calm {P : System V} (hcalm : Calm P) : Solo P := by
  obtain ⟨hwaiters, hdelivered, next, hthreads, hnext⟩ := hcalm
  have hcount : next.elim 0 Pc.sending ≤ 1 ∧ next.elim 0 Pc.receiving ≤ 1 := by
    rcases next with _ | p
    · exact ⟨Nat.zero_le 1, Nat.zero_le 1⟩
    · have hp := hnext p rfl
      rcases p with _ | _ | _ | ⟨_, _ | _⟩ | _ | _ | _ | _ | _ | _ | ⟨_ | _ | _ | _ | _, _, _⟩ |
        ⟨_ | _ | _ | _ | _, _⟩ | _
      all_goals first | exact hp.elim | simp [Pc.sending, Pc.receiving, Site.receiving]
  refine ⟨?_, ?_⟩
  · rw [sends, hthreads, total_with?, total_zero, add_zero]
    exact hcount.1
  · rw [receives, hwaiters, hdelivered, hthreads, total_with?, total_zero]
    simpa using hcount.2

theorem fifoStep_of_calm {P P' : System V} (h : System.Step P P') (hcalm : Calm P)
    (hcalm' : Calm P') : FifoStep P P' := by
  rcases h with @⟨p, s, s', next, rest, h⟩ | h
  · obtain ⟨next', hthreads, hp⟩ := hcalm.threads
    refine .move h (solo_of_calm hcalm') fun c v hspill => ?_
    have hmem : p ∈ with? next' (0 : Multiset (Pc V)) := hthreads ▸ Multiset.mem_cons_self p rest
    rcases mem_with?.mp hmem with hmem | hmem
    · subst hspill
      exact (hp _ hmem).elim
    · cases Multiset.notMem_zero p hmem
  · exact .outside h (solo_of_calm hcalm')

theorem solo_of_noTasks (hs : s.NoTasks)
    (hnext : next.elim 0 Pc.sending ≤ 1 ∧ next.elim 0 Pc.receiving ≤ 1) :
    Solo ⟨s, with? next 0⟩ := by
  refine ⟨?_, ?_⟩
  · simpa [sends, total_with?] using hnext.1
  · simpa [receives, total_with?, hs.1, hs.2] using hnext.2

/-- The state after an undisturbed `chan.send` that spills its value. -/
def Shared.spilledAlone (s : Shared V) (v : V) : Shared V :=
  { s with
    queue := s.queue ++ [v]
    spill := s.spill + 1
    greenParked := false
    greenWaiters := []
    sent := s.sent ++ [v] }

theorem fifoStep_move {ch : Choice V} (h : p.step ch s = some (s', next)) (hs' : s'.NoTasks)
    (hnext : next.elim 0 Pc.sending ≤ 1 ∧ next.elim 0 Pc.receiving ≤ 1)
    (hspill : ∀ c v, p = .spill c v → s.ring.head = s.ring.tail) :
    FifoStep ⟨s, with? (some p) 0⟩ ⟨s', with? next 0⟩ :=
  show FifoStep ⟨s, p ::ₘ 0⟩ _ from
    .move ⟨ch, h⟩ (solo_of_noTasks hs' hnext) fun c v hp => ⟨hspill c v hp, by simp⟩

/-- An attempt to enqueue whose weak exchange fails. -/
theorem lone_attempt {s : Shared V} (v : V) (tries : ℕ) (hs : s.NoTasks)
    (hroom : s.ring.seq (s.ring.tail % ringCap) = s.ring.tail) :
    Relation.ReflTransGen FifoStep ⟨s, with? (some (.enq .thread v tries .load)) 0⟩
      ⟨s, with? (some (tryEnqueue.retry .thread v tries)) 0⟩ := by
  have hone : 1 ≤ 1 ∧ 0 ≤ 1 := by decide
  have hretry : ((some (tryEnqueue.retry .thread v tries)).elim 0 Pc.sending ≤ 1 ∧
      (some (tryEnqueue.retry .thread v tries)).elim 0 Pc.receiving ≤ 1) := by
    rcases tries with _ | _ | _ <;> exact hone
  have hload : (Pc.enq .thread v tries .load).step .go s =
      some (s, some (.enq .thread v tries (.seq s.ring.tail))) := rfl
  have hseq : (Pc.enq .thread v tries (.seq s.ring.tail)).step .go s =
      some (s, some (.enq .thread v tries (.cas s.ring.tail))) := congrArg some (if_pos hroom)
  have hfail : (Pc.enq .thread v tries (.cas s.ring.tail)).step .fail s =
      some (s, some (tryEnqueue.retry .thread v tries)) := rfl
  exact Relation.ReflTransGen.single (fifoStep_move hload hs hone (by simp))
    |>.tail (fifoStep_move hseq hs hone (by simp))
    |>.tail (fifoStep_move hfail hs hretry (by simp))

/-- An undisturbed `chan.send` whose four exchanges fail while the ring is empty. -/
theorem lone_refused {s : Shared V} (v : V) (hfree : s.locked = false) (hs : s.NoTasks)
    (hroom : s.ring.seq (s.ring.tail % ringCap) = s.ring.tail)
    (hempty : s.ring.head = s.ring.tail) :
    Relation.ReflTransGen FifoStep ⟨s, 0⟩ ⟨s.spilledAlone v, 0⟩ := by
  have hs' : (s.spilledAlone v).NoTasks := ⟨rfl, hs.2⟩
  have hone : 1 ≤ 1 ∧ 0 ≤ 1 := by decide
  have hspill : (Pc.spill .thread v).step .go { s with sent := s.sent ++ [v] } =
      some (s.spilledAlone v, some (.wakes .thread [])) := by
    simp [Pc.step, hfree, hs.1, Shared.takeWaiters, Shared.spilledAlone]
  have hwakes : (Pc.wakes .thread []).step .go (s.spilledAlone v) =
      some (s.spilledAlone v, some (.notify .thread)) := rfl
  have hnotify : (Pc.notify .thread).step .go (s.spilledAlone v) =
      some (s.spilledAlone v, none) := rfl
  have hstart : FifoStep ⟨s, 0⟩
      ⟨{ s with sent := s.sent ++ [v] }, with? (some (.enq .thread v 4 .load)) 0⟩ :=
    .outside (.start (.send v) rfl) (solo_of_noTasks hs hone)
  exact (Relation.ReflTransGen.single hstart)
    |>.trans (lone_attempt v 4 hs hroom)
    |>.trans (lone_attempt v 3 hs hroom)
    |>.trans (lone_attempt v 2 hs hroom)
    |>.trans (lone_attempt v 1 hs hroom)
    |>.tail (fifoStep_move hspill hs' hone fun _ _ _ => hempty)
    |>.tail (fifoStep_move hwakes hs' hone (by simp))
    |>.tail (fifoStep_move hnotify hs' ⟨Nat.zero_le 1, Nat.zero_le 1⟩ (by simp))

/-- An undisturbed `chan.try_recv` that takes a spilled value. -/
theorem lone_popSpill {s : Shared V} {v : V} {queue : List V} (hfree : s.locked = false)
    (hs : s.NoTasks) (hqueue : s.queue = v :: queue) :
    Relation.ReflTransGen FifoStep ⟨s, 0⟩ ⟨(s.popSpill queue).receive v, 0⟩ := by
  have hpop : (Pc.tryRecv .thread).step .go s = some ((s.popSpill queue).receive v, none) := by
    simp [Pc.step, hfree, hqueue, Caller.resume]
  have hstart : FifoStep ⟨s, 0⟩ ⟨s, with? (some (.tryRecv .thread)) 0⟩ :=
    .outside (.start .tryRecv rfl) (solo_of_noTasks hs ⟨Nat.zero_le 1, le_rfl⟩)
  exact (Relation.ReflTransGen.single hstart)
    |>.tail (fifoStep_move hpop hs ⟨Nat.zero_le 1, Nat.zero_le 1⟩ (by simp))

/-- The second of three values is spilled, into an empty ring, and the third one is not. -/
def twoTiers : Shared ℕ :=
  (((Shared.new.sentAlone 7).receivedAlone 7).spilledAlone 8).sentAlone 9

/-- Three values are sent on both ways and received. -/
theorem sent_then_received :
    ∃ P : System ℕ, Relation.ReflTransGen FifoStep System.new P ∧ P.shared.sent = [7, 8, 9] ∧
      P.shared.received = [7, 8, 9] ∧ P.shared.received <+: P.shared.sent := by
  have hcap : 1 % ringCap = 1 := Nat.mod_eq_of_lt two_le_ringCap
  have hrun : Relation.ReflTransGen FifoStep (System.new : System ℕ)
      ⟨((twoTiers.popSpill []).receive 8).receivedAlone 9, 0⟩ := by
    refine (lone_send (fun _ _ => fifoStep_of_calm) 7 rfl ⟨rfl, rfl⟩ ?_)
      |>.trans (lone_tryRecv (fun _ _ => fifoStep_of_calm) rfl ⟨rfl, rfl⟩ rfl ?_ ?_)
      |>.trans (lone_refused 8 rfl ⟨rfl, rfl⟩ ?_ rfl)
      |>.trans (lone_send (fun _ _ => fifoStep_of_calm) 9 rfl ⟨rfl, rfl⟩ ?_)
      |>.trans (lone_popSpill rfl ⟨rfl, rfl⟩ rfl)
      |>.trans (lone_tryRecv (fun _ _ => fifoStep_of_calm) rfl ⟨rfl, rfl⟩ rfl ?_ ?_)
    all_goals
      simp [Shared.sentAlone, Shared.spilledAlone, Shared.receivedAlone, Shared.popSpill,
        Shared.receive, Shared.new, Buffer.new, Buffer.claimTail, Buffer.publish, Buffer.claimHead,
        Buffer.release, hcap]
  exact ⟨_, hrun, rfl, rfl, received_prefix_sent hrun⟩

/-- The state after so many undisturbed sends. -/
def filled : ℕ → Shared ℕ
  | 0 => .new
  | n + 1 => (filled n).sentAlone n

theorem filled_rest (n : ℕ) : (filled n).locked = false ∧ (filled n).NoTasks ∧
    (filled n).queue = [] ∧ (filled n).spill = 0 ∧ (filled n).received = [] ∧
    (filled n).sent = List.range n ∧ (filled n).ring.tail = n := by
  induction n with
  | zero => exact ⟨rfl, ⟨rfl, rfl⟩, rfl, rfl, rfl, rfl, rfl⟩
  | succ n ih =>
    obtain ⟨hfree, hs, hqueue, hspill, hreceived, hsent, htail⟩ := ih
    refine ⟨hfree, ⟨rfl, hs.2⟩, hqueue, hspill, hreceived, ?_, ?_⟩
    · rw [List.range_succ, ← hsent]
      rfl
    · exact congrArg (· + 1) htail

theorem filled_seq {n : ℕ} (hn : n ≤ ringCap) :
    (∀ i < n, (filled n).ring.seq i = i + 1) ∧ ∀ i, n ≤ i → (filled n).ring.seq i = i := by
  induction n with
  | zero => exact ⟨by simp, fun i _ => rfl⟩
  | succ n ih =>
    obtain ⟨hbelow, habove⟩ := ih (by omega)
    have htail := (filled_rest n).2.2.2.2.2.2
    have hseq : (filled (n + 1)).ring.seq = Function.update (filled n).ring.seq n (n + 1) := by
      simp [filled, Shared.sentAlone, Buffer.publish, Buffer.claimTail, htail,
        Nat.mod_eq_of_lt (show n < ringCap by omega)]
    refine ⟨fun i hi => ?_, fun i hi => ?_⟩
    · rcases eq_or_ne i n with rfl | hne
      · simp [hseq]
      · rw [hseq, Function.update_of_ne hne]
        exact hbelow i (by omega)
    · rw [hseq, Function.update_of_ne (by omega)]
      exact habove i (by omega)

theorem filled_reachable {n : ℕ} (hn : n ≤ ringCap) :
    Relation.ReflTransGen SoloStep System.new ⟨filled n, 0⟩ := by
  induction n with
  | zero => exact .refl
  | succ n ih =>
    obtain ⟨hfree, hs, -, -, -, -, htail⟩ := filled_rest n
    refine (ih (by omega)).trans
      (lone_send (fun _ _ h _ hcalm' => ⟨h, solo_of_calm hcalm'⟩) n hfree hs ?_)
    rw [htail, Nat.mod_eq_of_lt (by omega)]
    exact (filled_seq (by omega)).2 n le_rfl

theorem soloStep_start {a : Act V} (h : a.start .thread s = some (s', next)) (hs' : s'.NoTasks)
    (hnext : next.elim 0 Pc.sending ≤ 1 ∧ next.elim 0 Pc.receiving ≤ 1) :
    SoloStep ⟨s, 0⟩ ⟨s', with? next 0⟩ :=
  ⟨Step.outside (Outside.start a h), solo_of_noTasks hs' hnext⟩

theorem soloStep_move (h : p.step .go s = some (s', next)) (hs' : s'.NoTasks)
    (hnext : next.elim 0 Pc.sending ≤ 1 ∧ next.elim 0 Pc.receiving ≤ 1) :
    SoloStep ⟨s, with? (some p) 0⟩ ⟨s', with? next 0⟩ :=
  ⟨show System.Step ⟨s, p ::ₘ 0⟩ _ from Step.move ⟨.go, h⟩, solo_of_noTasks hs' hnext⟩

/-- An undisturbed `chan.send` that finds the ring full. -/
theorem lone_spill {s : Shared V} (v : V) (hfree : s.locked = false) (hs : s.NoTasks)
    (hfull : s.ring.seq (s.ring.tail % ringCap) < s.ring.tail) :
    Relation.ReflTransGen SoloStep ⟨s, 0⟩ ⟨s.spilledAlone v, 0⟩ := by
  have hs' : (s.spilledAlone v).NoTasks := ⟨rfl, hs.2⟩
  have hone : 1 ≤ 1 ∧ 0 ≤ 1 := by decide
  have hseq : (Pc.enq .thread v 4 (.seq s.ring.tail)).step .go { s with sent := s.sent ++ [v] } =
      some ({ s with sent := s.sent ++ [v] }, some (.spill .thread v)) :=
    congrArg some ((if_neg hfull.ne).trans (if_pos hfull))
  have hspill : (Pc.spill .thread v).step .go { s with sent := s.sent ++ [v] } =
      some (s.spilledAlone v, some (.wakes .thread [])) := by
    simp [Pc.step, hfree, hs.1, Shared.takeWaiters, Shared.spilledAlone]
  have hnotify : (Pc.notify .thread).step .go (s.spilledAlone v) =
      some (s.spilledAlone v, none) := rfl
  exact Relation.ReflTransGen.single (soloStep_start (a := .send v) rfl hs hone)
    |>.tail (soloStep_move rfl hs hone)
    |>.tail (soloStep_move hseq hs hone)
    |>.tail (soloStep_move hspill hs' hone)
    |>.tail (soloStep_move rfl hs' hone)
    |>.tail (soloStep_move hnotify hs' ⟨Nat.zero_le 1, Nat.zero_le 1⟩)

/-- The state after an undisturbed `chan.try_recv` that finds the value just spilled. -/
def Shared.spilledReceived (s : Shared V) (v : V) : Shared V :=
  ((s.spilledAlone v).popSpill []).receive v

/-- An undisturbed `chan.send` that finds the ring full, and a `chan.try_recv` after it. -/
theorem lone_spill_tryRecv {s : Shared V} (v : V) (hfree : s.locked = false) (hs : s.NoTasks)
    (hqueue : s.queue = []) (hfull : s.ring.seq (s.ring.tail % ringCap) < s.ring.tail) :
    Relation.ReflTransGen SoloStep ⟨s, 0⟩ ⟨s.spilledReceived v, 0⟩ := by
  have hpop : (Pc.tryRecv .thread).step .go (s.spilledAlone v) =
      some (s.spilledReceived v, none) := by
    simp [Pc.step, Shared.spilledAlone, Shared.spilledReceived, hfree, hqueue, Caller.resume]
  exact (lone_spill v hfree hs hfull)
    |>.tail (soloStep_start (a := .tryRecv) rfl ⟨rfl, hs.2⟩ ⟨Nat.zero_le 1, le_rfl⟩)
    |>.tail (soloStep_move hpop ⟨rfl, hs.2⟩ ⟨Nat.zero_le 1, Nat.zero_le 1⟩)

theorem sent_spilledReceived (s : Shared V) (v : V) :
    (s.spilledReceived v).sent = s.sent ++ [v] := rfl

theorem received_spilledReceived (s : Shared V) (v : V) :
    (s.spilledReceived v).received = s.received ++ [v] := rfl

/-- 1024 values fill the ring, one more is spilled, and it is the first to be received. -/
theorem spilled_value_received_first :
    ∃ P : System ℕ, Relation.ReflTransGen SoloStep System.new P ∧
      P.shared.sent = List.range (ringCap + 1) ∧ P.shared.received = [ringCap] ∧
      ¬P.shared.received <+: P.shared.sent := by
  have hcap := two_le_ringCap
  obtain ⟨hfree, hs, hqueue, -, hreceived, hsent, htail⟩ := filled_rest ringCap
  have hfull : (filled ringCap).ring.seq ((filled ringCap).ring.tail % ringCap) <
      (filled ringCap).ring.tail := by
    rw [htail, Nat.mod_self, (filled_seq le_rfl).1 0 (by omega)]
    omega
  have hrun := (filled_reachable le_rfl).trans (lone_spill_tryRecv ringCap hfree hs hqueue hfull)
  have hsent' := sent_spilledReceived (filled ringCap) ringCap
  rw [hsent, ← List.range_succ] at hsent'
  have hreceived' := received_spilledReceived (filled ringCap) ringCap
  rw [hreceived, List.nil_append] at hreceived'
  refine ⟨_, hrun, hsent', hreceived', ?_⟩
  rw [hreceived', hsent', List.range_succ_eq_map]
  rintro ⟨later, hextends⟩
  have := (List.cons.inj hextends).1
  omega

end ZzLang.Conc
