import ZzLang.Conc.Conserve

/-!
# Waiters and values

A task that waits on a channel relies on a sender: one that publishes after the task has
registered takes the list of waiters afterwards, and finds it there. So as long as a waiter is
in the list, either the channel is empty or a sender is still to take the list
(`Attended`).

Two places of the code put a task into the list, or leave it there, without looking at the
channel afterwards. A waiter for which the sender found no value is put back (`repark`); in the
meantime another sender may have published and found the list empty. And the pop of `park_chan`
under the lock gives up after four attempts, also when others have left values behind. After
such a step a task can wait on a channel that holds a value, with nobody to wake it
(`waiter_left_with_value`). Everywhere else the property is kept: in a run where these two steps
happen only while the channel is empty or a sender is on its way, no waiter is stranded
(`no_stranded_waiter`).
-/

namespace ZzLang.Conc

open MpmcRing Buffer ThreadPool

variable {V : Type} {s s' : Shared V} {p : Pc V} {next : Option (Pc V)} {ch : Choice V}
  {rest threads : Multiset (Pc V)}

/-- A `chan.send` that has yet to take the list of waiters. -/
def Pc.Sends : Pc V → Prop
  | .enq .. | .spill .. | .service _ => True
  | _ => False

/-- Neither tier holds a value. -/
def Shared.Empty (s : Shared V) : Prop :=
  contents ringCap s.ring = 0 ∧ s.queue = []

/-- The channel is empty, or a sender is still to take the list of waiters. -/
def Attended (s : Shared V) (threads : Multiset (Pc V)) : Prop :=
  s.Empty ∨ ∃ p ∈ threads, p.Sends

/-- The two steps that leave a task in the list without a look at the channel: putting back a
waiter, and giving up the pop of `park_chan` although the cell at the head was not empty. -/
def Pc.LeavesWaiter (s : Shared V) (next : Option (Pc V)) : Pc V → Prop
  | .repark .. => True
  | .deq (.park t) _ (.seq pos) =>
    next = some (.got (.park t) none) ∧ pos + 1 ≤ s.ring.seq (pos % ringCap)
  | .deq (.park t) _ (.cas _) => next = some (.got (.park t) none)
  | _ => False

/-- A step of the system in which a task is left in the list only while that is safe. -/
inductive CarefulStep : System V → System V → Prop
  | move {p : Pc V} {s s' : Shared V} {next : Option (Pc V)} {rest : Multiset (Pc V)}
      (h : Moves p s s' next) (hcare : p.LeavesWaiter s next → Attended s rest) :
      CarefulStep ⟨s, p ::ₘ rest⟩ ⟨s', with? next rest⟩
  | outside {s s' : Shared V} {next : Option (Pc V)} {threads : Multiset (Pc V)}
      (h : Outside s s' next) : CarefulStep ⟨s, threads⟩ ⟨s', with? next threads⟩

theorem CarefulStep.step {P P' : System V} (h : CarefulStep P P') : System.Step P P' := by
  rcases h with ⟨h, -⟩ | h
  · exact Step.move h
  · exact Step.outside h

/-! ### What a step does -/

/-- The step takes the list of waiters. -/
def Drains (s s' : Shared V) (next : Option (Pc V)) : Prop :=
  s.locked = false ∧ s'.greenWaiters = [] ∧ ∃ c, next = some (.wakes c s.greenWaiters)

/-- A sender stays one until it takes the list. -/
theorem sends_step (hp : p.Sends) (h : p.step ch s = some (s', next)) :
    (∃ q ∈ next, q.Sends) ∨ Drains s s' next := by
  rcases p with ⟨c, v, tries, stage⟩ | ⟨c, v⟩ | c | _
  · have hstep := tryEnqueue_step ch c v tries s stage
    rw [Option.some.inj h] at hstep
    rcases hstep with _ | _ | _ | _ <;> exact .inl ⟨_, rfl, trivial⟩
  · simp only [Pc.step] at h
    split at h <;> cases h
    exact .inr ⟨by simpa using ‹¬s.locked = true›, rfl, c, rfl⟩
  · simp only [Pc.step] at h
    split at h <;> cases h
    exact .inr ⟨by simpa using ‹¬s.locked = true›, rfl, c, rfl⟩
  all_goals exact hp.elim

/-- A value enters the spill queue when the list is taken. -/
theorem queue_step (hqueue : s.queue = []) (h : p.step ch s = some (s', next)) :
    s'.queue = [] ∨ (∃ c v, p = .spill c v) ∧ Drains s s' next := by
  replace h := step_cases h
  cases h with
  | enq _ hstep | deq _ hstep => rcases hstep with _ | _ | _ | _ <;> exact .inl hqueue
  | @got site value =>
    have hafter : (site.after value s).1.queue = s.queue := by
      rcases site with (r | c | t) | (t | c) | c | ⟨c, wid, ws⟩ | t <;> rcases value with _ | v <;>
        rfl
    exact .inl (hafter.trans hqueue)
  | @slice _ a _ _ h => rcases a with v | _ | _ | _ | _ | _ <;> cases h <;> exact .inl hqueue
  | @spill c v hfree => exact .inr ⟨⟨c, v, rfl⟩, hfree, rfl, c, rfl⟩
  | wakesPop _ hcons | recvPop _ hcons | tryPop _ hcons | loopPop hcons | parkPop hcons =>
    cases hqueue.symm.trans hcons
  | _ => exact .inl hqueue

/-- A value enters the ring by a sender that has yet to take the list. -/
theorem contents_step (hseen : p.Seen s.ring) (hcell : ∀ pos ∈ p.writing,
    s.ring.val (pos % ringCap) = none) (hempty : contents ringCap s.ring = 0)
    (h : p.step ch s = some (s', next)) :
    contents ringCap s'.ring = 0 ∨ ∃ q ∈ next, q.Sends := by
  rcases ring_cases hseen h with ⟨hring, _, _⟩ | ⟨hring, _, _, _⟩ | ⟨c, v, tries, pos, rfl, _, _⟩ |
    ⟨hring, _, _, _⟩ | ⟨site, tries, pos, value, rfl, hring, _⟩
  · exact .inl (hring ▸ hempty)
  · exact .inl (hring ▸ hempty)
  · cases h
    exact .inr ⟨_, rfl, trivial⟩
  · refine .inl ?_
    have hclaim := contents_claimHead two_le_ringCap s.ring
    rw [hempty, ← hring] at hclaim
    refine Multiset.le_zero.mp ?_
    rw [← hclaim]
    exact Multiset.le_add_right _ _
  · exact .inl (hring ▸ hempty)

/-- What was attended to stays so, unless the list of waiters is taken. -/
theorem attended_step (hseen : p.Seen s.ring) (hcell : ∀ pos ∈ p.writing,
    s.ring.val (pos % ringCap) = none) (hatt : Attended s (p ::ₘ rest))
    (h : p.step ch s = some (s', next)) :
    Attended s' (with? next rest) ∨ Drains s s' next := by
  have hnext : (∃ q ∈ next, q.Sends) → Attended s' (with? next rest) := by
    rintro ⟨q, hq, hsends⟩
    exact .inr ⟨q, mem_with?.mpr (.inl hq), hsends⟩
  rcases hatt with ⟨hring, hqueue⟩ | ⟨q, hq, hsends⟩
  · rcases contents_step hseen hcell hring h with hring' | hq
    · rcases queue_step hqueue h with hqueue' | ⟨-, hdrains⟩
      · exact .inl (.inl ⟨hring', hqueue'⟩)
      · exact .inr hdrains
    · exact .inl (hnext hq)
  · rcases Multiset.mem_cons.mp hq with rfl | hq
    · exact (sends_step hsends h).imp_left hnext
    · exact .inl (.inr ⟨q, mem_with?.mpr (.inr hq), hsends⟩)

/-- Who is in the list after a step: a task that is registering, one that was there and stays, a
waiter that is put back, or a task that ends its registration. -/
theorem waiter_cases (h : p.step ch s = some (s', next)) {t : TaskId}
    (ht : t ∈ s'.greenWaiters) : (∃ q ∈ next, q.registering = some t) ∨
      (t ∈ s.greenWaiters ∧ p.registering ≠ some t) ∨ (∃ c ws, p = .repark c t ws) ∨
      p = .got (.park t) none := by
  replace h := step_cases h
  cases h with
  | enq _ hstep =>
    rcases hstep with _ | _ | _ | _ <;> exact .inr (.inl ⟨ht, by simp [Pc.registering]⟩)
  | @deq _ site _ _ _ _ _ hstep =>
    by_cases hreg : site.registering = some t
    · rcases hstep with _ | _ | _ | _ <;> exact .inl ⟨_, rfl, hreg⟩
    · rcases hstep with _ | _ | _ | _ <;> exact .inr (.inl ⟨ht, hreg⟩)
  | @got site value =>
    rcases site with (r | c | u) | (u | c) | c | ⟨c, wid, ws⟩ | u <;> rcases value with _ | v
    case park.none =>
      by_cases hne : u = t
      · exact .inr (.inr (.inr (hne ▸ rfl)))
      · exact .inr (.inl ⟨ht, by simpa [Pc.registering, Site.registering] using hne⟩)
    case park.some =>
      obtain ⟨hmem, hne⟩ := List.mem_filter.mp ht
      exact .inr (.inl ⟨hmem, fun heq => of_decide_eq_true hne (Option.some.inj heq).symm⟩)
    all_goals exact .inr (.inl ⟨ht, by simp [Pc.registering, Site.registering]⟩)
  | slice h =>
    obtain ⟨hwaiters, -⟩ := registering_start h
    exact .inr (.inl ⟨hwaiters ▸ ht, by simp [Pc.registering]⟩)
  | @repark c wid ws =>
    rcases List.mem_append.mp ht with hmem | hmem
    · exact .inr (.inl ⟨hmem, by simp [Pc.registering]⟩)
    · exact .inr (.inr (.inl ⟨c, ws, by rw [List.mem_singleton.mp hmem]⟩))
  | parkLock =>
    rcases List.mem_append.mp ht with hmem | hmem
    · exact .inr (.inl ⟨hmem, by simp [Pc.registering]⟩)
    · exact .inl ⟨_, rfl, congrArg some (List.mem_singleton.mp hmem).symm⟩
  | parkPop =>
    obtain ⟨hmem, hne⟩ := List.mem_filter.mp ht
    exact .inr (.inl ⟨hmem, fun heq => of_decide_eq_true hne (Option.some.inj heq).symm⟩)
  | @parkRing u =>
    by_cases hne : u = t
    · exact .inl ⟨_, rfl, congrArg some hne⟩
    · exact .inr (.inl ⟨ht, by simpa [Pc.registering] using hne⟩)
  | spill | service => simp [Shared.takeWaiters] at ht
  | _ => exact .inr (.inl ⟨ht, by simp [Pc.registering]⟩)

/-! ### The flag -/

theorem greenParked_step (hflag : s.greenWaiters ≠ [] → s.greenParked = true)
    (h : p.step ch s = some (s', next)) : s'.greenWaiters ≠ [] → s'.greenParked = true := by
  have hunpark : ∀ t, (s.unpark t).greenWaiters ≠ [] → (s.unpark t).greenParked = true := by
    intro t hne
    have hold : s.greenWaiters ≠ [] := by
      intro hnil
      simp [Shared.unpark, hnil] at hne
    simp only [Shared.unpark] at hne ⊢
    rw [if_neg (by simpa using hne)]
    exact hflag hold
  replace h := step_cases h
  cases h with
  | enq _ hstep | deq _ hstep => rcases hstep with _ | _ | _ | _ <;> exact hflag
  | @got site value =>
    rcases site with (r | c | u) | (u | c) | c | ⟨c, wid, ws⟩ | u <;> rcases value with _ | v
    case park.some => exact hunpark u
    all_goals exact hflag
  | @slice _ a _ _ h => rcases a with v | _ | _ | _ | _ | _ <;> cases h <;> exact hflag
  | @parkPop t => exact hunpark t
  | _ => first | exact hflag | exact fun _ => rfl | exact fun hne => absurd rfl hne

/-! ### The invariant -/

/-- The thread pops for a task that it has registered, after it has found the spill queue
empty. -/
def Pc.PopsToPark : Pc V → Prop
  | .deq (.park _) _ _ => True
  | .got (.park _) none => True
  | _ => False

/-- The position a pop has read is not past the head, and the cell it has claimed held a
value. -/
def Pc.PopOk (r : Buffer V) : Pc V → Prop
  | .deq _ _ (.seq pos) => pos ≤ r.head
  | .deq _ _ (.release _ value) => value.isSome
  | _ => True

/-- Every task in the list is registering, or the channel is attended to. While a task is
registering, the spill queue is empty from the check on, and when its pop has come back empty
the channel is attended to. -/
structure WaitInv (P : System V) : Prop where
  listed : (∀ t ∈ P.shared.greenWaiters, ∃ p ∈ P.threads, p.registering = some t) ∨
    Attended P.shared P.threads
  queue : ∀ p ∈ P.threads, p.PopsToPark → P.shared.queue = []
  missed : ∀ t, .got (.park t) none ∈ P.threads → Attended P.shared P.threads
  pops : ∀ p ∈ P.threads, p.PopOk P.shared.ring

theorem Pc.PopsToPark.holds (h : p.PopsToPark) : p.holds = 1 := by
  rcases p with _ | _ | _ | _ | _ | _ | _ | _ | _ | _ | ⟨_ | _ | _ | _ | t, _, _⟩ |
    ⟨_ | _ | _ | _ | t, _ | _⟩ | _
  case deq.park => rfl
  case got.park.none => rfl
  all_goals exact h.elim

theorem Pc.PopsToPark.registering (h : p.PopsToPark) : p.registering ≠ none := by
  rcases p with _ | _ | _ | _ | _ | _ | _ | _ | _ | _ | ⟨_ | _ | _ | _ | t, _, _⟩ |
    ⟨_ | _ | _ | _ | t, _ | _⟩ | _
  case deq.park => exact Option.some_ne_none t
  case got.park.none => exact Option.some_ne_none t
  all_goals exact h.elim

theorem Pc.sends_of_writing {pos : ℕ} (h : pos ∈ p.writing) : p.Sends := by
  rcases p with ⟨c, v, tries, stage⟩ | _
  · trivial
  all_goals cases h

/-- A pop for a registered task starts at a check of the spill queue. -/
theorem popsToPark_step (h : p.step ch s = some (s', next)) : ∀ q ∈ next, q.PopsToPark →
    s'.queue = s.queue ∧ ((∃ site tries stage, p = .deq site tries stage ∧ p.PopsToPark) ∨
      s.queue = [] ∧ ∃ t, q = .deq (.park t) 4 .load) := by
  intro q hq hpops
  replace h := step_cases h
  cases h with
  | enq _ hstep => rcases hstep with _ | _ | _ | _ <;> cases hq <;> exact hpops.elim
  | @deq _ site _ _ _ _ _ hstep =>
    rcases site with _ | _ | _ | _ | u
    case park =>
      rcases hstep with _ | _ | _ | _ <;> exact ⟨rfl, .inl ⟨_, _, _, rfl, trivial⟩⟩
    all_goals
      rcases hstep with _ | _ | _ | _ <;> cases hq
    all_goals exact hpops.elim
  | @got site value => exact absurd ((registering_after site value s).2 q hq) hpops.registering
  | @gate g flag =>
    cases hq
    exact absurd (registering_checkGate g s flag) hpops.registering
  | slice h => exact absurd ((registering_start h).2 q hq) hpops.registering
  | @parkRing u hqueue =>
    cases hq
    exact ⟨rfl, .inr ⟨hqueue, u, rfl⟩⟩
  | _ =>
    first
    | exact absurd (registering_resume _ q hq) hpops.registering
    | exact absurd (registering_resume_receiver _ q hq) hpops.registering
    | (cases hq <;> exact hpops.elim)

/-- How a pop comes back empty. -/
theorem deq_missed {site : Site} {tries : ℕ} {stage : DeqStage V} {t : TaskId}
    (h : tryDequeue ch site tries s stage = (s', some (.got (.park t) none))) :
    (Pc.deq site tries stage).LeavesWaiter s (some (.got (.park t) none)) ∨
      (∃ pos, site = .park t ∧ stage = .seq pos ∧ s.ring.seq (pos % ringCap) < pos + 1) ∨
      ∃ pos, site = .park t ∧ stage = .release pos none := by
  have hsite : site = .park t := by
    have hstep := tryDequeue_step ch site tries s stage
    rw [h] at hstep
    rcases hstep with _ | _ | _ | _ <;> rfl
  subst hsite
  rcases stage with _ | pos | pos | ⟨pos, value⟩
  · cases h
  · by_cases hmiss : s.ring.seq (pos % ringCap) < pos + 1
    · exact .inr (.inl ⟨pos, rfl, rfl, hmiss⟩)
    · exact .inl ⟨rfl, Nat.le_of_not_lt hmiss⟩
  · exact .inl rfl
  · simp only [tryDequeue, Prod.mk.injEq, Option.some.injEq, Pc.got.injEq] at h
    exact .inr (.inr ⟨pos, rfl, by rw [h.2.2]⟩)

theorem missed_cases {t : TaskId} (h : p.step ch s = some (s', some (.got (.park t) none))) :
    p.LeavesWaiter s (some (.got (.park t) none)) ∨
      (∃ tries pos, p = .deq (.park t) tries (.seq pos) ∧ s.ring.seq (pos % ringCap) < pos + 1) ∨
      ∃ tries pos, p = .deq (.park t) tries (.release pos none) := by
  rcases (popsToPark_step h _ rfl trivial).2 with ⟨site, tries, stage, rfl, -⟩ | ⟨-, u, hload⟩
  · rcases deq_missed (Option.some.inj h) with hleaves | ⟨pos, rfl, rfl, hmiss⟩ | ⟨pos, rfl, rfl⟩
    · exact .inl hleaves
    · exact .inr (.inl ⟨tries, pos, rfl, hmiss⟩)
    · exact .inr (.inr ⟨tries, pos, rfl⟩)
  · cases hload

/-- A pop starts at its first stage. -/
theorem popOk_of_start (r : Buffer V) (hp : ∀ site tries stage, p ≠ .deq site tries stage)
    (h : p.step ch s = some (s', next)) : ∀ q ∈ next, q.PopOk r := by
  have hresume : ∀ c : Caller, ∀ q ∈ (c.resume : Option (Pc V)), q.PopOk r := by
    intro c q hq
    rcases c with _ | t <;> cases hq
    trivial
  have hresume' : ∀ r' : Receiver, ∀ q ∈ (r'.resume : Option (Pc V)), q.PopOk r := by
    intro r' q hq
    rcases r' with t | c
    · cases hq
      trivial
    · exact hresume c q hq
  replace h := step_cases h
  cases h with
  | enq _ hstep => rcases hstep with _ | _ | _ | _ <;> rintro q ⟨⟩ <;> trivial
  | deq => exact absurd rfl (hp _ _ _)
  | @got site value =>
    rcases site with (r | c | u) | (u | c) | c | ⟨c, wid, ws⟩ | u <;> rcases value with _ | v
    all_goals
      first
      | exact hresume _
      | exact hresume' _
      | (rintro q ⟨⟩; trivial)
  | @gate g flag =>
    rintro q ⟨⟩
    rcases flag with _ | _ | _ <;> simp only [checkGate] <;> split_ifs <;>
      first | trivial | (rcases g with _ | _ | _ <;> trivial)
  | @slice _ a _ _ h =>
    rcases a with v | _ | _ | _ | _ | _ <;> cases h <;> rintro q ⟨⟩ <;> trivial
  | _ =>
    first
    | exact hresume _
    | exact hresume' _
    | (rintro q ⟨⟩ <;> trivial)

theorem popOk_step (hring : RingInv ⟨s, p ::ₘ rest⟩) (h : p.step ch s = some (s', next)) :
    s.ring.head ≤ s'.ring.head ∧ ∀ q ∈ next, q.PopOk s'.ring := by
  have hcases := ring_cases (hring.seen p (by simp)) h
  have hhead : s.ring.head ≤ s'.ring.head := by
    rcases hcases with ⟨hr, _, _⟩ | ⟨hr, _, _, _⟩ | ⟨_, _, _, _, _, hr, _⟩ | ⟨hr, _, _, _⟩ |
      ⟨_, _, _, _, _, hr, _⟩ <;> rw [hr]
    case claimHead => exact Nat.le_succ _
    all_goals exact le_rfl
  refine ⟨hhead, ?_⟩
  by_cases hdeq : ∃ site tries stage, p = .deq site tries stage
  · obtain ⟨site, tries, stage, rfl⟩ := hdeq
    have hretry : ∀ n, (tryDequeue.retry site n : Pc V).PopOk s'.ring := by
      rintro (_ | _ | n) <;> trivial
    have hstep := Option.some.inj h
    rcases stage with _ | pos | pos | ⟨pos, value⟩
    · cases hstep
      rintro q ⟨⟩
      exact le_rfl
    · simp only [tryDequeue] at hstep
      split_ifs at hstep <;> cases hstep <;> rintro q ⟨⟩
      · trivial
      · trivial
      · exact hretry tries
    · have hseen : pos + 1 ≤ s.ring.seq (pos % ringCap) := hring.seen _ (Multiset.mem_cons_self _ _)
      rcases ch with _ | _ | a <;> simp only [tryDequeue] at hstep
      · split_ifs at hstep with hpos <;> cases hstep <;> rintro q ⟨⟩
        · subst hpos
          exact (hring.ok.full_of_seen two_le_ringCap hseen).2.2
        · exact hretry tries
      · cases hstep
        rintro q ⟨⟩
        exact hretry tries
      · cases hstep
        rintro q ⟨⟩
        exact hretry tries
    · cases hstep
      rintro q ⟨⟩
      trivial
  · exact popOk_of_start s'.ring (fun site tries stage heq => hdeq ⟨site, tries, stage, heq⟩) h

theorem Pc.PopOk.mono {r r' : Buffer V} (h : p.PopOk r) (hle : r.head ≤ r'.head) :
    p.PopOk r' := by
  rcases p with _ | _ | _ | _ | _ | _ | _ | _ | _ | _ | ⟨site, tries, _ | pos | _ | _⟩ | _
  case deq.seq => exact le_trans h hle
  case deq.release => exact h
  all_goals trivial

/-- A pop for a registered task that misses finds the channel attended to. -/
theorem attended_of_miss {t : TaskId} {tries pos : ℕ}
    (hring : RingInv ⟨s, .deq (.park t) tries (.seq pos) ::ₘ rest⟩) (hqueue : s.queue = [])
    (hpos : pos ≤ s.ring.head) (hmiss : s.ring.seq (pos % ringCap) < pos + 1) :
    Attended s (.deq (.park t) tries (.seq pos) ::ₘ rest) := by
  rcases hring.ok.empty_of_miss two_le_ringCap hpos hmiss with heq | ⟨q, hq⟩
  · exact .inl ⟨hring.ok.contents_eq_zero heq, hqueue⟩
  · obtain ⟨p, hp, hwriting⟩ := mem_total.mp hq
    exact .inr ⟨p, hp, Pc.sends_of_writing hwriting⟩

theorem waitInv_move (hring : RingInv ⟨s, p ::ₘ rest⟩) (hmutex : MutexInv ⟨s, p ::ₘ rest⟩)
    (hinv : WaitInv ⟨s, p ::ₘ rest⟩) (hcare : p.LeavesWaiter s next → Attended s rest)
    (h : p.step ch s = some (s', next)) : WaitInv ⟨s', with? next rest⟩ := by
  have hseen := hring.seen p (by simp)
  have hatt : Attended s (p ::ₘ rest) → Attended s' (with? next rest) ∨ Drains s s' next :=
    fun hatt => attended_step hseen hring.cell_eq_none hatt h
  have hcons : Attended s rest → Attended s (p ::ₘ rest) :=
    Or.imp_right fun ⟨q, hq, hsends⟩ => ⟨q, by simp [hq], hsends⟩
  -- nobody is in a critical section while the list is taken
  have hfree : Drains s s' next → ∀ q ∈ rest, q.holds = 0 :=
    fun hdrains q hq => hmutex.holds_of_free hdrains.1 (by simp [hq])
  obtain ⟨hhead, hpops⟩ := popOk_step hring h
  refine ⟨?_, ?_, ?_, ?_⟩
  · by_cases hbefore : Attended s (p ::ₘ rest)
    · rcases hatt hbefore with hafter | hdrains
      · exact .inr hafter
      · refine .inl ?_
        simp [hdrains.2.1]
    · have hall := hinv.listed.resolve_right hbefore
      refine .inl fun t ht => ?_
      rcases waiter_cases h ht with ⟨q, hq, hreg⟩ | ⟨hmem, hne⟩ | ⟨c, ws, rfl⟩ | rfl
      · exact ⟨q, mem_with?.mpr (.inl hq), hreg⟩
      · obtain ⟨q, hq, hreg⟩ := hall t hmem
        rcases Multiset.mem_cons.mp hq with rfl | hq
        · exact absurd hreg hne
        · exact ⟨q, mem_with?.mpr (.inr hq), hreg⟩
      · exact absurd (hcons (hcare trivial)) hbefore
      · exact absurd (hinv.missed t (by simp)) hbefore
  · intro q hq hpark
    rcases mem_with?.mp hq with hq | hq
    · obtain ⟨hsame, hp⟩ := popsToPark_step h q hq hpark
      rcases hp with ⟨-, -, -, -, hpops⟩ | ⟨hqueue, -⟩
      · exact hsame.trans (hinv.queue p (by simp) hpops)
      · exact hsame.trans hqueue
    · rcases queue_step (hinv.queue q (by simp [hq]) hpark) h with hqueue | ⟨-, hdrains⟩
      · exact hqueue
      · have := hfree hdrains q hq
        rw [hpark.holds] at this
        cases this
  · intro t hmem
    rcases mem_with?.mp hmem with hnext | hmem
    · have hbefore : Attended s (p ::ₘ rest) := by
        subst hnext
        rcases missed_cases h with hleaves | ⟨tries, pos, rfl, hmiss⟩ | ⟨tries, pos, rfl⟩
        · exact hcons (hcare hleaves)
        · exact attended_of_miss hring (hinv.queue _ (Multiset.mem_cons_self _ _) trivial)
            (hinv.pops _ (Multiset.mem_cons_self _ _)) hmiss
        · exact absurd (hinv.pops _ (Multiset.mem_cons_self _ _)) (by simp [Pc.PopOk])
      rcases hatt hbefore with hafter | ⟨-, -, c, hwakes⟩
      · exact hafter
      · rw [hnext] at hwakes
        cases hwakes
    · rcases hatt (hinv.missed t (by simp [hmem])) with hafter | hdrains
      · exact hafter
      · have := hfree hdrains _ hmem
        cases this
  · intro q hq
    rcases mem_with?.mp hq with hq | hq
    · exact hpops q hq
    · exact (hinv.pops q (by simp [hq])).mono hhead

theorem waitInv_outside (hinv : WaitInv ⟨s, threads⟩) (h : Outside s s' next) :
    WaitInv ⟨s', with? next threads⟩ := by
  have hout : s'.greenWaiters = s.greenWaiters ∧ s'.ring = s.ring ∧ s'.queue = s.queue ∧
      ∀ q ∈ next, ¬q.PopsToPark ∧ ∀ r, q.PopOk r := by
    cases h with
    | start a h =>
      rcases a with v | _ | _ | _ | _ | _ <;> cases h <;>
        exact ⟨rfl, rfl, rfl, by rintro q ⟨⟩; exact ⟨id, fun _ => trivial⟩⟩
    | spawn => exact ⟨rfl, rfl, rfl, by simp⟩
    | pop h => exact ⟨rfl, rfl, rfl, by rintro q ⟨⟩; exact ⟨id, fun _ => trivial⟩⟩
  obtain ⟨hwaiters, hring, hqueue, hnext⟩ := hout
  have hatt : Attended s threads → Attended s' (with? next threads) := by
    rintro (⟨hempty, hnil⟩ | ⟨q, hq, hsends⟩)
    · exact .inl ⟨hring ▸ hempty, hqueue ▸ hnil⟩
    · exact .inr ⟨q, mem_with?.mpr (.inr hq), hsends⟩
  refine ⟨?_, ?_, ?_, ?_⟩
  · rcases hinv.listed with hall | hbefore
    · refine .inl fun t ht => ?_
      obtain ⟨q, hq, hreg⟩ := hall t (hwaiters ▸ ht)
      exact ⟨q, mem_with?.mpr (.inr hq), hreg⟩
    · exact .inr (hatt hbefore)
  · intro q hq hpark
    rcases mem_with?.mp hq with hq | hq
    · exact absurd hpark (hnext q hq).1
    · exact hqueue ▸ hinv.queue q hq hpark
  · intro t hmem
    rcases mem_with?.mp hmem with hq | hmem
    · exact absurd trivial (hnext _ hq).1
    · exact hatt (hinv.missed t hmem)
  · intro q hq
    rcases mem_with?.mp hq with hq | hq
    · exact (hnext q hq).2 _
    · exact hring ▸ hinv.pops q hq

theorem waitInv_new : WaitInv (System.new : System V) where
  listed := .inl (by simp [System.new, Shared.new])
  queue := by simp [System.new]
  missed := by simp [System.new]
  pops := by simp [System.new]

/-! ### Every run -/

/-- The states of the runs in which every step is careful. -/
def System.CarefullyReachable (P : System V) : Prop :=
  Relation.ReflTransGen CarefulStep System.new P

theorem System.CarefullyReachable.reachable {P : System V} (h : P.CarefullyReachable) :
    P.Reachable :=
  Relation.ReflTransGen.mono (fun _ _ (hs : CarefulStep _ _) => hs.step) _ _ h

theorem System.CarefullyReachable.waitInv {P : System V} (hreach : P.CarefullyReachable) :
    WaitInv P := by
  induction hreach with
  | refl => exact waitInv_new
  | tail hbefore hstep ih =>
    have hinv := (System.CarefullyReachable.reachable hbefore).channelInv
    rcases hstep with ⟨⟨ch, h⟩, hcare⟩ | h
    · exact waitInv_move hinv.ring hinv.mutex ih hcare h
    · exact waitInv_outside ih h

theorem System.Reachable.greenParked {P : System V} (hreach : P.Reachable) :
    P.shared.greenWaiters ≠ [] → P.shared.greenParked = true := by
  induction hreach with
  | refl => exact fun hne => absurd rfl hne
  | tail _ hstep ih =>
    rcases hstep with ⟨ch, h⟩ | h
    · exact greenParked_step ih h
    · cases h with
      | start a h =>
        rcases a with v | _ | _ | _ | _ | _ <;> cases h <;> exact ih
      | spawn => exact ih
      | pop h => exact ih

/-- Nothing is in progress: every thread is asleep in a blocking `chan.recv`. -/
def Quiescent (P : System V) : Prop :=
  ∀ p ∈ P.threads, ∃ c, p = .asleep c

/-- **No stranded waiter.** The flag is set whenever a task is registered and the mutex is free.
In a run whose steps are careful, a channel at rest that holds a value has no task
registered. -/
theorem no_stranded_waiter (P : System V) :
    (P.Reachable → P.shared.locked = false → P.shared.greenWaiters ≠ [] →
      P.shared.greenParked = true) ∧
    (P.CarefullyReachable → Quiescent P →
      contents ringCap P.shared.ring ≠ 0 ∨ P.shared.queue ≠ [] → P.shared.greenWaiters = []) := by
  refine ⟨fun hreach _ => hreach.greenParked, fun hreach hquiet hvalue => ?_⟩
  rcases hreach.waitInv.listed with hall | hempty | ⟨p, hp, hsends⟩
  · refine List.eq_nil_iff_forall_not_mem.mpr fun t ht => ?_
    obtain ⟨p, hp, hreg⟩ := hall t ht
    obtain ⟨c, rfl⟩ := hquiet p hp
    cases hreg
  · exact absurd hvalue (by simp [hempty.1, hempty.2])
  · obtain ⟨c, rfl⟩ := hquiet p hp
    exact hsends.elim

/-! ### Undisturbed operations -/

/-- Where a lone `chan.send` that finds room and nobody waiting, or a lone `chan.try_recv`,
stands. -/
def Pc.Calm : Pc V → Prop
  | .enq .. | .service _ | .wakes _ [] | .notify _ | .tryRecv _ | .deq (.tryRecv _) _ _
  | .got (.tryRecv _) _ => True
  | _ => False

/-- One such operation is under way, or none, and no task has to do with the channel. -/
structure Calm (P : System V) : Prop where
  waiters : P.shared.greenWaiters = []
  delivered : P.shared.delivered = 0
  threads : ∃ next, P.threads = with? next 0 ∧ ∀ p ∈ next, p.Calm

/-- The state after an undisturbed `chan.send`. -/
def Shared.sentAlone (s : Shared V) (v : V) : Shared V :=
  { s with
    ring := (s.ring.claimTail).publish ringCap s.ring.tail v
    greenParked := false
    greenWaiters := []
    sent := s.sent ++ [v] }

/-- The state after an undisturbed `chan.try_recv` that takes a value from the ring. -/
def Shared.receivedAlone (s : Shared V) (v : V) : Shared V :=
  { s with
    ring := (s.ring.claimHead ringCap).release ringCap s.ring.head
    locked := false
    received := s.received ++ [v] }

section Lone

variable {R : System V → System V → Prop}
  (hR : ∀ P P', System.Step P P' → Calm P → Calm P' → R P P')

/-- Nobody waits and nothing is delivered. -/
def Shared.NoTasks (s : Shared V) : Prop :=
  s.greenWaiters = [] ∧ s.delivered = 0

include hR

theorem lone_start {a : Act V} (h : a.start .thread s = some (s', next)) (hs : s.NoTasks)
    (hs' : s'.NoTasks) (hnext : ∀ q ∈ next, q.Calm) : R ⟨s, 0⟩ ⟨s', with? next 0⟩ :=
  hR _ _ (Step.outside (Outside.start a h)) ⟨hs.1, hs.2, none, rfl, by simp⟩
    ⟨hs'.1, hs'.2, next, rfl, hnext⟩

theorem lone_move (h : p.step .go s = some (s', next)) (hs : s.NoTasks) (hp : p.Calm)
    (hs' : s'.NoTasks) (hnext : ∀ q ∈ next, q.Calm) :
    R ⟨s, with? (some p) 0⟩ ⟨s', with? next 0⟩ :=
  hR _ _ (show System.Step ⟨s, p ::ₘ 0⟩ _ from Step.move ⟨.go, h⟩)
    ⟨hs.1, hs.2, some p, rfl, by rintro _ ⟨⟩; exact hp⟩
    ⟨hs'.1, hs'.2, next, rfl, hnext⟩

/-- An undisturbed `chan.send`. -/
theorem lone_send {s : Shared V} (v : V) (hfree : s.locked = false) (hs : s.NoTasks)
    (hroom : s.ring.seq (s.ring.tail % ringCap) = s.ring.tail) :
    Relation.ReflTransGen R ⟨s, 0⟩ ⟨s.sentAlone v, 0⟩ := by
  have calm : ∀ {p : Pc V}, p.Calm → ∀ q ∈ some p, q.Calm := by
    rintro p hp q ⟨⟩
    exact hp
  have hs' : (s.sentAlone v).NoTasks := ⟨rfl, hs.2⟩
  have hservice : (if s.locked = true then none else
      some (s.sentAlone v, some (.wakes .thread s.greenWaiters))) =
      some (s.sentAlone v, some (.wakes .thread [] : Pc V)) := by
    rw [if_neg (by simp [hfree]), hs.1]
  have hnotify : (Pc.notify .thread).step .go (s.sentAlone v) = some (s.sentAlone v, none) := rfl
  exact Relation.ReflTransGen.single (lone_start hR (a := .send v) rfl hs hs (calm trivial))
    |>.tail (lone_move hR rfl hs trivial hs (calm trivial))
    |>.tail (lone_move hR (congrArg some (if_pos hroom)) hs trivial hs (calm trivial))
    |>.tail (lone_move hR (congrArg some (if_pos rfl)) hs trivial hs (calm trivial))
    |>.tail (lone_move hR rfl hs trivial hs (calm trivial))
    |>.tail (lone_move hR hservice hs trivial hs' (calm trivial))
    |>.tail (lone_move hR rfl hs' trivial hs' (calm trivial))
    |>.tail (lone_move hR hnotify hs' trivial hs' (by simp))

/-- An undisturbed `chan.try_recv` of a value in the ring. -/
theorem lone_tryRecv {s : Shared V} {v : V} (hfree : s.locked = false) (hs : s.NoTasks)
    (hqueue : s.queue = []) (hfull : s.ring.seq (s.ring.head % ringCap) = s.ring.head + 1)
    (hval : s.ring.val (s.ring.head % ringCap) = some v) :
    Relation.ReflTransGen R ⟨s, 0⟩ ⟨s.receivedAlone v, 0⟩ := by
  have calm : ∀ {p : Pc V}, p.Calm → ∀ q ∈ some p, q.Calm := by
    rintro p hp q ⟨⟩
    exact hp
  have hlock : (Pc.tryRecv .thread).step .go s =
      some (s.lock, some (.deq (.tryRecv .thread) 4 .load)) := by
    simp [Pc.step, hfree, hqueue]
  have hcas : (Pc.deq (.tryRecv .thread) 4 (.cas s.ring.head)).step .go s.lock =
      some ({ s.lock with ring := s.ring.claimHead ringCap },
        some (.deq (.tryRecv .thread) 4 (.release s.ring.head (some v)))) := by
    simp [Pc.step, tryDequeue, Shared.lock, hval]
  have hgot : (Pc.got (.tryRecv .thread) (some v)).step .go
      { s.lock with ring := (s.ring.claimHead ringCap).release ringCap s.ring.head } =
        some (s.receivedAlone v, none) := rfl
  exact Relation.ReflTransGen.single (lone_start hR (a := .tryRecv) rfl hs hs (calm trivial))
    |>.tail (lone_move hR hlock hs trivial hs (calm trivial))
    |>.tail (lone_move hR rfl hs trivial hs (calm trivial))
    |>.tail (lone_move hR (congrArg some (if_pos hfull)) hs trivial hs (calm trivial))
    |>.tail (lone_move hR hcas hs trivial hs (calm trivial))
    |>.tail (lone_move hR rfl hs trivial hs (calm trivial))
    |>.tail (lone_move hR hgot hs trivial hs (by simp))

end Lone

/-! ### Two runs -/

theorem not_leavesWaiter_of_calm (hp : p.Calm) : ¬p.LeavesWaiter s next := by
  rcases p with _ | _ | _ | _ | _ | _ | _ | _ | _ | _ | ⟨_ | _ | _ | _ | _, _, _ | _ | _ | _⟩ | _
  all_goals first | exact id | exact hp.elim

theorem carefulStep_of_calm {P P' : System V} (h : System.Step P P') (hcalm : Calm P) :
    CarefulStep P P' := by
  rcases h with @⟨p, s, s', next, rest, h⟩ | h
  · obtain ⟨next', hthreads, hp⟩ := hcalm.threads
    refine .move h fun hleaves => ?_
    have hmem : p ∈ with? next' (0 : Multiset (Pc V)) := hthreads ▸ Multiset.mem_cons_self p rest
    rcases mem_with?.mp hmem with hmem | hmem
    · exact absurd hleaves (not_leavesWaiter_of_calm (hp p hmem))
    · cases Multiset.notMem_zero p hmem
  · exact .outside h

/-- A value that was sent while nobody waited. -/
theorem value_at_rest :
    ∃ P : System ℕ, P.CarefullyReachable ∧ Quiescent P ∧ 7 ∈ contents ringCap P.shared.ring ∧
      P.shared.greenWaiters = [] := by
  have hreach : System.CarefullyReachable (V := ℕ) ⟨Shared.new.sentAlone 7, 0⟩ :=
    lone_send (fun _ _ h hcalm _ => carefulStep_of_calm h hcalm) 7 rfl ⟨rfl, rfl⟩
      (by simp [Shared.new, Buffer.new])
  have hquiet : Quiescent (V := ℕ) ⟨Shared.new.sentAlone 7, 0⟩ := by simp [Quiescent]
  have hvalue : 7 ∈ contents ringCap (Shared.new.sentAlone 7).ring := by
    refine mem_contents (i := 0) (by have := two_le_ringCap; omega) ?_
    simp [Shared.sentAlone, Shared.new, Buffer.new, Buffer.claimTail, Buffer.publish]
  refine ⟨_, hreach, hquiet, hvalue, ?_⟩
  refine (no_stranded_waiter _).2 hreach hquiet (.inl fun hzero => ?_)
  rw [hzero] at hvalue
  exact Multiset.notMem_zero 7 hvalue

/-- The first task waits. A sender publishes and takes the list; another thread steals the value;
a second sender publishes and finds the list empty; then the first sender puts the task back. -/
def strand : List (Event ℕ) :=
  parkFirst ++ [Event.start (.send 1)] ++ moves 5 0 ++ [Event.start .tryRecv] ++ moves 6 1 ++
    moves 5 0 ++ [Event.start (.send 2)] ++ moves 7 1 ++ moves 3 0

/-- A task is registered, the channel holds a value, and nothing is going on. -/
theorem waiter_left_with_value :
    ∃ P : System ℕ, P.Reachable ∧ P.threads = 0 ∧ P.shared.ready = 0 ∧
      2 ∈ contents ringCap P.shared.ring ∧ P.shared.greenWaiters = [1] := by
  obtain ⟨s, threads, hreach, htest⟩ := exists_reachable strand
    (fun s threads => threads.isEmpty && decide (s.ready = 0 ∧ s.ring.val 1 = some 2 ∧
      s.greenWaiters = [1])) (by decide +kernel)
  simp only [Bool.and_eq_true, decide_eq_true_eq, List.isEmpty_iff] at htest
  obtain ⟨hthreads, hready, hval, hwaiters⟩ := htest
  refine ⟨_, hreach, ?_, hready, ?_, hwaiters⟩
  · simp [hthreads]
  · exact mem_contents (by have := two_le_ringCap; omega) hval

end ZzLang.Conc
