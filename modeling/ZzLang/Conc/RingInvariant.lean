import ZzLang.Conc.Channel

/-!
# The ring under all threads

The positions of the ring that some thread has claimed, and what a thread has seen of a cell
between its check and its claim. With these the ring is `MpmcRing.Ok` in every state, so that a
producer always publishes into an empty cell and a consumer always takes a value.

A step does one of five things to the ring (`ring_cases`), and the invariant follows from that.
-/

namespace ZzLang.Conc

open MpmcRing ThreadPool

variable {V : Type} {s s' : Shared V} {p : Pc V} {next : Option (Pc V)} {ch : Choice V}

namespace Pc

/-- The position this thread is about to publish. -/
def writing : Pc V → Multiset ℕ
  | .enq _ _ _ (.publish pos) => {pos}
  | _ => 0

/-- The position this thread is about to release. -/
def releasing : Pc V → Multiset ℕ
  | .deq _ _ (.release pos _) => {pos}
  | _ => 0

/-- What the thread has seen of the cell it is about to claim: the number of the cell has only
grown since. -/
def Seen (r : Buffer V) : Pc V → Prop
  | .enq _ _ _ (.cas pos) => pos ≤ r.seq (pos % ringCap)
  | .deq _ _ (.cas pos) => pos + 1 ≤ r.seq (pos % ringCap)
  | _ => True

/-- The thread is not between a check of the ring and the end of what follows from it. -/
def OffRing : Pc V → Prop
  | .enq _ _ _ .load | .enq _ _ _ (.seq _) => True
  | .deq _ _ .load | .deq _ _ (.seq _) => True
  | .enq .. | .deq .. => False
  | _ => True

/-- The thread has claimed nothing, and what it has seen is so. -/
structure Clear (r : Buffer V) (p : Pc V) : Prop where
  writing : p.writing = 0
  releasing : p.releasing = 0
  seen : p.Seen r

theorem OffRing.clear (h : p.OffRing) (r : Buffer V) : p.Clear r := by
  rcases p with ⟨c, v, tries, _ | _ | _ | _⟩ | _ | _ | _ | _ | _ | _ | _ | _ | _ |
    ⟨site, tries, _ | _ | _ | _⟩ | _
  all_goals first | exact h.elim | exact ⟨rfl, rfl, trivial⟩

end Pc

/-- What a step does to the ring. -/
inductive RingStep (s s' : Shared V) (p : Pc V) (next : Option (Pc V)) : Prop
  | idle (hring : s'.ring = s.ring) (hp : p.Clear s.ring) (hnext : ∀ q ∈ next, q.Clear s.ring)
  | claimTail (hring : s'.ring = s.ring.claimTail) (hp : p.Clear s.ring)
      (hseen : s.ring.tail ≤ s.ring.seq (s.ring.tail % ringCap))
      (hnext : ∃ c v tries, next = some (.enq c v tries (.publish s.ring.tail)))
  | publish (c : Caller) (v : V) (tries pos : ℕ) (hp : p = .enq c v tries (.publish pos))
      (hring : s'.ring = s.ring.publish ringCap pos v) (hnext : ∀ q ∈ next, q.OffRing)
  | claimHead (hring : s'.ring = s.ring.claimHead ringCap) (hp : p.Clear s.ring)
      (hseen : s.ring.head + 1 ≤ s.ring.seq (s.ring.head % ringCap))
      (hnext : ∃ site tries, next = some (.deq site tries (.release s.ring.head
        (s.ring.val (s.ring.head % ringCap)))))
  | release (site : Site) (tries pos : ℕ) (value : Option V)
      (hp : p = .deq site tries (.release pos value))
      (hring : s'.ring = s.ring.release ringCap pos) (hnext : ∀ q ∈ next, q.OffRing)

/-- A step away from the ring. -/
theorem RingStep.away (hring : s'.ring = s.ring) (hp : p.OffRing) (hnext : ∀ q ∈ next, q.OffRing) :
    RingStep s s' p next :=
  .idle hring (hp.clear _) fun q hq => (hnext q hq).clear _

theorem tryEnqueue_ring {c : Caller} {v : V} {tries : ℕ} {stage : EnqStage}
    (hseen : (Pc.enq c v tries stage).Seen s.ring) :
    RingStep s (tryEnqueue ch c v tries s stage).1 (.enq c v tries stage)
      (tryEnqueue ch c v tries s stage).2 := by
  have hretry : ∀ n, (tryEnqueue.retry c v n : Pc V).OffRing := by
    rintro (_ | _ | n) <;> trivial
  rcases stage with _ | pos | pos | pos
  · exact .away rfl trivial (by rintro q ⟨⟩; exact trivial)
  · simp only [tryEnqueue]
    split_ifs with heq hlt
    · refine .idle rfl ⟨rfl, rfl, trivial⟩ ?_
      rintro q ⟨⟩
      exact ⟨rfl, rfl, heq.ge⟩
    · exact .away rfl trivial (by rintro q ⟨⟩; exact trivial)
    · exact .away rfl trivial (by rintro q ⟨⟩; exact hretry _)
  · have hclear : (Pc.enq c v tries (.cas pos)).Clear s.ring := ⟨rfl, rfl, hseen⟩
    have hfailed : RingStep s s (.enq c v tries (.cas pos)) (some (tryEnqueue.retry c v tries)) :=
      .idle rfl hclear (by rintro q ⟨⟩; exact (hretry tries).clear s.ring)
    rcases ch with _ | _ | a <;> simp only [tryEnqueue]
    · split_ifs with htail
      · subst htail
        exact .claimTail rfl hclear hseen ⟨c, v, tries, rfl⟩
      · exact hfailed
    · exact hfailed
    · exact hfailed
  · exact .publish c v tries pos rfl rfl (by rintro q ⟨⟩; exact trivial)

theorem tryDequeue_ring {site : Site} {tries : ℕ} {stage : DeqStage V}
    (hseen : (Pc.deq site tries stage).Seen s.ring) :
    RingStep s (tryDequeue ch site tries s stage).1 (.deq site tries stage)
      (tryDequeue ch site tries s stage).2 := by
  have hretry : ∀ n, (tryDequeue.retry site n : Pc V).OffRing := by
    rintro (_ | _ | n) <;> trivial
  rcases stage with _ | pos | pos | ⟨pos, value⟩
  · exact .away rfl trivial (by rintro q ⟨⟩; exact trivial)
  · simp only [tryDequeue]
    split_ifs with heq hlt
    · refine .idle rfl ⟨rfl, rfl, trivial⟩ ?_
      rintro q ⟨⟩
      exact ⟨rfl, rfl, heq.ge⟩
    · exact .away rfl trivial (by rintro q ⟨⟩; exact trivial)
    · exact .away rfl trivial (by rintro q ⟨⟩; exact hretry _)
  · have hclear : (Pc.deq site tries (.cas pos)).Clear s.ring := ⟨rfl, rfl, hseen⟩
    have hfailed : RingStep s s (.deq site tries (.cas pos)) (some (tryDequeue.retry site tries)) :=
      .idle rfl hclear (by rintro q ⟨⟩; exact (hretry tries).clear s.ring)
    rcases ch with _ | _ | a <;> simp only [tryDequeue]
    · split_ifs with hhead
      · subst hhead
        exact .claimHead rfl hclear hseen ⟨site, tries, rfl⟩
      · exact hfailed
    · exact hfailed
    · exact hfailed
  · exact .release site tries pos value rfl rfl (by rintro q ⟨⟩; exact trivial)

theorem offRing_resume (c : Caller) : ∀ q ∈ (c.resume : Option (Pc V)), q.OffRing := by
  rcases c with _ | t <;> rintro q ⟨⟩
  exact trivial

theorem offRing_resume_receiver (r : Receiver) : ∀ q ∈ (r.resume : Option (Pc V)), q.OffRing := by
  rcases r with t | c
  · rintro q ⟨⟩
    exact trivial
  · exact offRing_resume c

theorem offRing_refused (g : Gate) : (g.refused : Pc V).OffRing := by
  rcases g with r | c | t <;> trivial

theorem offRing_checkGate (g : Gate) (s : Shared V) (flag : Flag) : (checkGate g s flag).OffRing := by
  rcases flag with _ | _ | _ <;> simp only [checkGate] <;> split_ifs <;>
    first | exact offRing_refused g | trivial

/-- What `try_dequeue` returns to is away from the ring. -/
theorem after_ring (site : Site) (value : Option V) (s : Shared V) :
    (site.after value s).1.ring = s.ring ∧ ∀ q ∈ (site.after value s).2, q.OffRing := by
  rcases site with (r | c | t) | (t | c) | c | ⟨c, wid, ws⟩ | t <;> rcases value with _ | v <;>
    refine ⟨rfl, ?_⟩
  all_goals
    first
    | exact offRing_resume _
    | exact offRing_resume_receiver _
    | (rintro q ⟨⟩; exact trivial)

theorem start_ring {a : Act V} {c : Caller} (h : a.start c s = some (s', next)) :
    s'.ring = s.ring ∧ ∀ q ∈ next, q.OffRing := by
  rcases a with v | _ | _ | _ | _ | _ <;> rcases c with _ | t <;> cases h <;>
    exact ⟨rfl, by rintro q ⟨⟩; exact trivial⟩

/-- A step claims or publishes at the tail, claims or releases at the head, or leaves the ring
alone. -/
theorem ring_cases (hseen : p.Seen s.ring) (h : p.step ch s = some (s', next)) :
    RingStep s s' p next := by
  replace h := step_cases h
  cases h with
  | @enq ch c v tries stage s' next heq =>
    rw [show s' = (tryEnqueue ch c v tries s stage).1 by rw [heq],
      show next = (tryEnqueue ch c v tries s stage).2 by rw [heq]]
    exact tryEnqueue_ring hseen
  | @deq ch site tries stage s' next heq =>
    rw [show s' = (tryDequeue ch site tries s stage).1 by rw [heq],
      show next = (tryDequeue ch site tries s stage).2 by rw [heq]]
    exact tryDequeue_ring hseen
  | @got site value =>
    obtain ⟨hring, hnext⟩ := after_ring site value s
    exact .away hring trivial hnext
  | @gate g flag => exact .away rfl trivial (by rintro q ⟨⟩; exact offRing_checkGate g s flag)
  | slice h =>
    obtain ⟨hring, hnext⟩ := start_ring h
    exact .away hring trivial hnext
  | _ =>
    refine .away rfl trivial ?_
    first
    | exact offRing_resume _
    | exact offRing_resume_receiver _
    | (rintro q ⟨⟩ <;> exact trivial)

/-! ### The invariant -/

/-- The ring is in order, and every thread that is about to claim a cell has seen it ready. -/
structure RingInv (P : System V) : Prop where
  ok : Ok ringCap P.shared.ring (total Pc.writing P.threads) (total Pc.releasing P.threads)
  seen : ∀ p ∈ P.threads, p.Seen P.shared.ring

theorem Pc.Seen.mono {r r' : Buffer V} (h : p.Seen r) (hle : ∀ i, r.seq i ≤ r'.seq i) :
    p.Seen r' := by
  rcases p with ⟨c, v, tries, _ | _ | pos | _⟩ | _ | _ | _ | _ | _ | _ | _ | _ | _ |
    ⟨site, tries, _ | _ | pos | _⟩ | _
  case enq.cas => exact le_trans h (hle _)
  case deq.cas => exact le_trans h (hle _)
  all_goals trivial

theorem total_with?_clear {f : Pc V → Multiset ℕ} {rest : Multiset (Pc V)}
    (hnext : ∀ q ∈ next, f q = 0) : total f (with? next rest) = total f rest := by
  rw [total_with?]
  rcases next with _ | q
  · simp
  · simp [hnext q rfl]

theorem ringInv_move {rest : Multiset (Pc V)} (hinv : RingInv ⟨s, p ::ₘ rest⟩)
    (hmoves : Moves p s s' next) : RingInv ⟨s', with? next rest⟩ := by
  obtain ⟨ch, h⟩ := hmoves
  obtain ⟨hok, hseen⟩ := hinv
  have hrest : ∀ q ∈ rest, q.Seen s.ring := fun q hq => hseen q (by simp [hq])
  simp only [total_cons] at hok
  rcases ring_cases (hseen p (by simp)) h with ⟨hring, hp, hnext⟩ |
    ⟨hring, hp, hsee, c, v, tries, rfl⟩ | ⟨c, v, tries, pos, rfl, hring, hnext⟩ |
    ⟨hring, hp, hsee, site, tries, rfl⟩ | ⟨site, tries, pos, value, rfl, hring, hnext⟩
  · refine ⟨?_, ?_⟩
    · simp only [total_with?_clear fun q hq => (hnext q hq).writing,
        total_with?_clear fun q hq => (hnext q hq).releasing, hring]
      simpa [hp.writing, hp.releasing] using hok
    · intro q hq
      simp only [hring]
      rcases mem_with?.mp hq with hq | hq
      · exact (hnext q hq).seen
      · exact hrest q hq
  · have hclaimed := (show Ok ringCap s.ring (total Pc.writing rest) (total Pc.releasing rest) by
      simpa [hp.writing, hp.releasing] using hok).claimTail two_le_ringCap hsee
    refine ⟨?_, ?_⟩
    · simp only [with?_some, total_cons, hring]
      simpa [Pc.writing, Pc.releasing] using hclaimed
    · intro q hq
      simp only [hring]
      rcases Multiset.mem_cons.mp hq with rfl | hq
      · trivial
      · exact (hrest q hq).mono fun _ => le_rfl
  · have hwriting : Ok ringCap s.ring (pos ::ₘ total Pc.writing rest) (total Pc.releasing rest) := by
      simpa [Pc.writing, Pc.releasing] using hok
    refine ⟨?_, ?_⟩
    · simp only [total_with?_clear fun q hq => ((hnext q hq).clear s.ring).writing,
        total_with?_clear fun q hq => ((hnext q hq).clear s.ring).releasing, hring]
      exact hwriting.publish two_le_ringCap v
    · intro q hq
      simp only [hring]
      rcases mem_with?.mp hq with hq | hq
      · exact ((hnext q hq).clear _).seen
      · exact (hrest q hq).mono (hwriting.le_seq_publish v)
  · have hclaimed := (show Ok ringCap s.ring (total Pc.writing rest) (total Pc.releasing rest) by
      simpa [hp.writing, hp.releasing] using hok).claimHead two_le_ringCap hsee
    refine ⟨?_, ?_⟩
    · simp only [with?_some, total_cons, hring]
      simpa [Pc.writing, Pc.releasing] using hclaimed
    · intro q hq
      simp only [hring]
      rcases Multiset.mem_cons.mp hq with rfl | hq
      · trivial
      · exact (hrest q hq).mono fun _ => le_rfl
  · have hreleasing : Ok ringCap s.ring (total Pc.writing rest)
        (pos ::ₘ total Pc.releasing rest) := by
      simpa [Pc.writing, Pc.releasing] using hok
    refine ⟨?_, ?_⟩
    · simp only [total_with?_clear fun q hq => ((hnext q hq).clear s.ring).writing,
        total_with?_clear fun q hq => ((hnext q hq).clear s.ring).releasing, hring]
      exact hreleasing.release two_le_ringCap
    · intro q hq
      simp only [hring]
      rcases mem_with?.mp hq with hq | hq
      · exact ((hnext q hq).clear _).seen
      · exact (hrest q hq).mono (hreleasing.le_seq_release two_le_ringCap)

/-- Nothing from outside touches the ring. -/
theorem outside_ring (h : Outside s s' next) : s'.ring = s.ring ∧ ∀ q ∈ next, q.OffRing := by
  rcases h with ⟨a, h⟩ | _ | h
  · exact start_ring h
  · exact ⟨rfl, nofun⟩
  · exact ⟨rfl, by rintro q ⟨⟩; exact trivial⟩

theorem ringInv_step {P P' : System V} (hinv : RingInv P) (hstep : System.Step P P') :
    RingInv P' := by
  rcases hstep with hmoves | @⟨s, s', next, threads, houtside⟩
  · exact ringInv_move hinv hmoves
  · obtain ⟨hring, hnext⟩ := outside_ring houtside
    obtain ⟨hok, hseen⟩ := hinv
    have hclear : ∀ q ∈ next, q.Clear s.ring := fun q hq => (hnext q hq).clear s.ring
    refine ⟨?_, ?_⟩
    · simp only [total_with?_clear fun q hq => (hclear q hq).writing,
        total_with?_clear fun q hq => (hclear q hq).releasing, hring]
      exact hok
    · intro q hq
      simp only [hring]
      rcases mem_with?.mp hq with hq | hq
      · exact (hclear q hq).seen
      · exact hseen q hq

theorem ringInv_new : RingInv (System.new : System V) :=
  ⟨ok_new ringCap, by simp [System.new]⟩

end ZzLang.Conc
