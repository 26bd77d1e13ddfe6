import ZzLang.Library.MpmcRing
import ZzLang.Library.ThreadPool

/-!
# Threads on a ring

The two operations on the ring of `MpmcRing`, access by access: an attempt reads the counter, reads
the number of the cell, exchanges the counter, and then publishes or releases the cell. Attempts
are bounded, and the exchange may fail for no reason.

A program whose threads use the ring says which part of an operation a thread is in
(`RingView`), and that each of its steps is a step of an operation or leaves the ring alone
(`ViewStep`). Then the ring is in order in all its states (`RingOk.move`), so that a producer
always publishes into an empty cell and a consumer always takes a value.
-/

namespace MpmcRing

open Buffer ThreadPool

variable {V : Type*} {cap : ℕ}

/-! ### The operations -/

/-- Where an attempt to enqueue stands. -/
inductive EnqPhase
  | load
  | seq (pos : ℕ)
  | cas (pos : ℕ)
  | publish (pos : ℕ)
deriving DecidableEq

/-- Where an attempt to dequeue stands. -/
inductive DeqPhase (V : Type*)
  | load
  | seq (pos : ℕ)
  | cas (pos : ℕ)
  | release (pos : ℕ) (value : Option V)

/-- What follows a step of an enqueue. -/
inductive EnqNext
  | go (tries : ℕ) (phase : EnqPhase)
  | full
  | done

/-- What follows a step of a dequeue. -/
inductive DeqNext (V : Type*)
  | go (tries : ℕ) (phase : DeqPhase V)
  | miss
  | got (value : Option V)

/-- The next attempt to enqueue, if there is one. -/
def enqRetry : ℕ → EnqNext
  | 0 | 1 => .full
  | n + 2 => .go (n + 1) .load

/-- The next attempt to dequeue, if there is one. -/
def deqRetry : ℕ → DeqNext V
  | 0 | 1 => .miss
  | n + 2 => .go (n + 1) .load

/-- A step of an enqueue with so many attempts left. `ok` says whether the exchange may succeed. -/
def enqStep (cap : ℕ) (ok : Bool) (v : V) (tries : ℕ) (r : Buffer V) :
    EnqPhase → Buffer V × EnqNext
  | .load => (r, .go tries (.seq r.tail))
  | .seq pos =>
    if r.seq (pos % cap) = pos then (r, .go tries (.cas pos))
    else if r.seq (pos % cap) < pos then (r, .full)
    else (r, enqRetry tries)
  | .cas pos =>
    if ok ∧ r.tail = pos then (r.claimTail, .go tries (.publish pos)) else (r, enqRetry tries)
  | .publish pos => (r.publish cap pos v, .done)

/-- A step of a dequeue. -/
def deqStep (cap : ℕ) (ok : Bool) (tries : ℕ) (r : Buffer V) :
    DeqPhase V → Buffer V × DeqNext V
  | .load => (r, .go tries (.seq r.head))
  | .seq pos =>
    if r.seq (pos % cap) = pos + 1 then (r, .go tries (.cas pos))
    else if r.seq (pos % cap) < pos + 1 then (r, .miss)
    else (r, deqRetry tries)
  | .cas pos =>
    if ok ∧ r.head = pos then
      (r.claimHead cap, .go tries (.release pos (r.val (pos % cap))))
    else (r, deqRetry tries)
  | .release pos value => (r.release cap pos, .got value)

/-! ### What a thread is doing with the ring -/

/-- The part of an operation that a thread is in. -/
inductive RingView (V : Type*)
  | away
  | enq (phase : EnqPhase)
  | deq (phase : DeqPhase V)

/-- The view after a step of an enqueue. -/
def EnqNext.view : EnqNext → RingView V
  | go _ phase => .enq phase
  | full | done => .away

/-- The view after a step of a dequeue. -/
def DeqNext.view : DeqNext V → RingView V
  | go _ phase => .deq phase
  | miss | got _ => .away

namespace RingView

/-- The position about to be published. -/
def writing : RingView V → Multiset ℕ
  | enq (.publish pos) => {pos}
  | _ => 0

/-- The position about to be released. -/
def releasing : RingView V → Multiset ℕ
  | deq (.release pos _) => {pos}
  | _ => 0

/-- What has been seen of the counter and of the cell about to be claimed: both have only grown
since. What has been claimed is a value. -/
def Seen (cap : ℕ) (r : Buffer V) : RingView V → Prop
  | enq (.cas pos) => pos ≤ r.seq (pos % cap)
  | deq (.seq pos) => pos ≤ r.head
  | deq (.cas pos) => pos + 1 ≤ r.seq (pos % cap)
  | deq (.release _ value) => value.isSome
  | _ => True

/-- Nothing is claimed, and what has been seen is so. -/
structure Clear (cap : ℕ) (r : Buffer V) (w : RingView V) : Prop where
  writing : w.writing = 0
  releasing : w.releasing = 0
  seen : w.Seen cap r

@[simp] theorem clear_away (r : Buffer V) : Clear cap r away := ⟨rfl, rfl, trivial⟩

theorem Seen.mono {r r' : Buffer V} {w : RingView V} (h : w.Seen cap r)
    (hle : ∀ i, r.seq i ≤ r'.seq i) (hhead : r.head ≤ r'.head) : w.Seen cap r' := by
  rcases w with _ | (_ | _ | _ | _) | (_ | _ | _ | _)
  case enq.cas => exact le_trans h (hle _)
  case deq.seq => exact le_trans h hhead
  case deq.cas => exact le_trans h (hle _)
  case deq.release => exact h
  all_goals trivial

end RingView

/-- A step of a thread, as far as the ring is concerned. -/
inductive ViewStep (cap : ℕ) (r r' : Buffer V) : RingView V → RingView V → Prop
  | idle {w w' : RingView V} (hr : r' = r) (hw : w.Clear cap r) (hw' : w'.Clear cap r) :
      ViewStep cap r r' w w'
  | claimTail (hr : r' = r.claimTail) (hseen : r.tail ≤ r.seq (r.tail % cap)) :
      ViewStep cap r r' (.enq (.cas r.tail)) (.enq (.publish r.tail))
  | publish {pos : ℕ} {v : V} (hr : r' = r.publish cap pos v) :
      ViewStep cap r r' (.enq (.publish pos)) .away
  | claimHead (hr : r' = r.claimHead cap) (hseen : r.head + 1 ≤ r.seq (r.head % cap)) :
      ViewStep cap r r' (.deq (.cas r.head))
        (.deq (.release r.head (r.val (r.head % cap))))
  | release {pos : ℕ} {value : Option V} (hr : r' = r.release cap pos) :
      ViewStep cap r r' (.deq (.release pos value)) .away

/-- A step of a thread that is away from the ring. -/
theorem ViewStep.still {r r' : Buffer V} {w w' : RingView V} (hr : r' = r) (hw : w = .away)
    (hw' : w'.Clear cap r) : ViewStep cap r r' w w' :=
  .idle hr (hw ▸ RingView.clear_away r) hw'

theorem enqStep_view {ok : Bool} {v : V} {tries : ℕ} {r : Buffer V} {phase : EnqPhase}
    (hseen : (RingView.enq phase : RingView V).Seen cap r) :
    ViewStep cap r (enqStep cap ok v tries r phase).1 (.enq phase)
      (enqStep cap ok v tries r phase).2.view := by
  have hretry : ∀ n, ((enqRetry n).view : RingView V).Clear cap r := by
    rintro (_ | _ | n) <;> exact ⟨rfl, rfl, trivial⟩
  rcases phase with _ | pos | pos | pos
  · exact .idle rfl ⟨rfl, rfl, trivial⟩ ⟨rfl, rfl, trivial⟩
  · simp only [enqStep]
    split_ifs with heq hlt
    · exact .idle rfl ⟨rfl, rfl, trivial⟩ ⟨rfl, rfl, heq.ge⟩
    · exact .idle rfl ⟨rfl, rfl, trivial⟩ ⟨rfl, rfl, trivial⟩
    · exact .idle rfl ⟨rfl, rfl, trivial⟩ (hretry tries)
  · simp only [enqStep]
    split_ifs with hok
    · obtain ⟨-, rfl⟩ := hok
      exact .claimTail rfl hseen
    · exact .idle rfl ⟨rfl, rfl, hseen⟩ (hretry tries)
  · exact .publish rfl

theorem deqStep_view {ok : Bool} {tries : ℕ} {r : Buffer V} {phase : DeqPhase V}
    (hseen : (RingView.deq phase).Seen cap r) :
    ViewStep cap r (deqStep cap ok tries r phase).1 (.deq phase)
      (deqStep cap ok tries r phase).2.view := by
  have hretry : ∀ n, ((deqRetry n).view : RingView V).Clear cap r := by
    rintro (_ | _ | n) <;> exact ⟨rfl, rfl, trivial⟩
  rcases phase with _ | pos | pos | ⟨pos, value⟩
  · exact .idle rfl ⟨rfl, rfl, trivial⟩ ⟨rfl, rfl, le_rfl⟩
  · simp only [deqStep]
    split_ifs with heq hlt
    · exact .idle rfl ⟨rfl, rfl, hseen⟩ ⟨rfl, rfl, heq.ge⟩
    · exact .idle rfl ⟨rfl, rfl, hseen⟩ ⟨rfl, rfl, trivial⟩
    · exact .idle rfl ⟨rfl, rfl, hseen⟩ (hretry tries)
  · simp only [deqStep]
    split_ifs with hok
    · obtain ⟨-, rfl⟩ := hok
      exact .claimHead rfl hseen
    · exact .idle rfl ⟨rfl, rfl, hseen⟩ (hretry tries)
  · exact .release rfl

/-! ### What a step of an operation does -/

/-- The steps of an enqueue: it goes on without a claim, gives up, claims the tail or publishes. -/
inductive EnqCase (cap : ℕ) (v : V) (r : Buffer V) : EnqPhase → Buffer V × EnqNext → Prop
  | again {phase phase' : EnqPhase} (tries : ℕ) (h : ∀ pos, phase ≠ .publish pos)
      (h' : ∀ pos, phase' ≠ .publish pos) : EnqCase cap v r phase (r, .go tries phase')
  | full {phase : EnqPhase} (h : ∀ pos, phase ≠ .publish pos) : EnqCase cap v r phase (r, .full)
  | claim (tries : ℕ) : EnqCase cap v r (.cas r.tail) (r.claimTail, .go tries (.publish r.tail))
  | publish (pos : ℕ) : EnqCase cap v r (.publish pos) (r.publish cap pos v, .done)

theorem enqStep_case (cap : ℕ) (ok : Bool) (v : V) (tries : ℕ) (r : Buffer V) (phase : EnqPhase) :
    EnqCase cap v r phase (enqStep cap ok v tries r phase) := by
  have hretry : ∀ {phase : EnqPhase}, (∀ pos, phase ≠ .publish pos) →
      EnqCase cap v r phase (r, enqRetry tries) := by
    intro phase h
    rcases tries with _ | _ | n
    · exact .full h
    · exact .full h
    · exact .again _ h (by simp)
  rcases phase with _ | pos | pos | pos
  · exact .again _ (by simp) (by simp)
  · simp only [enqStep]
    split_ifs
    · exact .again _ (by simp) (by simp)
    · exact .full (by simp)
    · exact hretry (by simp)
  · simp only [enqStep]
    split_ifs with hok
    · obtain ⟨-, rfl⟩ := hok
      exact .claim tries
    · exact hretry (by simp)
  · exact .publish pos

/-- An attempt to dequeue comes to nothing though there may be a value: the cell is past the
position already, or the exchange fails. -/
def DeqPhase.Overtaken (cap : ℕ) (r : Buffer V) : DeqPhase V → Prop
  | .seq pos => pos + 1 < r.seq (pos % cap)
  | .cas _ => True
  | _ => False

theorem DeqPhase.Overtaken.ne_release {r : Buffer V} {phase : DeqPhase V}
    (h : phase.Overtaken cap r) (pos : ℕ) (value : Option V) : phase ≠ .release pos value := by
  rintro rfl
  exact h

/-- The steps of a dequeue: it goes on without a claim, gives up because the cell is not filled or
because its attempts are used up, claims the head or releases the cell. -/
inductive DeqCase (cap : ℕ) (r : Buffer V) : DeqPhase V → Buffer V × DeqNext V → Prop
  | again {phase phase' : DeqPhase V} (tries : ℕ) (h : ∀ pos value, phase ≠ .release pos value)
      (h' : ∀ pos value, phase' ≠ .release pos value) :
      DeqCase cap r phase (r, .go tries phase')
  | unfilled {pos : ℕ} (hseq : r.seq (pos % cap) < pos + 1) :
      DeqCase cap r (.seq pos) (r, .miss)
  | outraced {phase : DeqPhase V} (h : phase.Overtaken cap r) : DeqCase cap r phase (r, .miss)
  | claim (tries : ℕ) : DeqCase cap r (.cas r.head)
      (r.claimHead cap, .go tries (.release r.head (r.val (r.head % cap))))
  | release (pos : ℕ) (value : Option V) :
      DeqCase cap r (.release pos value) (r.release cap pos, .got value)

theorem deqStep_case (cap : ℕ) (ok : Bool) (tries : ℕ) (r : Buffer V) (phase : DeqPhase V) :
    DeqCase cap r phase (deqStep cap ok tries r phase) := by
  have hretry : ∀ {phase : DeqPhase V}, phase.Overtaken cap r →
      DeqCase cap r phase (r, deqRetry tries) := by
    intro phase h
    rcases tries with _ | _ | n
    · exact .outraced h
    · exact .outraced h
    · exact .again _ h.ne_release (by simp)
  rcases phase with _ | pos | pos | ⟨pos, value⟩
  · exact .again _ (by simp) (by simp)
  · simp only [deqStep]
    split_ifs with heq hlt
    · exact .again _ (by simp) (by simp)
    · exact .unfilled hlt
    · exact hretry (show pos + 1 < r.seq (pos % cap) by omega)
  · simp only [deqStep]
    split_ifs with hok
    · obtain ⟨-, rfl⟩ := hok
      exact .claim tries
    · exact hretry trivial
  · exact .release pos value

/-! ### The ring under all threads -/

section Pool

variable {σ π : Type*} {ring : σ → Buffer V} {view : π → RingView V} {s s' : σ} {p : π}
  {next : Option π} {rest threads : Multiset π}

/-- The ring is in order, and every thread that is about to claim a cell has seen it ready. -/
structure RingOk (cap : ℕ) (ring : σ → Buffer V) (view : π → RingView V) (P : Pool σ π) :
    Prop where
  ok : Ok cap (ring P.shared) (total (fun p => (view p).writing) P.threads)
    (total (fun p => (view p).releasing) P.threads)
  seen : ∀ p ∈ P.threads, (view p).Seen cap (ring P.shared)

/-- The view of what follows a step. -/
def viewNext (view : π → RingView V) (next : Option π) : RingView V := next.elim .away view

theorem elim_view {M : Type*} [AddCommMonoid M] (f : RingView V → M) (haway : f .away = 0)
    (next : Option π) : next.elim 0 (fun p => f (view p)) = f (viewNext view next) := by
  rcases next with _ | p
  · exact haway.symm
  · rfl

theorem seen_with? {r : Buffer V} (hnext : (viewNext view next).Seen cap r)
    (hrest : ∀ q ∈ rest, (view q).Seen cap r) : ∀ q ∈ with? next rest, (view q).Seen cap r := by
  intro q hq
  rcases mem_with?.mp hq with rfl | hq
  · exact hnext
  · exact hrest q hq

/-- **A step keeps the ring in order.** -/
theorem RingOk.move (hcap : 2 ≤ cap) (hinv : RingOk cap ring view ⟨s, p ::ₘ rest⟩)
    (hstep : ViewStep cap (ring s) (ring s') (view p) (viewNext view next)) :
    RingOk cap ring view ⟨s', with? next rest⟩ := by
  obtain ⟨hok, hseen⟩ := hinv
  have hrest : ∀ q ∈ rest, (view q).Seen cap (ring s) := fun q hq => hseen q (by simp [hq])
  simp only [total_cons] at hok
  have hgoal : ∀ {E D : Multiset ℕ}, (viewNext view next).writing + total
      (fun p => (view p).writing) rest = E → (viewNext view next).releasing + total
      (fun p => (view p).releasing) rest = D → Ok cap (ring s') E D →
      Ok cap (ring s') (total (fun p => (view p).writing) (with? next rest))
        (total (fun p => (view p).releasing) (with? next rest)) := by
    rintro E D rfl rfl h
    rwa [total_with?, total_with?, elim_view _ rfl, elim_view _ rfl]
  revert hgoal hok
  generalize hw : view p = w at hstep ⊢
  generalize hw' : viewNext view next = w' at hstep ⊢
  intro hok hgoal
  rcases hstep with ⟨hr, hclear, hclear'⟩ | ⟨hr, hsee⟩ | @⟨pos, v, hr⟩ | ⟨hr, hsee⟩ |
    @⟨pos, value, hr⟩
  · rw [hclear.writing, hclear.releasing, zero_add, zero_add] at hok
    refine ⟨hgoal (by rw [hclear'.writing, zero_add]) (by rw [hclear'.releasing, zero_add])
      (hr ▸ hok), ?_⟩
    refine seen_with? ?_ ?_
    · rw [hw', hr]
      exact hclear'.seen
    · rwa [hr]
  · have hclaimed := (show Ok cap (ring s) (total (fun p => (view p).writing) rest)
      (total (fun p => (view p).releasing) rest) by
        simpa [RingView.writing, RingView.releasing] using hok).claimTail hcap hsee
    refine ⟨hgoal rfl rfl ?_, seen_with? (by rw [hw']; trivial) fun q hq => ?_⟩
    · rw [hr]
      simpa [RingView.writing, RingView.releasing] using hclaimed
    · rw [hr]
      exact (hrest q hq).mono (fun _ => le_rfl) le_rfl
  · have hwriting : Ok cap (ring s) (pos ::ₘ total (fun p => (view p).writing) rest)
        (total (fun p => (view p).releasing) rest) := by
      simpa [RingView.writing, RingView.releasing] using hok
    refine ⟨hgoal rfl rfl ?_, seen_with? (by rw [hw']; trivial) fun q hq => ?_⟩
    · rw [hr]
      simpa [RingView.writing, RingView.releasing] using hwriting.publish hcap v
    · rw [hr]
      exact (hrest q hq).mono (hwriting.le_seq_publish v) le_rfl
  · have hclaimed := (show Ok cap (ring s) (total (fun p => (view p).writing) rest)
      (total (fun p => (view p).releasing) rest) by
        simpa [RingView.writing, RingView.releasing] using hok).claimHead hcap hsee
    have hvalue := (hok.full_of_seen hcap hsee).2.2
    refine ⟨hgoal rfl rfl ?_, seen_with? (by rw [hw']; exact hvalue) fun q hq => ?_⟩
    · rw [hr]
      simpa [RingView.writing, RingView.releasing] using hclaimed
    · rw [hr]
      exact (hrest q hq).mono (fun _ => le_rfl) (Nat.le_succ _)
  · have hreleasing : Ok cap (ring s) (total (fun p => (view p).writing) rest)
        (pos ::ₘ total (fun p => (view p).releasing) rest) := by
      simpa [RingView.writing, RingView.releasing] using hok
    refine ⟨hgoal rfl rfl ?_, seen_with? (by rw [hw']; trivial) fun q hq => ?_⟩
    · rw [hr]
      simpa [RingView.writing, RingView.releasing] using hreleasing.release hcap
    · rw [hr]
      exact (hrest q hq).mono (hreleasing.le_seq_release hcap) le_rfl

/-- Something from outside leaves the ring alone. -/
theorem RingOk.outside (hinv : RingOk cap ring view ⟨s, threads⟩) (hring : ring s' = ring s)
    (hnext : viewNext view next = .away) : RingOk cap ring view ⟨s', with? next threads⟩ := by
  obtain ⟨hok, hseen⟩ := hinv
  refine ⟨?_, ?_⟩
  · rw [hring, total_with?, total_with?, elim_view RingView.writing rfl,
      elim_view RingView.releasing rfl, hnext]
    simpa only [RingView.writing, RingView.releasing, zero_add] using hok
  · simp only [hring]
    exact seen_with? (by rw [hnext]; trivial) hseen

theorem ringOk_new (h : ring s = .new) : RingOk cap ring view ⟨s, 0⟩ where
  ok := by simpa [h] using ok_new cap
  seen := by simp

/-- The cell about to be published is empty. -/
theorem RingOk.cell_eq_none (hcap : 2 ≤ cap) (hinv : RingOk cap ring view ⟨s, p ::ₘ rest⟩)
    {pos : ℕ} (hview : view p = .enq (.publish pos)) : (ring s).val (pos % cap) = none := by
  refine hinv.ok.val_eq_none_of_writing hcap ?_
  simp [hview, RingView.writing]

/-- A consumer that finds no value at the position it read, while nobody is about to publish, has
found the ring empty. -/
theorem RingOk.empty_of_miss {P : Pool σ π} (hcap : 2 ≤ cap) (hinv : RingOk cap ring view P)
    (hp : p ∈ P.threads) {pos : ℕ} (hview : view p = .deq (.seq pos))
    (hmiss : (ring P.shared).seq (pos % cap) < pos + 1)
    (hwriting : ∀ q ∈ P.threads, (view q).writing = 0) :
    (ring P.shared).head = (ring P.shared).tail := by
  have hseen := hinv.seen p hp
  rw [hview] at hseen
  rcases hinv.ok.empty_of_miss hcap hseen hmiss with hempty | ⟨q, hq⟩
  · exact hempty
  · obtain ⟨thread, hthread, hmem⟩ := mem_total.mp hq
    rw [hwriting thread hthread] at hmem
    exact absurd hmem (Multiset.notMem_zero q)

end Pool

end MpmcRing
