import ZzLang.Conc.Channel
import ZzLang.Library.RingThreads

/-!
# The lock-free ring

The ring under the channels by itself, used by any number of threads at once. An operation is a call
of `try_enqueue` or `try_dequeue`, given by where it stands in its code, and a step of an operation
is one access to an atomic, together with the access to the cell that the claim has made its own.
Positions are as large as they get; the code counts on it that they do not wrap around.

The state carries a record of what the operations have come to, position by position. A position
below the tail is being written or has been accepted once, one below the head is being released or
has been returned once, and the cells in between hold what has been accepted for them (`Inv`). That
the ring is in order itself is the library's invariant, as each step of an operation is one of its
steps (`effect_view`).
-/

namespace ZzLang.Conc.LfRing

open MpmcRing ThreadPool

variable {V : Type}

/-! ### Operations -/

/-- A call of `try_enqueue` or of `try_dequeue` with so many attempts left. -/
inductive Op (V : Type)
  | enqueue (v : V) (tries : ℕ) (phase : EnqPhase)
  | dequeue (tries : ℕ) (phase : DeqPhase V)

/-- The ring with the record of the operations: the values that `try_enqueue` was called with and
those that it handed back, and the accepted and the returned values with their positions. -/
structure Shared (V : Type) where
  ring : Buffer V
  started : Multiset V
  refused : Multiset V
  accepted : List (ℕ × V)
  returned : List (ℕ × Option V)

/-- `LfRing::new`. -/
def Shared.new : Shared V where
  ring := .new
  started := 0
  refused := 0
  accepted := []
  returned := []

/-- After a step of `try_enqueue`: `Ok` once the value is published, `Err` with the value when the
ring is full or the attempts are used up. -/
def Shared.enqueued (s : Shared V) (v : V) (phase : EnqPhase) :
    Buffer V × EnqNext → Shared V × Option (Op V)
  | (ring, .go tries phase') => ({ s with ring }, some (.enqueue v tries phase'))
  | (ring, .full) => ({ s with ring, refused := v ::ₘ s.refused }, none)
  | (ring, .done) =>
    match phase with
    | .publish pos => ({ s with ring, accepted := (pos, v) :: s.accepted }, none)
    | _ => ({ s with ring }, none)

/-- After a step of `try_dequeue`. -/
def Shared.dequeued (s : Shared V) (phase : DeqPhase V) :
    Buffer V × DeqNext V → Shared V × Option (Op V)
  | (ring, .go tries phase') => ({ s with ring }, some (.dequeue tries phase'))
  | (ring, .miss) => ({ s with ring }, none)
  | (ring, .got value) =>
    match phase with
    | .release pos _ => ({ s with ring, returned := (pos, value) :: s.returned }, none)
    | _ => ({ s with ring }, none)

/-- One step of an operation. `ok` says whether a weak exchange may succeed. -/
def Op.step (ok : Bool) (s : Shared V) : Op V → Shared V × Option (Op V)
  | .enqueue v tries phase => s.enqueued v phase (enqStep ringCap ok v tries s.ring phase)
  | .dequeue tries phase => s.dequeued phase (deqStep ringCap ok tries s.ring phase)

/-- An operation is called. -/
inductive Call (s : Shared V) : Shared V → Option (Op V) → Prop
  | tryEnqueue (v : V) :
      Call s { s with started := v ::ₘ s.started } (some (.enqueue v 4 .load))
  | tryDequeue : Call s s (some (.dequeue 4 .load))

/-- A step of an operation, or a call. -/
def Step : Pool (Shared V) (Op V) → Pool (Shared V) (Op V) → Prop :=
  ThreadPool.Step (fun op s s' next => ∃ ok, op.step ok s = (s', next)) Call

/-- What can come about, beginning with an empty ring. -/
def Reachable (P : Pool (Shared V) (Op V)) : Prop :=
  Relation.ReflTransGen Step ⟨Shared.new, 0⟩ P

namespace Op

/-- The part of the operation on the ring. -/
def view : Op V → RingView V
  | enqueue _ _ phase => .enq phase
  | dequeue _ phase => .deq phase

/-- The value of an enqueue under way. -/
def pending : Op V → Multiset V
  | enqueue v _ _ => {v}
  | dequeue _ _ => 0

end Op

/-- The positions that operations are writing to. -/
def writing (P : Pool (Shared V) (Op V)) : Multiset ℕ :=
  total (fun op => op.view.writing) P.threads

/-- The positions that operations are releasing. -/
def releasing (P : Pool (Shared V) (Op V)) : Multiset ℕ :=
  total (fun op => op.view.releasing) P.threads

/-! ### What is said of the ring -/

namespace Shared

variable (s : Shared V)

/-- The positions from the head to the tail. -/
def positions : List ℕ :=
  List.range' s.ring.head (s.ring.tail - s.ring.head)

/-- The published values in the cells. -/
def published : List V :=
  s.positions.filterMap fun q =>
    if s.ring.seq (q % ringCap) = q + 1 then s.ring.val (q % ringCap) else none

/-- The values that have been accepted and not dequeued, in the order in which the positions were
claimed for them. -/
def queue : List V :=
  s.positions.filterMap fun q => s.accepted.lookup q

end Shared

/-- The ring is a bounded queue that returns what it has accepted, and each of it once. -/
structure ExactlyOnce (P : Pool (Shared V) (Op V)) : Prop where
  published : P.shared.published = P.shared.queue
  bounded : P.shared.published.length ≤ ringCap ∧
    P.shared.ring.tail ≤ P.shared.ring.head + ringCap
  /-- A value that `try_enqueue` was called with is handed back, accepted, or still in its hands. -/
  conserved : P.shared.started = P.shared.refused + (P.shared.accepted.map Prod.snd : List V) +
    total Op.pending P.threads
  /-- Each position below the tail is accepted once, unless it is being written. -/
  accepted : (P.shared.accepted.map Prod.fst : Multiset ℕ) + writing P =
    Multiset.range P.shared.ring.tail
  /-- Each position below the head is returned once, unless it is being released. -/
  returned : (P.shared.returned.map Prod.fst : Multiset ℕ) + releasing P =
    Multiset.range P.shared.ring.head
  /-- A dequeue returns the value that was accepted for its position, never nothing. -/
  value : ∀ p ∈ P.shared.returned, ∃ v, p.2 = some v ∧ (p.1, v) ∈ P.shared.accepted
  /-- Nor has one that is about to release its cell got nothing. -/
  taken : ∀ tries pos value, Op.dequeue tries (.release pos value) ∈ P.threads → value.isSome
  /-- What is handed back is never returned, if values can be told apart. -/
  refused : P.shared.started.Nodup → ∀ v ∈ P.shared.refused, ∀ p ∈ P.shared.returned, p.2 ≠ some v
  /-- No two operations own the same cell. -/
  exclusive : ((writing P + releasing P).map (· % ringCap)).Nodup

/-! ### What a step does -/

/-- The steps of an operation: it goes on without a claim, hands its value back, finds nothing,
claims a cell, publishes or releases it. -/
inductive Effect (s : Shared V) : Op V → Shared V → Option (Op V) → Prop
  | still {op op' : Op V} (hwriting : op.view.writing = 0) (hreleasing : op.view.releasing = 0)
      (hwriting' : op'.view.writing = 0) (hreleasing' : op'.view.releasing = 0)
      (hpending : op'.pending = op.pending) : Effect s op s (some op')
  | refuse {v : V} {tries : ℕ} {phase : EnqPhase} (h : ∀ pos, phase ≠ .publish pos) :
      Effect s (.enqueue v tries phase) { s with refused := v ::ₘ s.refused } none
  | miss {tries : ℕ} {phase : DeqPhase V} (h : ∀ pos value, phase ≠ .release pos value) :
      Effect s (.dequeue tries phase) s none
  | claimTail {v : V} {tries tries' : ℕ} :
      Effect s (.enqueue v tries (.cas s.ring.tail)) { s with ring := s.ring.claimTail }
        (some (.enqueue v tries' (.publish s.ring.tail)))
  | publish {v : V} {tries pos : ℕ} :
      Effect s (.enqueue v tries (.publish pos))
        { s with ring := s.ring.publish ringCap pos v, accepted := (pos, v) :: s.accepted } none
  | claimHead {tries tries' : ℕ} :
      Effect s (.dequeue tries (.cas s.ring.head)) { s with ring := s.ring.claimHead ringCap }
        (some (.dequeue tries' (.release s.ring.head (s.ring.val (s.ring.head % ringCap)))))
  | release {tries pos : ℕ} {value : Option V} :
      Effect s (.dequeue tries (.release pos value))
        { s with ring := s.ring.release ringCap pos, returned := (pos, value) :: s.returned } none

theorem writing_eq_zero {phase : EnqPhase} (h : ∀ pos, phase ≠ .publish pos) :
    (RingView.enq phase : RingView V).writing = 0 := by
  rcases phase with _ | _ | _ | pos
  · rfl
  · rfl
  · rfl
  · exact absurd rfl (h pos)

theorem releasing_eq_zero {phase : DeqPhase V} (h : ∀ pos value, phase ≠ .release pos value) :
    (RingView.deq phase).releasing = 0 := by
  rcases phase with _ | _ | _ | ⟨pos, value⟩
  · rfl
  · rfl
  · rfl
  · exact absurd rfl (h pos value)

variable {s s' : Shared V} {op : Op V} {next : Option (Op V)} {rest : Multiset (Op V)}

theorem effect_step (ok : Bool) (s : Shared V) (op : Op V) :
    Effect s op (op.step ok s).1 (op.step ok s).2 := by
  rcases op with ⟨v, tries, phase⟩ | ⟨tries, phase⟩
  · have hcase := enqStep_case ringCap ok v tries s.ring phase
    rw [Op.step]
    generalize enqStep ringCap ok v tries s.ring phase = out at hcase ⊢
    rcases hcase with ⟨tries', h, h'⟩ | h | tries' | pos
    · exact .still (writing_eq_zero h) rfl (writing_eq_zero h') rfl rfl
    · exact .refuse h
    · exact .claimTail
    · exact .publish
  · have hcase := deqStep_case ringCap ok tries s.ring phase
    rw [Op.step]
    generalize deqStep ringCap ok tries s.ring phase = out at hcase ⊢
    rcases hcase with ⟨tries', h, h'⟩ | hseq | h | tries' | ⟨pos, value⟩
    · exact .still rfl (releasing_eq_zero h) rfl (releasing_eq_zero h') rfl
    · exact .miss (by simp)
    · exact .miss h.ne_release
    · exact .claimHead
    · exact .release

theorem enqueued_view (s : Shared V) (v : V) (phase : EnqPhase) (out : Buffer V × EnqNext) :
    (s.enqueued v phase out).1.ring = out.1 ∧
      viewNext Op.view (s.enqueued v phase out).2 = out.2.view := by
  rcases out with ⟨ring, ⟨tries, phase'⟩ | _ | _⟩
  · exact ⟨rfl, rfl⟩
  · exact ⟨rfl, rfl⟩
  · rcases phase with _ | _ | _ | _ <;> exact ⟨rfl, rfl⟩

theorem dequeued_view (s : Shared V) (phase : DeqPhase V) (out : Buffer V × DeqNext V) :
    (s.dequeued phase out).1.ring = out.1 ∧
      viewNext Op.view (s.dequeued phase out).2 = out.2.view := by
  rcases out with ⟨ring, ⟨tries, phase'⟩ | _ | value⟩
  · exact ⟨rfl, rfl⟩
  · exact ⟨rfl, rfl⟩
  · rcases phase with _ | _ | _ | _ <;> exact ⟨rfl, rfl⟩

/-- Each step is a step of the library's on the ring. -/
theorem step_view (ok : Bool) (hseen : op.view.Seen ringCap s.ring) :
    ViewStep ringCap s.ring (op.step ok s).1.ring op.view (viewNext Op.view (op.step ok s).2) := by
  rcases op with ⟨v, tries, phase⟩ | ⟨tries, phase⟩
  · obtain ⟨hring, hview⟩ := enqueued_view s v phase (enqStep ringCap ok v tries s.ring phase)
    rw [Op.step, hring, hview]
    exact enqStep_view hseen
  · obtain ⟨hring, hview⟩ := dequeued_view s phase (deqStep ringCap ok tries s.ring phase)
    rw [Op.step, hring, hview]
    exact deqStep_view hseen

/-! ### The record -/

/-- The cell of a position holds what has been accepted for it. -/
def Holds (s : Shared V) (q : ℕ) : Prop :=
  s.ring.seq (q % ringCap) = q + 1 ∧
    ∃ v, (q, v) ∈ s.accepted ∧ s.ring.val (q % ringCap) = some v

/-- What the record says while the positions in `E` are being written, those in `D` released, and
the values in `pending` are in the hands of their enqueues. -/
structure Records (s : Shared V) (E D : Multiset ℕ) (pending : Multiset V) : Prop where
  conserved : s.started = s.refused + (s.accepted.map Prod.snd : List V) + pending
  accepted : (s.accepted.map Prod.fst : Multiset ℕ) + E = Multiset.range s.ring.tail
  returned : (s.returned.map Prod.fst : Multiset ℕ) + D = Multiset.range s.ring.head
  cells : ∀ q, s.ring.head ≤ q → q < s.ring.tail → q ∈ E ∨ Holds s q
  value : ∀ p ∈ s.returned, ∃ v, p.2 = some v ∧ (p.1, v) ∈ s.accepted

variable {E D : Multiset ℕ} {pending : Multiset V} {v : V} {pos : ℕ}

theorem records_new : Records (Shared.new : Shared V) 0 0 0 where
  conserved := rfl
  accepted := rfl
  returned := rfl
  cells q _ hlt := absurd hlt (Nat.not_lt_zero q)
  value _ hp := absurd hp List.not_mem_nil

theorem Records.refuse (h : Records s E D (v ::ₘ pending)) :
    Records { s with refused := v ::ₘ s.refused } E D pending where
  conserved := by
    rw [h.conserved, Multiset.add_cons, Multiset.cons_add, Multiset.cons_add]
  accepted := h.accepted
  returned := h.returned
  cells := h.cells
  value := h.value

theorem Records.claimTail (h : Records s E D pending) :
    Records { s with ring := s.ring.claimTail } (s.ring.tail ::ₘ E) D pending where
  conserved := h.conserved
  accepted := by
    rw [Multiset.add_cons, h.accepted]
    exact (Multiset.range_succ _).symm
  returned := h.returned
  cells q hhead htail := by
    rcases Nat.lt_succ_iff_lt_or_eq.mp htail with hlt | rfl
    · exact (h.cells q hhead hlt).imp_left Multiset.mem_cons_of_mem
    · exact .inl (Multiset.mem_cons_self _ _)
  value := h.value

theorem Records.publish (hok : Ok ringCap s.ring (pos ::ₘ E) D)
    (h : Records s (pos ::ₘ E) D (v ::ₘ pending)) :
    Records { s with ring := s.ring.publish ringCap pos v, accepted := (pos, v) :: s.accepted }
      E D pending where
  conserved := by
    rw [h.conserved, List.map_cons, ← Multiset.cons_coe, Multiset.add_cons, Multiset.add_cons,
      Multiset.cons_add]
  accepted := by
    rw [List.map_cons, ← Multiset.cons_coe, Multiset.cons_add, ← Multiset.add_cons]
    exact h.accepted
  returned := h.returned
  cells q hhead htail := by
    obtain ⟨hpos, hpos', -⟩ := hok.writing pos (Multiset.mem_cons_self _ _)
    have hlap := hok.tail_le two_le_ringCap
    have hq : s.ring.head ≤ q := hhead
    have hq' : q < s.ring.tail := htail
    rcases eq_or_ne q pos with rfl | hne
    · exact .inr ⟨Function.update_self .., v, List.mem_cons_self, Function.update_self ..⟩
    · -- all positions in the ring are less than a lap apart
      have hcell : q % ringCap ≠ pos % ringCap := fun heq =>
        hne (eq_of_mod_eq heq (by omega) (by omega))
      refine (h.cells q hhead htail).imp (fun hq => (Multiset.mem_cons.mp hq).resolve_left hne) ?_
      rintro ⟨hseq, w, hw, hval⟩
      exact ⟨(Function.update_of_ne hcell ..).trans hseq, w, List.mem_cons_of_mem _ hw,
        (Function.update_of_ne hcell ..).trans hval⟩
  value p hp := by
    obtain ⟨w, hw, hmem⟩ := h.value p hp
    exact ⟨w, hw, List.mem_cons_of_mem _ hmem⟩

/-- Who claims the head takes the value that was accepted for it. -/
theorem Records.taken (hok : Ok ringCap s.ring E D) (h : Records s E D pending)
    (hseen : s.ring.head + 1 ≤ s.ring.seq (s.ring.head % ringCap)) :
    ∃ v, s.ring.val (s.ring.head % ringCap) = some v ∧ (s.ring.head, v) ∈ s.accepted := by
  obtain ⟨hlt, hseq, -⟩ := hok.full_of_seen two_le_ringCap hseen
  rcases h.cells _ le_rfl hlt with hE | ⟨-, v, hv, hval⟩
  · have hfree := (hok.writing _ hE).2.2
    omega
  · exact ⟨v, hval, hv⟩

theorem Records.claimHead (hok : Ok ringCap s.ring E D) (h : Records s E D pending) :
    Records { s with ring := s.ring.claimHead ringCap } E (s.ring.head ::ₘ D) pending where
  conserved := h.conserved
  accepted := h.accepted
  returned := by
    rw [Multiset.add_cons, h.returned]
    exact (Multiset.range_succ _).symm
  cells q hhead htail := by
    have hlap := hok.tail_le two_le_ringCap
    have hq : s.ring.head < q := hhead
    have hq' : q < s.ring.tail := htail
    have hcell : q % ringCap ≠ s.ring.head % ringCap := fun heq =>
      hq.ne' (eq_of_mod_eq heq (by omega) (by omega))
    refine (h.cells q hq.le htail).imp_right ?_
    rintro ⟨hseq, w, hw, hval⟩
    exact ⟨hseq, w, hw, (Function.update_of_ne hcell ..).trans hval⟩
  value := h.value

theorem Records.release {value : Option V} (hok : Ok ringCap s.ring E (pos ::ₘ D))
    (h : Records s E (pos ::ₘ D) pending)
    (hvalue : ∃ v, value = some v ∧ (pos, v) ∈ s.accepted) :
    Records { s with ring := s.ring.release ringCap pos, returned := (pos, value) :: s.returned }
      E D pending where
  conserved := h.conserved
  accepted := h.accepted
  returned := by
    rw [List.map_cons, ← Multiset.cons_coe, Multiset.cons_add, ← Multiset.add_cons]
    exact h.returned
  cells q hhead htail := by
    obtain ⟨hpos, hseq⟩ := hok.releasing pos (Multiset.mem_cons_self _ _)
    obtain ⟨-, hlap, -⟩ := hok.serves_of_seq two_le_ringCap pos (.inr hseq)
    have hq : s.ring.head ≤ q := hhead
    have hq' : q < s.ring.tail := htail
    have hcell : q % ringCap ≠ pos % ringCap := fun heq => by
      have := eq_of_mod_eq heq (by omega) (by omega)
      omega
    refine (h.cells q hhead htail).imp_right ?_
    rintro ⟨hs, w, hw, hval⟩
    exact ⟨(Function.update_of_ne hcell ..).trans hs, w, hw, hval⟩
  value p hp := by
    rcases List.mem_cons.mp hp with rfl | hp
    · exact hvalue
    · exact h.value p hp

/-! ### The invariant -/

/-- A dequeue that owns a cell has what was accepted for it. -/
def Op.Taken (accepted : List (ℕ × V)) : Op V → Prop
  | .dequeue _ (.release pos value) => ∃ v, value = some v ∧ (pos, v) ∈ accepted
  | _ => True

theorem Op.taken_of_releasing {accepted : List (ℕ × V)} (h : op.view.releasing = 0) :
    op.Taken accepted := by
  rcases op with ⟨v, tries, phase⟩ | ⟨tries, _ | _ | _ | ⟨pos, value⟩⟩
  case dequeue.release => exact absurd h (Multiset.singleton_ne_zero pos)
  all_goals trivial

theorem Op.Taken.mono {l l' : List (ℕ × V)} (h : op.Taken l) (hsub : l ⊆ l') : op.Taken l' := by
  rcases op with ⟨v, tries, phase⟩ | ⟨tries, _ | _ | _ | ⟨pos, value⟩⟩
  case dequeue.release =>
    obtain ⟨v, hv, hmem⟩ := h
    exact ⟨v, hv, hsub hmem⟩
  all_goals trivial

/-- The ring is in order, and so is the record. -/
structure Inv (P : Pool (Shared V) (Op V)) : Prop where
  ring : RingOk ringCap Shared.ring Op.view P
  records : Records P.shared (writing P) (releasing P) (total Op.pending P.threads)
  taken : ∀ op ∈ P.threads, op.Taken P.shared.accepted

theorem inv_new : Inv (⟨Shared.new, 0⟩ : Pool (Shared V) (Op V)) :=
  ⟨ringOk_new rfl, records_new, fun op h => absurd h (Multiset.notMem_zero op)⟩

/-- A call starts an operation, which owns no cell yet. -/
theorem Inv.call {threads : Multiset (Op V)} (h : Inv ⟨s, threads⟩) (hcall : Call s s' next) :
    Inv ⟨s', with? next threads⟩ := by
  obtain ⟨⟨hok, hseen⟩, hrec, htaken⟩ := h
  -- the new operation neither writes nor releases and has seen nothing
  have hstart : ∀ (s' : Shared V) (op : Op V), s'.ring = s.ring → op.view.writing = 0 →
      op.view.releasing = 0 → op.view.Seen ringCap s.ring → s'.accepted = s.accepted →
      Records s' (writing ⟨s, threads⟩) (releasing ⟨s, threads⟩)
        (op.pending + total Op.pending threads) → Inv ⟨s', op ::ₘ threads⟩ := by
    intro s' op hring hwriting hreleasing hsee haccepted hrec'
    refine ⟨⟨?_, ?_⟩, ?_, Multiset.forall_mem_cons.mpr ⟨Op.taken_of_releasing hreleasing, ?_⟩⟩
    · rw [total_cons, total_cons, hwriting, hreleasing, zero_add, zero_add, hring]
      exact hok
    · rw [hring]
      exact Multiset.forall_mem_cons.mpr ⟨hsee, hseen⟩
    · rw [writing, releasing, total_cons, total_cons, total_cons, hwriting, hreleasing, zero_add,
        zero_add]
      exact hrec'
    · rw [haccepted]
      exact htaken
  rcases hcall with v | _
  · refine hstart _ (.enqueue v 4 .load) rfl rfl rfl trivial rfl
      ⟨?_, hrec.accepted, hrec.returned, hrec.cells, hrec.value⟩
    show v ::ₘ s.started = _ + ({v} + _)
    rw [hrec.conserved, Multiset.singleton_add, Multiset.add_cons]
  · refine hstart s (.dequeue 4 .load) rfl rfl rfl trivial rfl ?_
    show Records s _ _ (0 + _)
    rwa [zero_add]

/-- **A step of an operation keeps the invariant.** -/
theorem Inv.move {ok : Bool} (h : Inv ⟨s, op ::ₘ rest⟩) (hstep : op.step ok s = (s', next)) :
    Inv ⟨s', with? next rest⟩ := by
  obtain ⟨hring, hrec, htaken⟩ := h
  have hview : ViewStep ringCap s.ring s'.ring op.view (viewNext Op.view next) := by
    have hstep' := step_view ok (hring.seen op (Multiset.mem_cons_self _ _))
    rwa [hstep] at hstep'
  have heffect : Effect s op s' next := by
    have hstep' := effect_step ok s op
    rwa [hstep] at hstep'
  have hring' := hring.move two_le_ringCap hview
  obtain ⟨hown, hrest⟩ := Multiset.forall_mem_cons.mp htaken
  have hsee := hring.seen op (Multiset.mem_cons_self _ _)
  have hok := hring.ok
  rw [writing, releasing, total_cons, total_cons, total_cons] at hrec
  rw [total_cons, total_cons] at hok
  rcases heffect with ⟨hw, hr, hw', hr', hp⟩ | hphase | hphase | _ | _ | _ | _
  case still op' =>
    rw [hw, ← hw', hr, ← hr', ← hp] at hrec
    refine ⟨hring', ?_, Multiset.forall_mem_cons.mpr ⟨Op.taken_of_releasing hr', hrest⟩⟩
    rw [with?_some, writing, releasing, total_cons, total_cons, total_cons]
    exact hrec
  case refuse v tries phase =>
    have hrec : Records s ((RingView.enq phase : RingView V).writing + _) (0 + _) ({v} + _) := hrec
    rw [writing_eq_zero hphase, zero_add, zero_add, Multiset.singleton_add] at hrec
    exact ⟨hring', hrec.refuse, hrest⟩
  case miss tries phase =>
    have hrec : Records s (0 + _) ((RingView.deq phase).releasing + _) (0 + _) := hrec
    rw [releasing_eq_zero hphase, zero_add, zero_add, zero_add] at hrec
    exact ⟨hring', hrec, hrest⟩
  case claimTail v tries tries' =>
    have hrec : Records s (0 + _) (0 + _) ({v} + _) := hrec
    rw [zero_add, zero_add] at hrec
    refine ⟨hring', ?_, Multiset.forall_mem_cons.mpr ⟨trivial, hrest⟩⟩
    rw [with?_some, writing, releasing, total_cons, total_cons, total_cons]
    show Records _ ({s.ring.tail} + _) (0 + _) ({v} + _)
    rw [zero_add, Multiset.singleton_add s.ring.tail]
    exact hrec.claimTail
  case publish v tries pos =>
    have hrec : Records s ({pos} + _) (0 + _) ({v} + _) := hrec
    have hok : Ok ringCap s.ring ({pos} + _) (0 + _) := hok
    rw [zero_add, Multiset.singleton_add] at hok
    rw [zero_add, Multiset.singleton_add, Multiset.singleton_add] at hrec
    exact ⟨hring', Records.publish hok hrec, fun q hq => (hrest q hq).mono (List.subset_cons_self ..)⟩
  case claimHead tries tries' =>
    have hrec : Records s (0 + _) (0 + _) (0 + _) := hrec
    have hok : Ok ringCap s.ring (0 + _) (0 + _) := hok
    rw [zero_add, zero_add] at hok
    rw [zero_add, zero_add, zero_add] at hrec
    refine ⟨hring', ?_, Multiset.forall_mem_cons.mpr ⟨Records.taken hok hrec hsee, hrest⟩⟩
    rw [with?_some, writing, releasing, total_cons, total_cons, total_cons]
    show Records _ (0 + _) ({s.ring.head} + _) (0 + _)
    rw [zero_add, zero_add, Multiset.singleton_add]
    exact Records.claimHead hok hrec
  case release tries pos value =>
    have hrec : Records s (0 + _) ({pos} + _) (0 + _) := hrec
    have hok : Ok ringCap s.ring (0 + _) ({pos} + _) := hok
    rw [zero_add, Multiset.singleton_add] at hok
    rw [zero_add, zero_add, Multiset.singleton_add] at hrec
    exact ⟨hring', Records.release hok hrec hown, hrest⟩

theorem Reachable.inv {P : Pool (Shared V) (Op V)} (h : Reachable P) : Inv P := by
  induction h with
  | refl => exact inv_new
  | tail _ hstep ih =>
    rcases hstep with ⟨ok, hmove⟩ | hcall
    · exact ih.move hmove
    · exact ih.call hcall

/-! ### Exactly once -/

theorem lookup_eq_some {l : List (ℕ × V)} {q : ℕ} (hnodup : (l.map Prod.fst).Nodup)
    (hmem : (q, v) ∈ l) : l.lookup q = some v := by
  obtain ⟨l₁, l₂, rfl⟩ := List.append_of_mem hmem
  refine List.lookup_eq_some_iff.mpr ⟨l₁, l₂, rfl, fun p hp => ?_⟩
  rw [List.map_append, List.map_cons] at hnodup
  have hne := (List.nodup_append.mp hnodup).2.2 p.1 (List.mem_map_of_mem hp) q List.mem_cons_self
  simpa using hne.symm

section

variable {P : Pool (Shared V) (Op V)}

theorem Inv.published_eq (h : Inv P) : P.shared.published = P.shared.queue := by
  have hnodup : ((P.shared.accepted.map Prod.fst : Multiset ℕ) + writing P).Nodup :=
    h.records.accepted ▸ Multiset.nodup_range _
  obtain ⟨hkeys, -, hdisj⟩ := Multiset.nodup_add.mp hnodup
  refine List.filterMap_congr fun q hq => ?_
  have hq := List.mem_range'_1.mp hq
  have hle := h.ring.ok.head_le
  rcases h.records.cells q hq.1 (by omega) with hwriting | ⟨hseq, v, hv, hval⟩
  · have hseq := (h.ring.ok.writing q hwriting).2.2
    have hnone : P.shared.accepted.lookup q = none :=
      List.lookup_eq_none_iff.mpr fun p hp => by
        have hp := List.mem_map_of_mem (f := Prod.fst) hp
        have hne : q ≠ p.1 := fun heq =>
          Multiset.disjoint_left.mp hdisj (Multiset.mem_coe.mpr (heq ▸ hp)) hwriting
        simpa using hne
    rw [hnone, if_neg (by omega)]
  · rw [if_pos hseq, hval, lookup_eq_some (Multiset.coe_nodup.mp hkeys) hv]

/-- **The ring is a bounded queue that returns what it has accepted exactly once**, whatever the
order of the steps. -/
theorem exactlyOnce_of_reachable (h : Reachable P) : ExactlyOnce P where
  published := h.inv.published_eq
  bounded := by
    have hlap := h.inv.ring.ok.tail_le two_le_ringCap
    have hlength : P.shared.published.length ≤ P.shared.ring.tail - P.shared.ring.head :=
      (List.length_filterMap_le ..).trans (List.length_range' ..).le
    exact ⟨by omega, hlap⟩
  conserved := h.inv.records.conserved
  accepted := h.inv.records.accepted
  returned := h.inv.records.returned
  value := h.inv.records.value
  taken tries pos value hop := by
    obtain ⟨v, rfl, -⟩ := h.inv.taken _ hop
    rfl
  refused hnodup v hv p hp heq := by
    rw [h.inv.records.conserved, Multiset.nodup_add, Multiset.nodup_add] at hnodup
    obtain ⟨w, hw, hmem⟩ := h.inv.records.value p hp
    obtain rfl := Option.some.inj (heq.symm.trans hw)
    exact Multiset.disjoint_left.mp hnodup.1.2.2 hv
      (Multiset.mem_coe.mpr (List.mem_map_of_mem (f := Prod.snd) hmem))
  exclusive := h.inv.ring.ok.nodup_cells two_le_ringCap

end

theorem Reachable.call {threads : Multiset (Op V)} (h : Reachable ⟨s, threads⟩)
    (hcall : Call s s' next) : Reachable ⟨s', with? next threads⟩ :=
  Relation.ReflTransGen.tail h (ThreadPool.Step.outside hcall)

theorem Reachable.move (h : Reachable ⟨s, op ::ₘ rest⟩) (ok : Bool)
    (hstep : op.step ok s = (s', next)) : Reachable ⟨s', with? next rest⟩ :=
  Relation.ReflTransGen.tail h (ThreadPool.Step.move ⟨ok, hstep⟩)

/-- A value is accepted. -/
theorem seven_accepted : ∃ P : Pool (Shared ℕ) (Op ℕ),
    P.shared.accepted = [(0, 7)] ∧ ExactlyOnce P := by
  let s₁ : Shared ℕ := { Shared.new with started := {7} }
  have h₀ : Reachable (⟨Shared.new, 0⟩ : Pool (Shared ℕ) (Op ℕ)) := Relation.ReflTransGen.refl
  have h₁ : Reachable ⟨s₁, {.enqueue 7 4 .load}⟩ := h₀.call (.tryEnqueue 7)
  have h₂ : Reachable ⟨s₁, {.enqueue 7 4 (.seq 0)}⟩ := h₁.move true rfl
  have h₃ : Reachable ⟨s₁, {.enqueue 7 4 (.cas 0)}⟩ := h₂.move true (by
    rw [Op.step, enqStep, Nat.zero_mod])
  have h₄ : Reachable ⟨{ s₁ with ring := s₁.ring.claimTail }, {.enqueue 7 4 (.publish 0)}⟩ :=
    h₃.move true rfl
  exact ⟨_, rfl, exactlyOnce_of_reachable (h₄.move true rfl)⟩

end ZzLang.Conc.LfRing
