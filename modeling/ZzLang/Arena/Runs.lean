import Mathlib.Logic.Relation
import ZzLang.Arena.Placement

/-!
# Runs of an arena

A program uses an arena by requests, checkpoints, rewinds, scoped calls and resets, in any order.
The world of a run keeps, beside the arena, what the program may still use: the ranges that are
handed out, and the checkpoints that it may rewind to. A checkpoint is lost by a reset, and by a
rewind to an earlier one. A scoped call is a checkpoint at its beginning and, when its body fails, a
rewind at its end, which like every rewind needs its checkpoint.

The invariant is a history (`History`): at every checkpoint that is left the arena was well kept,
and it has only grown from each to the next and to what it is now. So a rewind gives back the arena
and the ranges of its checkpoint, and everything that was true of them then.
-/

namespace ZzLang.Arena

open Memory

/-- A checkpoint with its time, and with the arena and the ranges as they were. The program holds
`arena.checkpoint`. -/
structure Mark where
  time : ℕ
  arena : Bump
  live : List Range

/-- An arena in use. -/
structure World where
  arena : Bump
  live : List Range
  marks : List Mark
  /-- The times of the checkpoints of the scoped calls that have not returned. -/
  scopes : List ℕ
  clock : ℕ

namespace World

/-- A new arena. -/
def start : World := ⟨.empty, [], [], [], 0⟩

/-- A request. -/
def alloc (cfg : Config) (malloc : ℕ → Option ℕ) (req : Request) (w : World) : World :=
  let r := w.arena.tryAllocRaw cfg malloc req.size req.align
  { w with
    arena := r.2
    live := match r.1 with
      | .ok ptr => ⟨w.clock, req.align, ⟨ptr, req.size⟩⟩ :: w.live
      | _ => w.live
    clock := w.clock + 1 }

/-- A checkpoint. -/
def mark (w : World) : World :=
  { w with marks := ⟨w.clock, w.arena, w.live⟩ :: w.marks, clock := w.clock + 1 }

/-- A rewind: the ranges handed out since are lost, and so are the checkpoints. -/
def rewindTo (m : Mark) (w : World) : World :=
  { w with
    arena := w.arena.rewind m.arena.checkpoint
    live := w.live.filter (·.born < m.time)
    marks := w.marks.filter (·.time ≤ m.time) }

/-- A new beginning with another arena. -/
def restart (a : Bump) (w : World) : World := { w with arena := a, live := [], marks := [] }

end World

/-- What a program may do with an arena. The allocator hands out what is fresh, and a rewind is to a
checkpoint that is left. -/
inductive Step (cfg : Config) : World → World → Prop where
  | alloc (w : World) (req : Request) (malloc : ℕ → Option ℕ)
      (hmalloc : ∀ n base, malloc n = some base → Fresh w.arena ⟨base, n⟩) :
      Step cfg w (w.alloc cfg malloc req)
  | checkpoint (w : World) : Step cfg w w.mark
  | rewind (w : World) (m : Mark) (hm : m ∈ w.marks) : Step cfg w (w.rewindTo m)
  /-- A scoped call begins. -/
  | enter (w : World) : Step cfg w { w.mark with scopes := w.clock :: w.scopes }
  /-- The body of the last scoped call succeeds. -/
  | leaveOk (w : World) (time : ℕ) (scopes : List ℕ) (hscopes : w.scopes = time :: scopes) :
      Step cfg w { w with scopes := scopes }
  /-- It fails. -/
  | leaveErr (w : World) (m : Mark) (scopes : List ℕ) (hscopes : w.scopes = m.time :: scopes)
      (hm : m ∈ w.marks) : Step cfg w { w.rewindTo m with scopes := scopes }
  | reset (w : World) : Step cfg w (w.restart (w.arena.reset cfg))
  | shrink (w : World) : Step cfg w (w.restart w.arena.shrink)

/-- The worlds that a program comes to. -/
def Reachable (cfg : Config) : World → Prop := Relation.ReflTransGen (Step cfg) World.start

/-! ### The history of an arena -/

/-- How the arena came from its checkpoints, the latest one first. -/
def History (cfg : Config) (a : Bump) (live : List Range) : List Mark → Prop
  | [] => True
  | m :: ms => Kept cfg m.arena m.live ∧ Grown m.arena a ∧
    live.filter (·.born < m.time) = m.live ∧ (∀ m' ∈ ms, m'.time < m.time) ∧
    History cfg m.arena m.live ms

variable {cfg : Config} {a a' : Bump} {live live' : List Range} {m : Mark} {ms : List Mark}

/-- A history goes on when the arena grows, and when younger ranges are handed out. -/
theorem History.grow (h : History cfg a live ms) (hgrown : Grown a a')
    (hlive : ∀ m ∈ ms, live'.filter (·.born < m.time) = live.filter (·.born < m.time)) :
    History cfg a' live' ms := by
  cases ms with
  | nil => trivial
  | cons m ms =>
    obtain ⟨hkept, hold, hfilter, htimes, hrest⟩ := h
    refine ⟨hkept, hold.trans hgrown, ?_, htimes, hrest⟩
    rw [hlive m List.mem_cons_self, hfilter]

theorem filter_filter_of_lt {t t' : ℕ} (h : t' < t) (live : List Range) :
    (live.filter (·.born < t)).filter (·.born < t') = live.filter (·.born < t') := by
  rw [List.filter_filter]
  refine List.filter_congr fun r _ => ?_
  have himp : r.born < t' → r.born < t := fun hr => hr.trans h
  by_cases hr : r.born < t' <;> simp [hr, himp]

/-- **What a rewind finds**: at a checkpoint that is left, the arena was well kept and has grown
since, the ranges from before are those of the checkpoint, and the earlier checkpoints are its
history. -/
theorem History.at (h : History cfg a live ms) (hm : m ∈ ms) :
    Kept cfg m.arena m.live ∧ Grown m.arena a ∧ live.filter (·.born < m.time) = m.live ∧
      History cfg m.arena m.live (ms.filter (·.time ≤ m.time)) := by
  induction ms generalizing a live with
  | nil => exact nomatch hm
  | cons n ms ih =>
    obtain ⟨hkept, hold, hfilter, htimes, hrest⟩ := h
    rcases List.mem_cons.mp hm with rfl | hm
    · have hself : (m :: ms).filter (·.time ≤ m.time) = m :: ms := by
        refine List.filter_eq_self.mpr fun m' hm' => ?_
        rcases List.mem_cons.mp hm' with rfl | hm'
        · simp
        · simpa using (htimes m' hm').le
      refine ⟨hkept, hold, hfilter, ?_⟩
      rw [hself]
      refine ⟨hkept, .refl _, ?_, htimes, hrest⟩
      rw [← hfilter, List.filter_filter]
      simp
    · have hlt := htimes m hm
      obtain ⟨hkeptm, hgrownm, hfilterm, hrestm⟩ := ih hrest hm
      refine ⟨hkeptm, hgrownm.trans hold, ?_, ?_⟩
      · rw [← hfilterm, ← hfilter, filter_filter_of_lt hlt]
      · rw [List.filter_cons_of_neg (by simpa using hlt)]
        exact hrestm

/-! ### The invariant -/

/-- **The invariant**: the arena is well kept and has a history, and the clock is ahead of all. -/
structure Inv (cfg : Config) (w : World) : Prop where
  kept : Kept cfg w.arena w.live
  history : History cfg w.arena w.live w.marks
  born : ∀ r ∈ w.live, r.born < w.clock
  times : ∀ m ∈ w.marks, m.time < w.clock

theorem inv_start (cfg : Config) : Inv cfg World.start where
  kept := .empty 0
  history := trivial
  born := nofun
  times := nofun

/-- A request that is not placed changes the clock only. -/
theorem Inv.of_refused {w : World} (h : Inv cfg w) {arena : Bump} (harena : arena = w.arena) :
    Inv cfg { w with arena := arena, clock := w.clock + 1 } := by
  subst harena
  exact ⟨h.kept, h.history, fun r hr => Nat.lt_succ_of_lt (h.born r hr),
    fun m hm => Nat.lt_succ_of_lt (h.times m hm)⟩

theorem Inv.alloc {w : World} (h : Inv cfg w) {req : Request} {malloc : ℕ → Option ℕ}
    (hmalloc : ∀ n base, malloc n = some base → Fresh w.arena ⟨base, n⟩) :
    Inv cfg (w.alloc cfg malloc req) := by
  have hplaced : Placed cfg w.arena req (w.arena.tryAllocRaw cfg malloc req.size req.align).1
      (w.arena.tryAllocRaw cfg malloc req.size req.align).2 := tryAllocRaw_placed h.kept hmalloc
  have hgrown := Grown.of_placed hplaced
  rw [World.alloc]
  cases ho : (w.arena.tryAllocRaw cfg malloc req.size req.align).1 with
  | ok ptr =>
    rw [ho] at hplaced
    refine ⟨h.kept.of_placed hplaced w.clock, ?_, ?_, fun m hm => Nat.lt_succ_of_lt (h.times m hm)⟩
    · refine h.history.grow hgrown fun m hm => ?_
      have hlate : ¬ w.clock < m.time := (h.times m hm).not_gt
      dsimp only
      rw [List.filter_cons_of_neg (by simpa using hlate)]
    · intro r hr
      rcases List.mem_cons.mp hr with rfl | hr
      · exact Nat.lt_succ_self _
      · exact Nat.lt_succ_of_lt (h.born r hr)
  | err limit => exact h.of_refused (hplaced.eq_of_ne_ok (by rw [ho]; exact nofun))
  | abort => exact h.of_refused (hplaced.eq_of_ne_ok (by rw [ho]; exact nofun))

theorem Inv.mark {w : World} (h : Inv cfg w) : Inv cfg w.mark := by
  refine ⟨h.kept, ⟨h.kept, .refl _, ?_, h.times, h.history⟩,
    fun r hr => Nat.lt_succ_of_lt (h.born r hr), ?_⟩
  · exact List.filter_eq_self.mpr fun r hr => by simpa using h.born r hr
  · intro m hm
    rcases List.mem_cons.mp hm with rfl | hm
    · exact Nat.lt_succ_self _
    · exact Nat.lt_succ_of_lt (h.times m hm)

/-- A rewind gives back the arena and the ranges of its checkpoint. -/
theorem Inv.rewindTo_eq {w : World} (h : Inv cfg w) {m : Mark} (hm : m ∈ w.marks) :
    (w.rewindTo m).arena = m.arena ∧ (w.rewindTo m).live = m.live := by
  obtain ⟨-, hgrown, hfilter, -⟩ := h.history.at hm
  exact ⟨hgrown.rewind, hfilter⟩

theorem Inv.rewindTo {w : World} (h : Inv cfg w) {m : Mark} (hm : m ∈ w.marks) :
    Inv cfg (w.rewindTo m) := by
  obtain ⟨hkept, -, -, hrest⟩ := h.history.at hm
  obtain ⟨harena, hlive⟩ := h.rewindTo_eq hm
  refine ⟨?_, ?_, ?_, ?_⟩
  · rw [harena, hlive]
    exact hkept
  · rw [harena, hlive]
    exact hrest
  · intro r hr
    exact h.born r (List.mem_of_mem_filter hr)
  · intro m' hm'
    exact h.times m' (List.mem_of_mem_filter hm')

theorem Inv.restart {w : World} (h : Kept cfg a []) : Inv cfg (w.restart a) :=
  ⟨h, trivial, nofun, nofun⟩

/-- Every step keeps the invariant. -/
theorem Inv.step {w w' : World} (h : Inv cfg w) (hstep : Step cfg w w') : Inv cfg w' := by
  cases hstep with
  | alloc req malloc hmalloc => exact h.alloc hmalloc
  | checkpoint => exact h.mark
  | rewind m hm => exact h.rewindTo hm
  | enter => exact ⟨h.mark.kept, h.mark.history, h.mark.born, h.mark.times⟩
  | leaveOk time scopes hscopes => exact ⟨h.kept, h.history, h.born, h.times⟩
  | leaveErr m scopes hscopes hm =>
    have := h.rewindTo hm
    exact ⟨this.kept, this.history, this.born, this.times⟩
  | reset => exact .restart h.kept.reset
  | shrink => exact .restart (.empty 0)

theorem Reachable.inv {w : World} (h : Reachable cfg w) : Inv cfg w := by
  induction h with
  | refl => exact inv_start cfg
  | tail _ hstep ih => exact ih.step hstep

/-! ### Ranges never overlap -/

/-- **What an arena promises.** -/
structure Promised (cfg : Config) (w : World) : Prop where
  /-- A range lies in one block or one spill. -/
  inside : ∀ r ∈ w.live, ∃ e ∈ w.arena.backing, r.extent.Inside e
  aligned : ∀ r ∈ w.live, r.align ∣ r.extent.base
  apart : w.live.Pairwise fun r s => r.extent.Apart s.extent
  used : ∀ b ∈ w.arena.blocks, b.used ≤ b.capacity
  total : w.arena.accounted ≤ cfg.maxBytes
  /-- A rewind gives back the counter and the ranges of its checkpoint. -/
  restores : ∀ m ∈ w.marks, (w.rewindTo m).arena.bytesUsed = m.arena.bytesUsed ∧
    (w.rewindTo m).live = m.live

/-- **Allocations never overlap**: in every world that a program comes to, the arena is as
promised. -/
theorem promised_of_reachable {w : World} (h : Reachable cfg w) : Promised cfg w where
  inside _ hr := h.inv.kept.inside hr
  aligned := h.inv.kept.aligned
  apart := h.inv.kept.apart
  used := h.inv.kept.used
  total := h.inv.kept.total
  restores m hm := by
    obtain ⟨harena, hlive⟩ := h.inv.rewindTo_eq hm
    rw [harena]
    exact ⟨rfl, hlive⟩

/-- **A scoped call that fails** gives back the arena that it began with, whatever its body has done
in between, if it has kept the checkpoint of the call. -/
theorem scopedCall_error {T E : Type} {w w' : World} (h : Reachable cfg w)
    (hbody : Relation.ReflTransGen (Step cfg) { w.mark with scopes := w.clock :: w.scopes } w')
    (hm : ⟨w.clock, w.arena, w.live⟩ ∈ w'.marks) {f : Bump → Except E T × Bump} {e : E}
    (hf : f w.arena = (.error e, w'.arena)) : w.arena.scopedCall f = (.error e, w.arena) := by
  have hreach : Reachable cfg w' := (h.tail (.enter w)).trans hbody
  have harena : w'.arena.rewind w.arena.checkpoint = w.arena := (hreach.inv.rewindTo_eq hm).1
  rw [Bump.scopedCall, hf]
  exact congrArg (Prod.mk _) harena

/-- An arena with a first block of 64 bytes, at the address 1024, of which eight bytes are handed out
in front of a checkpoint. Behind it come eight bytes more of the block, 96 bytes of a second block
and a spill of 2048 bytes, and the rewind takes these back. -/
theorem promised_after_rewind :
    let cfg : Config := ⟨64, 4096, 65536, 16, 2⟩
    let malloc : ℕ → ℕ → ℕ → Option ℕ := fun size base n => if n = size then some base else none
    let small : Request := ⟨8, 8, ⟨3, rfl⟩, dvd_rfl, by decide, by decide⟩
    let large : Request := ⟨96, 8, ⟨3, rfl⟩, by decide, by decide, by decide⟩
    let huge : Request := ⟨2048, 8, ⟨3, rfl⟩, by decide, by decide, by decide⟩
    let w := (World.start.alloc cfg (malloc 64 1024) small).mark
    let w' := ((w.alloc cfg (malloc 0 0) small).alloc cfg (malloc 128 2048) large).alloc cfg
      (malloc 2056 8192) huge
    let back := w'.rewindTo ⟨1, w.arena, w.live⟩
    w'.live.map Range.extent = [⟨8192, 2048⟩, ⟨2048, 96⟩, ⟨1032, 8⟩, ⟨1024, 8⟩] ∧
      Promised cfg w' ∧ back.live.map Range.extent = [⟨1024, 8⟩] ∧ Promised cfg back := by
  intro cfg malloc small large huge w w' back
  have hfresh : ∀ (a : Bump) (size base : ℕ), Fresh a ⟨base, size⟩ →
      ∀ n b, malloc size base n = some b → Fresh a ⟨b, n⟩ := by
    intro a size base hf n b h
    obtain ⟨rfl, rfl⟩ : n = size ∧ base = b := by simpa [malloc] using h
    exact hf
  have hw : Reachable cfg w :=
    .tail (.single (.alloc World.start _ _ (hfresh _ _ _ ⟨by decide, by decide⟩))) (.checkpoint _)
  have hw' : Reachable cfg w' := by
    refine .tail (.tail (.tail hw (.alloc _ _ _ (hfresh _ _ _ ?_))) (.alloc _ _ _ (hfresh _ _ _ ?_)))
      (.alloc _ _ _ (hfresh _ _ _ ?_))
    · exact ⟨by decide, by decide⟩
    · exact ⟨by decide, by decide⟩
    · exact ⟨by decide, by decide⟩
  have hback : Reachable cfg back := hw'.tail (.rewind _ _ List.mem_cons_self)
  exact ⟨by decide, promised_of_reachable hw', by decide, promised_of_reachable hback⟩

end ZzLang.Arena
