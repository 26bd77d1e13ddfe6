import Mathlib.Data.List.Forall2
import Mathlib.Data.Option.Basic

/-!
# Machines that cannot see their own positions

A machine that runs code keeps positions in it: where it is, where its callers go on, where the
loops it is in begin and end. What an instruction does is computed from the rest of the state;
positions are only passed around. So an instruction does not name positions but refers to them
(`Ref`): the next one, one of its own targets, where a caller goes on, the exit of the
innermost loop.

If two pieces of code are related position by position, the same instruction leads from related
states to related states (`State.move_related`), whatever it computes.
-/

namespace OpaquePc

/-- A position in a piece of code. -/
structure Loc where
  code : ℕ
  pc : ℕ
  deriving DecidableEq

/-- How an instruction refers to a position. -/
inductive Ref
  | next
  | here
  /-- One of the positions the instruction carries. -/
  | target (k : ℕ)
  /-- Where a caller goes on, the innermost one first. -/
  | caller (i : ℕ)
  /-- The start of a piece of code. -/
  | start (code : ℕ)
  /-- The exit of the innermost loop. -/
  | loopExit
  /-- The header of the innermost loop. -/
  | loopHeader
  deriving DecidableEq

/-- A loop that is being run. The code its positions are in is kept with them. -/
structure Loop (L : Type) where
  exit : Loc
  header : Loc
  shape : L

/-- The state: positions, and everything else. -/
structure State (D L : Type) where
  loc : Loc
  callers : List Loc
  loops : List (Loop L)
  data : D

/-- What an instruction does with the loops. -/
inductive LoopEdit (L : Type)
  | keep
  | enter (exit header : Ref) (shape : L)
  | leave
  | retain (p : L → Bool)

/-- What an instruction does. -/
structure Move (D L : Type) where
  data : D
  goto : Ref
  /-- The new list of callers, if it changes. -/
  callers : Option (List Ref)
  loops : LoopEdit L

variable {D L : Type}

/-- The positions an instruction refers to. -/
def LoopEdit.refs : LoopEdit L → List Ref
  | .enter exit header _ => [exit, header]
  | _ => []

/-- The positions an instruction refers to. -/
def Move.refs (mv : Move D L) : List Ref :=
  mv.goto :: (mv.callers.getD [] ++ mv.loops.refs)

namespace State

/-- The position a reference stands for. The exit of a loop is taken for a position in the code
that is running. -/
def resolve (s : State D L) (targets : List ℕ) : Ref → Option Loc
  | .next => some ⟨s.loc.code, s.loc.pc + 1⟩
  | .here => some s.loc
  | .target k => targets[k]?.map (Loc.mk s.loc.code)
  | .caller i => s.callers[i]?
  | .start code => some ⟨code, 0⟩
  | .loopExit => s.loops.head?.map fun l => ⟨s.loc.code, l.exit.pc⟩
  | .loopHeader => s.loops.head?.map fun l => ⟨s.loc.code, l.header.pc⟩

/-- The loops after an instruction. -/
def editLoops (s : State D L) (targets : List ℕ) : LoopEdit L → Option (List (Loop L))
  | .keep => some s.loops
  | .enter exit header shape => do
    let exit ← s.resolve targets exit
    let header ← s.resolve targets header
    return ⟨exit, header, shape⟩ :: s.loops
  | .leave => some s.loops.tail
  | .retain p => some (s.loops.filter fun l => p l.shape)

/-- The callers after an instruction. -/
def editCallers (s : State D L) (targets : List ℕ) : Option (List Ref) → Option (List Loc)
  | none => some s.callers
  | some refs => refs.mapM (s.resolve targets)

/-- The state after an instruction; none if it refers to a position that is not there. -/
def move (s : State D L) (targets : List ℕ) (mv : Move D L) : Option (State D L) := do
  let loc ← s.resolve targets mv.goto
  let callers ← s.editCallers targets mv.callers
  let loops ← s.editLoops targets mv.loops
  return ⟨loc, callers, loops, mv.data⟩

end State

/-! ### Related states -/

variable (R : ℕ → ℕ → ℕ → Prop)

/-- Related positions of the same piece of code. -/
def LocRel (l l' : Loc) : Prop :=
  l.code = l'.code ∧ R l.code l.pc l'.pc

/-- Loops with related positions. -/
structure LoopRel (l l' : Loop L) : Prop where
  exit : LocRel R l.exit l'.exit
  header : LocRel R l.header l'.header
  shape : l.shape = l'.shape

/-- States with related positions that agree in everything else. -/
structure StateRel (s s' : State D L) : Prop where
  loc : LocRel R s.loc s'.loc
  callers : List.Forall₂ (LocRel R) s.callers s'.callers
  loops : List.Forall₂ (LoopRel R) s.loops s'.loops
  data : s.data = s'.data

/-- The positions of the innermost loop are in the code that is running. -/
def State.LoopAtHome (s : State D L) : Prop :=
  ∀ l ∈ s.loops.head?, l.exit.code = s.loc.code ∧ l.header.code = s.loc.code

/-- What an instruction asks of the relation: that the targets are related, and the next
positions and the loop's positions if it refers to them. -/
structure Fits (s s' : State D L) (targets targets' : List ℕ) (refs : List Ref) : Prop where
  targets : List.Forall₂ (R s.loc.code) targets targets'
  starts : ∀ c, R c 0 0
  next : Ref.next ∈ refs → R s.loc.code (s.loc.pc + 1) (s'.loc.pc + 1)
  loop : Ref.loopExit ∈ refs ∨ Ref.loopHeader ∈ refs → s.LoopAtHome

variable {R} {s s' : State D L} {targets targets' : List ℕ} {refs : List Ref}

theorem Fits.mono {refs' : List Ref} (h : Fits R s s' targets targets' refs)
    (hsub : refs' ⊆ refs) : Fits R s s' targets targets' refs' where
  targets := h.targets
  starts := h.starts
  next hmem := h.next (hsub hmem)
  loop hmem := h.loop (hmem.imp (@hsub _) (@hsub _))

theorem forall₂_getElem? {α β : Type} {P : α → β → Prop} {xs : List α} {ys : List β}
    (h : List.Forall₂ P xs ys) (i : ℕ) : Option.Rel P xs[i]? ys[i]? := by
  induction h generalizing i with
  | nil => exact .none
  | cons hxy _ ih =>
    rcases i with _ | i
    · exact .some hxy
    · exact ih i

theorem rel_map {α β α' β' : Type} {P : α → β → Prop} {Q : α' → β' → Prop} {x : Option α}
    {y : Option β} {f : α → α'} {g : β → β'} (h : Option.Rel P x y)
    (hfg : ∀ a b, a ∈ x → P a b → Q (f a) (g b)) : Option.Rel Q (x.map f) (y.map g) := by
  rcases h with ⟨h⟩ | _
  · exact .some (hfg _ _ rfl h)
  · exact .none

theorem rel_bind {α β α' β' : Type} {P : α → β → Prop} {Q : α' → β' → Prop} {x : Option α}
    {y : Option β} {f : α → Option α'} {g : β → Option β'} (h : Option.Rel P x y)
    (hfg : ∀ a b, P a b → Option.Rel Q (f a) (g b)) : Option.Rel Q (x >>= f) (y >>= g) := by
  rcases h with ⟨h⟩ | _
  · exact hfg _ _ h
  · exact .none

theorem head?_rel {α β : Type} {P : α → β → Prop} {xs : List α} {ys : List β}
    (h : List.Forall₂ P xs ys) : Option.Rel P xs.head? ys.head? := by
  rcases h with _ | ⟨h, -⟩
  · exact .none
  · exact .some h

/-- References stand for related positions. -/
theorem State.resolve_related (hs : StateRel R s s') {r : Ref}
    (hfits : Fits R s s' targets targets' [r]) :
    Option.Rel (LocRel R) (s.resolve targets r) (s'.resolve targets' r) := by
  have hcode := hs.loc.1
  rcases r with _ | _ | k | i | c | _ | _
  · exact .some ⟨hcode, hfits.next (by simp)⟩
  · exact .some hs.loc
  · refine rel_map (forall₂_getElem? hfits.targets k) fun a b _ hab => ⟨hcode, hab⟩
  · exact forall₂_getElem? hs.callers i
  · exact .some ⟨rfl, hfits.starts c⟩
  · refine rel_map (head?_rel hs.loops) fun l l' hl hll' => ⟨hcode, ?_⟩
    rw [← (hfits.loop (by simp) l hl).1]
    exact hll'.exit.2
  · refine rel_map (head?_rel hs.loops) fun l l' hl hll' => ⟨hcode, ?_⟩
    rw [← (hfits.loop (by simp) l hl).2]
    exact hll'.header.2

theorem State.editCallers_related (hs : StateRel R s s') {callers : Option (List Ref)}
    (hfits : Fits R s s' targets targets' (callers.getD [])) :
    Option.Rel (List.Forall₂ (LocRel R)) (s.editCallers targets callers)
      (s'.editCallers targets' callers) := by
  rcases callers with _ | refs
  · exact .some hs.callers
  · induction refs with
    | nil => exact .some .nil
    | cons r refs ih =>
      have ih := ih (hfits.mono (by simp))
      simp only [editCallers, List.mapM_cons] at ih ⊢
      refine rel_bind (resolve_related hs (hfits.mono (by simp))) fun l l' hl => ?_
      refine rel_bind ih fun ls ls' hls => ?_
      exact .some (.cons hl hls)

theorem State.editLoops_related (hs : StateRel R s s') {edit : LoopEdit L}
    (hfits : Fits R s s' targets targets' edit.refs) :
    Option.Rel (List.Forall₂ (LoopRel R)) (s.editLoops targets edit)
      (s'.editLoops targets' edit) := by
  rcases edit with _ | ⟨exit, header, shape⟩ | _ | p
  · exact .some hs.loops
  · refine rel_bind (resolve_related hs (hfits.mono (by simp [LoopEdit.refs]))) fun l l' hl => ?_
    refine rel_bind (resolve_related hs (hfits.mono (by simp [LoopEdit.refs]))) fun k k' hk => ?_
    exact .some (.cons ⟨hl, hk, rfl⟩ hs.loops)
  · have htail := List.forall₂_drop 1 hs.loops
    simp only [List.drop_one] at htail
    exact .some htail
  · have hfilter : List.Forall₂ (LoopRel R) (s.loops.filter fun l => p l.shape)
        (s'.loops.filter fun l => p l.shape) :=
      List.rel_filter (fun l l' hl => by simp only [hl.shape]) hs.loops
    exact .some hfilter

/-- **The same instruction leads from related states to related states.** -/
theorem State.move_related (hs : StateRel R s s') {mv : Move D L}
    (hfits : Fits R s s' targets targets' mv.refs) :
    Option.Rel (StateRel R) (s.move targets mv) (s'.move targets' mv) := by
  refine rel_bind (resolve_related hs (hfits.mono (by simp [Move.refs]))) fun l l' hl => ?_
  refine rel_bind (editCallers_related hs (hfits.mono (by simp [Move.refs]))) fun c c' hc => ?_
  refine rel_bind (editLoops_related hs (hfits.mono (by simp [Move.refs]))) fun k k' hk => ?_
  exact .some ⟨hl, hc, hk, rfl⟩

end OpaquePc
