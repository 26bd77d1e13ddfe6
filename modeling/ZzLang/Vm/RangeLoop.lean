import ZzLang.Library.SignedWords
import ZzLang.Runtime.Fields
import ZzLang.Vm.Frames
import Mathlib.Tactic.Ring

/-!
# Loops over ranges

A `for` loop keeps the value it goes through and an index on the stack, below its variable.
`Op::ForSetup` puts them there and `Op::ForNext` takes the next item, in place if it can
(`forNext_fast`). For a range the index is the next integer itself, and it advances by a wrapping
addition.

A loop over a range visits the integers from the start in steps up to the end, and `len` says how
many they are. Neither holds near the limits of the machine: the loop goes on from the other end of
the integers if the one after the last does not fit, and the formula of the length adds the step
before it divides (`rangeRight_iff`).

The invariant of a run is that after `k` items the index is `start + k * step`. While an integer
before the end is left, this fits by assumption; the induction is on how many are left
(`runLoop_visits`).
-/

namespace ZzLang.Vm

open ZzLang.Runtime

open SignedWords (bmod_of_fits toInt_add toInt_sub toInt_div)

/-- What is left of a run of the machine for its loops: how scopes are opened. -/
structure Scopes (E : Type) where
  withParent : E → E
  define : E → String → Value → E

/-- The machine in the middle of a frame. The top of the stack and the innermost loop come first. -/
structure LoopVm (E : Type) where
  stack : List Value
  loops : List (LoopInfo E)
  env : E
  ip : ℕ
  /-- The position of the running frame. -/
  frameIdx : ℕ

namespace LoopVm

variable {E : Type}

/-- Forget what is above a position of the stack. -/
def truncate (vm : LoopVm E) (n : ℕ) : LoopVm E :=
  { vm with stack := vm.stack.drop (vm.stack.length - n) }

/-- Leave the innermost loop. -/
def leaveLoop (vm : LoopVm E) (exit : ℕ) : Except Failure (LoopVm E) :=
  match vm.loops with
  | li :: loops =>
    .ok { vm.truncate (li.stackBase + 1) with loops := loops, env := li.env, ip := exit }
  | [] => .error .panic

end LoopVm

/-- `Op::ForSetup` and the `Op::ForNext` of one loop. -/
structure ForLoop where
  vars : List String
  exit : ℕ
  header : ℕ
  body : ℕ
  inEnv : Bool

variable (O : ValueOps) {E : Type} (S : Scopes E)

/-- The index with which the loop over a value starts. -/
def firstIndex : Value → Except Failure Value
  | .array _ => .ok (.int 0)
  | .range start _ _ => .ok (.int start)
  | .dict _ => .ok (.int 0)
  | .handle .bytes _ => .ok (.int 0)
  | v => .error (.error s!"cannot iterate a value of type \x60{O.display v}\x60")

/-- `Op::ForSetup`. -/
def forSetup (loop : ForLoop) (vm : LoopVm E) : Except Failure (LoopVm E) :=
  match vm.stack with
  | it :: below =>
    match firstIndex O it with
    | .ok idx =>
      if below.length = 0 then .error .panic
      else
        .ok { vm with
          stack := List.replicate loop.vars.length .unit ++ idx :: it :: below
          loops := ⟨loop.exit, loop.header, vm.env, vm.frameIdx, below.length - 1,
            2 + loop.vars.length⟩ :: vm.loops }
    | .error e => .error e
  | [] => .error .panic

/-- How `Op::ForNext` ends. -/
inductive Next (E : Type)
  | done (vm : LoopVm E)
  /-- There is an item, which is what the loop visits. -/
  | item (v : Value) (vm : LoopVm E)

/-- Is a range done at an integer? -/
def finished (i stop step : Int64) : Bool :=
  if 0 < step then stop ≤ i else i ≤ stop

/-- The next item of a value at an index, if there is one, for the loops that are done in place:
the next index and the item. -/
def nextInPlace (it : Value) (i : Int64) : Option (Except Failure (Option (Value × Value))) :=
  match it with
  | .range _ stop step =>
    if finished i stop step then some (.ok none)
    else some (.ok (some (.int (i + step), .int i)))
  | .array items =>
    if .ofNat items.length ≤ i then some (.ok none)
    else match items[i.toUInt64.toNat]? with
      | some v => some (.ok (some (.int (i + 1), v)))
      | none => some (.error .panic)
  | .handle .bytes b =>
    if .ofNat (O.bytes b).length ≤ i then some (.ok none)
    else match (O.bytes b)[i.toUInt64.toNat]? with
      | some byte => some (.ok (some (.int (i + 1), .int (.ofNat byte.toNat))))
      | none => some (.error .panic)
  | _ => none

/-- The two values of an item for two variables. -/
def unpackPair (item : Value) : Except Failure (Value × Value) :=
  let unpaired : Except Failure (Value × Value) :=
    .error (.error ("cannot unpack a non-pair value into 2 loop variables " ++
      "(expected \x60enumerate()\x60 pairs)"))
  match item with
  | .tuple pair =>
    match pair.reverse with
    | second :: first :: _ => .ok (first, second)
    | _ => .error .panic
  | .array [first, second] => .ok (first, second)
  | _ => unpaired

/-- The next item of a value at an index: the next index, the item, and what a second variable
gets. -/
def nextItem (numVars : ℕ) (it idx : Value) :
    Except Failure (Option (Value × Value × Option Value)) :=
  match it, idx with
  | .range _ stop step, .int i =>
    if finished i stop step then .ok none else .ok (some (.int (i + step), .int i, none))
  | .array items, .int i =>
    if .ofNat items.length ≤ i then .ok none
    else match items[i.toUInt64.toNat]? with
      | some item =>
        if numVars = 2 then do
          let (first, second) ← unpackPair item
          return some (.int (i + 1), first, some second)
        else .ok (some (.int (i + 1), item, none))
      | none => .error .panic
  | .handle .bytes b, .int i =>
    if .ofNat (O.bytes b).length ≤ i then .ok none
    else match (O.bytes b)[i.toUInt64.toNat]? with
      | some byte => .ok (some (.int (i + 1), .int (.ofNat byte.toNat), none))
      | none => .error .panic
  | .dict pairs, .int i =>
    match pairs[i.toUInt64.toNat]? with
    | some (k, v) =>
      .ok (some (.int (.ofNat i.toUInt64.toNat + 1), k, if numVars = 2 then some v else none))
    | none => .ok none
  | _, _ => .error .panic

/-- The scope of the variables of an item. -/
def bindVars (env : E) (vars : List String) (v : Value) (v2 : Option Value) : Except Failure E :=
  match vars, v2 with
  | x :: y :: _, some w => .ok (S.define (S.define (S.withParent env) x v) y w)
  | x :: _, none => .ok (S.define (S.withParent env) x v)
  | _, _ => .error .panic

/-- `Op::ForNext` by popping and pushing. -/
def forNextGeneric (loop : ForLoop) (vm : LoopVm E) : Except Failure (Next E) :=
  match vm.stack.drop loop.vars.length with
  | idx :: it :: below => do
    match ← nextItem O loop.vars.length it idx with
    | none =>
      return .done (← { vm with stack := it :: below }.leaveLoop loop.exit)
    | some (next, v, v2) =>
      let stack := v2.toList ++ v :: next :: it :: below
      if loop.inEnv then
        match vm.loops with
        | li :: _ =>
          let env ← bindVars S li.env loop.vars v v2
          return .item v { vm with stack := stack, env := env, ip := loop.body }
        | [] => .error .panic
      else return .item v { vm with stack := stack, ip := loop.body }
  | _ => .error .panic

/-- The next item of a loop that is done in place, and what the stack keeps below it. -/
def fastNext (loop : ForLoop) (stack : List Value) :
    Option (Except Failure (Option (Value × Value)) × Value × List Value) :=
  match stack with
  | _ :: .int i :: it :: below =>
    if !loop.inEnv && loop.vars.length == 1 then
      (nextInPlace O it i).map fun next => (next, it, below)
    else none
  | _ => none

/-- `Op::ForNext`. -/
def forNext (loop : ForLoop) (vm : LoopVm E) : Except Failure (Next E) :=
  match fastNext O loop vm.stack with
  | some (.ok none, _, _) => do return .done (← vm.leaveLoop loop.exit)
  | some (.ok (some (next, v)), it, below) =>
    .ok (.item v { vm with stack := v :: next :: it :: below, ip := loop.body })
  | some (.error e, _, _) => .error e
  | none => forNextGeneric O S loop vm

/-- Run a loop for some items: what it visits, and the machine when it is done. -/
def runLoop (loop : ForLoop) (body : LoopVm E → LoopVm E) :
    ℕ → LoopVm E → List Value × Option (LoopVm E)
  | 0, _ => ([], none)
  | fuel + 1, vm =>
    match forNext O S loop vm with
    | .ok (.done vm) => ([], some vm)
    | .ok (.item v vm) =>
      let (visited, result) := runLoop loop body fuel (body vm)
      (v :: visited, result)
    | .error _ => ([], none)

/-! ### The two paths of `Op::ForNext` -/

section Paths

variable {O S}

theorem nextItem_of_inPlace {it : Value} {i : Int64}
    {next : Except Failure (Option (Value × Value))} (h : nextInPlace O it i = some next) :
    nextItem O 1 it (.int i) = next.map fun item => item.map fun p => (p.1, p.2, none) := by
  cases it with
  | range _ stop step =>
    simp only [nextInPlace] at h
    split_ifs at h with hdone <;> obtain rfl := Option.some.inj h <;>
      simp [nextItem, hdone, Except.map]
  | array items =>
    simp only [nextInPlace] at h
    split_ifs at h with hdone
    · obtain rfl := Option.some.inj h
      simp [nextItem, hdone, Except.map]
    · rcases hget : items[i.toUInt64.toNat]? with _ | v <;> rw [hget] at h <;>
        obtain rfl := Option.some.inj h <;> simp [nextItem, hdone, hget, Except.map]
  | handle kind b =>
    rcases kind <;> simp only [nextInPlace, reduceCtorEq] at h
    split_ifs at h with hdone
    · obtain rfl := Option.some.inj h
      simp [nextItem, hdone, Except.map]
    · rcases hget : (O.bytes b)[i.toUInt64.toNat]? with _ | v <;> rw [hget] at h <;>
        obtain rfl := Option.some.inj h <;> simp [nextItem, hdone, hget, Except.map]
  | _ => simp [nextInPlace] at h

/-- What is done in place ends in the state in which popping and pushing ends. -/
theorem forNext_eq_generic {loop : ForLoop} {vm : LoopVm E} {v idx it : Value}
    {below : List Value} {li : LoopInfo E} {loops : List (LoopInfo E)}
    (hstack : vm.stack = v :: idx :: it :: below) (hloops : vm.loops = li :: loops)
    (hbase : li.stackBase + 1 ≤ below.length) :
    forNext O S loop vm = forNextGeneric O S loop vm := by
  rcases hfast : fastNext O loop vm.stack with _ | ⟨next, it', below'⟩
  · rw [forNext, hfast]
  -- the loop has one variable, and what is next is what the generic path finds
  obtain ⟨i, rfl, hshape, hnext, rfl, rfl⟩ : ∃ i, idx = .int i ∧
      (loop.inEnv = false ∧ loop.vars.length = 1) ∧ nextInPlace O it i = some next ∧ it = it' ∧
      below = below' := by
    rw [hstack] at hfast
    rcases idx with i | _
    case int =>
      simp only [fastNext] at hfast
      split_ifs at hfast with hshape
      rcases hnext : nextInPlace O it i with _ | n
      · simp [hnext] at hfast
      · rw [hnext] at hfast
        obtain ⟨rfl, rfl, rfl⟩ : n = next ∧ it = it' ∧ below = below' := by simpa using hfast
        exact ⟨i, rfl, by simpa using hshape, hnext, rfl, rfl⟩
    all_goals cases hfast
  have hitem := nextItem_of_inPlace hnext
  rw [forNext, hfast, forNextGeneric, hstack, hshape.2]
  simp only [List.drop_succ_cons, List.drop_zero, hitem]
  rcases next with e | _ | ⟨next, w⟩
  · rfl
  · have hdrop : ∀ top : List Value,
        (top ++ below).drop ((top ++ below).length - (li.stackBase + 1)) =
          below.drop (below.length - (li.stackBase + 1)) := by
      intro top
      rw [List.length_append, show top.length + below.length - (li.stackBase + 1) =
        top.length + (below.length - (li.stackBase + 1)) by omega, List.drop_append]
      simp
    have hleave : vm.leaveLoop loop.exit =
        LoopVm.leaveLoop { vm with stack := it :: below } loop.exit := by
      have h3 := hdrop [v, .int i, it]
      have h1 := hdrop [it]
      simp only [LoopVm.leaveLoop, LoopVm.truncate, hloops, hstack]
      rw [List.cons_append, List.cons_append, List.singleton_append] at h3
      rw [List.singleton_append] at h1
      rw [h3, h1]
    rw [hleave]
    rfl
  · simp [Except.map, hshape.1, bind, Except.bind, pure, Except.pure]

end Paths

/-! ### One step of a loop over a range -/

section Step

variable {O S}

/-- A loop over a range goes on with the integer of the index, and moves the index by the step. -/
theorem forNext_item {loop : ForLoop} {vm : LoopVm E} {v : Value} {a i stop step : Int64}
    {below : List Value} {li : LoopInfo E} {loops : List (LoopInfo E)}
    (hvars : loop.vars.length = 1) (hstack : vm.stack = v :: .int i :: .range a stop step :: below)
    (hloops : vm.loops = li :: loops) (hbase : li.stackBase + 1 = below.length)
    (hgo : finished i stop step = false) :
    ∃ vm', forNext O S loop vm = .ok (.item (.int i) vm') ∧
      vm'.stack = .int i :: .int (i + step) :: .range a stop step :: below ∧
      vm'.loops = li :: loops := by
  rw [forNext_eq_generic hstack hloops hbase.le]
  obtain ⟨x, hx⟩ := List.length_eq_one_iff.mp hvars
  simp only [forNextGeneric, hstack, hx, List.length_singleton, List.drop_succ_cons,
    List.drop_zero, nextItem, hgo, Bool.false_eq_true, if_false, hloops, bindVars]
  split_ifs with henv <;> exact ⟨_, rfl, rfl, by simp⟩

/-- A loop over a range that is done leaves what was below the range. -/
theorem forNext_done {loop : ForLoop} {vm : LoopVm E} {v : Value} {a i stop step : Int64}
    {below : List Value} {li : LoopInfo E} {loops : List (LoopInfo E)}
    (hvars : loop.vars.length = 1) (hstack : vm.stack = v :: .int i :: .range a stop step :: below)
    (hloops : vm.loops = li :: loops) (hbase : li.stackBase + 1 = below.length)
    (hdone : finished i stop step = true) :
    forNext O S loop vm = .ok (.done
      { vm with stack := below, loops := loops, env := li.env, ip := loop.exit }) := by
  rw [forNext_eq_generic hstack hloops hbase.le]
  simp [forNextGeneric, hstack, hvars, nextItem, hdone, LoopVm.leaveLoop, LoopVm.truncate, hloops,
    hbase, bind, Except.bind, pure, Except.pure]

end Step

/-! ### Runs -/

/-- What a body leaves alone: the range, the index and the loops. It may change the variable and
what is below the range. -/
def LeavesWindow (body : LoopVm E → LoopVm E) : Prop :=
  ∀ vm v i it below, vm.stack = v :: i :: it :: below →
    ∃ w below', (body vm).stack = w :: i :: it :: below' ∧ below'.length = below.length ∧
      (body vm).loops = vm.loops

/-- The index after some items. -/
def indexAfter (start step : Int64) : ℕ → Int64
  | 0 => start
  | k + 1 => indexAfter start step k + step

section Runs

variable {O S} {loop : ForLoop} {body : LoopVm E → LoopVm E} {a start stop step : Int64}
  {li : LoopInfo E} {loops : List (LoopInfo E)}

/-- The machine of a loop over a range after some items. -/
structure AtItem (a start stop step : Int64) (li : LoopInfo E) (loops : List (LoopInfo E)) (k : ℕ)
    (vm : LoopVm E) : Prop where
  stack : ∃ v below, vm.stack = v :: .int (indexAfter start step k) :: .range a stop step :: below ∧
    li.stackBase + 1 = below.length
  loops : vm.loops = li :: loops

/-- While the index is before the end, the loop visits it and comes to the next one. -/
theorem AtItem.next {k : ℕ} {vm : LoopVm E} (hvars : loop.vars.length = 1)
    (hbody : LeavesWindow body) (h : AtItem a start stop step li loops k vm)
    (hgo : finished (indexAfter start step k) stop step = false) :
    ∃ vm', forNext O S loop vm = .ok (.item (.int (indexAfter start step k)) vm') ∧
      AtItem a start stop step li loops (k + 1) (body vm') := by
  obtain ⟨v, below, hstack, hbase⟩ := h.stack
  obtain ⟨vm', hnext, hstack', hloops'⟩ := forNext_item (O := O) (S := S) hvars hstack h.loops hbase
    hgo
  obtain ⟨w, below', hbstack, hlen, hbloops⟩ := hbody vm' _ _ _ _ hstack'
  exact ⟨vm', hnext, ⟨w, below', hbstack, hbase.trans hlen.symm⟩, hbloops.trans hloops'⟩

/-- If the end is reached after some more items, the loop visits these and is done. -/
theorem runLoop_visits (hvars : loop.vars.length = 1) (hbody : LeavesWindow body) :
    ∀ (m k : ℕ) (vm : LoopVm E), AtItem a start stop step li loops k vm →
      (∀ j < m, finished (indexAfter start step (k + j)) stop step = false) →
      finished (indexAfter start step (k + m)) stop step = true →
      ∃ vm', runLoop O S loop body (m + 1) vm =
          ((List.range m).map fun j => .int (indexAfter start step (k + j)), some vm') ∧
        vm'.stack.length = li.stackBase + 1 ∧ vm'.loops = loops ∧ vm'.env = li.env ∧
        vm'.ip = loop.exit
  | 0, k, vm, h, _, hdone => by
    obtain ⟨v, below, hstack, hbase⟩ := h.stack
    have hend := forNext_done (O := O) (S := S) hvars hstack h.loops hbase hdone
    exact ⟨_, by rw [runLoop, hend]; rfl, hbase.symm, rfl, rfl, rfl⟩
  | m + 1, k, vm, h, hgo, hdone => by
    obtain ⟨vm₁, hnext, hat⟩ := h.next (O := O) (S := S) hvars hbody (hgo 0 (Nat.succ_pos m))
    have hgo' : ∀ j < m, finished (indexAfter start step (k + 1 + j)) stop step = false := by
      intro j hj
      rw [show k + 1 + j = k + (j + 1) by omega]
      exact hgo (j + 1) (by omega)
    obtain ⟨vm', hrun, hends⟩ := runLoop_visits hvars hbody m (k + 1) (body vm₁) hat hgo'
      (by rwa [show k + 1 + m = k + (m + 1) by omega])
    refine ⟨vm', ?_, hends⟩
    rw [runLoop, hnext]
    simp only [hrun, List.range_succ_eq_map, List.map_cons, List.map_map, Prod.mk.injEq,
      List.cons.injEq, and_true]
    refine ⟨rfl, List.map_congr_left fun j _ => ?_⟩
    rw [Function.comp_apply, show k + 1 + j = k + Nat.succ j by omega]

/-- A loop that is done has visited all the indices before the end that come first. -/
theorem runLoop_length (hvars : loop.vars.length = 1) (hbody : LeavesWindow body) :
    ∀ (m k : ℕ) (vm : LoopVm E), AtItem a start stop step li loops k vm →
      (∀ j < m, finished (indexAfter start step (k + j)) stop step = false) →
      ∀ fuel visited vm', runLoop O S loop body fuel vm = (visited, some vm') → m ≤ visited.length
  | 0, _, _, _, _, _, _, _, _ => Nat.zero_le _
  | m + 1, k, vm, h, hgo, 0, _, _, hrun => by cases hrun
  | m + 1, k, vm, h, hgo, fuel + 1, visited, vm', hrun => by
    obtain ⟨vm₁, hnext, hat⟩ := h.next (O := O) (S := S) hvars hbody (hgo 0 (Nat.succ_pos m))
    have hgo' : ∀ j < m, finished (indexAfter start step (k + 1 + j)) stop step = false := by
      intro j hj
      rw [show k + 1 + j = k + (j + 1) by omega]
      exact hgo (j + 1) (by omega)
    rw [runLoop, hnext] at hrun
    rcases hrest : runLoop O S loop body fuel (body vm₁) with ⟨visited', result⟩
    simp only [hrest, Prod.mk.injEq] at hrun
    obtain ⟨rfl, rfl⟩ := hrun
    have := runLoop_length hvars hbody m (k + 1) (body vm₁) hat hgo' fuel visited' vm' hrest
    rw [List.length_cons]
    omega

end Runs

/-! ### The integers of a range -/

/-- Is an integer before the end of a range? -/
def Before (stop step x : ℤ) : Prop := if 0 < step then x < stop else stop < x

/-- How many integers a range has. -/
def rangeCount (start stop step : ℤ) : ℕ :=
  if 0 < step then ((stop - start + step - 1) / step).toNat
  else ((start - stop - step - 1) / -step).toNat

/-- The integers of a range: from the start in steps up to the end. -/
def rangeInts (start stop step : ℤ) : List ℤ :=
  (List.range (rangeCount start stop step)).map fun k : ℕ => start + k * step

/-- Does an integer fit the machine? -/
def Fits (x : ℤ) : Prop := -2 ^ 63 ≤ x ∧ x < 2 ^ 63

/-- The integers before the end are the first ones. -/
theorem before_iff {start stop step : ℤ} (hstep : step ≠ 0) (k : ℕ) :
    Before stop step (start + k * step) ↔ k < rangeCount start stop step := by
  have hmul : ((k : ℤ) + 1) * step = k * step + step := by ring
  have hmul' : ((k : ℤ) + 1) * -step = -(k * step) - step := by ring
  by_cases hpos : 0 < step
  · rw [Before, if_pos hpos, rangeCount, if_pos hpos, Int.lt_toNat, ← Int.add_one_le_iff,
      ← Int.add_one_le_iff, Int.le_ediv_iff_mul_le hpos, hmul]
    omega
  · rw [Before, if_neg hpos, rangeCount, if_neg hpos, Int.lt_toNat, ← Int.add_one_le_iff,
      ← Int.add_one_le_iff, Int.le_ediv_iff_mul_le (by omega), hmul']
    omega

theorem before_start_iff {start stop step : ℤ} (hstep : step ≠ 0) :
    Before stop step start ↔ 0 < rangeCount start stop step := by
  have h := @before_iff start stop step hstep 0
  rwa [Nat.cast_zero, zero_mul, add_zero] at h

/-- The index is the integer, up to wrapping around. -/
theorem toInt_indexAfter (start step : Int64) (k : ℕ) :
    (indexAfter start step k).toInt = (start.toInt + k * step.toInt).bmod (2 ^ 64) := by
  induction k with
  | zero => simp [indexAfter]
  | succ k ih =>
    rw [indexAfter, Int64.toInt_add, ih, Int.bmod_add_bmod]
    congr 1
    push_cast
    ring

theorem finished_eq_false {i stop step : Int64} :
    finished i stop step = false ↔ Before stop.toInt step.toInt i.toInt := by
  have hpos : 0 < step ↔ 0 < step.toInt := by simp [Int64.lt_iff_toInt_lt]
  simp only [finished, Before, hpos]
  split_ifs <;> simp [Int64.le_iff_toInt_le]

/-! ### When loops and lengths are right -/

/-- The integers that the formula of the length computes on the way. -/
def lenSteps (start stop step : Int64) : List ℤ :=
  if (0 < step ∧ start < stop) ∨ (step < 0 ∧ stop < start) then
    [stop.toInt - start.toInt, stop.toInt - start.toInt + step.toInt,
      stop.toInt - start.toInt + step.toInt - (if 0 < step then 1 else -1)]
  else []

/-- A loop over a range visits its integers and is done, and `len` says how many they are, without
an overflow on the way. -/
structure RangeRight (start stop step : Int64) : Prop where
  loop : ∀ {E : Type} (S : Scopes E) (loop : ForLoop) (body : LoopVm E → LoopVm E)
    (vm : LoopVm E) (below : List Value), loop.vars.length = 1 → LeavesWindow body → below ≠ [] →
      vm.stack = .range start stop step :: below →
        ∃ vm₀ fuel vm', forSetup O loop vm = .ok vm₀ ∧
          runLoop O S loop body fuel vm₀ =
            ((rangeInts start.toInt stop.toInt step.toInt).map fun x => .int (.ofInt x),
              some vm') ∧
          vm'.stack.length = below.length ∧ vm'.loops = vm.loops ∧ vm'.env = vm.env ∧
          vm'.ip = loop.exit
  len : (rangeLen start stop step).toInt = rangeCount start.toInt stop.toInt step.toInt
  steps : ∀ x ∈ lenSteps start stop step, Fits x

section Integers

variable {start stop step : Int64}

theorem nonempty_iff (hstep : step ≠ 0) :
    ((0 < step ∧ start < stop) ∨ (step < 0 ∧ stop < start)) ↔
      Before stop.toInt step.toInt start.toInt := by
  have hne : step.toInt ≠ 0 := fun h => hstep (Int64.toInt_inj.mp (by simpa using h))
  simp only [Int64.lt_iff_toInt_lt, Int64.toInt_zero, Before]
  split_ifs <;> omega

/-- The integers before the end are between the start and the end. -/
theorem fits_of_before {k : ℕ}
    (h : Before stop.toInt step.toInt (start.toInt + k * step.toInt)) :
    Fits (start.toInt + k * step.toInt) := by
  have := start.toInt_lt
  have := start.le_toInt
  have := stop.toInt_lt
  have := stop.le_toInt
  rw [Before] at h
  split_ifs at h with hpos
  · have : 0 ≤ (k : ℤ) * step.toInt := Int.mul_nonneg (by omega) (by omega)
    exact ⟨by omega, by omega⟩
  · have : (k : ℤ) * step.toInt ≤ 0 := Int.mul_nonpos_of_nonneg_of_nonpos (by omega) (by omega)
    exact ⟨by omega, by omega⟩

theorem toInt_indexAfter_of_fits {k : ℕ} (h : Fits (start.toInt + k * step.toInt)) :
    (indexAfter start step k).toInt = start.toInt + k * step.toInt := by
  rw [toInt_indexAfter, bmod_of_fits h]

theorem indexAfter_eq {k : ℕ} (h : Fits (start.toInt + k * step.toInt)) :
    indexAfter start step k = .ofInt (start.toInt + k * step.toInt) := by
  rw [← Int64.toInt_inj, toInt_indexAfter_of_fits h, Int64.toInt_ofInt_of_le h.1 h.2]

/-- The first integers are before the end, and so are the indices. -/
theorem go_of_lt_count (hstep : step.toInt ≠ 0) {k : ℕ}
    (hk : k < rangeCount start.toInt stop.toInt step.toInt) :
    finished (indexAfter start step k) stop step = false := by
  have hbefore := (before_iff hstep k).mpr hk
  rw [finished_eq_false, toInt_indexAfter_of_fits (fits_of_before hbefore)]
  exact hbefore

/-- An index that has wrapped around is before the end again. -/
theorem go_of_wrapped (hstep : step.toInt ≠ 0) {n : ℕ}
    (hn : rangeCount start.toInt stop.toInt step.toInt = n + 1)
    (hwrap : ¬ Fits (start.toInt + (n + 1 : ℕ) * step.toInt)) :
    finished (indexAfter start step (n + 1)) stop step = false := by
  have hbefore : Before stop.toInt step.toInt (start.toInt + n * step.toInt) :=
    (before_iff hstep n).mpr (by omega)
  obtain ⟨hlow, hhigh⟩ := fits_of_before hbefore
  have hnext : start.toInt + (n + 1 : ℕ) * step.toInt =
      start.toInt + n * step.toInt + step.toInt := by push_cast; ring
  rw [finished_eq_false, toInt_indexAfter]
  rw [hnext] at hwrap ⊢
  generalize start.toInt + (n : ℤ) * step.toInt = x at *
  have := step.toInt_lt
  have := step.le_toInt
  simp only [Fits, not_and_or, not_le, not_lt] at hwrap
  simp only [Before] at hbefore ⊢
  split_ifs at hbefore ⊢ with hpos
  · have hmod : (x + step.toInt).bmod (2 ^ 64) = x + step.toInt - 2 ^ 64 := by
      rw [← Int.sub_bmod_right, bmod_of_fits ⟨by omega, by omega⟩]
      norm_num
    omega
  · have hmod : (x + step.toInt).bmod (2 ^ 64) = x + step.toInt + 2 ^ 64 := by
      rw [← Int.add_bmod_right, bmod_of_fits ⟨by omega, by omega⟩]
      norm_num
    omega

/-- The formula of the length counts the integers if it does not overflow. -/
theorem toInt_rangeLen (hstep : step ≠ 0)
    (hfits : Before stop.toInt step.toInt start.toInt →
      Fits (stop.toInt - start.toInt + step.toInt)) :
    (rangeLen start stop step).toInt = rangeCount start.toInt stop.toInt step.toInt ∧
      ∀ x ∈ lenSteps start stop step, Fits x := by
  have hne : step.toInt ≠ 0 := fun h => hstep (Int64.toInt_inj.mp (by simpa using h))
  by_cases hbefore : Before stop.toInt step.toInt start.toInt
  swap
  · have hempty := mt (nonempty_iff hstep).mp hbefore
    have hcount : rangeCount start.toInt stop.toInt step.toInt = 0 := by
      have := mt (before_start_iff hne).mpr hbefore
      omega
    rw [rangeLen, if_neg hempty, lenSteps, if_neg hempty, hcount]
    simp
  have hnonempty := (nonempty_iff hstep).mpr hbefore
  obtain ⟨hlow, hhigh⟩ := hfits hbefore
  have := start.toInt_lt
  have := start.le_toInt
  have := stop.toInt_lt
  have := stop.le_toInt
  have := step.toInt_lt
  have := step.le_toInt
  rw [rangeLen, if_pos hnonempty, lenSteps, if_pos hnonempty]
  have hsub : (stop - start).toInt = stop.toInt - start.toInt := by
    refine toInt_sub rfl rfl ?_
    rw [Before] at hbefore
    split_ifs at hbefore <;> exact ⟨by omega, by omega⟩
  have hadd : (stop - start + step).toInt = stop.toInt - start.toInt + step.toInt :=
    toInt_add hsub rfl ⟨hlow, hhigh⟩
  have hpos : 0 < step ↔ 0 < step.toInt := by simp [Int64.lt_iff_toInt_lt]
  simp only [hpos, rangeCount, List.mem_cons, List.not_mem_nil, or_false, forall_eq_or_imp,
    forall_eq]
  rw [Before] at hbefore
  split_ifs at hbefore ⊢ with hup
  · have hlast : (stop - start + step - 1).toInt = stop.toInt - start.toInt + step.toInt - 1 :=
      toInt_sub hadd Int64.toInt_one ⟨by omega, by omega⟩
    have hnonneg : 0 ≤ stop.toInt - start.toInt + step.toInt - 1 := by omega
    have hdiv := Int.ediv_nonneg hnonneg hup.le
    have hle := Int.ediv_le_self step.toInt hnonneg
    refine ⟨?_, ⟨by omega, by omega⟩, ⟨hlow, hhigh⟩, ⟨by omega, by omega⟩⟩
    rw [toInt_div hlast rfl hnonneg hup.le, Int.toNat_of_nonneg hdiv]
  · have hlast : (stop - start + step - -1).toInt =
        stop.toInt - start.toInt + step.toInt - -1 :=
      toInt_sub hadd rfl ⟨by omega, by omega⟩
    have hneg : stop.toInt - start.toInt + step.toInt - -1 =
        -(start.toInt - stop.toInt - step.toInt - 1) := by ring
    have hnonneg : 0 ≤ start.toInt - stop.toInt - step.toInt - 1 := by omega
    have hdiv := Int.ediv_nonneg hnonneg (show (0 : ℤ) ≤ -step.toInt by omega)
    have hle := Int.ediv_le_self (-step.toInt) hnonneg
    refine ⟨?_, ⟨by omega, by omega⟩, ⟨hlow, hhigh⟩, ⟨by omega, by omega⟩⟩
    rw [Int64.toInt_div, hlast, hneg, Int.neg_tdiv, ← Int.tdiv_neg,
      Int.tdiv_eq_ediv_of_nonneg hnonneg, bmod_of_fits ⟨by omega, by omega⟩,
      Int.toNat_of_nonneg hdiv]

end Integers

/-- Setting up a loop over a range makes the start its index. -/
theorem forSetup_range (loop : ForLoop) {vm : LoopVm E} {start stop step : Int64}
    {below : List Value} (hvars : loop.vars.length = 1) (hbelow : below ≠ [])
    (hstack : vm.stack = .range start stop step :: below) :
    ∃ vm₀ li, forSetup O loop vm = .ok vm₀ ∧
      AtItem start start stop step li vm.loops 0 vm₀ ∧ li.stackBase + 1 = below.length ∧
      li.env = vm.env := by
  have hlen : below.length ≠ 0 := by simpa using hbelow
  have hbase : below.length - 1 + 1 = below.length := Nat.succ_pred_eq_of_ne_zero hlen
  refine ⟨{ vm with
      stack := .unit :: .int start :: .range start stop step :: below
      loops := ⟨loop.exit, loop.header, vm.env, vm.frameIdx, below.length - 1, 3⟩ :: vm.loops },
    _, ?_, ⟨⟨.unit, below, rfl, hbase⟩, rfl⟩, hbase, rfl⟩
  simp only [forSetup, hstack, firstIndex, if_neg hlen, hvars]
  rfl

/-- **Loops over ranges and their lengths are right** exactly if the range is empty, or the end,
less the start and with the step added, and the first integer that is not before the end both fit
the machine. -/
theorem rangeRight_iff (start stop step : Int64) (hstep : step ≠ 0) :
    RangeRight O start stop step ↔
      (Before stop.toInt step.toInt start.toInt →
        Fits (stop.toInt - start.toInt + step.toInt) ∧
        Fits (start.toInt + rangeCount start.toInt stop.toInt step.toInt * step.toInt)) := by
  have hne : step.toInt ≠ 0 := fun h => hstep (Int64.toInt_inj.mp (by simpa using h))
  constructor
  · intro hright hbefore
    refine ⟨hright.steps _ ?_, ?_⟩
    · rw [lenSteps, if_pos ((nonempty_iff hstep).mpr hbefore)]
      simp
    · by_contra hwrap
      obtain ⟨n, hn⟩ : ∃ n, rangeCount start.toInt stop.toInt step.toInt = n + 1 := by
        have := (before_start_iff hne).mp hbefore
        exact ⟨_, (Nat.succ_pred_eq_of_pos this).symm⟩
      -- a loop with an empty body, which does not stop after the last integer
      have hbody : LeavesWindow (E := Unit) id := fun vm v i it below h =>
        ⟨v, below, h, rfl, rfl⟩
      let loop : ForLoop := ⟨["i"], 0, 0, 0, false⟩
      let vm : LoopVm Unit := ⟨[.range start stop step, .unit], [], (), 0, 0⟩
      obtain ⟨vm₀, fuel, vm', hsetup, hrun, -⟩ := hright.loop ⟨id, fun _ _ _ => ()⟩ loop id vm
        [.unit] rfl hbody (by simp) rfl
      obtain ⟨vm₀', li, hsetup', hat, -⟩ := forSetup_range O loop (rfl : loop.vars.length = 1)
        (by simp) (rfl : vm.stack = _)
      obtain rfl : vm₀ = vm₀' := by simpa [hsetup] using hsetup'
      have hlong := runLoop_length (O := O) (S := ⟨id, fun _ _ _ => ()⟩) (rfl : loop.vars.length = 1)
        hbody (n + 2) 0 vm₀ hat (fun j hj => ?_) fuel _ vm' hrun
      · rw [List.length_map, rangeInts, List.length_map, List.length_range, hn] at hlong
        omega
      · rw [Nat.zero_add]
        rcases Nat.lt_succ_iff_lt_or_eq.mp hj with hlt | rfl
        · exact go_of_lt_count hne (by omega)
        · exact go_of_wrapped hne hn (by rwa [hn] at hwrap)
  · intro hfits
    obtain ⟨hlen, hsteps⟩ := toInt_rangeLen hstep fun h => (hfits h).1
    refine ⟨?_, hlen, hsteps⟩
    intro E S loop body vm below hvars hbody hbelow hstack
    obtain ⟨vm₀, li, hsetup, hat, hbase, henv⟩ := forSetup_range O loop hvars hbelow hstack
    set n := rangeCount start.toInt stop.toInt step.toInt with hn
    have hlast : Fits (start.toInt + n * step.toInt) := by
      by_cases hbefore : Before stop.toInt step.toInt start.toInt
      · exact (hfits hbefore).2
      · have hzero : n = 0 := by
          have := mt (before_start_iff hne).mpr hbefore
          omega
        rw [hzero]
        simpa [Fits] using ⟨start.le_toInt, start.toInt_lt⟩
    have hdone : finished (indexAfter start step (0 + n)) stop step = true := by
      rw [Nat.zero_add, ← Bool.not_eq_false, finished_eq_false, toInt_indexAfter_of_fits hlast,
        before_iff hne]
      exact lt_irrefl _
    obtain ⟨vm', hrun, hstack', hloops', henv', hip⟩ := runLoop_visits (O := O) (S := S) hvars hbody
      n 0 vm₀ hat (fun j hj => by rw [Nat.zero_add]; exact go_of_lt_count hne hj) hdone
    refine ⟨vm₀, n + 1, vm', hsetup, ?_, hstack'.trans hbase, hloops', henv'.trans henv, hip⟩
    rw [hrun, rangeInts, ← hn, List.map_map]
    refine congrArg (·, some vm') (List.map_congr_left fun k hk => ?_)
    have hk' : k < n := List.mem_range.mp hk
    rw [Nat.zero_add, Function.comp_apply,
      indexAfter_eq (fits_of_before ((before_iff hne k).mpr hk'))]

/-- Over `0..3` a loop visits three integers, and `len` says so. -/
theorem rangeRight_zero_three : ¬ ∃ O : ValueOps, ¬ RangeRight O 0 3 1 := by
  rintro ⟨O, hwrong⟩
  exact hwrong ((rangeRight_iff O 0 3 1 (by decide)).mpr fun _ =>
    ⟨⟨by decide, by decide⟩, ⟨by decide, by decide⟩⟩)

/-- The length of the range from `-1` to the greatest integer is the least integer. -/
theorem not_rangeRight_long : ¬ ∃ O : ValueOps, RangeRight O (-1) 9223372036854775807 1 := by
  rintro ⟨O, hright⟩
  have hlen : (rangeLen (-1) 9223372036854775807 1).toInt = -9223372036854775808 := by decide
  have hcount := hright.len
  rw [hlen] at hcount
  omega

end ZzLang.Vm
