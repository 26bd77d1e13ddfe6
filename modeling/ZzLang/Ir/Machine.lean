import ZzLang.Ir.Passes
import ZzLang.Runtime.Binary
import ZzLang.Library.OpaquePc
import ZzLang.Library.Stutter

/-!
# Running a module

What the virtual machine does with the functions of a module. The ops that the rewriting passes
touch are spelled out: constants, slots, the generic operators, the fused slot ops with their
fast paths, jumps and loops. The others (calls, returns, collections, matching and so on) are a
parameter, a `Host`: it says for each of them how it changes the stack, the environment and the
rest of the interpreter, and where it goes on. No op can see a position in the code, so it
refers to positions as `OpaquePc.Ref` allows: an op that calls a function goes on at the start
of that function and adds the next position to the callers, a return goes on where the
innermost caller does.

A task that is suspended is resumed where it stopped, so a yield is a step like any other. A
slot is a position of the stack, counted from the base of the running frame.

Raising a module to the form the machine runs gives the constants their values
(`Module.raiseConst`); the rest of the raised form is the code itself.
-/

namespace ZzLang

open ZzLang.Runtime (Value Prims Failure evalBinary evalIntBinary intCmp)
open OpaquePc Lockstep

/-! ### The positions of an op -/

/-- Change the positions an op carries. -/
def Op.mapTargets (φ : UInt32 → UInt32) : Op → Op
  | .jump t => .jump (φ t)
  | .jumpIfFalse t => .jumpIfFalse (φ t)
  | .jumpIfTrue t => .jumpIfTrue (φ t)
  | .jumpIfFalseBool t => .jumpIfFalseBool (φ t)
  | .forSetup exit header numVars => .forSetup (φ exit) (φ header) numVars
  | .forNext vars exit body inEnv => .forNext vars (φ exit) (φ body) inEnv
  | .whileSetup exit header => .whileSetup (φ exit) (φ header)
  | .jumpIfFalseSlotCmpIntImm a imm op t => .jumpIfFalseSlotCmpIntImm a imm op (φ t)
  | .jumpIfFalseSlotCmpIntSlot a b op t => .jumpIfFalseSlotCmpIntSlot a b op (φ t)
  | .whileCond exit => .whileCond (φ exit)
  | .matchArm pat next hasEnv restore => .matchArm pat (φ next) hasEnv restore
  | .matchGuard next hasEnv => .matchGuard (φ next) hasEnv
  | .ifLetMatch pat els hasEnv => .ifLetMatch pat (φ els) hasEnv
  | op => op

/-- The positions an op carries. -/
def Op.positions : Op → List UInt32
  | .jump t | .jumpIfFalse t | .jumpIfTrue t | .jumpIfFalseBool t => [t]
  | .forSetup exit header _ => [exit, header]
  | .forNext _ exit body _ => [exit, body]
  | .whileSetup exit header => [exit, header]
  | .jumpIfFalseSlotCmpIntImm _ _ _ t | .jumpIfFalseSlotCmpIntSlot _ _ _ t => [t]
  | .whileCond exit => [exit]
  | .matchArm _ next _ _ => [next]
  | .matchGuard next _ => [next]
  | .ifLetMatch _ els _ => [els]
  | _ => []

/-- An op without its positions. -/
def Op.shape (op : Op) : Op := op.mapTargets fun _ => 0

/-- The positions an op carries. -/
def Op.targets (op : Op) : List ℕ := op.positions.map UInt32.toNat

/-- The same op with related positions. -/
def Op.Rewired (P : ℕ → ℕ → Prop) (op op' : Op) : Prop :=
  op'.shape = op.shape ∧ List.Forall₂ P op.targets op'.targets

theorem Op.rewired_refl {P : ℕ → ℕ → Prop} (hP : ∀ t, P t t) (op : Op) : op.Rewired P op :=
  ⟨rfl, List.forall₂_same.mpr fun t _ => hP t⟩

/-- Rewriting the positions of an op gives the same op with related positions. -/
theorem Op.rewired_of_retarget {target header : UInt32 → Except IrError UInt32}
    {P : ℕ → ℕ → Prop} (htarget : ∀ t t', target t = .ok t' → P t.toNat t'.toNat)
    (hheader : ∀ t t', header t = .ok t' → P t.toNat t'.toNat) {op op' : Op}
    (h : op.retarget target header = .ok op') : op.Rewired P op' := by
  rcases op
  case jump | jumpIfFalse | jumpIfTrue | jumpIfFalseBool | jumpIfFalseSlotCmpIntImm |
      jumpIfFalseSlotCmpIntSlot | whileCond | matchArm | matchGuard | ifLetMatch =>
    obtain ⟨t', ht, h⟩ := of_bind_ok h
    obtain rfl := Except.ok.inj h
    exact ⟨rfl, .cons (htarget _ _ ht) .nil⟩
  case forSetup | whileSetup =>
    obtain ⟨t', ht, h⟩ := of_bind_ok h
    obtain ⟨u', hu, h⟩ := of_bind_ok h
    obtain rfl := Except.ok.inj h
    exact ⟨rfl, .cons (htarget _ _ ht) (.cons (hheader _ _ hu) .nil)⟩
  case forNext =>
    obtain ⟨t', ht, h⟩ := of_bind_ok h
    obtain ⟨u', hu, h⟩ := of_bind_ok h
    obtain rfl := Except.ok.inj h
    exact ⟨rfl, .cons (htarget _ _ ht) (.cons (htarget _ _ hu) .nil)⟩
  all_goals
    obtain rfl := Except.ok.inj h
    exact ⟨rfl, .nil⟩

/-! ### Constants -/

/-- The values of a list of constants, one after the other. -/
def raiseAll (raise : ConstId → List ConstId → Option (Value × List ConstId)) :
    List ConstId → List ConstId → Option (List Value × List ConstId)
  | [], seen => some ([], seen)
  | id :: ids, seen => do
    let (v, seen) ← raise id seen
    let (vs, seen) ← raiseAll raise ids seen
    return (v :: vs, seen)

/-- Keys and values, two by two. -/
def pairUp : List Value → List (Value × Value)
  | k :: v :: vs => (k, v) :: pairUp vs
  | _ => []

/-- The value of a constant. `seen` are the constants met so far: one that is met again has no
value. So there are fewer levels than constants. -/
def Module.raiseConst (m : Module) : ℕ → ConstId → List ConstId → Option (Value × List ConstId)
  | 0, _, _ => none
  | fuel + 1, id, seen =>
    if id ∈ seen then none
    else
      let seen := id :: seen
      match m.consts[id.val.toNat]? with
      | none => none
      | some .unit => some (.unit, seen)
      | some (.bool b) => some (.bool b, seen)
      | some (.int i) => some (.int i, seen)
      | some (.float x) => some (.float x, seen)
      | some (.str s) => (m.strings[s.val.toNat]?).map fun s => (.str s, seen)
      | some (.array items) => do
        let (vs, seen) ← raiseAll (m.raiseConst fuel) items seen
        return (.array vs, seen)
      | some (.dict pairs) => do
        let (vs, seen) ← raiseAll (m.raiseConst fuel) (pairs.flatMap fun p => [p.1, p.2]) seen
        return (.dict (pairUp vs), seen)
      | some (.option none) => some (.none, seen)
      | some (.option (some x)) => do
        let (v, seen) ← m.raiseConst fuel x seen
        return (.some v, seen)
      | some (.result ok val) => do
        let (v, seen) ← m.raiseConst fuel val seen
        return (if ok then .ok v else .err v, seen)

/-- The value of a constant of the pool. -/
def Module.constValue (m : Module) (id : ConstId) : Option Value :=
  (m.raiseConst (m.consts.length + 1) id []).map Prod.fst

/-! ### States and effects -/

/-- What the running frame works on. -/
structure Data (E I : Type) where
  /-- The position of slot 0. -/
  base : ℕ
  /-- The bottom comes first. -/
  stack : List Value
  env : E
  interp : I

/-- A loop, apart from its positions. -/
structure LoopShape (E : Type) where
  env : E
  frameIdx : ℕ
  stackBase : ℕ
  slots : ℕ

/-- What an op gets to see. -/
structure View (E I : Type) extends Data E I where
  func : ℕ
  /-- The number of frames below the running one. -/
  depth : ℕ
  /-- The loops, the innermost one first. -/
  loops : List (LoopShape E)

/-- The machine. -/
abbrev MState (E I : Type) := State (Data E I) (LoopShape E)

/-- How a run ends: with a value or another signal, or because an op fails. -/
inductive End (F : Type)
  | flow (f : F)
  | failed (why : Failure)

/-- The end of a run and what it leaves. -/
structure Outcome (E I F : Type) where
  how : End F
  data : Data E I

/-- What an op does. -/
inductive Effect (E I F : Type)
  /-- It goes on, and takes a branch or not if it is a conditional one. -/
  | go (mv : Move (Data E I) (LoopShape E)) (branch : Option Bool)
  | stop (how : End F) (data : Data E I)

/-- The next item of a loop. -/
inductive ForItem (E I : Type)
  | done
  /-- The stack with the new index and the new variables, and their scope. -/
  | item (data : Data E I)
  | fail (why : Failure)

/-- The rest of the machine. -/
structure Host (E I F : Type) where
  prims : Prims
  /-- The text of a value. -/
  display : Value → String
  /-- The time slice is over: the task is suspended, and resumed with this. -/
  safepointExpired : View E I → Option (Data E I)
  /-- The iteration step of a loop over these variables. -/
  forItem : List StrId → Bool → View E I → ForItem E I
  /-- An op that is not spelled out. -/
  exec : Op → View E I → Effect E I F
  /-- The end of the code of a function. -/
  finish : View E I → Effect E I F

section

variable {E I F : Type}

/-- The machine as an op sees it. -/
def MState.view (s : MState E I) : View E I where
  toData := s.data
  func := s.loc.code
  depth := s.callers.length
  loops := s.loops.map Loop.shape

namespace Effect

/-- Go on with the next op. -/
def next (d : Data E I) : Effect E I F := .go ⟨d, .next, none, .keep⟩ none

/-- Jump, or go on with the next op. -/
def branch (d : Data E I) (jumped : Bool) : Effect E I F :=
  .go ⟨d, if jumped then .target 0 else .next, none, .keep⟩ (some jumped)

/-- Fail. -/
def fail (d : Data E I) (why : Failure) : Effect E I F := .stop (.failed why) d

end Effect

namespace Data

/-- Push a value. -/
def push (d : Data E I) (v : Value) : Data E I := { d with stack := d.stack ++ [v] }

/-- Drop the top of the stack. -/
def dropTop (d : Data E I) : Data E I := { d with stack := d.stack.dropLast }

/-- Keep the lowest `n` entries of the stack. -/
def truncate (d : Data E I) (n : ℕ) : Data E I := { d with stack := d.stack.take n }

/-- The value of a slot. -/
def slot (d : Data E I) (s : UInt16) : Option Value := d.stack[d.base + s.toNat]?

/-- The slot is a position of the stack. -/
def Live (d : Data E I) (s : UInt16) : Prop := d.base + s.toNat < d.stack.length

/-- Write a slot. -/
def setSlot (d : Data E I) (s : UInt16) (v : Value) : Data E I :=
  { d with stack := d.stack.set (d.base + s.toNat) v }

/-- Write a slot and go on, if the slot is there. -/
def storeSlot (d : Data E I) (s : UInt16) (v : Value) : Effect E I F :=
  if d.base + s.toNat < d.stack.length then .next (d.setSlot s v) else .fail d .panic

/-- Take the top of the stack. -/
def withTop (d : Data E I) (k : Value → Data E I → Effect E I F) : Effect E I F :=
  match d.stack.getLast? with
  | some v => k v d.dropTop
  | none => .fail d .panic

end Data

/-! ### Fused slot ops -/

/-- A fast path for integers, and the generic operator for everything else. -/
def fastBinary (P : Prims) (fast : Int64 → Int64 → Except Failure Value) (op : BinOp)
    (l r : Value) : Except Failure Value :=
  match l, r with
  | .int a, .int b => fast a b
  | l, r => evalBinary P op l r

/-- The fast path of a comparison. -/
def fastCmp (op : BinOp) (a b : Int64) : Except Failure Value :=
  match intCmp op a b with
  | some c => .ok (.bool c)
  | none => evalIntBinary op a b

/-- The fast paths of a comparison with a constant. -/
def fastCmpConst (op : BinOp) (l r : Value) : Option Bool :=
  match l, r with
  | .str x, .str y =>
    match op with
    | .eq => some (x == y)
    | .ne => some (x != y)
    | _ => none
  | .int x, .int y => intCmp op x y
  | _, _ => none

/-- Read two operands and compute; a missing one is a panic. -/
def operate (d : Data E I) (l r : Option Value) (f : Value → Value → Except Failure Value)
    (k : Value → Effect E I F) : Effect E I F :=
  match l, r with
  | some l, some r =>
    match f l r with
    | .ok v => k v
    | .error why => .fail d why
  | _, _ => .fail d .panic

/-- The condition of a fused jump has to be a boolean. -/
def branchOn (d : Data E I) : Value → Effect E I F
  | .bool b => .branch d !b
  | _ => .fail d (.error "`if` condition must be a bool")

/-- What an op does, given without its positions. -/
def Module.effect (m : Module) (host : Host E I F) (op : Op) (v : View E I) : Effect E I F :=
  let d := v.toData
  let P := host.prims
  let imm (i : Int64) : Option Value := some (.int i)
  match op with
  | .pushConst c =>
    match m.constValue c with
    | some x => .next (d.push x)
    | none => .fail d .panic
  | .pop => .next d.dropTop
  | .loadSlot s =>
    match d.slot s with
    | some x => .next (d.push x)
    | none => .fail d .panic
  | .storeSlot s => d.withTop fun x d => d.storeSlot s x
  | .slotAddInt dst src =>
    operate d (d.slot dst) (d.slot src) (fastBinary P (fun a b => .ok (.int (a + b))) .add)
      (d.storeSlot dst)
  | .slotInc s =>
    operate d (d.slot s) (imm 1) (fastBinary P (fun a b => .ok (.int (a + b))) .add)
      (d.storeSlot s)
  | .slotAddIntImm dst i =>
    operate d (d.slot dst) (imm i) (fastBinary P (fun a b => .ok (.int (a + b))) .add)
      (d.storeSlot dst)
  | .slotSubIntImm dst i =>
    operate d (d.slot dst) (imm i) (fastBinary P (fun a b => .ok (.int (a - b))) .sub)
      (d.storeSlot dst)
  | .slotMulIntImm dst i =>
    operate d (d.slot dst) (imm i) (fastBinary P (fun a b => .ok (.int (a * b))) .mul)
      (d.storeSlot dst)
  | .slotLessIntSlot a b =>
    operate d (d.slot a) (d.slot b) (fastBinary P (fun x y => .ok (.bool (decide (x < y)))) .lt)
      fun x => .next (d.push x)
  | .slotLessIntImm a i =>
    operate d (d.slot a) (imm i) (fastBinary P (fun x y => .ok (.bool (decide (x < y)))) .lt)
      fun x => .next (d.push x)
  | .slotCmpIntSlot a b op =>
    operate d (d.slot a) (d.slot b) (fastBinary P (fastCmp op) op) fun x => .next (d.push x)
  | .slotCmpIntImm a i op =>
    operate d (d.slot a) (imm i) (fastBinary P (fastCmp op) op) fun x => .next (d.push x)
  | .slotCmpConst a k op =>
    operate d (d.slot a) (m.constValue k)
      (fun l r =>
        match fastCmpConst op l r with
        | some c => .ok (.bool c)
        | none => evalBinary P op l r)
      fun x => .next (d.push x)
  | .slotBinaryInt dst lhs rhs op =>
    operate d (d.slot lhs) (d.slot rhs) (fastBinary P (evalIntBinary op) op) (d.storeSlot dst)
  | .slotBinaryIntImm dst lhs i op =>
    operate d (d.slot lhs) (imm i) (fastBinary P (evalIntBinary op) op) (d.storeSlot dst)
  | .pushSlotIntImm a i op =>
    operate d (d.slot a) (imm i) (fastBinary P (evalIntBinary op) op) fun x => .next (d.push x)
  | .jumpIfFalseSlotCmpIntImm a i op _ =>
    operate d (d.slot a) (imm i) (fastBinary P (fastCmp op) op) (branchOn d)
  | .jumpIfFalseSlotCmpIntSlot a b op _ =>
    operate d (d.slot a) (d.slot b) (fastBinary P (fastCmp op) op) (branchOn d)
  | .binOp op => d.withTop fun r d => d.withTop fun l d =>
    match evalBinary P op l r with
    | .ok x => .next (d.push x)
    | .error why => .fail d why
  | .jump _ => .go ⟨d, .target 0, none, .keep⟩ none
  | .jumpIfFalse _ => d.withTop fun x d => .branch d !x.isTruthy
  | .jumpIfTrue _ => d.withTop fun x d => .branch d x.isTruthy
  | .jumpIfFalseBool _ => d.withTop fun x d => branchOn d x
  | .forSetup _ _ numVars => d.withTop fun it d =>
    let start : Option Value :=
      match it with
      | .array _ | .dict _ | .handle .bytes _ => some (.int 0)
      | .range start _ _ => some (.int start)
      | _ => none
    match start with
    | some idx =>
      let d' := { d with stack := d.stack ++ it :: idx :: List.replicate numVars.toNat .unit }
      if d.stack.isEmpty then .fail d .panic
      else .go ⟨d', .next, none, .enter (.target 0) (.target 1)
        ⟨d.env, v.depth, d.stack.length - 1, 2 + numVars.toNat⟩⟩ none
    | none => .fail d (.error s!"cannot iterate a value of type `{host.display it}`")
  | .forNext vars _ _ inEnv =>
    match host.safepointExpired v with
    | some d => .go ⟨d, .here, none, .keep⟩ none
    | none =>
      match host.forItem vars inEnv v with
      | .item d => .go ⟨d, .target 1, none, .keep⟩ (some false)
      | .done =>
        match v.loops with
        | li :: _ =>
          .go ⟨{ d.truncate (li.stackBase + 1) with env := li.env }, .target 0, none, .leave⟩
            (some true)
        | [] => .fail d .panic
      | .fail why => .fail d why
  | .whileSetup _ _ =>
    .go ⟨d, .next, none, .enter (.target 0) (.target 1) ⟨d.env, v.depth, d.stack.length, 0⟩⟩ none
  | .whileCond _ =>
    match host.safepointExpired v with
    | some d => .go ⟨d, .here, none, .keep⟩ none
    | none => d.withTop fun c d =>
      match c with
      | .bool false =>
        match v.loops with
        | li :: _ =>
          .go ⟨{ d.truncate (li.stackBase + 1) with env := li.env }, .target 0, none, .leave⟩
            (some true)
        | [] => .fail d .panic
      | .bool true => .go ⟨d, .next, none, .keep⟩ (some false)
      | _ => .fail d (.error "`while` condition must be a bool")
  | .breakLoop =>
    match v.loops with
    | li :: _ =>
      if li.frameIdx = v.depth then
        .go ⟨{ d.truncate (li.stackBase + 1) with env := li.env }, .loopExit, none, .leave⟩ none
      else .fail d (.error "`break` outside of a loop")
    | [] => .fail d (.error "`break` outside of a loop")
  | .continueLoop =>
    match v.loops with
    | li :: _ =>
      if li.frameIdx = v.depth then
        .go ⟨{ d.truncate (li.stackBase + 1 + li.slots) with env := li.env }, .loopHeader, none,
          .keep⟩ none
      else .fail d (.error "`continue` outside of a loop")
    | [] => .fail d (.error "`continue` outside of a loop")
  | op => host.exec op v

/-! ### Steps -/

/-- What the op at the machine's position does, and the positions it carries. -/
def Module.act (m : Module) (host : Host E I F) (s : MState E I) : Effect E I F × List ℕ :=
  match m.funcs[s.loc.code]? with
  | none => (.fail s.data .panic, [])
  | some f =>
    match f.code[s.loc.pc]? with
    | none => (host.finish s.view, [])
    | some op => (m.effect host op.shape s.view, op.targets)

/-- Carry out an effect. -/
def Effect.apply (s : MState E I) (targets : List ℕ) :
    Effect E I F → Progress (MState E I) (Outcome E I F)
  | .go mv _ =>
    match s.move targets mv with
    | some s' => .go s'
    | none => .stop ⟨.failed .panic, mv.data⟩
  | .stop how data => .stop ⟨how, data⟩

/-- One step. -/
def Module.step (m : Module) (host : Host E I F) (s : MState E I) :
    Progress (MState E I) (Outcome E I F) :=
  (m.act host s).1.apply s (m.act host s).2

/-- The branch an op takes, if it is a conditional one. -/
def Effect.branches : Effect E I F → List Bool
  | .go _ (some b) => [b]
  | _ => []

/-- The machine that runs a module; its steps show which branches they take. -/
def Module.machine (m : Module) (host : Host E I F) :
    Stutter.Machine (MState E I) (Outcome E I F) Bool where
  step := m.step host
  shows s := (m.act host s).1.branches

/-- The start of a function in a frame. -/
def MState.start (func : ℕ) (d : Data E I) : MState E I := ⟨⟨func, 0⟩, [], [], d⟩

/-! ### Related machines -/

variable {m m' : Module} {host : Host E I F}

/-- The constants an op names. -/
def Op.constIds : Op → List ConstId
  | .pushConst id => [id]
  | .slotCmpConst _ k _ => [k]
  | _ => []

/-- The constants are all a module adds to an op. -/
theorem effect_congr {op : Op} (h : ∀ c ∈ op.constIds, m.constValue c = m'.constValue c)
    (v : View E I) : m.effect host op.shape v = m'.effect host op.shape v := by
  rcases op
  case pushConst id =>
    have hid := h id (List.mem_singleton_self id)
    show (match m.constValue id with
      | some x => Effect.next (v.toData.push x)
      | none => .fail v.toData .panic) = match m'.constValue id with
      | some x => .next (v.toData.push x)
      | none => .fail v.toData .panic
    rw [hid]
  case slotCmpConst a k op =>
    have hk := h k (List.mem_singleton_self k)
    exact congrArg (fun c => operate v.toData (v.toData.slot a) c
      (fun l r => match fastCmpConst op l r with
        | some c => .ok (.bool c)
        | none => evalBinary host.prims op l r)
      fun x => .next (v.toData.push x)) hk
  all_goals rfl

/-- The machine at the op behind this one. -/
def MState.advance (s : MState E I) (j : ℕ) (d : Data E I) : MState E I :=
  { s with loc := ⟨s.loc.code, s.loc.pc + j⟩, data := d }

theorem step_of_act_next {s : MState E I} {d : Data E I} (h : (m.act host s).1 = .next d) :
    (m.machine host).step s = .go (s.advance 1 d) ∧ (m.machine host).shows s = [] := by
  simp only [Module.machine, Module.step, h]
  exact ⟨rfl, rfl⟩

theorem step_of_act_fail {s : MState E I} {d : Data E I} {why : Failure}
    (h : (m.act host s).1 = .fail d why) :
    (m.machine host).step s = .stop ⟨.failed why, d⟩ ∧ (m.machine host).shows s = [] := by
  simp only [Module.machine, Module.step, h]
  exact ⟨rfl, rfl⟩

/-- An op sees the same in related states. -/
theorem MState.view_eq {R : ℕ → ℕ → ℕ → Prop} {s s' : MState E I} (h : StateRel R s s') :
    MState.view s = MState.view s' := by
  obtain ⟨⟨hcode, -⟩, hcallers, hloops, hdata⟩ := h
  have hshapes : s.loops.map Loop.shape = s'.loops.map Loop.shape := by
    rw [← List.forall₂_eq_eq_eq, List.forall₂_map_left_iff, List.forall₂_map_right_iff]
    exact hloops.imp fun l l' hl => hl.shape
  rw [MState.view, MState.view, hcode, hcallers.length_eq, hshapes, hdata]

/-- Two machines that do the same in related states take related steps. -/
theorem Module.step_related {R : ℕ → ℕ → ℕ → Prop} {s s' : MState E I} (hs : StateRel R s s')
    (hact : (m.act host s).1 = (m'.act host s').1)
    (hfits : ∀ mv b, (m.act host s).1 = .go mv b →
      Fits R s s' (m.act host s).2 (m'.act host s').2 mv.refs) :
    Stutter.Matches (StateRel R) (m.step host s) (m'.step host s') := by
  rw [step, step, ← hact]
  rcases heff : (m.act host s).1 with ⟨mv, b⟩ | ⟨how, d⟩
  · have hrel := State.move_related hs (hfits mv b heff)
    rw [Effect.apply, Effect.apply]
    generalize s.move (m.act host s).2 mv = x at hrel
    generalize s'.move (m'.act host s').2 mv = y at hrel
    rcases hrel with ⟨hrel⟩ | _
    · exact hrel
    · rfl
  · rfl

end

end ZzLang
