import ZzLang.Library.Lockstep
import ZzLang.Runtime.Value

/-!
# Frames and deferred closures of the virtual machine

The run loop of the virtual machine as far as it deals with call frames: how frames are
opened and left, and how the closures recorded by `defer` travel with them. Three
instructions are spelled out, because they leave a frame or record a closure; what the others
compute does not matter here. They get at the frames only by opening one for a callee, so
they are a parameter: a `Host` says for each of them how it changes the part of the machine
in its reach, and whether it calls. A suspended task is resumed where it stopped, so a yield is
a step like any other.

Stacks are lists with the top first; the depth of a frame is the number of frames up to it.
-/

namespace ZzLang.Vm

open ZzLang.Runtime (Value)

open Lockstep

/-- An instruction. -/
inductive Op (O : Type)
  | ret
  | tryOp
  | deferRecord
  | other (o : O)

/-- The code of a function, with the names that its slots have at top level. -/
structure Chunk (O : Type) where
  code : List (Op O)
  toplevelSlots : List (String × ℕ)

/-- An active call. -/
structure Frame (O Env : Type) where
  chunk : Chunk O
  ip : ℕ
  /-- The environment to restore when the frame is left. -/
  prevEnv : Env
  stackBase : ℕ
  /-- The closures deferred by the caller, put aside during the call. -/
  deferStack : List Value

/-- An active loop. -/
structure LoopInfo (Env : Type) where
  exit : ℕ
  header : ℕ
  env : Env
  frameIdx : ℕ
  stackBase : ℕ
  slots : ℕ

/-- What is saved while the deferred closures of a frame run before its return. -/
structure DeferReturn where
  returnValue : Value
  remaining : List Value
  parentDefers : List Value
  fromReturn : Bool

/-- The machine apart from its frames and deferred closures. -/
structure Core (Env Interp : Type) where
  stack : List Value
  loops : List (LoopInfo Env)
  /-- The depths of the frames of pending error conversions. -/
  tryConvertDepths : List ℕ
  ip : ℕ
  env : Env
  interp : Interp

/-- The virtual machine, with the interpreter it runs against. -/
structure Machine (O Env Interp : Type) extends Core Env Interp where
  frames : List (Frame O Env)
  deferStack : List Value
  deferReturn : Option DeferReturn

/-- What an instruction can get at: the machine apart from the frames, and the `ip` saved in
the frame it runs in. -/
structure Local (Env Interp : Type) where
  stack : List Value
  loops : List (LoopInfo Env)
  ip : ℕ
  savedIp : ℕ
  env : Env
  interp : Interp

/-- What an instruction does. -/
inductive Effect (O Env Interp Error : Type)
  | next (l : Local Env Interp)
  /-- Open a frame for a callee whose arguments are on the stack. -/
  | enter (stackBase : ℕ) (chunk : Chunk O) (env : Env) (l : Local Env Interp)
  | fail (e : Error) (interp : Interp)

/-- How an error is converted on its way out of a function. -/
inductive Conversion (O Env Interp Error : Type)
  /-- There is no conversion. -/
  | keep
  /-- A compiled function converts, called with these arguments. -/
  | call (args : List Value) (chunk : Chunk O) (env : Env) (interp : Interp)
  /-- Another function has converted. -/
  | done (converted : Value) (interp : Interp)
  | fail (e : Error) (interp : Interp)

/-- The rest of the interpreter. -/
structure Host (O Env Interp Error : Type) where
  /-- Define a variable of an environment. -/
  define : Env → String → Value → Interp → Interp
  /-- The code and the environment of a compiled function. -/
  closure : Value → Option (Chunk O × Env)
  /-- Run an instruction in a frame of this chunk, stack base and depth. -/
  exec : Chunk O → ℕ → ℕ → O → Local Env Interp → Effect O Env Interp Error
  convert : Value → Env → Interp → Conversion O Env Interp Error
  /-- The error of `?` on a value that is neither an option nor a result. -/
  notTryable : Value → Error

/-- The result of a run. -/
inductive Result (Error : Type)
  | value (v : Value)
  | returned (v : Value)
  | fail (e : Error)
  | panic

/-- The end of a run: its result and what it leaves of the interpreter. -/
structure Outcome (Env Interp Error : Type) where
  result : Result Error
  env : Env
  interp : Interp

section

variable {O Env Interp Error : Type}

/-- Keep the lowest `n` entries of a stack. -/
def truncate (n : ℕ) (stack : List Value) : List Value :=
  stack.drop (stack.length - n)

/-- Copy the promoted slots of a frame to the environment. -/
def syncToplevel (host : Host O Env Interp Error) (chunk : Chunk O) (stackBase : ℕ)
    (s : Core Env Interp) : Core Env Interp :=
  { s with
    interp := chunk.toplevelSlots.foldl (fun interp (name, slot) =>
      match s.stack.reverse[stackBase + slot]? with
      | some v => host.define s.env name v interp
      | none => interp) s.interp }

/-- The value on top of a frame's part of the stack, if there is one. -/
def popResult (stackBase : ℕ) (s : Core Env Interp) : Value × Core Env Interp :=
  match s.stack with
  | v :: stack => if stackBase ≤ stack.length then (v, { s with stack }) else (.unit, s)
  | [] => (.unit, s)

/-- End the run. -/
def Core.finish (s : Core Env Interp) (result : Result Error) : Outcome Env Interp Error :=
  ⟨result, s.env, s.interp⟩

/-- The part of the machine in reach of an instruction. -/
def Core.reach (s : Core Env Interp) (savedIp : ℕ) : Local Env Interp :=
  { stack := s.stack, loops := s.loops, ip := s.ip, savedIp, env := s.env, interp := s.interp }

/-- Put it back. -/
def Core.put (s : Core Env Interp) (l : Local Env Interp) : Core Env Interp :=
  { stack := l.stack, loops := l.loops, tryConvertDepths := s.tryConvertDepths, ip := l.ip,
    env := l.env, interp := l.interp }

/-- The fate of a value at `?`. -/
inductive Attempt (O Env Interp Error : Type)
  | go (s : Core Env Interp)
  /-- Leave the frame with this value. -/
  | unwind (v : Value) (s : Core Env Interp)
  | convert (args : List Value) (chunk : Chunk O) (env : Env) (s : Core Env Interp)
  | stop (r : Result Error) (s : Core Env Interp)

/-- `?` on the value on top of the stack. -/
def attempt (host : Host O Env Interp Error) (s : Core Env Interp) :
    Attempt O Env Interp Error :=
  match s.stack with
  | [] => .stop .panic s
  | v :: stack =>
    let s := { s with stack }
    match v with
    | .some inner => .go { s with stack := inner :: stack }
    | .none => .unwind .none s
    | .ok inner => .go { s with stack := inner :: stack }
    | .err e =>
      match host.convert e s.env s.interp with
      | .keep => .unwind (.err e) s
      | .call args chunk env interp => .convert args chunk env { s with interp }
      | .done converted interp => .unwind (.err converted) { s with interp }
      | .fail err interp => .stop (.fail err) { s with interp }
    | other => .stop (.fail (host.notTryable other)) s

namespace Machine

/-- Continue in the top frame, at its saved `ip`. -/
def reCache (s : Machine O Env Interp) :
    Progress (Machine O Env Interp) (Outcome Env Interp Error) :=
  match s.frames with
  | [] => .stop (s.finish .panic)
  | f :: _ => .go { s with ip := f.ip }

/-- Write the `ip` of the top frame. -/
def saveIp (ip : ℕ) (s : Machine O Env Interp) : Machine O Env Interp :=
  match s.frames with
  | [] => s
  | f :: rest => { s with frames := { f with ip } :: rest }

/-- Push a call frame whose arguments are on top of the stack. -/
def openFrame (stackBase : ℕ) (chunk : Chunk O) (env : Env) (s : Machine O Env Interp) :
    Machine O Env Interp :=
  { s with
    env
    deferStack := []
    frames := { chunk, ip := 0, prevEnv := s.env, stackBase, deferStack := s.deferStack } ::
      s.frames }

/-- Push the frame of the deferred closure that was recorded last. A value that is not a
compiled closure is dropped. -/
def pushDeferFrame (host : Host O Env Interp Error) (s : Machine O Env Interp) :
    Machine O Env Interp :=
  match s.deferReturn with
  | some state =>
    match state.remaining with
    | closure :: remaining =>
      let s := { s with deferReturn := some { state with remaining } }
      match host.closure closure with
      | some (chunk, env) => s.openFrame s.stack.length chunk env
      | none => s
    | [] => s
  | none => s

/-- Leave the top frame with a value for its caller. -/
def unwindFrame (v : Value) (s : Machine O Env Interp) :
    Progress (Machine O Env Interp) (Outcome Env Interp Error) :=
  match s.frames with
  | [] => .stop (s.finish .panic)
  | f :: rest =>
    let s := { s with
      frames := rest
      loops := s.loops.filter fun li => li.frameIdx < rest.length
      stack := truncate f.stackBase s.stack
      env := f.prevEnv }
    match rest with
    | [] => .stop (s.finish (.returned v))
    | _ :: _ => reCache { s with stack := v :: s.stack }

/-- The top frame has come to the end of its code. -/
def chunkEnd (host : Host O Env Interp Error) (f : Frame O Env) (rest : List (Frame O Env))
    (s : Machine O Env Interp) :
    Progress (Machine O Env Interp) (Outcome Env Interp Error) :=
  let (v, core) := popResult f.stackBase (syncToplevel host f.chunk f.stackBase s.toCore)
  let s := { s with
    toCore := { core with stack := truncate f.stackBase core.stack, env := f.prevEnv }
    frames := rest }
  match s.deferReturn with
  | some state =>
    match state.remaining with
    | _ :: _ => reCache (s.pushDeferFrame host)
    | [] =>
      let s := { s with deferReturn := none, deferStack := state.parentDefers }
      if s.tryConvertDepths.head? = some rest.length ∧ rest ≠ [] then
        unwindFrame (.err state.returnValue)
          { s with tryConvertDepths := s.tryConvertDepths.tail }
      else if state.fromReturn then unwindFrame state.returnValue s
      else
        match rest with
        | [] => .stop (s.finish (.value state.returnValue))
        | _ :: _ => reCache { s with stack := state.returnValue :: s.stack }
  | none =>
    match s.deferStack with
    | _ :: _ =>
      let saved : DeferReturn := {
        returnValue := v
        remaining := s.deferStack
        parentDefers := f.deferStack
        fromReturn := false }
      reCache ({ s with deferStack := [], deferReturn := some saved }.pushDeferFrame host)
    | [] =>
      let s := { s with deferStack := f.deferStack }
      if s.tryConvertDepths.head? = some (rest.length + 1) then
        unwindFrame (.err v) { s with tryConvertDepths := s.tryConvertDepths.tail }
      else
        match rest with
        | [] => .stop (s.finish (.value v))
        | _ :: _ => reCache { s with stack := v :: s.stack }

/-- The instruction `Return`. -/
def ret (host : Host O Env Interp Error) (f : Frame O Env) (s : Machine O Env Interp) :
    Progress (Machine O Env Interp) (Outcome Env Interp Error) :=
  match s.stack with
  | [] => .stop (s.finish .panic)
  | v :: stack =>
    let s := { s with stack }
    match s.deferStack with
    | [] =>
      if s.tryConvertDepths.head? = some s.frames.length then
        unwindFrame (.err v) { s with tryConvertDepths := s.tryConvertDepths.tail }
      else unwindFrame v s
    | _ :: _ =>
      let saved : DeferReturn := {
        returnValue := v
        remaining := s.deferStack
        parentDefers := f.deferStack
        fromReturn := true }
      reCache ({ s with deferStack := [], deferReturn := some saved }.pushDeferFrame host)

/-- The instruction `TryOp`. -/
def tryOp (host : Host O Env Interp Error) (s : Machine O Env Interp) :
    Progress (Machine O Env Interp) (Outcome Env Interp Error) :=
  match attempt host s.toCore with
  | .go core => .go { s with toCore := core }
  | .unwind v core => unwindFrame v { s with toCore := core }
  | .convert args chunk env core =>
    let s := ({ s with toCore := core } : Machine O Env Interp).saveIp s.ip
    let s := { s with stack := args.reverse ++ s.stack }.openFrame s.stack.length chunk env
    reCache { s with tryConvertDepths := s.frames.length :: s.tryConvertDepths }
  | .stop r core => .stop (core.finish r)

/-- The instruction `DeferRecord`. -/
def deferRecord (s : Machine O Env Interp) :
    Progress (Machine O Env Interp) (Outcome Env Interp Error) :=
  match s.stack with
  | [] => .stop (s.finish .panic)
  | closure :: stack => .go { s with stack, deferStack := closure :: s.deferStack }

/-- One turn of the run loop. -/
def step (host : Host O Env Interp Error) (s : Machine O Env Interp) :
    Progress (Machine O Env Interp) (Outcome Env Interp Error) :=
  match s.frames with
  | [] => .stop (s.finish .panic)
  | f :: rest =>
    match f.chunk.code[s.ip]? with
    | none => chunkEnd host f rest s
    | some op =>
      let s := { s with ip := s.ip + 1 }
      match op with
      | .ret => ret host f s
      | .tryOp => tryOp host s
      | .deferRecord => deferRecord s
      | .other o =>
        match host.exec f.chunk f.stackBase s.frames.length o (s.reach f.ip) with
        | .next l => .go (({ s with toCore := s.put l } : Machine O Env Interp).saveIp l.savedIp)
        | .enter stackBase chunk env l =>
          reCache ((({ s with toCore := s.put l } : Machine O Env Interp).saveIp l.savedIp
            ).openFrame stackBase chunk env)
        | .fail e interp => .stop ({ s with interp }.finish (.fail e))

/-- A machine that is about to run a chunk. -/
def start (core : Core Env Interp) (chunk : Chunk O) (stackBase : ℕ) : Machine O Env Interp where
  toCore := { core with ip := 0 }
  frames := [{ chunk, ip := 0, prevEnv := core.env, stackBase, deferStack := [] }]
  deferStack := []
  deferReturn := none

end Machine

end

end ZzLang.Vm
