import ZzLang.Vm.Scoped
import ZzLang.Syntax.Pattern
import Mathlib.Data.List.Infix

/-!
# Error conversion at run time

At `?` on an error both interpreters decide by the error value and the names of all functions
whether to convert it: there must be a single candidate `….convert_to_…` for the value's
dynamic type. The tree walker then calls it and leaves the enclosing function with the result.
The virtual machine opens a frame for it and marks the depth of that frame; what happens when
the frame is left depends on how, as `step_conversion_fellOff` and the results after it say.
-/

namespace ZzLang.Vm

open ZzLang.Runtime (Value HandleKind)

open ZzLang.Syntax (startsWith containsText namespaceOf)

open Lockstep

/-! ### Candidates -/

/-- The name under which conversions of a value are looked up in the virtual machine. -/
def convertRecvKey : Value → Option String
  | .str _ => some "str"
  | .array _ => some "vec"
  | .some _ | .none => some "option"
  | .ok _ | .err _ => some "result"
  | .int _ => some "int"
  | .float _ => some "float"
  | .bool _ => some "bool"
  | .object name _ => some name
  | _ => none

/-- The namespace of a value's methods. -/
def methodNamespace : Value → Option String
  | .str _ => some "str"
  | .array _ => some "vec"
  | .some _ | .none => some "option"
  | .ok _ | .err _ => some "result"
  | .int _ => some "int"
  | .float _ => some "float"
  | .bool _ => some "bool"
  | .handle .bytes _ => some "bytes"
  | .handle .tcpStream _ | .handle .tcpListener _ => some "net"
  | .handle .httpServer _ | .handle .response _ => some "http"
  | .request _ => some "http"
  | .handle .db _ => some "sqlz"
  | .handle (.pooled tag) _ => some tag
  | .handle .chan _ => some "chan"
  | .object name _ => namespaceOf name
  | _ => none

/-- The name under which the tree walker looks conversions of a value up. -/
def treeConvertRecvKey (recv : Value) : Option String :=
  match convertRecvKey recv with
  | some key => some key
  | none => methodNamespace recv

/-- How the names of the conversions of a type begin. -/
def conversionStart (key : String) : String :=
  key ++ ".convert_to_"

/-- The candidates in the virtual machine: functions of this module's types first, then
functions of types of other modules. -/
def candidates (names : List String) (key : String) : List String :=
  let own := names.filter fun name => startsWith name (conversionStart key)
  if own.isEmpty then names.filter fun name => containsText name ("." ++ conversionStart key)
  else own

/-- The part of a name after its first segment. -/
def afterFirstSegment (name : String) : String :=
  String.ofList ((name.toList.dropWhile (· ≠ '.')).drop 1)

/-- The candidates in the tree walker. -/
def treeCandidates (names : List String) (key : String) : List String :=
  let own := names.filter fun name => startsWith name (conversionStart key)
  if own.isEmpty then
    names.filter fun name => containsText name ("." ++ conversionStart key) ||
      startsWith (afterFirstSegment name) (conversionStart key)
  else own

/-- The conversion that the virtual machine calls, if any. -/
def findConvertName (names : List String) (err : Value) : Option String := do
  let key ← convertRecvKey err
  match candidates names key with
  | [hit] => some hit
  | _ => none

/-! ### What becomes of an error -/

/-- What a call of a conversion comes to. -/
inductive CallResult
  /-- Compiled code has come to its end: a named function then has the value `unit`. -/
  | fellOff (deferred : Bool)
  /-- Compiled code was left by `return`. -/
  | returned (converted : Value)
  /-- Compiled code was left by a `?` of its own. -/
  | tried (converted : Value)
  | interpreted (converted : Value)
  | failed

/-- What `?` on an error comes to. -/
inductive TryOutcome
  /-- The enclosing function is left with this value. -/
  | leaves (v : Value)
  /-- The enclosing function goes on with this value for that of the expression. -/
  | continues (v : Value)
  | fails

/-- The virtual machine when a conversion it has called is left. -/
def afterConversion : CallResult → TryOutcome
  | .fellOff false => .leaves (.err .unit)
  -- the frame is gone when the deferred closures run, and its mark is not looked for again
  | .fellOff true => .continues .unit
  | .returned converted => .continues (.err converted)
  | .tried converted => .continues converted
  | .interpreted converted => .leaves (.err converted)
  | .failed => .fails

/-- `?` on an error in the virtual machine: the conversion that is called, and what follows. -/
def tryErr (names : List String) (call : String → Value → CallResult) (err : Value) :
    Option String × TryOutcome :=
  match findConvertName names err with
  | none => (none, .leaves (.err err))
  | some f => (some f, afterConversion (call f err))

/-- The value that a conversion returns to the tree walker. -/
def CallResult.value : CallResult → Option Value
  | fellOff _ => some .unit
  | returned converted | tried converted | interpreted converted => some converted
  | failed => none

/-- The enclosing function is left with the converted error. -/
def leavesConverted (r : CallResult) : TryOutcome :=
  match r.value with
  | some converted => .leaves (.err converted)
  | none => .fails

/-- `?` on an error in the tree walker. -/
def treeTryErr (names : List String) (call : String → Value → CallResult) (err : Value) :
    Option String × TryOutcome :=
  match treeConvertRecvKey err with
  | none => (none, .leaves (.err err))
  | some key =>
    match treeCandidates names key with
    | [] => (none, .leaves (.err err))
    | [f] => (some f, leavesConverted (call f err))
    | _ => (none, .fails)

/-- The second test of the tree walker adds nothing to the first. -/
theorem treeCandidates_eq (names : List String) (key : String) :
    treeCandidates names key = candidates names key := by
  have hor (name : String) : (containsText name ("." ++ conversionStart key) ||
      startsWith (afterFirstSegment name) (conversionStart key)) =
      containsText name ("." ++ conversionStart key) := by
    refine Bool.or_eq_left_iff_imp.mpr ?_
    intro h
    have hstart : (conversionStart key).toList <+: (name.toList.dropWhile (· ≠ '.')).drop 1 := by
      simpa [startsWith, afterFirstSegment, List.isPrefixOf_iff_prefix] using h
    rcases hdrop : name.toList.dropWhile (· ≠ '.') with _ | ⟨c, rest⟩
    · -- a name of one segment has nothing after it
      rw [hdrop] at hstart
      simp [conversionStart] at hstart
    · have hc : c = '.' := by
        have hhead := List.head?_dropWhile_not (· ≠ '.') name.toList
        rw [hdrop] at hhead
        simpa using hhead
      rw [hdrop] at hstart
      simp only [containsText, List.any_eq_true]
      refine ⟨c :: rest, ?_, ?_⟩
      · rw [List.mem_tails, ← hdrop]
        exact List.dropWhile_suffix _
      · rw [List.isPrefixOf_iff_prefix, hc]
        simpa using hstart
  simp only [treeCandidates, candidates, hor]

/-! ### The frame of a conversion -/

section Frames

variable {O Env Interp Error : Type} {host : Host O Env Interp Error}

/-- The enclosing function, whose frame is on top, is left or goes on. -/
def TryOutcome.apply (outcome : TryOutcome) (s : Machine O Env Interp) :
    Progress (Machine O Env Interp) (Outcome Env Interp Error) :=
  match outcome with
  | leaves v => Machine.unwindFrame v s
  | continues v => Machine.reCache { s with stack := v :: s.stack }
  | fails => .stop (s.finish .panic)

/-- The machine is in the frame of a conversion that has nothing deferred, called from the
frame `g`. -/
structure Converting (s : Machine O Env Interp) (f g : Frame O Env) (rest : List (Frame O Env))
    (depths : List ℕ) : Prop where
  frames : s.frames = f :: g :: rest
  marked : s.tryConvertDepths = (rest.length + 2) :: depths
  deferStack : s.deferStack = []
  deferReturn : s.deferReturn = none

variable {s : Machine O Env Interp} {f g : Frame O Env} {rest : List (Frame O Env)}
  {depths : List ℕ}

/-- The conversion comes to the end of its code. -/
theorem step_conversion_fellOff (h : Converting s f g rest depths)
    (hend : f.chunk.code[s.ip]? = none) {core : Core Env Interp}
    (hpop : popResult f.stackBase (syncToplevel host f.chunk f.stackBase s.toCore) =
      (.unit, core)) :
    Machine.step host s =
      (afterConversion (.fellOff false)).apply { s with
        toCore := { core with
          stack := truncate f.stackBase core.stack
          env := f.prevEnv
          tryConvertDepths := core.tryConvertDepths.tail }
        frames := g :: rest
        deferStack := f.deferStack } := by
  have hdepths : core.tryConvertDepths = s.tryConvertDepths := by
    have hcore := congrArg (fun r => r.2.tryConvertDepths) hpop
    rw [← hcore]
    simp only [popResult]
    split
    · split <;> rfl
    · rfl
  simp [Machine.step, Machine.chunkEnd, h.frames, hend, hpop, h.deferReturn, h.deferStack, hdepths,
    h.marked, afterConversion, TryOutcome.apply]

/-- The conversion returns: only its own frame is left. -/
theorem step_conversion_returned (h : Converting s f g rest depths)
    (hret : f.chunk.code[s.ip]? = some .ret) {converted : Value} {stack : List Value}
    (hstack : s.stack = converted :: stack) :
    Machine.step host s =
      (afterConversion (.returned converted)).apply { s with
        ip := s.ip + 1
        stack := truncate f.stackBase stack
        env := f.prevEnv
        loops := s.loops.filter fun li => li.frameIdx < rest.length + 1
        tryConvertDepths := depths
        frames := g :: rest } := by
  simp [Machine.step, Machine.ret, Machine.unwindFrame, h.frames, hret, hstack, h.deferStack,
    h.marked, afterConversion, TryOutcome.apply]

/-- The conversion is itself left by `?`: its mark stays behind. -/
theorem step_conversion_tried (h : Converting s f g rest depths)
    (htry : f.chunk.code[s.ip]? = some .tryOp) {v : Value} {core : Core Env Interp}
    (hattempt : attempt host { s.toCore with ip := s.ip + 1 } = .unwind v core) :
    Machine.step host s =
      (afterConversion (.tried v)).apply { s with
        toCore := { core with
          stack := truncate f.stackBase core.stack
          env := f.prevEnv
          loops := core.loops.filter fun li => li.frameIdx < rest.length + 1 }
        frames := g :: rest } := by
  simp [Machine.step, Machine.tryOp, Machine.unwindFrame, h.frames, htry, hattempt,
    afterConversion, TryOutcome.apply]

end Frames

end ZzLang.Vm
