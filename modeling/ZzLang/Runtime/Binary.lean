import Mathlib.Algebra.Group.Int.Defs
import ZzLang.Runtime.Value

/-!
# The binary operators

What the operators compute, as both interpreters evaluate them: integers wrap around, except
that a division that cannot be done fails; a mix of an integer and a double is computed with
doubles; strings and arrays are joined by `+`. Equality works for all values, and values of
different kinds are different.

The arithmetic of doubles and the comparison of compound values are parameters (`Prims`): a
function is equal to another one when the two are the same reference, which is not a property
of the values.

The virtual machine has its own copies of the integer cases, for speed; `evalBinary_int` and
`evalIntBinary_of_intCmp` say that they compute the same.
-/

namespace ZzLang

/-- The symbol of an operator, as error messages show it. -/
def BinOp.symbol : BinOp → String
  | .add => "+"
  | .sub => "-"
  | .mul => "*"
  | .div => "/"
  | .rem => "%"
  | .pow => "**"
  | .eq => "=="
  | .ne => "!="
  | .lt => "<"
  | .gt => ">"
  | .le => "<="
  | .ge => ">="
  | .and => "&&"
  | .or => "||"
  | .elvis => "??"
  | .bitAnd => "&"
  | .bitOr => "|"
  | .bitXor => "^"
  | .shl => "<<"
  | .shr => ">>"

/-- The six comparisons. -/
def BinOp.isComparison : BinOp → Bool
  | .eq | .ne | .lt | .gt | .le | .ge => true
  | _ => false

namespace Runtime

/-- Why an evaluation gives no value: an error of the program, or a panic of the interpreter
itself. -/
inductive Failure
  | error (message : String)
  | panic
  deriving DecidableEq

/-- The arithmetic of doubles, and equality of compound values. -/
structure Prims where
  add : F64 → F64 → F64
  sub : F64 → F64 → F64
  mul : F64 → F64 → F64
  div : F64 → F64 → F64
  rem : F64 → F64 → F64
  powf : F64 → F64 → F64
  lt : F64 → F64 → Bool
  le : F64 → F64 → Bool
  /-- The cast of an integer to a double. -/
  ofInt : Int64 → F64
  /-- Equality of two values that are not both integers, doubles, strings, booleans or units. -/
  deepEq : Value → Value → Bool

/-- The name of the type of a value, as error messages show it. -/
def Value.typeName : Value → String
  | .int _ => "int"
  | .float _ => "float"
  | .str _ => "str"
  | .bool _ => "bool"
  | .unit => "unit"
  | .some _ | .none => "option"
  | .ok _ | .err _ => "result"
  | .array _ => "array"
  | .tuple _ => "tuple"
  | .dict _ => "dict"
  | .object name _ => name
  | .range .. => "range"
  | .request _ => "http.request"
  | .handle kind _ =>
    match kind with
    | .func => "func"
    | .native => "native"
    | .bytes => "bytes"
    | .json => "json"
    | .httpServer => "http.server"
    | .tcpStream => "tcp.stream"
    | .tcpListener => "tcp.listener"
    | .db => "db"
    | .pooled tag => tag
    | .response => "http.response"
    | .chan => "chan"
    | .taskJoin => "task.join"

/-- Only `true` is truthy. -/
def Value.isTruthy : Value → Bool
  | .bool b => b
  | _ => false

/-- The double a number stands for. -/
def Value.toFloat (P : Prims) : Value → Option F64
  | .int i => Option.some (P.ofInt i)
  | .float x => Option.some x
  | _ => Option.none

/-! ### Integers -/

/-- The smallest integer, which has no positive counterpart. -/
def minInt : Int64 := Int64.minValue

/-- A binary operator on integers. -/
def evalIntBinary (op : BinOp) (a b : Int64) : Except Failure Value :=
  match op with
  | .add => .ok (.int (a + b))
  | .sub => .ok (.int (a - b))
  | .mul => .ok (.int (a * b))
  | .div =>
    if b = 0 then .error (.error "division by zero")
    else if a = minInt ∧ b = -1 then .error (.error "integer overflow in division")
    else .ok (.int (a / b))
  | .rem =>
    if b = 0 then .error (.error "modulo by zero")
    else if a = minInt ∧ b = -1 then .error (.error "integer overflow in modulo")
    else .ok (.int (a % b))
  | .pow =>
    if b < 0 then .error (.error "negative exponent for integer power")
    -- the exponent is cast to 32 bits
    else .ok (.int (Int64.ofInt (a.toInt ^ (b.toInt % 2 ^ 32).toNat)))
  | .bitAnd => .ok (.int (a &&& b))
  | .bitOr => .ok (.int (a ||| b))
  | .bitXor => .ok (.int (a ^^^ b))
  | .shl =>
    if b < 0 then .error (.error s!"negative shift count {b} for `<<`")
    else .ok (.int (a <<< (b &&& 63)))
  | .shr =>
    if b < 0 then .error (.error s!"negative shift count {b} for `>>`")
    else .ok (.int (a >>> (b &&& 63)))
  | .eq => .ok (.bool (a == b))
  | .ne => .ok (.bool (a != b))
  | .lt => .ok (.bool (decide (a < b)))
  | .gt => .ok (.bool (decide (b < a)))
  | .le => .ok (.bool (decide (a ≤ b)))
  | .ge => .ok (.bool (decide (b ≤ a)))
  -- short-circuited by the compiler
  | .and | .or | .elvis => .error .panic

/-- A comparison of integers; no result for the other operators. -/
def intCmp (op : BinOp) (a b : Int64) : Option Bool :=
  match op with
  | .eq => some (a == b)
  | .ne => some (a != b)
  | .lt => some (decide (a < b))
  | .gt => some (decide (b < a))
  | .le => some (decide (a ≤ b))
  | .ge => some (decide (b ≤ a))
  | _ => none

theorem evalIntBinary_of_intCmp {op : BinOp} {a b : Int64} {c : Bool} (h : intCmp op a b = some c) :
    evalIntBinary op a b = .ok (.bool c) := by
  rcases op <;> first | (obtain rfl := Option.some.inj h; rfl) | cases h

/-! ### All values -/

/-- Equality of values. -/
def valueEq (P : Prims) : Value → Value → Bool
  | .int a, .int b => a == b
  | .float a, .float b => a.ieeeEq b
  | .str a, .str b => a == b
  | .bool a, .bool b => a == b
  | .unit, .unit => true
  | l, r => P.deepEq l r

/-- The operators `==` and `!=`: exact on integers, by value on a mix of numbers. -/
def evalEquality (P : Prims) (l r : Value) : Bool :=
  match l, r with
  | .int a, .int b => a == b
  | l, r =>
    match l.toFloat P, r.toFloat P with
    | some a, some b => a.ieeeEq b
    | _, _ => valueEq P l r

/-- An operator on two doubles; `message` is the error when there is none. -/
def evalFloats (P : Prims) (op : BinOp) (a b : F64) (message : String) : Except Failure Value :=
  match op with
  | .add => .ok (.float (P.add a b))
  | .sub => .ok (.float (P.sub a b))
  | .mul => .ok (.float (P.mul a b))
  | .div => .ok (.float (P.div a b))
  | .rem => .ok (.float (P.rem a b))
  | .pow => .ok (.float (P.powf a b))
  | .lt => .ok (.bool (P.lt a b))
  | .gt => .ok (.bool (P.lt b a))
  | .le => .ok (.bool (P.le a b))
  | .ge => .ok (.bool (P.le b a))
  | _ => .error (.error message)

/-- An operator on two strings. -/
def evalStrings (op : BinOp) (a b : String) : Except Failure Value :=
  match op with
  | .add => .ok (.str (a ++ b))
  | .lt => .ok (.bool (decide (a < b)))
  | .gt => .ok (.bool (decide (b < a)))
  | .le => .ok (.bool (decide (¬b < a)))
  | .ge => .ok (.bool (decide (¬a < b)))
  | _ => .error (.error s!"operator `{op.symbol}` is not supported for strings")

/-- A binary operator. Equality is decided first; a mix of numbers is computed with doubles. -/
def evalBinary (P : Prims) (op : BinOp) (l r : Value) : Except Failure Value :=
  match op with
  | .eq => .ok (.bool (evalEquality P l r))
  | .ne => .ok (.bool !(evalEquality P l r))
  | op =>
    match l, r with
    | .int a, .int b => evalIntBinary op a b
    | .float a, .float b =>
      evalFloats P op a b s!"operator `{op.symbol}` is not supported for floats"
    | .str a, .str b => evalStrings op a b
    | .array a, .array b =>
      match op with
      | .add => .ok (.array (a ++ b))
      | op => .error (.error s!"operator `{op.symbol}` is not supported for arrays")
    | l, r =>
      match l.toFloat P, r.toFloat P with
      | some a, some b => evalFloats P op a b "arithmetic on non-numeric value"
      | _, _ =>
        match op with
        | .lt | .gt | .le | .ge =>
          .error (.error
            s!"operator `{op.symbol}` is not supported for {l.typeName} and {r.typeName}")
        | _ => .error (.error "arithmetic on non-numeric value")

/-- On integers the generic operator is the integer one. -/
theorem evalBinary_int (P : Prims) (op : BinOp) (a b : Int64) :
    evalBinary P op (.int a) (.int b) = evalIntBinary op a b := by
  rcases op <;> simp [evalBinary, evalEquality, evalIntBinary, bne]

/-- A comparison gives a boolean. -/
theorem evalBinary_comparison {P : Prims} {op : BinOp} {l r v : Value}
    (hop : op.isComparison = true) (h : evalBinary P op l r = .ok v) : ∃ b, v = .bool b := by
  rcases op <;> simp only [BinOp.isComparison, Bool.false_eq_true] at hop
  case eq | ne => exact ⟨_, (Except.ok.inj h).symm⟩
  all_goals
    simp only [evalBinary] at h
    split at h <;> (try split at h) <;>
      first | exact ⟨_, (Except.ok.inj h).symm⟩ | cases h

end Runtime

end ZzLang
