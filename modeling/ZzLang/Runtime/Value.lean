import ZzLang.Ir.Model

/-!
# Run-time values

The values both interpreters compute with. Structs and enum variants are both objects: a
struct object carries its type's name, an enum variant the name `Enum.Variant`, with its
payload, if any, in a field called `value`. A tuple literal evaluates to an array; tuples of
their own kind are the pairs that `enumerate` and `zip` build. Values that the modelled functions
only pass around, such as closures, byte buffers and the handles of the standard library, are a
kind and an identity.
-/

namespace ZzLang

/-! ### Doubles -/

namespace F64

/-- Exponent all ones and a non-zero mantissa. -/
def isNaN (x : F64) : Bool :=
  0x7FF0000000000000 < (x.bits &&& 0x7FFFFFFFFFFFFFFF)

/-- Either zero. -/
def isZero (x : F64) : Bool :=
  x.bits &&& 0x7FFFFFFFFFFFFFFF == 0

/-- The comparison `==` of doubles: a NaN equals nothing, the two zeros are equal. -/
def ieeeEq (x y : F64) : Bool :=
  !x.isNaN && !y.isNaN && (x == y || x.isZero && y.isZero)

/-- One bit pattern for each class of equal doubles. -/
def canon (x : F64) : F64 :=
  if x.isZero then ⟨0⟩ else x

theorem ieeeEq_iff {x y : F64} :
    x.ieeeEq y = true ↔ x.isNaN = false ∧ y.isNaN = false ∧ x.canon = y.canon := by
  have hzero : isZero ⟨0⟩ = true := rfl
  have hcanon : x.canon = y.canon ↔ x = y ∨ x.isZero = true ∧ y.isZero = true := by
    by_cases hx : x.isZero = true <;> by_cases hy : y.isZero = true <;>
      simp only [canon, hx, hy, if_true, if_false, and_self, or_true, and_true, and_false,
        or_false, Bool.false_eq_true]
    · constructor
      · rintro rfl
        exact absurd hzero hy
      · rintro rfl
        exact absurd hx hy
    · constructor
      · rintro rfl
        exact absurd hzero hx
      · rintro rfl
        exact absurd hy hx
  simp only [ieeeEq, Bool.and_eq_true, Bool.not_eq_true', Bool.or_eq_true, beq_iff_eq, hcanon,
    and_assoc]

end F64

namespace Runtime

/-- The kinds of values that are only passed around. -/
inductive HandleKind
  | func
  | native
  | bytes
  | json
  | httpServer
  | tcpStream
  | tcpListener
  | db
  | pooled (tag : String)
  | response
  | chan
  | taskJoin
  deriving DecidableEq

/-- A request handed to a route handler. -/
structure HttpRequest where
  method : String
  path : String
  body : String
  headers : List (String × String)
  query : List (String × String)
  params : List (String × String)
  deriving DecidableEq

/-- Run-time values. -/
inductive Value
  | int (i : Int64)
  | float (x : F64)
  | str (s : String)
  | bool (b : Bool)
  | unit
  | some (v : Value)
  | none
  | ok (v : Value)
  | err (v : Value)
  /-- An array, or what a tuple literal evaluates to. -/
  | array (items : List Value)
  | tuple (items : List Value)
  /-- Key and value pairs in insertion order. -/
  | dict (entries : List (Value × Value))
  /-- A struct or an enum variant. -/
  | object (name : String) (fields : List (String × Value))
  | range (start stop step : Int64)
  | request (req : HttpRequest)
  | handle (kind : HandleKind) (id : Nat)
  deriving Inhabited

end Runtime

end ZzLang
