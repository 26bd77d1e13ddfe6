import ZzLang.Checker.Tables
import ZzLang.Runtime.Value
import Mathlib.Data.List.Forall2

/-!
# The values of a type

`HasType` is the reading of the checker's types that its results are judged by: which
run-time values a type promises. The objects of a struct list its fields in the order of
the declaration; the objects of an enum are named `Enum.Variant`. Of a generic parameter, and
of a variable that inference left open, nothing is known, so every value is one of its
values. A tuple type has two kinds of values, for a tuple literal evaluates to an array, while
`enumerate` and `zip` build pairs that are tuples. The absorbing types of erroneous and of diverging expressions have none, and neither
have the raw pointers, which only native builds use.
-/

namespace ZzLang

open Checker (Ty Tables)

namespace Runtime

/-- The name of the objects of an enum's variant. -/
def variantName (enumName variant : String) : String :=
  enumName ++ "." ++ variant

/-- The value has the type. -/
inductive HasType (Γ : Tables) : Value → Ty → Prop
  | int (i : Int64) : HasType Γ (.int i) .int
  | float (x : F64) : HasType Γ (.float x) .float
  | bool (b : Bool) : HasType Γ (.bool b) .bool
  | str (s : String) : HasType Γ (.str s) .str
  | unit : HasType Γ .unit .unit
  | void : HasType Γ .unit .void
  | some {v : Value} {t : Ty} (h : HasType Γ v t) : HasType Γ (.some v) (.option t)
  | none {t : Ty} : HasType Γ .none (.option t)
  | ok {v : Value} {t e : Ty} (h : HasType Γ v t) : HasType Γ (.ok v) (.result t e)
  | err {v : Value} {t e : Ty} (h : HasType Γ v e) : HasType Γ (.err v) (.result t e)
  | array {vs : List Value} {t : Ty} (h : ∀ v ∈ vs, HasType Γ v t) :
      HasType Γ (.array vs) (.array t)
  | tuple {vs : List Value} {ts : List Ty} (h : List.Forall₂ (HasType Γ) vs ts) :
      HasType Γ (.array vs) (.tuple ts)
  | pair {v w : Value} {s t : Ty} (hv : HasType Γ v s) (hw : HasType Γ w t) :
      HasType Γ (.tuple [v, w]) (.tuple [s, t])
  | dict {entries : List (Value × Value)} {k t : Ty} (hk : ∀ e ∈ entries, HasType Γ e.1 k)
      (ht : ∀ e ∈ entries, HasType Γ e.2 t) : HasType Γ (.dict entries) (.dict k t)
  | range {start stop step : Int64} : HasType Γ (.range start stop step) (.range .int)
  | unitVariant {e variant name : String} {args : List Ty}
      (hv : Γ.variant e variant = Option.some (name, Option.none)) :
      HasType Γ (.object (variantName e variant) []) (.enum e args)
  | variant {e variant name : String} {args : List Ty} {payload : Ty} {v : Value}
      (hv : Γ.variant e variant = Option.some (name, Option.some payload))
      (h : HasType Γ v (Γ.substEnumPayload e args payload)) :
      HasType Γ (.object (variantName e variant) [("value", v)]) (.enum e args)
  | struct {name : String} {args : List Ty} {sig : Checker.StructSig}
      {fields : List (String × Value)} (hs : Γ.structs name = Option.some sig)
      (hnames : fields.map (·.1) = sig.fields.map (·.1))
      (h : List.Forall₂ (HasType Γ) (fields.map (·.2))
        (sig.fields.map fun f => Checker.substGenerics sig.generics args f.2)) :
      HasType Γ (.object name fields) (.struct name args)
  | union {v : Value} {t : Ty} {ts : List Ty} (ht : t ∈ ts) (h : HasType Γ v t) :
      HasType Γ v (.union ts)
  | named {v : Value} {name : String} : HasType Γ v (.named name)
  | var {v : Value} {id : UInt32} : HasType Γ v (.var id)
  | func {ps : List Ty} {r : Ty} (id : Nat) : HasType Γ (.handle .func id) (.func ps r)
  | native {ps : List Ty} {r : Ty} (id : Nat) : HasType Γ (.handle .native id) (.func ps r)
  | bytes (id : Nat) : HasType Γ (.handle .bytes id) .bytes
  | json (id : Nat) : HasType Γ (.handle .json id) .json
  | httpServer (id : Nat) : HasType Γ (.handle .httpServer id) .httpServer
  | tcpStream (id : Nat) : HasType Γ (.handle .tcpStream id) .tcpStream
  | tcpListener (id : Nat) : HasType Γ (.handle .tcpListener id) .tcpListener
  | db (id : Nat) : HasType Γ (.handle .db id) .db
  | response (id : Nat) : HasType Γ (.handle .response id) .response
  | request (req : HttpRequest) : HasType Γ (.request req) .httpRequest
  | pooled (tag : String) (id : Nat) : HasType Γ (.handle (.pooled tag) id) (.handle tag)
  | chan (id : Nat) : HasType Γ (.handle .chan id) .chan
  | taskJoin (id : Nat) : HasType Γ (.handle .taskJoin id) .taskJoin

/-- The first field of a name in a typed object has the type that its declaration gives to
the first field of that name. -/
theorem hasType_find {Γ : Tables} {f : Ty → Ty} {fields : List (String × Value)}
    {decls : List (String × Ty)} (hnames : fields.map (·.1) = decls.map (·.1))
    (h : List.Forall₂ (HasType Γ) (fields.map (·.2)) (decls.map fun d => f d.2))
    (name : String) :
    List.Forall₂ (HasType Γ) ((fields.find? fun d => d.1 == name).map (·.2)).toList
      ((decls.find? fun d => d.1 == name).map fun d => f d.2).toList := by
  induction fields generalizing decls with
  | nil =>
    obtain rfl : decls = [] := by simpa using hnames.symm
    exact .nil
  | cons field fields ih =>
    cases decls with
    | nil => simp at hnames
    | cons d decls =>
      obtain ⟨hname, hnames⟩ : field.1 = d.1 ∧ fields.map (·.1) = decls.map (·.1) := by
        simpa using hnames
      obtain ⟨hv, hvs⟩ : HasType Γ field.2 (f d.2) ∧ List.Forall₂ (HasType Γ)
          (fields.map (·.2)) (decls.map fun d => f d.2) := by simpa using h
      by_cases heq : d.1 = name
      · have hfield : field.1 = name := hname.trans heq
        simpa [heq, hfield] using hv
      · have hfield : field.1 ≠ name := fun h => heq (hname.symm.trans h)
        simpa [heq, hfield] using ih hnames hvs

end Runtime

end ZzLang
