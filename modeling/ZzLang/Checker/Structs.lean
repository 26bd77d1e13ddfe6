import ZzLang.Library.BreadthFirst
import ZzLang.Checker.Tables
import ZzLang.Syntax.Pattern

/-!
# Embedded structs in the checker

A field whose type is a struct with the field's own name embeds that struct: its fields and
methods can be used on the outer struct. The checker looks a name up by a breadth-first search
over the declared types, and enters a struct at most once by its name.

The three searches below differ in what they stop at. The fields they go through carry their
positions next to the names that the source collects: two embedded fields may have the same
name, and only the position tells which one a search has found.
-/

namespace ZzLang.Checker

open ZzLang.Syntax (lastSegment namespaceOf)

/-- A struct type reached through embedded fields, each with its position. -/
structure StructNode where
  path : List (ℕ × String)
  name : String
  args : List Ty

/-- The positions of a node's path. -/
def StructNode.positions (node : StructNode) : List ℕ :=
  node.path.map (·.1)

/-- Is a field of this type embedded? -/
def isEmbeddedField (fname : String) (t : Ty) : Bool :=
  match t with
  | .struct s _ => lastSegment s == fname
  | _ => false

/-- The fields of a struct at its type arguments, with their positions. -/
def concreteFields (sig : StructSig) (args : List Ty) : List ((String × Ty) × ℕ) :=
  (sig.fields.map fun f => (f.1, substGenerics sig.generics args f.2)).zipIdx

/-- The struct type of a field, as a node below `node`. -/
def structField (node : StructNode) (field : (String × Ty) × ℕ) : Option StructNode :=
  match field.1.2 with
  | .struct inner args =>
    some { path := node.path ++ [(field.2, field.1.1)], name := inner, args := args }
  | _ => none

/-- The node of a field if it is embedded. -/
def embeddedField (node : StructNode) (field : (String × Ty) × ℕ) : Option StructNode :=
  if isEmbeddedField field.1.1 field.1.2 then structField node field else none

/-- The embedded structs of a struct. -/
def embeddedFields (Γ : Tables) (node : StructNode) : List StructNode :=
  match Γ.structs node.name with
  | none => []
  | some sig => (concreteFields sig node.args).filterMap (embeddedField node)

/-- The node a search starts from. -/
def rootNode (sname : String) (args : List Ty) : StructNode where
  path := []
  name := sname
  args := args

/-- Search the embedded structs of a struct, breadth first. An unknown struct ends the
search, and so does the first answer. -/
def searchStructs {R : Type} (Γ : Tables) (sname : String) (args : List Ty)
    (answer : StructNode → StructSig → Option R) : Option (Option R) :=
  let visit (node : StructNode) : Option (Option R) :=
    match Γ.structs node.name with
    | none => some none
    | some sig => (answer node sig).map some
  (BreadthFirst.search (embeddedFields Γ) (·.name) visit [rootNode sname args] [sname]).map
    Option.join

/-! ### Fields -/

/-- The struct that declares a field, with the field's type there. -/
def declaredField (field : String) (node : StructNode) (sig : StructSig) :
    Option (StructNode × Ty) :=
  (sig.fields.find? fun f => f.1 == field).map fun f =>
    (node, substGenerics sig.generics node.args f.2)

/-- The struct a field is read from, and the field's type. -/
def locateStructField (Γ : Tables) (sname : String) (args : List Ty) (field : String) :
    Option (Option (StructNode × Ty)) :=
  searchStructs Γ sname args (declaredField field)

/-- The names of the embedded fields that lead to a field, and its type. -/
def resolveStructFieldGeneric (Γ : Tables) (sname : String) (args : List Ty) (field : String) :
    Option (Option (List String × Ty)) :=
  (locateStructField Γ sname args field).map fun found =>
    found.map fun r => (r.1.path.map (·.2), r.2)

/-! ### Methods -/

/-- The first field of a struct whose type is the struct `defining`, embedded or not. -/
def fieldOfStruct (defining : String) (node : StructNode) (sig : StructSig) :
    Option StructNode :=
  ((concreteFields sig node.args).filterMap (structField node)).find? (·.name == defining)

/-- The field whose value the checker takes for the receiver of a promoted method. -/
def locatePromotedReceiver (Γ : Tables) (sname : String) (args : List Ty) (defining : String) :
    Option (Option StructNode) :=
  searchStructs Γ sname args (fieldOfStruct defining)

/-- The type of the receiver of a promoted method. -/
def promotedMethodReceiver (Γ : Tables) (sname : String) (args : List Ty) (defining : String) :
    Option (Option Ty) :=
  (locatePromotedReceiver Γ sname args defining).map fun found =>
    found.map fun node => .struct node.name node.args

/-- The name under which a method of a struct is registered: its own, or that of a function of
its module. -/
def methodKey {Sig : Type} (funcs : String → Option Sig) (sname method : String) :
    Option String :=
  if (funcs (sname ++ "." ++ method)).isSome then some (sname ++ "." ++ method)
  else do
    let ns ← namespaceOf sname
    if (funcs (ns ++ "." ++ method)).isSome then some (ns ++ "." ++ method) else none

/-- The embedded structs of a struct by the types as they are declared. -/
def declaredEmbeddedFields (Γ : Tables) (node : StructNode) : List StructNode :=
  match Γ.structs node.name with
  | none => []
  | some sig => sig.fields.zipIdx.filterMap (embeddedField node)

/-- The struct that defines a method, and the name the method is registered under. -/
def locateStructMethod {Sig : Type} (Γ : Tables) (funcs : String → Option Sig)
    (sname method : String) : Option (Option (StructNode × String)) :=
  BreadthFirst.search (declaredEmbeddedFields Γ) (·.name)
    (fun node => (methodKey funcs node.name method).map fun key => (node, key))
    [rootNode sname []] [sname]

/-- The name of the struct that defines a method, and the method's signature. -/
def findStructMethod {Sig : Type} (Γ : Tables) (funcs : String → Option Sig)
    (sname method : String) : Option (Option (String × Sig)) :=
  (locateStructMethod Γ funcs sname method).map fun found => do
    let (node, key) ← found
    return (node.name, ← funcs key)

end ZzLang.Checker
