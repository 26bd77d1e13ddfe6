import ZzLang.Checker.Ty

/-!
# Struct and enum signatures

The tables the checker fills from the declarations of a program, and the substitution of a
generic type's arguments for its parameters.
-/

namespace ZzLang.Checker

/-- A struct: its type parameters, and its fields in the order of their declaration. The
field types may name the parameters. -/
structure StructSig where
  generics : List String
  fields : List (String × Ty)

/-- An enum: its type parameters, and its variants with their payload types. -/
structure EnumSig where
  generics : List String
  variants : List (String × Option Ty)

/-- The registered structs and enums, by their qualified names. -/
structure Tables where
  structs : String → Option StructSig
  enums : String → Option EnumSig

namespace Ty

mutual
/-- Replace generic parameters. -/
def substNamed (subs : String → Option Ty) : Ty → Ty
  | named name => (subs name).getD (named name)
  | ptr m t => ptr m (t.substNamed subs)
  | option t => option (t.substNamed subs)
  | array t => array (t.substNamed subs)
  | range t => range (t.substNamed subs)
  | tuple ts => tuple (substsNamed subs ts)
  | union ts => union (substsNamed subs ts)
  | struct n ts => struct n (substsNamed subs ts)
  | enum n ts => enum n (substsNamed subs ts)
  | result a b => result (a.substNamed subs) (b.substNamed subs)
  | dict a b => dict (a.substNamed subs) (b.substNamed subs)
  | func ps r => func (substsNamed subs ps) (r.substNamed subs)
  | t => t
/-- Replace generic parameters in a list of types. -/
def substsNamed (subs : String → Option Ty) : List Ty → List Ty
  | [] => []
  | t :: ts => t.substNamed subs :: substsNamed subs ts
end

end Ty

/-- The map from parameters to arguments: of a repeated parameter the last argument counts. -/
def genericMap (generics : List String) (args : List Ty) (name : String) : Option Ty :=
  (generics.zip args).reverse.lookup name

/-- Put a generic type's arguments into a type of its declaration. With the wrong number of
arguments the parameters stay as they are. -/
def substGenerics (generics : List String) (args : List Ty) (t : Ty) : Ty :=
  if generics.length ≠ args.length then t else t.substNamed (genericMap generics args)

namespace Tables

/-- The payload type of an enum's variant at the scrutinee's arguments. -/
def substEnumPayload (Γ : Tables) (enumName : String) (args : List Ty) (payload : Ty) : Ty :=
  substGenerics (((Γ.enums enumName).map (·.generics)).getD []) args payload

/-- The first variant of an enum with this name. -/
def variant (Γ : Tables) (enumName variantName : String) : Option (String × Option Ty) := do
  let sig ← Γ.enums enumName
  sig.variants.find? fun v => v.1 == variantName

end Tables

end ZzLang.Checker
