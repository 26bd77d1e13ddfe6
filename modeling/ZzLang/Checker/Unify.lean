import ZzLang.Checker.Ty
import Mathlib.Data.List.Basic

/-!
# Type unification

The unifier of the checker as the source computes it. Its state is a map from the
numbers of inference variables to types and the next number to hand out. The walks that
follow the map (`resolve`, `terminalVar`, `occurs`, `resolveDeep`) and unification itself
recurse through the map and not through the structure of a type, so nothing in their text
says that they end: they are least fixed points in `Option`, where `none` is a call that
does not return.

`unifyInner` is cut at the place where the source matches on the two peeled types: what
each arm of that match asks for is the value of the pure function `matchPeeled`, and
`unifyInner` carries it out.
-/

namespace ZzLang.Checker

/-- The unifier: the bindings of the inference variables, and the next variable's number. -/
structure Unifier where
  vars : Bindings UInt32 Ty
  nextVar : UInt32

/-- The offending pair of a failed unification, as text. -/
structure UnifyError where
  left : String
  right : String
  message : String
  deriving DecidableEq

/-- The bindings to restore when a trial fails, oldest first. -/
abbrev Journal := List (UInt32 × Option Ty)

namespace Unifier

def new : Unifier where
  vars := fun _ => none
  nextVar := 0

/-- Allocate a fresh inference variable. -/
def freshVar (u : Unifier) : Ty × Unifier :=
  (.var u.nextVar, { u with nextVar := u.nextVar + 1 })

/-! ### Following the map -/

/-- Follow variable chains to a concrete type or an unbound variable. -/
def resolve (u : Unifier) (t : Ty) : Option Ty :=
  match t with
  | .var id =>
    match u.vars id with
    | some inner => u |>.resolve inner
    | none => some (.var id)
  | t => some t
partial_fixpoint

/-- The unbound variable a chain ends in, if it ends in one. -/
def terminalVar (u : Unifier) (t : Ty) : Option (Option UInt32) :=
  match t with
  | .var id =>
    match u.vars id with
    | some inner => u |>.terminalVar inner
    | none => some (some id)
  | _ => some none
partial_fixpoint

/-- Resolve every variable in a type. -/
def resolveDeep (u : Unifier) (t : Ty) : Option Ty := do
  match ← u.resolve t with
  | .tuple ts => return .tuple (← ts.mapM fun x => u |>.resolveDeep x)
  | .option inner => return .option (← u |>.resolveDeep inner)
  | .result a b => return .result (← u |>.resolveDeep a) (← u |>.resolveDeep b)
  | .func ps r => return .func (← ps.mapM fun x => u |>.resolveDeep x) (← u |>.resolveDeep r)
  | .array t => return .array (← u |>.resolveDeep t)
  | .dict k v => return .dict (← u |>.resolveDeep k) (← u |>.resolveDeep v)
  | .union ts => return .union (← ts.mapM fun x => u |>.resolveDeep x)
  | .struct n args => return .struct n (← args.mapM fun x => u |>.resolveDeep x)
  | .enum n args => return .enum n (← args.mapM fun x => u |>.resolveDeep x)
  | .range t => return .range (← u |>.resolveDeep t)
  | .ptr mutable inner => return .ptr mutable (← u |>.resolveDeep inner)
  | other => return other
partial_fixpoint

/-- Does variable `id` appear in `t`, through chains? -/
def occurs (u : Unifier) (id : UInt32) (t : Ty) : Option Bool :=
  match t with
  | .var other =>
    match u.vars other with
    | some inner => if other = id then some true else u |>.occurs id inner
    | none => some (decide (other = id))
  | .tuple ts => ts.anyM fun x => u |>.occurs id x
  | .option x => u |>.occurs id x
  | .result a b => [a, b].anyM fun x => u |>.occurs id x
  | .func ps r => (ps ++ [r]).anyM fun x => u |>.occurs id x
  | .array x => u |>.occurs id x
  | .dict k v => [k, v].anyM fun x => u |>.occurs id x
  | .union ts => ts.anyM fun x => u |>.occurs id x
  | .struct _ args => args.anyM fun x => u |>.occurs id x
  | .enum _ args => args.anyM fun x => u |>.occurs id x
  | .range x => u |>.occurs id x
  | .ptr _ inner => u |>.occurs id inner
  | _ => some false
partial_fixpoint

/-! ### Recording bindings -/

/-- Record a binding, journaling the previous value the first time. -/
def journaledInsert (u : Unifier) (journal : Journal) (id : UInt32) (ty : Ty) :
    Unifier × Journal :=
  ({ u with vars := u.vars.bind id ty },
    if journal.any fun entry => entry.1 = id then journal else journal ++ [(id, u.vars id)])

/-- Undo journal entries back to `mark`, the newest first. -/
def rollback (u : Unifier) (journal : Journal) (mark : Nat) : Unifier × Journal :=
  let restore (entry : UInt32 × Option Ty) (vars : Bindings UInt32 Ty) : Bindings UInt32 Ty :=
    Function.update vars entry.1 entry.2
  ({ u with vars := (journal.drop mark).foldr restore u.vars }, journal.take mark)

/-- Peel one bound variable off a type. -/
def peel (u : Unifier) (t : Ty) : Ty :=
  match t with
  | .var id => (u.vars id).getD t
  | t => t

end Unifier

/-! ### The match on the peeled types -/

/-- What an arm of the match on two peeled types asks for. -/
inductive Arm
  /-- `Ok(())`, binding nothing. -/
  | accept
  /-- Report the pair. -/
  | refuse (e : UnifyError)
  /-- Bind the variable after the occurs check. -/
  | bindVar (x : UInt32) (t : Ty)
  /-- Unify the pairs in order, stopping at the first failure. -/
  | each (pairs : List (Ty × Ty))
  /-- Match every member of the first union against the second. -/
  | eachMember (ms ns : List Ty)
  /-- Match a type against any member of a union. -/
  | anyMember (t : Ty) (ms : List Ty)

/-- The pair that an arity check compares, pairwise, or the reported mismatch. -/
def eachOfArity (xs ys : List Ty) (rest : List (Ty × Ty)) (e : UnifyError) : Arm :=
  if xs.length ≠ ys.length then .refuse e else .each (xs.zip ys ++ rest)

/-- The report of the arms that fit no pair of constructors. -/
def typeMismatch (a b : Ty) : Arm :=
  .refuse { left := a.display, right := b.display, message := "type mismatch" }

/-- The last arms: unions on either side, and the mismatch. -/
def matchUnion (a b : Ty) : Arm :=
  match a, b with
  | .union ms, .union ns => .eachMember ms ns
  | .union ms, t => .anyMember t ms
  | t, .union ms => .anyMember t ms
  | a, b => typeMismatch a b

/-- The arms on two types neither of which is a variable or absorbing. -/
def matchConstructors (a b : Ty) : Arm :=
  match a, b with
  | .int, .int | .float, .float | .bool, .bool | .str, .str | .unit, .unit | .void, .void =>
    .accept
  | .named x, .named y => if x = y then .accept else typeMismatch a b
  | .enum x xs, .enum y ys =>
    if x = y then
      eachOfArity xs ys []
        { left := x, right := y, message := "type argument arity mismatch" }
    else typeMismatch a b
  | .struct x xs, .struct y ys =>
    if x = y then
      eachOfArity xs ys []
        { left := x, right := y, message := "type argument arity mismatch" }
    else typeMismatch a b
  | .handle x, .handle y => if x = y then .accept else typeMismatch a b
  | .range x, .range y => .each [(x, y)]
  | .json, .json | .db, .db | .bytes, .bytes | .httpServer, .httpServer
  | .tcpStream, .tcpStream | .tcpListener, .tcpListener | .response, .response
  | .httpRequest, .httpRequest | .chan, .chan | .taskJoin, .taskJoin => .accept
  | .tuple xs, .tuple ys =>
    eachOfArity xs ys []
      { left := "(" ++ ", ".intercalate (Ty.displays xs) ++ ")"
        right := "(" ++ ", ".intercalate (Ty.displays ys) ++ ")"
        message := "tuple arity mismatch" }
  | .option x, .option y => .each [(x, y)]
  | .result a₁ e₁, .result a₂ e₂ => .each [(a₁, a₂), (e₁, e₂)]
  | .func p₁ r₁, .func p₂ r₂ =>
    eachOfArity p₁ p₂ [(r₁, r₂)]
      { left := "func(" ++ ", ".intercalate (Ty.displays p₁) ++ ")"
        right := "func(" ++ ", ".intercalate (Ty.displays p₂) ++ ")"
        message := "function arity mismatch" }
  | .array x, .array y => .each [(x, y)]
  | .ptr m₁ x, .ptr m₂ y =>
    if m₁ ≠ m₂ then
      .refuse
        { left := a.display
          right := b.display
          message := "pointer mutability mismatch (`*const` vs `*mut`)" }
    else .each [(x, y)]
  | .dict k₁ v₁, .dict k₂ v₂ => .each [(k₁, k₂), (v₁, v₂)]
  | a, b => matchUnion a b

/-- The arms of the match on the two peeled types, in the source's order: variables first,
then the absorbing types, then equal constructors, then unions. -/
def matchPeeled (a b : Ty) : Arm :=
  match a, b with
  | .var x, .var y => if x = y then .accept else .bindVar x (.var y)
  | .var x, t => .bindVar x t
  | t, .var x => .bindVar x t
  | .error, _ => .accept
  | _, .error => .accept
  | .never, _ => .accept
  | _, .never => .accept
  | a, b => matchConstructors a b

/-! ### Unification -/

/-- What a call returns: the result, with the map and the journal it leaves. -/
abbrev Outcome := Except UnifyError Unit × Unifier × Journal

namespace Unifier

/-- Bind `x` to `t` unless `x` occurs in `t`. -/
def bindChecked (u : Unifier) (journal : Journal) (x : UInt32) (t : Ty) (e : UnifyError) :
    Option Outcome := do
  if ← u.occurs x t then
    return (.error e, u, journal)
  else
    return (.ok (), u.journaledInsert journal x t)

/-- The report of a failed occurs check. -/
def infiniteType (left right : String) : UnifyError where
  left := left
  right := right
  message := "infinite type"

mutual
/-- Unify two types, binding variables as needed. -/
def unifyInner (u : Unifier) (journal : Journal) (a b : Ty) : Option Outcome := do
  match ← u.terminalVar a, ← u.terminalVar b with
  | some x, some y =>
    if x = y then
      return (.ok (), u, journal)
    else
      u.bindChecked journal x b (infiniteType s!"var{x}" b.display)
  | some x, none => u.bindChecked journal x b (infiniteType s!"var{x}" b.display)
  | none, some y => u.bindChecked journal y a (infiniteType a.display s!"var{y}")
  | none, none =>
    match matchPeeled (u.peel a) (u.peel b) with
    | .accept => return (.ok (), u, journal)
    | .refuse e => return (.error e, u, journal)
    | .bindVar x t => u.bindChecked journal x t (infiniteType s!"var{x}" t.display)
    | .each pairs => u |>.unifyEach journal pairs
    | .eachMember ms ns => u |>.unifyEachMember journal ms ns
    | .anyMember t ms => u |>.unifyAgainstUnion journal t ms ms none
partial_fixpoint
/-- Unify pairs in order, stopping at the first failure. -/
def unifyEach (u : Unifier) (journal : Journal) (pairs : List (Ty × Ty)) : Option Outcome :=
  match pairs with
  | [] => some (.ok (), u, journal)
  | (x, y) :: pairs => do
    match ← (u |>.unifyInner journal x y) with
    | (.ok (), u, journal) => u |>.unifyEach journal pairs
    | (.error e, u, journal) => return (.error e, u, journal)
partial_fixpoint
/-- Match every member of one union against another. -/
def unifyEachMember (u : Unifier) (journal : Journal) (ms ns : List Ty) : Option Outcome :=
  match ms with
  | [] => some (.ok (), u, journal)
  | m :: ms => do
    match ← (u |>.unifyAgainstUnion journal m ns ns none) with
    | (.ok (), u, journal) => u |>.unifyEachMember journal ms ns
    | (.error e, u, journal) => return (.error e, u, journal)
partial_fixpoint
/-- Unify `t` against the members of a union that are left to try, committing the first
success and rolling back every failed trial. -/
def unifyAgainstUnion (u : Unifier) (journal : Journal) (t : Ty) (members left : List Ty)
    (lastErr : Option UnifyError) : Option Outcome :=
  match left with
  | [] =>
    some (.error (lastErr.getD
      { left := t.display
        right := " | ".intercalate (Ty.displays members)
        message := "type mismatch" }), u, journal)
  | m :: left => do
    match ← (u |>.unifyInner journal m t) with
    | (.ok (), u, journal) => return (.ok (), u, journal)
    | (.error e, u', journal') =>
      let (u, journal) := u'.rollback journal' journal.length
      u |>.unifyAgainstUnion journal t members left (some e)
partial_fixpoint
end

/-- Unify two types; the journal lives for one call. -/
def unify (u : Unifier) (a b : Ty) : Option (Except UnifyError Unit × Unifier) := do
  let (result, u, _) ← u.unifyInner [] a b
  return (result, u)

end Unifier

end ZzLang.Checker
