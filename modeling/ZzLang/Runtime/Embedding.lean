import ZzLang.Runtime.Value
import ZzLang.Syntax.Pattern
import Mathlib.Data.List.Lex

/-!
# Embedded structs at run time

Values do not carry the types of their fields. At run time a field is embedded when it holds
an object whose type has the field's own name, and a name is looked up depth first: in the
object itself, then in its embedded objects from the first to the last.

As in the checker, the lookups also say through which fields, by position, they have found
what they return. `embeddedObjects` lists the objects in the order of these lookups.
-/

namespace ZzLang.Runtime

open Syntax (lastSegment namespaceOf)

/-- Does a field hold an embedded value? -/
def isEmbeddedValue (fname : String) (value : Value) : Bool :=
  match value with
  | .object name _ => lastSegment name == fname
  | _ => false

/-- The bound on the promotion of fields. -/
def maxEmbedDepth : ℕ := 32

/-! ### Fields -/

/-- Text pairs as a dictionary. -/
def pairsDict (pairs : List (String × String)) : Value :=
  .dict (pairs.map fun p => (.str p.1, .str p.2))

/-- A field of a request. -/
def requestField (req : HttpRequest) (name : String) : Option Value :=
  if name = "method" then some (.str req.method)
  else if name = "path" then some (.str req.path)
  else if name = "body" then some (.str req.body)
  else if name = "headers" then some (pairsDict req.headers)
  else if name = "query" then some (pairsDict req.query)
  else if name = "params" then some (pairsDict req.params)
  else none

/-- Is the key this text? -/
def isStrKey (name : String) : Value → Bool
  | .str s => s == name
  | _ => false

mutual
/-- The field of a value and the positions of the embedded fields that lead to it. -/
def locateField (v : Value) (name : String) (depth : ℕ) : Option (List ℕ × Value) :=
  match v with
  | .object _ fields =>
    match fields.find? fun f => f.1 == name with
    | some (_, w) => some ([], w)
    | none => if depth < maxEmbedDepth then locateInFields fields name depth 0 else none
  | .dict entries => (entries.find? fun e => isStrKey name e.1).map fun e => ([], e.2)
  | .request req => (requestField req name).map fun w => ([], w)
  | _ => none
termination_by structural v
/-- Go through the fields of an object, of which the first is at position `i`. -/
def locateInFields (fields : List (String × Value)) (name : String) (depth i : ℕ) :
    Option (List ℕ × Value) :=
  match fields with
  | [] => none
  | (fname, v) :: rest =>
    if isEmbeddedValue fname v then
      match locateField v name (depth + 1) with
      | some (path, w) => some (i :: path, w)
      | none => locateInFields rest name depth (i + 1)
    else locateInFields rest name depth (i + 1)
termination_by structural fields
end

/-- Read a field, promoting through embedded fields. -/
def objectFieldOpt (v : Value) (name : String) : Option Value :=
  (locateField v name 0).map (·.2)

/-! ### Methods -/

/-- The modules of the standard library. -/
def stdModules : List String :=
  ["str", "vec", "json", "http", "fs", "path", "env", "math", "time", "encoding", "net", "chan",
    "task", "regexp", "crypto", "log", "sys", "args", "process", "uuid", "sqlz",
    "sqlz.postgres", "sqlz.mysql", "colors", "term", "test", "map", "set", "dec", "bytes", "csv",
    "property", "cell", "unix", "tls", "tls_listener", "unix_listener"]

/-- The text before the first dot. -/
def firstSegment (name : String) : String :=
  String.ofList (name.toList.takeWhile (· ≠ '.'))

/-- Is this the head of a module of the standard library? -/
def isStdModuleHead (head : String) : Bool :=
  stdModules.any fun m => firstSegment m == head

/-- The `std.` spelling of a bare `module.function`. -/
def canonicalStdName (name : String) : Option String :=
  if "std.".toList.isPrefixOf name.toList || !name.toList.contains '.' then none
  else if isStdModuleHead (firstSegment name) then some ("std." ++ name)
  else none

/-- What the interpreter calls by name, and the variants of its enums. The functions the
checker has signatures of are there under the same names. -/
structure CallTables (Sig F : Type) where
  /-- The checker's signatures. -/
  sigs : String → Option Sig
  /-- The variables in scope. -/
  env : String → Option F
  funcs : String → Option F
  natives : String → Option F
  /-- Functions of plugins. -/
  plugins : String → Option F
  enumVariants : String → Option (List String)
  registered (name : String) : (sigs name).isSome → (funcs name).isSome ∨ (natives name).isSome

namespace CallTables

variable {Sig F : Type} (T : CallTables Sig F)

/-- Look a name up as it is written, then by its `std.` spelling. -/
def lookupStd (table : String → Option F) (name : String) : Option F :=
  table name <|> (canonicalStdName name).bind table

/-- May the name be read by its `std.` spelling? Variables and functions of this very name
come first. -/
def mayRewrite (name canon : String) : Bool :=
  (T.env (firstSegment name)).isNone && (T.env name).isNone && (T.funcs name).isNone &&
    (T.natives name).isNone && ((T.funcs canon).isSome || (T.natives canon).isSome)

def lookupCallable (name : String) : Option F :=
  let name := match canonicalStdName name with
    | some canon => if T.mayRewrite name canon then canon else name
    | none => name
  T.env name <|> lookupStd T.funcs name <|> lookupStd T.natives name <|> T.plugins name

/-- The enum of which an object is a variant, by the object's name. -/
def enumOf (name : String) : Option String := do
  let e ← namespaceOf name
  let variants ← T.enumVariants e
  if lastSegment name ∈ variants then some e else none

/-- The callee of a method on an object of this name, embedded objects aside: its own method,
a method of its enum, any callable of the bare name, a function of its module. -/
def ownCallee (name method : String) : Option F :=
  T.lookupCallable (name ++ "." ++ method) <|>
    ((T.enumOf name).bind fun e => T.lookupCallable (e ++ "." ++ method)) <|>
    T.lookupCallable method <|>
    (namespaceOf name).bind fun ns => T.lookupCallable (ns ++ "." ++ method)

end CallTables

/-- The module whose functions serve as methods of a value. -/
def Value.methodNamespace : Value → Option String
  | .str _ => Option.some "str"
  | .array _ => Option.some "vec"
  | .some _ | .none => Option.some "option"
  | .ok _ | .err _ => Option.some "result"
  | .int _ => Option.some "int"
  | .float _ => Option.some "float"
  | .bool _ => Option.some "bool"
  | .request _ => Option.some "http"
  | .object name _ => namespaceOf name
  | .handle kind _ =>
    match kind with
    | .bytes => Option.some "bytes"
    | .tcpStream | .tcpListener => Option.some "net"
    | .httpServer | .response => Option.some "http"
    | .db => Option.some "sqlz"
    | .pooled tag => Option.some tag
    | .chan => Option.some "chan"
    | .func | .native | .json | .taskJoin => Option.none
  | .unit | .tuple _ | .dict _ | .range _ _ _ => Option.none

section Lookup

variable {Sig F : Type} (T : CallTables Sig F)

mutual
/-- The callee of a method, the receiver it gets, and the positions that lead there. -/
def locateMethod (recv : Value) (method : String) : Option (F × List ℕ × Value) :=
  match recv with
  | .object name fields =>
    match T.ownCallee name method with
    | some f => some (f, [], recv)
    | none => locateMethodInFields fields method 0
  | _ =>
    (T.lookupCallable method <|>
      recv.methodNamespace.bind fun ns => T.lookupCallable (ns ++ "." ++ method)).map
      fun f => (f, [], recv)
/-- Go through the fields of an object, of which the first is at position `i`. -/
def locateMethodInFields (fields : List (String × Value)) (method : String) (i : ℕ) :
    Option (F × List ℕ × Value) :=
  match fields with
  | [] => none
  | (fname, v) :: rest =>
    if isEmbeddedValue fname v then
      match locateMethod v method with
      | some (f, path, r) => some (f, i :: path, r)
      | none => locateMethodInFields rest method (i + 1)
    else locateMethodInFields rest method (i + 1)
end

/-- The callee of a method and the receiver it gets; `none` is the error of an undefined
method. -/
def lookupMethodRecv (recv : Value) (method : String) : Option (F × Value) :=
  (locateMethod T recv method).map fun r => (r.1, r.2.2)

end Lookup

/-! ### The embedded objects of a value -/

/-- An object reached through embedded fields. -/
structure EmbeddedObject where
  path : List ℕ
  name : String
  fields : List (String × Value)

/-- The same object seen from one field further out. -/
def EmbeddedObject.below (i : ℕ) (o : EmbeddedObject) : EmbeddedObject :=
  { o with path := i :: o.path }

mutual
/-- The embedded objects of a value, depth first. -/
def embeddedObjects (v : Value) : List EmbeddedObject :=
  match v with
  | .object name fields =>
    { path := [], name := name, fields := fields } :: embeddedInFields fields 0
  | _ => []
/-- The embedded objects of some fields, of which the first is at position `i`. -/
def embeddedInFields (fields : List (String × Value)) (i : ℕ) : List EmbeddedObject :=
  match fields with
  | [] => []
  | (fname, v) :: rest =>
    (if isEmbeddedValue fname v then (embeddedObjects v).map (EmbeddedObject.below i) else []) ++
      embeddedInFields rest (i + 1)
end

/-- The objects embedded in fields have a path through one of these fields. -/
theorem path_of_mem_embeddedInFields : ∀ (fields : List (String × Value)) (i : ℕ),
    ∀ o ∈ embeddedInFields fields i, ∃ j p, i ≤ j ∧ o.path = j :: p
  | [], i, o, ho => by simp [embeddedInFields] at ho
  | (fname, v) :: rest, i, o, ho => by
    rw [embeddedInFields] at ho
    rcases List.mem_append.mp ho with ho | ho
    · by_cases hemb : isEmbeddedValue fname v = true
      · rw [if_pos hemb] at ho
        obtain ⟨o', -, rfl⟩ := List.mem_map.mp ho
        exact ⟨i, o'.path, le_rfl, rfl⟩
      · simp [hemb] at ho
    · obtain ⟨j, p, hj, hpath⟩ := path_of_mem_embeddedInFields rest (i + 1) o ho
      exact ⟨j, p, by omega, hpath⟩

mutual
/-- The embedded objects are listed in the lexicographic order of their paths. -/
theorem embeddedObjects_sorted : ∀ v : Value,
    (embeddedObjects v).Pairwise fun o o' => o.path < o'.path
  | .object n fields => by
    rw [embeddedObjects]
    refine List.pairwise_cons.mpr ⟨fun o ho => ?_, embeddedInFields_sorted fields 0⟩
    obtain ⟨j, p, -, hpath⟩ := path_of_mem_embeddedInFields fields 0 o ho
    rw [hpath]
    exact List.nil_lt_cons j p
  | .int _ | .float _ | .str _ | .bool _ | .unit | .some _ | .none | .ok _ | .err _ | .array _
  | .tuple _ | .dict _ | .range _ _ _ | .request _ | .handle _ _ => by simp [embeddedObjects]
theorem embeddedInFields_sorted : ∀ (fields : List (String × Value)) (i : ℕ),
    (embeddedInFields fields i).Pairwise fun o o' => o.path < o'.path
  | [], i => by simp [embeddedInFields]
  | (fname, v) :: rest, i => by
    rw [embeddedInFields]
    refine List.pairwise_append.mpr ⟨?_, embeddedInFields_sorted rest (i + 1), ?_⟩
    · by_cases hemb : isEmbeddedValue fname v = true
      · rw [if_pos hemb]
        refine List.pairwise_map.mpr ((embeddedObjects_sorted v).imp fun h => ?_)
        exact List.cons_lt_cons_self.mpr h
      · simp [hemb]
    · -- the first position is smaller here
      intro o ho o' ho'
      obtain ⟨j, p, hj, hpath⟩ := path_of_mem_embeddedInFields rest (i + 1) o' ho'
      by_cases hemb : isEmbeddedValue fname v = true
      · rw [if_pos hemb] at ho
        obtain ⟨o, -, rfl⟩ := List.mem_map.mp ho
        rw [hpath]
        exact List.Lex.rel (by omega)
      · simp [hemb] at ho
end

/-- The field of an embedded object, unless it lies too deep. -/
def fieldWithin (name : String) (depth : ℕ) (o : EmbeddedObject) : Option (List ℕ × Value) :=
  if depth + o.path.length ≤ maxEmbedDepth then
    (o.fields.find? fun f => f.1 == name).map fun f => (o.path, f.2)
  else none

theorem fieldWithin_below (name : String) (depth i : ℕ) (o : EmbeddedObject) :
    fieldWithin name depth (o.below i) =
      (fieldWithin name (depth + 1) o).map fun r => (i :: r.1, r.2) := by
  have hlen : depth + (o.path.length + 1) ≤ maxEmbedDepth ↔
      depth + 1 + o.path.length ≤ maxEmbedDepth := by omega
  by_cases h : depth + 1 + o.path.length ≤ maxEmbedDepth
  · simp [fieldWithin, EmbeddedObject.below, hlen, h, Function.comp_def]
  · simp [fieldWithin, EmbeddedObject.below, hlen, h]

/-- Is the value an object? -/
def Value.isObject : Value → Bool
  | .object _ _ => true
  | _ => false

theorem isObject_of_isEmbeddedValue {fname : String} {v : Value}
    (h : isEmbeddedValue fname v = true) : v.isObject = true := by
  cases v <;> first | rfl | cases h

mutual
/-- Reading a field of an object searches its embedded objects in order. -/
theorem locateField_eq (name : String) : ∀ (v : Value) (depth : ℕ), v.isObject = true →
    depth ≤ maxEmbedDepth →
    locateField v name depth = (embeddedObjects v).findSome? (fieldWithin name depth)
  | .object n fields, depth, _, hdepth => by
    have hroot : fieldWithin name depth ⟨[], n, fields⟩ =
        (fields.find? fun f => f.1 == name).map fun f => ([], f.2) := by
      simp [fieldWithin, hdepth]
    simp only [locateField, embeddedObjects, List.findSome?_cons, hroot]
    rcases hfind : fields.find? fun f => f.1 == name with _ | f
    · by_cases hlt : depth < maxEmbedDepth
      · simpa [hlt, hfind] using locateInFields_eq name fields depth 0 hlt
      · -- every embedded object lies too deep
        simp only [hfind, hlt, if_false, Option.map_none]
        symm
        rw [List.findSome?_eq_none_iff]
        intro o ho
        obtain ⟨j, p, -, hpath⟩ := path_of_mem_embeddedInFields fields 0 o ho
        refine if_neg ?_
        rw [hpath, List.length_cons]
        omega
    · simp only [hfind, Option.map_some]
  | .int _, _, h, _ | .float _, _, h, _ | .str _, _, h, _ | .bool _, _, h, _ | .unit, _, h, _
  | .some _, _, h, _ | .none, _, h, _ | .ok _, _, h, _ | .err _, _, h, _ | .array _, _, h, _
  | .tuple _, _, h, _ | .dict _, _, h, _ | .range _ _ _, _, h, _ | .request _, _, h, _
  | .handle _ _, _, h, _ => by
    cases h
theorem locateInFields_eq (name : String) : ∀ (fields : List (String × Value)) (depth i : ℕ),
    depth < maxEmbedDepth →
    locateInFields fields name depth i =
      (embeddedInFields fields i).findSome? (fieldWithin name depth)
  | [], depth, i, _ => by simp [locateInFields, embeddedInFields]
  | (fname, v) :: rest, depth, i, hdepth => by
    have hrest := locateInFields_eq name rest depth (i + 1) hdepth
    rw [locateInFields, embeddedInFields, List.findSome?_append]
    by_cases hemb : isEmbeddedValue fname v = true
    · have hv := locateField_eq name v (depth + 1) (isObject_of_isEmbeddedValue hemb) hdepth
      have hbelow : ((embeddedObjects v).map (EmbeddedObject.below i)).findSome?
          (fieldWithin name depth) = (locateField v name (depth + 1)).map fun r =>
            (i :: r.1, r.2) := by
        rw [hv, List.findSome?_map, List.map_findSome?]
        congr 1
        funext o
        exact fieldWithin_below name depth i o
      rw [if_pos hemb, if_pos hemb, hbelow]
      rcases locateField v name (depth + 1) with _ | r
      · exact hrest
      · rfl
    · rw [if_neg hemb, if_neg hemb]
      simpa using hrest
end

section Callee

variable {Sig F : Type} (T : CallTables Sig F)

/-- The callee of a method on an embedded object, which is then the receiver. -/
def calleeAt (method : String) (o : EmbeddedObject) : Option (F × List ℕ × Value) :=
  (T.ownCallee o.name method).map fun f => (f, o.path, .object o.name o.fields)

mutual
/-- Looking up a method of an object searches its embedded objects in order. -/
theorem locateMethod_eq (method : String) : ∀ v : Value, v.isObject = true →
    locateMethod T v method = (embeddedObjects v).findSome? (calleeAt T method)
  | .object n fields, _ => by
    simp only [locateMethod, embeddedObjects, List.findSome?_cons, calleeAt]
    rcases hcallee : T.ownCallee n method with _ | f
    · simpa [hcallee, calleeAt] using locateMethodInFields_eq method fields 0
    · simp only [Option.map_some]
  | .int _, h | .float _, h | .str _, h | .bool _, h | .unit, h | .some _, h | .none, h
  | .ok _, h | .err _, h | .array _, h | .tuple _, h | .dict _, h | .range _ _ _, h
  | .request _, h | .handle _ _, h => by cases h
theorem locateMethodInFields_eq (method : String) :
    ∀ (fields : List (String × Value)) (i : ℕ), locateMethodInFields T fields method i =
      (embeddedInFields fields i).findSome? (calleeAt T method)
  | [], i => by simp [locateMethodInFields, embeddedInFields]
  | (fname, v) :: rest, i => by
    have hrest := locateMethodInFields_eq method rest (i + 1)
    rw [locateMethodInFields, embeddedInFields, List.findSome?_append]
    by_cases hemb : isEmbeddedValue fname v = true
    · have hv := locateMethod_eq method v (isObject_of_isEmbeddedValue hemb)
      have hbelow : ((embeddedObjects v).map (EmbeddedObject.below i)).findSome?
          (calleeAt T method) = (locateMethod T v method).map fun r =>
            (r.1, i :: r.2.1, r.2.2) := by
        rw [hv, List.findSome?_map, List.map_findSome?]
        congr 1
        funext o
        simp [calleeAt, EmbeddedObject.below, Function.comp_def]
      rw [if_pos hemb, if_pos hemb, hbelow]
      rcases locateMethod T v method with _ | r
      · exact hrest
      · rfl
    · rw [if_neg hemb, if_neg hemb]
      simpa using hrest
end

end Callee

/-- The embedded objects of a field are among those of the fields. -/
theorem below_mem_embeddedInFields {fields : List (String × Value)} {i j : ℕ}
    {fname : String} {v : Value} (hfield : fields[j]? = some (fname, v))
    (hemb : isEmbeddedValue fname v = true) {o : EmbeddedObject} (ho : o ∈ embeddedObjects v) :
    o.below (i + j) ∈ embeddedInFields fields i := by
  induction fields generalizing i j with
  | nil => simp at hfield
  | cons field rest ih =>
    rw [embeddedInFields, List.mem_append]
    cases j with
    | zero =>
      obtain rfl : field = (fname, v) := by simpa using hfield
      left
      simpa [hemb] using ⟨o, ho, rfl⟩
    | succ j =>
      right
      have := ih (i := i + 1) (j := j) (by simpa using hfield)
      rwa [show i + 1 + j = i + (j + 1) by omega] at this

mutual
/-- An embedded object of an embedded object is one of the value. -/
theorem child_mem_embeddedObjects : ∀ (v : Value) {o : EmbeddedObject} {j : ℕ}
    {fname n : String} {fields : List (String × Value)}, o ∈ embeddedObjects v →
    o.fields[j]? = some (fname, .object n fields) → lastSegment n = fname →
    ⟨o.path ++ [j], n, fields⟩ ∈ embeddedObjects v
  | .object n' fields' => fun ho hfield hname => by
    rename_i o j fname n fields
    rw [embeddedObjects] at ho ⊢
    refine List.mem_cons_of_mem _ ?_
    rcases List.mem_cons.mp ho with rfl | ho
    · have hself : (⟨[], n, fields⟩ : EmbeddedObject) ∈ embeddedObjects (.object n fields) := by
        rw [embeddedObjects]
        exact List.mem_cons_self
      have := below_mem_embeddedInFields (i := 0) hfield (by simpa [isEmbeddedValue] using hname)
        hself
      simpa [EmbeddedObject.below] using this
    · exact child_mem_embeddedInFields fields' ho hfield hname
  | .int _ | .float _ | .str _ | .bool _ | .unit | .some _ | .none | .ok _ | .err _ | .array _
  | .tuple _ | .dict _ | .range _ _ _ | .request _ | .handle _ _ => fun h => absurd h List.not_mem_nil
theorem child_mem_embeddedInFields : ∀ (fields' : List (String × Value)) {i : ℕ}
    {o : EmbeddedObject} {j : ℕ} {fname n : String} {fields : List (String × Value)},
    o ∈ embeddedInFields fields' i → o.fields[j]? = some (fname, .object n fields) →
    lastSegment n = fname → ⟨o.path ++ [j], n, fields⟩ ∈ embeddedInFields fields' i
  | [] => fun ho => absurd ho List.not_mem_nil
  | (fname', v) :: rest => fun ho hfield hname => by
    rename_i i o j fname n fields
    rw [embeddedInFields, List.mem_append] at ho ⊢
    rcases ho with ho | ho
    · left
      by_cases hemb : isEmbeddedValue fname' v = true
      · rw [if_pos hemb] at ho ⊢
        obtain ⟨o, ho', rfl⟩ := List.mem_map.mp ho
        exact List.mem_map.mpr
          ⟨⟨o.path ++ [j], n, fields⟩, child_mem_embeddedObjects v ho' hfield hname, rfl⟩
      · simp [hemb] at ho
    · exact Or.inr (child_mem_embeddedInFields rest ho hfield hname)
end

/-- The object without a path is the value itself. -/
theorem eq_object_of_path_eq_nil {v : Value} {o : EmbeddedObject} (ho : o ∈ embeddedObjects v)
    (hpath : o.path = []) : v = .object o.name o.fields := by
  cases v with
  | object n fields =>
    rw [embeddedObjects] at ho
    rcases List.mem_cons.mp ho with rfl | ho
    · rfl
    · obtain ⟨j, p, -, h⟩ := path_of_mem_embeddedInFields fields 0 o ho
      simp [h] at hpath
  | _ => simp [embeddedObjects] at ho

mutual
/-- Every embedded object but the first is in a field of one before it. -/
theorem parent_of_mem_embeddedObjects : ∀ (v : Value) {o : EmbeddedObject} {p : List ℕ} {j : ℕ},
    o ∈ embeddedObjects v → o.path = p ++ [j] →
    ∃ parent ∈ embeddedObjects v, parent.path = p ∧
      ∃ fname, parent.fields[j]? = some (fname, .object o.name o.fields)
  | .object n fields => fun ho hpath => by
    rename_i o p j
    rw [embeddedObjects] at ho ⊢
    rcases List.mem_cons.mp ho with rfl | ho
    · simp at hpath
    · obtain ⟨parent, hparent, hp, h⟩ | ⟨rfl, k, rfl, fname, h⟩ :=
        parent_of_mem_embeddedInFields fields 0 ho hpath
      · exact ⟨parent, List.mem_cons_of_mem _ hparent, hp, h⟩
      · exact ⟨_, List.mem_cons_self, rfl, fname, by simpa using h⟩
  | .int _ | .float _ | .str _ | .bool _ | .unit | .some _ | .none | .ok _ | .err _ | .array _
  | .tuple _ | .dict _ | .range _ _ _ | .request _ | .handle _ _ => fun h => absurd h List.not_mem_nil
theorem parent_of_mem_embeddedInFields : ∀ (fields : List (String × Value)) (i : ℕ)
    {o : EmbeddedObject} {p : List ℕ} {j : ℕ}, o ∈ embeddedInFields fields i →
    o.path = p ++ [j] →
    (∃ parent ∈ embeddedInFields fields i, parent.path = p ∧
      ∃ fname, parent.fields[j]? = some (fname, .object o.name o.fields)) ∨
    (p = [] ∧ ∃ k, j = i + k ∧ ∃ fname, fields[k]? = some (fname, .object o.name o.fields))
  | [] => fun _ {_ _ _} ho _ => absurd ho List.not_mem_nil
  | (fname, v) :: rest => fun i {o p j} ho hpath => by
    rw [embeddedInFields, List.mem_append] at ho
    rcases ho with ho | ho
    · by_cases hemb : isEmbeddedValue fname v = true
      · rw [if_pos hemb] at ho
        obtain ⟨o', ho', rfl⟩ := List.mem_map.mp ho
        cases p with
        | nil =>
          -- the object of the field itself
          obtain ⟨rfl, hnil⟩ : i = j ∧ o'.path = [] := by
            simpa [EmbeddedObject.below] using hpath
          refine Or.inr ⟨rfl, 0, by simp, fname, ?_⟩
          rw [eq_object_of_path_eq_nil ho' hnil]
          rfl
        | cons k p =>
          obtain ⟨rfl, hpath'⟩ : i = k ∧ o'.path = p ++ [j] := by
            simpa [EmbeddedObject.below] using hpath
          obtain ⟨parent, hparent, hp, h⟩ := parent_of_mem_embeddedObjects v ho' hpath'
          refine Or.inl ⟨parent.below i, ?_, by simp [EmbeddedObject.below, hp], h⟩
          rw [embeddedInFields, if_pos hemb]
          exact List.mem_append_left _ (List.mem_map_of_mem hparent)
      · simp [hemb] at ho
    · rcases parent_of_mem_embeddedInFields rest (i + 1) ho hpath with h | h
      · obtain ⟨parent, hparent, h⟩ := h
        refine Or.inl ⟨parent, ?_, h⟩
        rw [embeddedInFields]
        exact List.mem_append_right _ hparent
      · obtain ⟨rfl, k, rfl, fname', h⟩ := h
        exact Or.inr ⟨rfl, k + 1, by omega, fname', by simpa using h⟩
end

end ZzLang.Runtime
