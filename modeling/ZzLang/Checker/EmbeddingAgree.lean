import ZzLang.Checker.Structs
import ZzLang.Runtime.Embedding
import ZzLang.Runtime.HasType

/-!
# Static and dynamic embedding

The checker looks a promoted name up breadth first in the types, the interpreters depth first
in the value. On a value of the type both searches go over the same tree of embedded objects,
so they agree exactly when the depth-first first object that has the name is also met first
by the checker's walk: `fieldAgrees_iff` and `methodAgrees_iff`. They differ as soon as the
name is found deep below an early field and less deep below a later one.
-/

namespace ZzLang.Checker

open BreadthFirst (Shortlex walk)

open ZzLang.Runtime (Value HasType EmbeddedObject embeddedObjects CallTables)

open ZzLang.Syntax (lastSegment)

/-! ### Walks over the embedded structs -/

/-- The structs a search over the types at their arguments meets, in order. -/
def visitedStructs (Γ : Tables) (sname : String) (args : List Ty) : Option (List StructNode) :=
  walk (embeddedFields Γ) (·.name) [rootNode sname args] [sname]

/-- The structs a search over the types as declared meets, in order. -/
def visitedDeclared (Γ : Tables) (sname : String) : Option (List StructNode) :=
  walk (declaredEmbeddedFields Γ) (·.name) [rootNode sname []] [sname]

/-- The fields of a struct type in a struct. -/
def structFields (Γ : Tables) (node : StructNode) : List StructNode :=
  match Γ.structs node.name with
  | none => []
  | some sig => (concreteFields sig node.args).filterMap (structField node)

theorem positions_structField {node c : StructNode} {field : (String × Ty) × ℕ}
    (h : structField node field = some c) : c.positions = node.positions ++ [field.2] := by
  rcases field with ⟨⟨fname, t⟩, j⟩
  cases t <;> simp only [structField, reduceCtorEq, Option.some.injEq] at h
  subst h
  simp [StructNode.positions]

theorem structField_of_embeddedField {node c : StructNode} {field : (String × Ty) × ℕ}
    (h : embeddedField node field = some c) : structField node field = some c := by
  simp only [embeddedField] at h
  split_ifs at h
  exact h

/-- Nodes that come from the fields of a struct in order have their paths in order. -/
theorem sorted_filterMap {node : StructNode} {fields : List (String × Ty)} {i : ℕ}
    {f : (String × Ty) × ℕ → Option StructNode}
    (hf : ∀ {field c}, f field = some c → structField node field = some c) :
    ((fields.zipIdx i).filterMap f).Pairwise fun c c' =>
      Shortlex c.positions c'.positions := by
  refine List.pairwise_filterMap.mpr ?_
  induction fields generalizing i with
  | nil => simp
  | cons field fields ih =>
    rw [List.zipIdx_cons]
    refine List.pairwise_cons.mpr ⟨?_, ih⟩
    intro field' hmem c hc c' hc'
    have hlt : i < field'.2 := List.le_snd_of_mem_zipIdx hmem
    rw [positions_structField (hf hc), positions_structField (hf hc')]
    exact List.Shortlex.append_left ((List.shortlex_singleton_iff _ _).mpr hlt) _

theorem extends_embeddedFields (Γ : Tables) :
    BreadthFirst.Extends (embeddedFields Γ) StructNode.positions where
  sorted node := by
    simp only [embeddedFields]
    rcases Γ.structs node.name with _ | sig
    · simp
    · exact sorted_filterMap structField_of_embeddedField
  child node c hc := by
    simp only [embeddedFields] at hc
    rcases hs : Γ.structs node.name with _ | sig
    · simp [hs] at hc
    · simp only [hs] at hc
      obtain ⟨field, -, hc⟩ := List.mem_filterMap.mp hc
      exact ⟨_, positions_structField (structField_of_embeddedField hc)⟩

theorem extends_declaredEmbeddedFields (Γ : Tables) :
    BreadthFirst.Extends (declaredEmbeddedFields Γ) StructNode.positions where
  sorted node := by
    simp only [declaredEmbeddedFields]
    rcases Γ.structs node.name with _ | sig
    · simp
    · exact sorted_filterMap structField_of_embeddedField
  child node c hc := by
    simp only [declaredEmbeddedFields] at hc
    rcases hs : Γ.structs node.name with _ | sig
    · simp [hs] at hc
    · simp only [hs] at hc
      obtain ⟨field, -, hc⟩ := List.mem_filterMap.mp hc
      exact ⟨_, positions_structField (structField_of_embeddedField hc)⟩

/-! ### Nodes and embedded objects -/

section Typed

variable {Γ : Tables} {v : Value}

variable (Γ v) in
/-- The node stands for an embedded object of the value. -/
def Realized (node : StructNode) : Prop :=
  ∃ o ∈ embeddedObjects v, o.path = node.positions ∧ o.name = node.name ∧
    HasType Γ (.object o.name o.fields) (.struct node.name node.args)

/-- The objects of a struct type. -/
theorem hasType_struct_inv {w : Value} {name : String} {args : List Ty}
    (h : HasType Γ w (.struct name args)) : ∃ sig fields, w = .object name fields ∧
      Γ.structs name = some sig ∧ fields.map (·.1) = sig.fields.map (·.1) ∧
      List.Forall₂ (HasType Γ) (fields.map (·.2))
        (sig.fields.map fun f => substGenerics sig.generics args f.2) := by
  cases h with
  | struct hs hnames h => exact ⟨_, _, rfl, hs, hnames, h⟩

/-- The value in a field of an object has the type of the field. -/
theorem hasType_field {fields : List (String × Value)} {decls : List (String × Ty)}
    {g : Ty → Ty} (hnames : fields.map (·.1) = decls.map (·.1))
    (h : List.Forall₂ (HasType Γ) (fields.map (·.2)) (decls.map fun f => g f.2)) {j : ℕ}
    {fname : String} {t : Ty} (hj : decls[j]? = some (fname, t)) :
    ∃ w, fields[j]? = some (fname, w) ∧ HasType Γ w (g t) := by
  induction decls generalizing fields j with
  | nil => simp at hj
  | cons d decls ih =>
    cases fields with
    | nil => simp at hnames
    | cons f fields =>
      obtain ⟨hname, hnames⟩ : f.1 = d.1 ∧ fields.map (·.1) = decls.map (·.1) := by
        simpa using hnames
      obtain ⟨hw, h⟩ : HasType Γ f.2 (g d.2) ∧
          List.Forall₂ (HasType Γ) (fields.map (·.2)) (decls.map fun f => g f.2) := by
        simpa using h
      cases j with
      | zero =>
        obtain rfl : d = (fname, t) := by simpa using hj
        obtain ⟨fname', w⟩ := f
        obtain rfl : fname' = fname := hname
        exact ⟨w, rfl, hw⟩
      | succ j =>
        obtain ⟨w, hj', hw⟩ := ih hnames h (by simpa using hj)
        exact ⟨w, by simpa using hj', hw⟩

theorem mem_concreteFields {sig : StructSig} {args : List Ty} {field : (String × Ty) × ℕ} :
    field ∈ concreteFields sig args ↔ ∃ f, sig.fields[field.2]? = some f ∧
      field.1 = (f.1, substGenerics sig.generics args f.2) := by
  rcases field with ⟨field, j⟩
  simp only [concreteFields, List.mem_zipIdx_iff_getElem?, List.getElem?_map,
    Option.map_eq_some_iff]
  exact exists_congr fun f => and_congr_right fun _ => eq_comm

/-- A field of a struct type holds an object of that struct. -/
theorem object_of_structField {node c : StructNode} {sig : StructSig}
    {fields : List (String × Value)} (hs : Γ.structs node.name = some sig)
    (ho : HasType Γ (.object node.name fields) (.struct node.name node.args))
    {field : (String × Ty) × ℕ} (hmem : field ∈ concreteFields sig node.args)
    (hc : structField node field = some c) :
    ∃ fields', fields[field.2]? = some (field.1.1, .object c.name fields') ∧
      HasType Γ (.object c.name fields') (.struct c.name c.args) := by
  obtain ⟨sig', fields', hobj, hs', hnames, h⟩ := hasType_struct_inv ho
  cases hobj
  obtain rfl : sig = sig' := by simpa [hs] using hs'
  obtain ⟨⟨fname, t⟩, hj, heq⟩ := mem_concreteFields.mp hmem
  obtain ⟨w, hw, htype⟩ := hasType_field hnames h hj
  have hfield : field.1.2 = .struct c.name c.args ∧ field.1.1 = fname := by
    rw [structField, heq] at hc
    rw [heq]
    generalize substGenerics sig.generics node.args t = t' at hc ⊢
    cases t' <;> simp only [reduceCtorEq, Option.some.injEq] at hc
    subst hc
    exact ⟨rfl, rfl⟩
  obtain ⟨hty, rfl⟩ := hfield
  have : substGenerics sig.generics node.args t = .struct c.name c.args := by
    rw [← hty, heq]
  rw [this] at htype
  obtain ⟨-, fields', rfl, -⟩ := hasType_struct_inv htype
  exact ⟨fields', hw, htype⟩

/-- The embedded structs of a realized struct are realized. -/
theorem Realized.embedded {node : StructNode} (h : Realized Γ v node) :
    ∀ c ∈ embeddedFields Γ node, Realized Γ v c := by
  intro c hc
  obtain ⟨o, ho, hpath, hname, htype⟩ := h
  rw [hname] at htype
  simp only [embeddedFields] at hc
  rcases hs : Γ.structs node.name with _ | sig
  · simp [hs] at hc
  · simp only [hs] at hc
    obtain ⟨field, hmem, hc⟩ := List.mem_filterMap.mp hc
    have hc' := structField_of_embeddedField hc
    obtain ⟨fields', hfield, htype'⟩ := object_of_structField hs htype hmem hc'
    have hlast : lastSegment c.name = field.1.1 := by
      simp only [embeddedField, structField] at hc
      split_ifs at hc with hemb
      rcases field with ⟨⟨fname, t⟩, j⟩
      cases t <;> simp only [reduceCtorEq, Option.some.injEq] at hc
      subst hc
      simpa [isEmbeddedField] using hemb
    refine ⟨_, Runtime.child_mem_embeddedObjects v ho hfield hlast, ?_, rfl, htype'⟩
    rw [hpath, positions_structField hc']

theorem substGenerics_struct (generics : List String) (args : List Ty) (name : String)
    (ts : List Ty) : ∃ ts', substGenerics generics args (.struct name ts) = .struct name ts' := by
  by_cases h : generics.length ≠ args.length
  · exact ⟨ts, if_pos h⟩
  · exact ⟨_, if_neg h⟩

/-- By the types as declared, a realized struct embeds realized structs as well. -/
theorem Realized.declared {node : StructNode} {args : List Ty}
    (h : Realized Γ v { node with args := args }) :
    ∀ c ∈ declaredEmbeddedFields Γ node, ∃ args', Realized Γ v { c with args := args' } := by
  intro c hc
  simp only [declaredEmbeddedFields] at hc
  rcases hs : Γ.structs node.name with _ | sig
  · simp [hs] at hc
  · simp only [hs] at hc
    obtain ⟨⟨⟨fname, t⟩, j⟩, hmem, hc⟩ := List.mem_filterMap.mp hc
    simp only [embeddedField, structField] at hc
    split_ifs at hc with hemb
    cases t <;> simp only [reduceCtorEq, Option.some.injEq] at hc
    case struct inner ts =>
      subst hc
      obtain ⟨ts', hts⟩ := substGenerics_struct sig.generics args inner ts
      refine ⟨ts', h.embedded _ ?_⟩
      simp only [embeddedFields, hs]
      refine List.mem_filterMap.mpr ⟨((fname, .struct inner ts'), j), ?_, ?_⟩
      · refine mem_concreteFields.mpr ⟨(fname, .struct inner ts), ?_, by rw [hts]⟩
        exact List.mem_zipIdx_iff_getElem?.mp hmem
      · simpa [embeddedField, isEmbeddedField, structField] using hemb

theorem realized_root {sname : String} {args : List Ty} (hv : HasType Γ v (.struct sname args)) :
    Realized Γ v (rootNode sname args) := by
  obtain ⟨sig, fields, rfl, -⟩ := hasType_struct_inv hv
  refine ⟨⟨[], sname, fields⟩, ?_, rfl, rfl, hv⟩
  rw [embeddedObjects]
  exact List.mem_cons_self

theorem inOrder_singleton (node : StructNode) :
    BreadthFirst.InOrder StructNode.positions [node] where
  sorted := List.pairwise_singleton _ _
  near := by
    intro n hn m hm i
    obtain rfl : node = n := by simpa using hn
    obtain rfl : m = node := by simpa using hm
    exact BreadthFirst.shortlex_append_singleton _ i

/-- On a value of the type the walk over its embedded structs ends, in shortlex order. -/
theorem exists_visitedStructs {sname : String} {args : List Ty}
    (hv : HasType Γ v (.struct sname args)) :
    ∃ order, visitedStructs Γ sname args = some order ∧ (∀ node ∈ order, Realized Γ v node) ∧
      order.Pairwise fun m n => Shortlex m.positions n.positions := by
  obtain ⟨order, hwalk, hreal⟩ := BreadthFirst.exists_walk_of_paths StructNode.name
    ((embeddedObjects v).map (·.path)) (P := Realized Γ v) (extends_embeddedFields Γ)
    (fun _ h => h.embedded)
    (fun node h => by
      obtain ⟨o, ho, hpath, -⟩ := h
      exact List.mem_map.mpr ⟨o, ho, hpath⟩)
    [rootNode sname args] [sname] (by simpa using realized_root hv)
  exact ⟨order, hwalk, hreal,
    (BreadthFirst.walk_sorted (extends_embeddedFields Γ) hwalk (inOrder_singleton _)).1⟩

/-- The same of the walk over the types as declared. -/
theorem exists_visitedDeclared {sname : String} {args : List Ty}
    (hv : HasType Γ v (.struct sname args)) :
    ∃ order, visitedDeclared Γ sname = some order ∧
      (∀ node ∈ order, ∃ args', Realized Γ v { node with args := args' }) ∧
      order.Pairwise fun m n => Shortlex m.positions n.positions := by
  obtain ⟨order, hwalk, hreal⟩ := BreadthFirst.exists_walk_of_paths StructNode.name
    ((embeddedObjects v).map (·.path))
    (P := fun node => ∃ args', Realized Γ v { node with args := args' })
    (extends_declaredEmbeddedFields Γ) (fun _ h => h.elim fun _ h => h.declared)
    (fun node h => by
      obtain ⟨args', o, ho, hpath, -⟩ := h
      exact List.mem_map.mpr ⟨o, ho, hpath⟩)
    [rootNode sname []] [sname] (by simpa using ⟨args, realized_root hv⟩)
  exact ⟨order, hwalk, hreal,
    (BreadthFirst.walk_sorted (extends_declaredEmbeddedFields Γ) hwalk (inOrder_singleton _)).1⟩

/-- An embedded object at the place of a node is an object of the node's struct. -/
theorem Realized.of_path {node : StructNode} (h : Realized Γ v node) {o : EmbeddedObject}
    (ho : o ∈ embeddedObjects v) (hpath : o.path = node.positions) :
    o.name = node.name ∧ HasType Γ (.object o.name o.fields) (.struct node.name node.args) := by
  obtain ⟨o', ho', hpath', hname, htype⟩ := h
  obtain rfl : o = o' := BreadthFirst.eq_of_path_eq (Runtime.embeddedObjects_sorted v) ho ho'
    (hpath.trans hpath'.symm)
  exact ⟨hname, htype⟩

/-- A search over structs that are all known gives the first answer along the walk. -/
theorem searchStructs_of_visited {R : Type} {sname : String} {args : List Ty}
    {order : List StructNode} (hwalk : visitedStructs Γ sname args = some order)
    (hreal : ∀ node ∈ order, Realized Γ v node)
    (answer : StructNode → StructSig → Option R) :
    searchStructs Γ sname args answer =
      some (order.findSome? fun node => (Γ.structs node.name).bind (answer node)) := by
  rw [searchStructs, BreadthFirst.search_of_walk hwalk, Option.map_some]
  congr 1
  clear hwalk
  induction order with
  | nil => rfl
  | cons node order ih =>
    obtain ⟨o, -, -, hname, htype⟩ := hreal node (by simp)
    obtain ⟨sig, -, -, hs, -⟩ := hasType_struct_inv htype
    have ih := ih fun node h => hreal node (by simp [h])
    rcases hans : answer node sig with _ | r
    · simpa [List.findSome?_cons, hs, hans] using ih
    · simp [hs, hans]

end Typed

/-! ### Fields -/

theorem findSome?_eq_bind_find? {α β : Type} (f : α → Option β) (l : List α) :
    l.findSome? f = (l.find? fun a => (f a).isSome).bind f := by
  induction l with
  | nil => rfl
  | cons a l ih =>
    rcases h : f a with _ | b
    · simpa [List.findSome?_cons, h] using ih
    · simp [h]

theorem findSome?_congr {α β : Type} {f g : α → Option β} {l : List α}
    (h : ∀ a ∈ l, f a = g a) : l.findSome? f = l.findSome? g := by
  induction l with
  | nil => rfl
  | cons a l ih =>
    rw [List.findSome?_cons, List.findSome?_cons, h a (by simp), ih fun b hb => h b (by simp [hb])]

/-- Does the struct of a node declare the field? -/
def declares (Γ : Tables) (field : String) (node : StructNode) : Bool :=
  match Γ.structs node.name with
  | none => false
  | some sig => (sig.fields.find? fun f => f.1 == field).isSome

/-- Has the object the field? -/
def hasField (field : String) (o : EmbeddedObject) : Bool :=
  (o.fields.find? fun f => f.1 == field).isSome

section Field

variable (Γ : Tables) (sname : String) (args : List Ty) (v : Value) (field : String)

/-- The field that the checker selects is the one that is read at run time, and its value
has the type the checker gives to it. -/
def FieldAgrees : Prop :=
  ∀ node t, locateStructField Γ sname args field = some (some (node, t)) →
    ∃ w, Runtime.locateField v field 0 = some (node.positions, w) ∧ HasType Γ w t

/-- Whenever a struct of the checker's walk declares the field, so does one that is no deeper
and whose object comes first, depth first, among the embedded objects with that field. -/
def FieldFirst : Prop :=
  ∀ visited, visitedStructs Γ sname args = some visited →
    ∀ m ∈ visited, declares Γ field m = true →
      ∃ n ∈ visited, declares Γ field n = true ∧ n.positions.length ≤ m.positions.length ∧
        ∀ o ∈ embeddedObjects v, hasField field o = true → n.positions ≤ o.path

end Field

section Field

variable {Γ : Tables} {sname : String} {args : List Ty} {v : Value} {field : String}

theorem locateStructField_iff {visited : List StructNode}
    (hwalk : visitedStructs Γ sname args = some visited)
    (hreal : ∀ node ∈ visited, Realized Γ v node) {node : StructNode} {t : Ty} :
    locateStructField Γ sname args field = some (some (node, t)) ↔
      visited.find? (declares Γ field) = some node ∧
        ∃ sig f, Γ.structs node.name = some sig ∧
          (sig.fields.find? fun f => f.1 == field) = some f ∧
          t = substGenerics sig.generics node.args f.2 := by
  have hdeclares : (fun n : StructNode => ((Γ.structs n.name).bind
      (declaredField field n)).isSome) = declares Γ field := by
    funext n
    rcases hs : Γ.structs n.name with _ | sig <;> simp [declares, declaredField, hs]
  rw [locateStructField, searchStructs_of_visited hwalk hreal, findSome?_eq_bind_find?,
    hdeclares, Option.some.injEq, Option.bind_eq_some_iff]
  constructor
  · rintro ⟨n, hn, hans⟩
    obtain ⟨sig, hs, hfound⟩ := Option.bind_eq_some_iff.mp hans
    obtain ⟨f, hf, heq⟩ := Option.map_eq_some_iff.mp hfound
    cases heq
    exact ⟨hn, sig, f, hs, hf, rfl⟩
  · rintro ⟨hn, sig, f, hs, hf, rfl⟩
    exact ⟨node, hn, by simp [hs, declaredField, hf]⟩

theorem locateField_eq_some_iff (hobj : v.isObject = true)
    (hdepth : ∀ o ∈ embeddedObjects v, o.path.length ≤ Runtime.maxEmbedDepth) {p : List ℕ}
    {w : Value} :
    Runtime.locateField v field 0 = some (p, w) ↔
      ∃ o f, (embeddedObjects v).find? (hasField field) = some o ∧
        (o.fields.find? fun f => f.1 == field) = some f ∧ p = o.path ∧ w = f.2 := by
  have hwithin : ∀ o ∈ embeddedObjects v, Runtime.fieldWithin field 0 o =
      (o.fields.find? fun f => f.1 == field).map fun f => (o.path, f.2) := by
    intro o ho
    simp [Runtime.fieldWithin, hdepth o ho]
  rw [Runtime.locateField_eq field v 0 hobj (Nat.zero_le _), findSome?_congr hwithin,
    findSome?_eq_bind_find?, Option.bind_eq_some_iff]
  simp only [Option.isSome_map, Option.map_eq_some_iff, Prod.mk.injEq]
  constructor
  · rintro ⟨o, ho, f, hf, rfl, rfl⟩
    exact ⟨o, f, ho, hf, rfl, rfl⟩
  · rintro ⟨o, f, ho, hf, rfl, rfl⟩
    exact ⟨o, ho, f, hf, rfl, rfl⟩

/-- The first field of a name in the object of a realized node. -/
theorem Realized.firstField (field : String) {node : StructNode} (h : Realized Γ v node)
    {o : EmbeddedObject} (ho : o ∈ embeddedObjects v) (hpath : o.path = node.positions)
    {sig : StructSig} (hs : Γ.structs node.name = some sig) :
    List.Forall₂ (HasType Γ) ((o.fields.find? fun f => f.1 == field).map (·.2)).toList
      ((sig.fields.find? fun f => f.1 == field).map fun f =>
        substGenerics sig.generics node.args f.2).toList := by
  obtain ⟨hname, htype⟩ := h.of_path ho hpath
  rw [hname] at htype
  obtain ⟨sig', fields, hobj, hs', hnames, hall⟩ := hasType_struct_inv htype
  cases hobj
  obtain rfl : sig = sig' := by simpa [hs] using hs'
  exact Runtime.hasType_find hnames hall field

theorem Realized.hasField_iff {node : StructNode} (h : Realized Γ v node) {o : EmbeddedObject}
    (ho : o ∈ embeddedObjects v) (hpath : o.path = node.positions) :
    hasField field o = declares Γ field node := by
  obtain ⟨sig, -, -, hs, -⟩ := hasType_struct_inv (h.of_path ho hpath).2
  have hfield := (h.firstField field ho hpath hs).length_eq
  simp only [hasField, declares, hs]
  generalize (o.fields.find? fun f => f.1 == field) = found at hfield ⊢
  generalize (sig.fields.find? fun f => f.1 == field) = declared at hfield ⊢
  cases found <;> cases declared <;> simp at hfield ⊢

/-- Checker and run time agree on a field exactly when the first object that has it, depth
first, is met by the checker's walk and no deeper than any other struct that declares it. -/
theorem fieldAgrees_iff (hv : HasType Γ v (.struct sname args))
    (hdepth : ∀ o ∈ embeddedObjects v, o.path.length ≤ Runtime.maxEmbedDepth) :
    FieldAgrees Γ sname args v field ↔ FieldFirst Γ sname args v field := by
  obtain ⟨visited, hwalk, hreal, hsorted⟩ := exists_visitedStructs hv
  have hobj : v.isObject = true := by
    obtain ⟨-, fields, rfl, -⟩ := hasType_struct_inv hv
    rfl
  have hfound : ∀ n ∈ visited, declares Γ field n = true →
      ∃ o ∈ embeddedObjects v, o.path = n.positions ∧ hasField field o = true := by
    intro n hn hdecl
    obtain ⟨o, ho, hpath, -⟩ := hreal n hn
    exact ⟨o, ho, hpath, by rw [(hreal n hn).hasField_iff ho hpath, hdecl]⟩
  have hagree := BreadthFirst.first_agrees_iff (e := fun _ => True) hsorted
    (Runtime.embeddedObjects_sorted v) hfound
  have hfirst : FieldFirst Γ sname args v field ↔ ∀ m ∈ visited, declares Γ field m = true →
      ∃ n ∈ visited, declares Γ field n = true ∧ True ∧
        n.positions.length ≤ m.positions.length ∧
        ∀ o ∈ embeddedObjects v, hasField field o = true → n.positions ≤ o.path := by
    simp [FieldFirst, hwalk]
  rw [hfirst, ← hagree]
  constructor
  · intro h n hn
    -- the checker's first struct has a field to agree on
    have hmem := List.mem_of_find?_eq_some hn
    have hdecl := List.find?_some hn
    obtain ⟨o, -, -, -, htype⟩ := hreal n hmem
    obtain ⟨sig, -, -, hs, -⟩ := hasType_struct_inv htype
    simp only [declares, hs] at hdecl
    obtain ⟨f, hf⟩ := Option.isSome_iff_exists.mp hdecl
    obtain ⟨w, hw, -⟩ := h n _ ((locateStructField_iff hwalk hreal).mpr ⟨hn, sig, f, hs, hf, rfl⟩)
    obtain ⟨o, f, ho, -, hpath, -⟩ := (locateField_eq_some_iff hobj hdepth).mp hw
    exact ⟨⟨o, ho, hpath.symm⟩, trivial⟩
  · intro h node t hlocate
    obtain ⟨hn, sig, f, hs, hf, rfl⟩ := (locateStructField_iff hwalk hreal).mp hlocate
    obtain ⟨⟨o, ho, hpath⟩, -⟩ := h node hn
    have homem := List.mem_of_find?_eq_some ho
    have hhas : hasField field o = true := List.find?_some ho
    obtain ⟨d, hd⟩ := Option.isSome_iff_exists.mp hhas
    have hnode := hreal node (List.mem_of_find?_eq_some hn)
    have htype := hnode.firstField field homem hpath hs
    refine ⟨d.2, (locateField_eq_some_iff hobj hdepth).mpr ⟨o, d, ho, hd, hpath.symm, rfl⟩, ?_⟩
    simpa [hd, hf] using htype

end Field

/-! ### Methods -/

/-- The function registered under a name. -/
def registeredFunction {Sig F : Type} (T : CallTables Sig F) (key : String) : Option F :=
  T.funcs key <|> T.natives key

/-- The place of the receiver the checker assumes for a method of the struct `defining`: the
object itself, or the field that a promoted method is called on. -/
def locateReceiver (Γ : Tables) (sname : String) (args : List Ty) (defining : String) :
    Option (Option (List ℕ)) :=
  if defining = sname then some (some [])
  else (locatePromotedReceiver Γ sname args defining).map fun found =>
    found.map StructNode.positions

section Method

variable {Sig F : Type} (Γ : Tables) (T : CallTables Sig F) (sname : String) (args : List Ty)
  (v : Value) (method : String)

/-- The function and the receiver that the checker selects are those of the call at run
time. -/
def MethodAgrees : Prop :=
  ∀ node key, locateStructMethod Γ T.sigs sname method = some (some (node, key)) →
    ∃ f path recv, Runtime.locateMethod T v method = some (f, path, recv) ∧
      registeredFunction T key = some f ∧
      locateReceiver Γ sname args node.name = some (some path)

/-- The struct of a node has the method. -/
def hasMethod (node : StructNode) : Bool :=
  (methodKey T.sigs node.name method).isSome

/-- The object has a callee for the method. -/
def hasCallee (o : EmbeddedObject) : Bool :=
  (T.ownCallee o.name method).isSome

/-- The object lies where the checker looks for a receiver of its struct first: it is the
value itself, or no field of its struct's type comes before it in the checker's walk. -/
def ReceiverFirst (visited : List StructNode) (o : EmbeddedObject) : Prop :=
  o.name = sname ∧ o.path = [] ∨
    o.name ≠ sname ∧ ∃ site ∈ visited.flatMap (structFields Γ), site.name = o.name ∧
      site.positions = o.path ∧
      ∀ site' ∈ visited.flatMap (structFields Γ), site'.name = o.name →
        site' = site ∨ Shortlex o.path site'.positions

/-- Whenever a struct of the checker's walk has the method, consider the first embedded
object, depth first, that has a callee for it: the callee is the method of its struct, no
struct with the method comes before its struct in the checker's walk, and it lies where the
checker looks for the receiver first. -/
def MethodFirst : Prop :=
  ∀ declared visited, visitedDeclared Γ sname = some declared →
    visitedStructs Γ sname args = some visited →
    ∀ m ∈ declared, hasMethod T method m = true →
      ∃ o ∈ embeddedObjects v, ∃ n ∈ declared, ∃ key, n.name = o.name ∧
        (∀ o' ∈ embeddedObjects v, hasCallee T method o' = true → o.path ≤ o'.path) ∧
        methodKey T.sigs n.name method = some key ∧
        T.ownCallee o.name method = registeredFunction T key ∧
        (∀ m ∈ declared, hasMethod T method m = true →
          m = n ∨ Shortlex n.positions m.positions) ∧
        ReceiverFirst Γ sname visited o

end Method

section Method

variable {Sig F : Type} {Γ : Tables} {T : CallTables Sig F} {sname : String} {args : List Ty}
  {v : Value} {method : String}

theorem isSome_registeredFunction {key : String} (h : (T.sigs key).isSome = true) :
    (registeredFunction T key).isSome = true := by
  rw [registeredFunction]
  rcases T.registered key h with h | h
  · obtain ⟨f, hf⟩ := Option.isSome_iff_exists.mp h
    simp [hf]
  · cases T.funcs key <;> simp [h]

theorem isSome_sigs_of_methodKey {key : String} (h : methodKey T.sigs sname method = some key) :
    (T.sigs key).isSome = true := by
  rw [methodKey] at h
  split_ifs at h with hown
  · cases h
    exact hown
  · obtain ⟨ns, -, h⟩ := Option.bind_eq_some_iff.mp h
    split_ifs at h with hns
    cases h
    exact hns

theorem locateStructMethod_iff {declared : List StructNode}
    (hwalk : visitedDeclared Γ sname = some declared) {node : StructNode} {key : String} :
    locateStructMethod Γ T.sigs sname method = some (some (node, key)) ↔
      declared.find? (hasMethod T method) = some node ∧
        methodKey T.sigs node.name method = some key := by
  have hmethod : (fun n : StructNode => ((methodKey T.sigs n.name method).map
      fun key => (n, key)).isSome) = hasMethod T method := by
    funext n
    simp [hasMethod]
  rw [locateStructMethod, BreadthFirst.search_of_walk hwalk, findSome?_eq_bind_find?, hmethod,
    Option.some.injEq, Option.bind_eq_some_iff]
  constructor
  · rintro ⟨n, hn, hkey⟩
    obtain ⟨key', hkey, heq⟩ := Option.map_eq_some_iff.mp hkey
    cases heq
    exact ⟨hn, hkey⟩
  · rintro ⟨hn, hkey⟩
    exact ⟨node, hn, by simp [hkey]⟩

theorem locateMethod_iff (hobj : v.isObject = true) {f : F} {p : List ℕ} {recv : Value} :
    Runtime.locateMethod T v method = some (f, p, recv) ↔
      ∃ o, (embeddedObjects v).find? (hasCallee T method) = some o ∧
        T.ownCallee o.name method = some f ∧ p = o.path ∧ recv = .object o.name o.fields := by
  have hcallee : (fun o : EmbeddedObject => (Runtime.calleeAt T method o).isSome) =
      hasCallee T method := by
    funext o
    simp [Runtime.calleeAt, hasCallee]
  rw [Runtime.locateMethod_eq T method v hobj, findSome?_eq_bind_find?, hcallee,
    Option.bind_eq_some_iff]
  simp only [Runtime.calleeAt, Option.map_eq_some_iff, Prod.mk.injEq]
  constructor
  · rintro ⟨o, ho, f, hf, rfl, rfl, rfl⟩
    exact ⟨o, ho, hf, rfl, rfl⟩
  · rintro ⟨o, ho, hf, rfl, rfl⟩
    exact ⟨o, ho, f, hf, rfl, rfl, rfl⟩

/-- The fields of struct types along a walk come in shortlex order too. -/
theorem sorted_structFields {visited : List StructNode}
    (hsorted : visited.Pairwise fun m n => Shortlex m.positions n.positions) :
    (visited.flatMap (structFields Γ)).Pairwise fun m n => Shortlex m.positions n.positions := by
  have hchild : ∀ node, ∀ c ∈ structFields Γ node, ∃ i, c.positions = node.positions ++ [i] := by
    intro node c hc
    simp only [structFields] at hc
    rcases hs : Γ.structs node.name with _ | sig
    · simp [hs] at hc
    · simp only [hs] at hc
      obtain ⟨field, -, hc⟩ := List.mem_filterMap.mp hc
      exact ⟨_, positions_structField hc⟩
  refine List.pairwise_flatMap.mpr ⟨fun node _ => ?_, hsorted.imp ?_⟩
  · simp only [structFields]
    rcases Γ.structs node.name with _ | sig
    · simp
    · exact sorted_filterMap id
  · intro m n hmn c hc c' hc'
    obtain ⟨i, hi⟩ := hchild m c hc
    obtain ⟨j, hj⟩ := hchild n c' hc'
    rw [hi, hj]
    exact hmn.children i j

theorem locatePromotedReceiver_eq {visited : List StructNode}
    (hwalk : visitedStructs Γ sname args = some visited)
    (hreal : ∀ node ∈ visited, Realized Γ v node) (defining : String) :
    locatePromotedReceiver Γ sname args defining =
      some ((visited.flatMap (structFields Γ)).find? (·.name == defining)) := by
  rw [locatePromotedReceiver, searchStructs_of_visited hwalk hreal, List.find?_flatMap]
  congr 2
  funext node
  rcases hs : Γ.structs node.name with _ | sig <;> simp [structFields, fieldOfStruct, hs]

/-- An embedded object in a field of a struct type is an object of that struct. -/
theorem object_of_site {node site : StructNode} (hnode : Realized Γ v node)
    (hsite : site ∈ structFields Γ node) {o : EmbeddedObject} (ho : o ∈ embeddedObjects v)
    (hpath : o.path = site.positions) :
    o.name = site.name ∧ HasType Γ (.object o.name o.fields) (.struct site.name site.args) := by
  simp only [structFields] at hsite
  rcases hs : Γ.structs node.name with _ | sig
  · simp [hs] at hsite
  · simp only [hs] at hsite
    obtain ⟨field, hmem, hsite⟩ := List.mem_filterMap.mp hsite
    rw [positions_structField hsite] at hpath
    obtain ⟨parent, hparent, hp, fname, hfield⟩ :=
      Runtime.parent_of_mem_embeddedObjects v ho hpath
    obtain ⟨hname, htype⟩ := hnode.of_path hparent hp
    rw [hname] at htype
    obtain ⟨fields', hfield', htype'⟩ := object_of_structField hs htype hmem hsite
    rw [hfield] at hfield'
    simp only [Option.some.injEq, Prod.mk.injEq, Value.object.injEq] at hfield'
    obtain ⟨-, hname', rfl⟩ := hfield'
    exact ⟨hname', by rw [hname']; exact htype'⟩

/-- The checker's receiver lies at an embedded object exactly when that object comes first
where the checker looks for it. -/
theorem locateReceiver_iff (hv : HasType Γ v (.struct sname args)) {visited : List StructNode}
    (hwalk : visitedStructs Γ sname args = some visited)
    (hreal : ∀ node ∈ visited, Realized Γ v node)
    (hsorted : visited.Pairwise fun m n => Shortlex m.positions n.positions)
    {o : EmbeddedObject} (ho : o ∈ embeddedObjects v) {defining : String} :
    locateReceiver Γ sname args defining = some (some o.path) ↔
      o.name = defining ∧ ReceiverFirst Γ sname visited o := by
  have hroot : o.path = [] → o.name = sname := fun h =>
    ((realized_root hv).of_path ho h).1
  have hfirst {site : StructNode} := BreadthFirst.find?_eq_some_iff_shortlex
    (sorted_structFields (Γ := Γ) hsorted) (p := fun n => n.name == defining) (a := site)
  by_cases hdef : defining = sname
  · subst hdef
    simp only [locateReceiver, if_true, Option.some.injEq, ReceiverFirst]
    constructor
    · intro h
      exact ⟨hroot h.symm, Or.inl ⟨hroot h.symm, h.symm⟩⟩
    · rintro ⟨hname, ⟨-, h⟩ | ⟨hne, -⟩⟩
      · exact h.symm
      · exact absurd hname hne
  · rw [locateReceiver, if_neg hdef, locatePromotedReceiver_eq hwalk hreal, Option.map_some,
      Option.some.injEq, Option.map_eq_some_iff]
    constructor
    · rintro ⟨site, hsite, hpos⟩
      obtain ⟨hmem, hname, hleast⟩ := hfirst.mp hsite
      obtain ⟨node, hnode, hfield⟩ := List.mem_flatMap.mp hmem
      have hname : site.name = defining := by simpa using hname
      have honame := (object_of_site (hreal node hnode) hfield ho hpos.symm).1
      refine ⟨honame.trans hname, Or.inr ⟨?_, site, hmem, honame.symm, hpos, ?_⟩⟩
      · rw [honame, hname]
        exact hdef
      · intro site' hmem' hname'
        rw [← hpos]
        exact hleast site' hmem' (by simp [hname', honame, hname])
    · rintro ⟨rfl, ⟨h, -⟩ | ⟨-, site, hmem, hname, hpos, hleast⟩⟩
      · exact absurd h hdef
      · refine ⟨site, hfirst.mpr ⟨hmem, by simp [hname], fun site' hmem' hname' => ?_⟩, hpos⟩
        rw [hpos]
        exact hleast site' hmem' (by simpa using hname')

/-- Checker and run time agree on a method exactly when the first object that has a callee,
depth first, is of the struct that the checker's walk meets first with the method, has that
very method for its callee, and lies where the checker looks for the receiver first. -/
theorem methodAgrees_iff (hv : HasType Γ v (.struct sname args)) :
    MethodAgrees Γ T sname args v method ↔ MethodFirst Γ T sname args v method := by
  obtain ⟨visited, hwalk, hreal, hsorted⟩ := exists_visitedStructs hv
  obtain ⟨declared, hwalk', -, hsorted'⟩ := exists_visitedDeclared hv
  have hobj : v.isObject = true := by
    obtain ⟨-, fields, rfl, -⟩ := hasType_struct_inv hv
    rfl
  have hfirst {n : StructNode} := BreadthFirst.find?_eq_some_iff_shortlex hsorted'
    (p := hasMethod T method) (a := n)
  have hfirst' {o : EmbeddedObject} := BreadthFirst.find?_eq_some_iff_lex
    (Runtime.embeddedObjects_sorted v) (p := hasCallee T method) (a := o)
  constructor
  · intro h declared₁ visited₁ hd hvis m hm hmethod
    obtain rfl : declared = declared₁ := Option.some.inj (hwalk'.symm.trans hd)
    obtain rfl : visited = visited₁ := Option.some.inj (hwalk.symm.trans hvis)
    obtain ⟨n, hn⟩ := Option.isSome_iff_exists.mp (List.find?_isSome.mpr ⟨m, hm, hmethod⟩)
    obtain ⟨hnmem, hnmethod, hleast⟩ := hfirst.mp hn
    obtain ⟨key, hkey⟩ := Option.isSome_iff_exists.mp hnmethod
    obtain ⟨f, path, recv, hlocate, hf, hrecv⟩ :=
      h n key ((locateStructMethod_iff hwalk').mpr ⟨hn, hkey⟩)
    obtain ⟨o, ho, hcallee, rfl, -⟩ := (locateMethod_iff hobj).mp hlocate
    obtain ⟨homem, -, holeast⟩ := hfirst'.mp ho
    obtain ⟨hname, hrecv⟩ := (locateReceiver_iff hv hwalk hreal hsorted homem).mp hrecv
    refine ⟨o, homem, n, hnmem, key, hname.symm, fun o' ho' hcallee' => ?_, hkey, ?_, hleast,
      hrecv⟩
    · rcases holeast o' ho' hcallee' with rfl | hlt
      · exact le_rfl
      · exact hlt.le
    · rw [hcallee, hf]
  · intro h node key hlocate
    obtain ⟨hnode, hkey⟩ := (locateStructMethod_iff hwalk').mp hlocate
    obtain ⟨hmem, hmethod, hleast⟩ := hfirst.mp hnode
    obtain ⟨o, homem, n, hn, key', hname, holeast, hkey', hcallee, hnleast, hrecv⟩ :=
      h declared visited hwalk' hwalk node hmem hmethod
    -- the walk meets one struct with the method first
    obtain rfl : n = node := by
      rcases hleast n hn (by simp [hasMethod, hkey']) with h | h
      · exact h
      · rcases hnleast node hmem hmethod with h' | h'
        · exact h'.symm
        · exact absurd (h.trans h') (Shortlex.irrefl _)
    obtain rfl : key = key' := by simpa [hkey] using hkey'
    obtain ⟨f, hf⟩ := Option.isSome_iff_exists.mp
      (isSome_registeredFunction (isSome_sigs_of_methodKey hkey))
    have hfound : (embeddedObjects v).find? (hasCallee T method) = some o := by
      refine hfirst'.mpr ⟨homem, by simp [hasCallee, hcallee, hf], fun o' ho' hcallee' => ?_⟩
      rcases (holeast o' ho' hcallee').eq_or_lt with heq | hlt
      · exact Or.inl (BreadthFirst.eq_of_path_eq (Runtime.embeddedObjects_sorted v) ho' homem
          heq.symm)
      · exact Or.inr hlt
    refine ⟨f, o.path, _, (locateMethod_iff hobj).mpr ⟨o, hfound, by rw [hcallee, hf], rfl, rfl⟩,
      hf, ?_⟩
    exact (locateReceiver_iff hv hwalk hreal hsorted homem).mpr ⟨hname.symm, hrecv⟩

end Method

/-! ### Fields and methods -/

/-- The static and the dynamic lookup of a name agree on a well-typed value, within the bound
on promotion, exactly when its depth-first first carrier is the checker's first. -/
theorem embedding_agrees_iff {Sig F : Type} (Γ : Tables) (T : CallTables Sig F)
    (sname : String) (args : List Ty) (v : Value) (hv : HasType Γ v (.struct sname args))
    (hdepth : ∀ o ∈ embeddedObjects v, o.path.length ≤ Runtime.maxEmbedDepth)
    (name : String) :
    FieldAgrees Γ sname args v name ∧ MethodAgrees Γ T sname args v name ↔
      FieldFirst Γ sname args v name ∧ MethodFirst Γ T sname args v name :=
  and_congr (fieldAgrees_iff hv hdepth) (methodAgrees_iff hv)

/-- Where the lookups agree on a field, reading it gives a value of the type that the checker has
resolved it to. -/
theorem FieldAgrees.resolved {Γ : Tables} {sname field : String} {args : List Ty} {v : Value}
    (h : FieldAgrees Γ sname args v field) {names : List String} {t : Ty}
    (hres : resolveStructFieldGeneric Γ sname args field = some (some (names, t))) :
    ∃ w, Runtime.objectFieldOpt v field = some w ∧ HasType Γ w t := by
  obtain ⟨found, hfound, heq⟩ := Option.map_eq_some_iff.mp hres
  obtain ⟨⟨node, t'⟩, rfl, heq⟩ := Option.map_eq_some_iff.mp heq
  cases heq
  obtain ⟨w, hw, htype⟩ := h node _ hfound
  exact ⟨w, by rw [Runtime.objectFieldOpt, hw]; rfl, htype⟩

/-- Where they agree on a method, calling it calls the function that the checker has found, on a
value of the type that the checker takes for the receiver's. -/
theorem MethodAgrees.called {Sig F : Type} {Γ : Tables} {T : CallTables Sig F}
    {sname method : String} {args : List Ty} {v : Value} (hv : HasType Γ v (.struct sname args))
    (h : MethodAgrees Γ T sname args v method) {defining : String} {sig : Sig}
    (hfind : findStructMethod Γ T.sigs sname method = some (some (defining, sig))) :
    ∃ key f recv t, T.sigs key = some sig ∧ registeredFunction T key = some f ∧
      Runtime.lookupMethodRecv T v method = some (f, recv) ∧ HasType Γ recv t ∧
      if defining = sname then t = .struct sname args
      else promotedMethodReceiver Γ sname args defining = some (some t) := by
  obtain ⟨visited, hwalk, hreal, -⟩ := exists_visitedStructs hv
  have hobj : v.isObject = true := by
    obtain ⟨-, fields, rfl, -⟩ := hasType_struct_inv hv
    rfl
  obtain ⟨found, hfound, heq⟩ := Option.map_eq_some_iff.mp hfind
  obtain ⟨⟨node, key⟩, rfl, hsig⟩ := Option.bind_eq_some_iff.mp heq
  obtain ⟨sig', hsig, heq⟩ := Option.bind_eq_some_iff.mp hsig
  cases heq
  obtain ⟨f, path, recv, hlocate, hf, hrecv⟩ := h node key hfound
  obtain ⟨o, ho, -, rfl, rfl⟩ := (locateMethod_iff hobj).mp hlocate
  have homem := List.mem_of_find?_eq_some ho
  have hcall : Runtime.lookupMethodRecv T v method = some (f, .object o.name o.fields) := by
    rw [Runtime.lookupMethodRecv, hlocate]
    rfl
  by_cases hdef : node.name = sname
  · rw [locateReceiver, if_pos hdef] at hrecv
    have hpath : o.path = [] := by simpa using hrecv.symm
    exact ⟨key, f, _, _, hsig, hf, hcall, ((realized_root hv).of_path homem hpath).2,
      by rw [if_pos hdef]; rfl⟩
  · rw [locateReceiver, if_neg hdef, locatePromotedReceiver_eq hwalk hreal] at hrecv
    obtain ⟨site, hsite, hpos⟩ := Option.map_eq_some_iff.mp (Option.some.inj hrecv)
    obtain ⟨parent, hparent, hfield⟩ := List.mem_flatMap.mp (List.mem_of_find?_eq_some hsite)
    have htype := (object_of_site (hreal parent hparent) hfield homem hpos.symm).2
    refine ⟨key, f, _, _, hsig, hf, hcall, htype, ?_⟩
    rw [if_neg hdef, promotedMethodReceiver, locatePromotedReceiver_eq hwalk hreal, hsite]
    rfl

/-- `A` embeds `B` and `C`, `B` embeds `D`, and both `C` and `D` have a field `x`. -/
def nestedTables : Tables where
  structs name :=
    if name = "A" then some ⟨[], [("B", .struct "B" []), ("C", .struct "C" [])]⟩
    else if name = "B" then some ⟨[], [("D", .struct "D" [])]⟩
    else if name = "C" then some ⟨[], [("x", .str)]⟩
    else if name = "D" then some ⟨[], [("x", .int)]⟩
    else none
  enums _ := none

def nestedValue : Value :=
  .object "A" [("B", .object "B" [("D", .object "D" [("x", .int 1)])]),
    ("C", .object "C" [("x", .str "s")])]

/-- `C` has a method `show`. -/
def showCalls : CallTables Unit Unit where
  sigs name := if name = "C.show" then some () else none
  env _ := none
  funcs name := if name = "C.show" then some () else none
  natives _ := none
  plugins _ := none
  enumVariants _ := none
  registered _ h := .inl h

theorem hasType_nestedValue : HasType nestedTables nestedValue (.struct "A" []) := by
  have hD : HasType nestedTables (.object "D" [("x", .int 1)]) (.struct "D" []) :=
    .struct rfl rfl (.cons (.int 1) .nil)
  have hB : HasType nestedTables (.object "B" [("D", .object "D" [("x", .int 1)])])
      (.struct "B" []) :=
    .struct rfl rfl (.cons hD .nil)
  have hC : HasType nestedTables (.object "C" [("x", .str "s")]) (.struct "C" []) :=
    .struct rfl rfl (.cons (.str "s") .nil)
  exact .struct rfl rfl (.cons hB (.cons hC .nil))

theorem depth_nestedValue :
    ∀ o ∈ embeddedObjects nestedValue, o.path.length ≤ Runtime.maxEmbedDepth := by
  decide

/-- The checker stops at `C`, one level down. -/
theorem locateStructField_nestedTables : locateStructField nestedTables "A" [] "x" =
    some (some (⟨[(1, "C")], "C", []⟩, .str)) := by
  rw [locateStructField, searchStructs, BreadthFirst.search_cons_of_none rfl]
  -- the embedded fields of `A` are in the queue
  show Option.map Option.join (BreadthFirst.search _ StructNode.name _
    [⟨[(0, "B")], "B", []⟩, ⟨[(1, "C")], "C", []⟩] ["A", "B", "C"]) = _
  rw [BreadthFirst.search_cons_of_none rfl]
  -- `B` has left it, and `D` has joined at its end
  show Option.map Option.join (BreadthFirst.search _ StructNode.name _
    [⟨[(1, "C")], "C", []⟩, ⟨[(0, "B"), (0, "D")], "D", []⟩] ["A", "B", "C", "D"]) = _
  rw [BreadthFirst.search_cons_of_some]
  · rfl
  · rfl

/-- The checker takes `x` from `C`, where it is a string, and the run time takes it from `D`
below `B`, where it is an integer. -/
theorem embedding_disagrees : HasType nestedTables nestedValue (.struct "A" []) ∧
    (∀ o ∈ embeddedObjects nestedValue, o.path.length ≤ Runtime.maxEmbedDepth) ∧
    ¬ (FieldAgrees nestedTables "A" [] nestedValue "x" ∧
      MethodAgrees nestedTables showCalls "A" [] nestedValue "x") := by
  refine ⟨hasType_nestedValue, depth_nestedValue, ?_⟩
  rintro ⟨h, -⟩
  obtain ⟨w, hw, -⟩ := h _ _ locateStructField_nestedTables
  have hfound : Runtime.locateField nestedValue "x" 0 = some ([0, 0], .int 1) := rfl
  rw [hfound] at hw
  simp [StructNode.positions] at hw

/-- The nodes of `A` and what it embeds, as both walks meet them. -/
def nestedNodes : List StructNode :=
  [⟨[], "A", []⟩, ⟨[(0, "B")], "B", []⟩, ⟨[(1, "C")], "C", []⟩, ⟨[(0, "B"), (0, "D")], "D", []⟩]

theorem walk_nestedNodes {next : StructNode → List StructNode}
    (hA : next ⟨[], "A", []⟩ = [⟨[(0, "B")], "B", []⟩, ⟨[(1, "C")], "C", []⟩])
    (hB : next ⟨[(0, "B")], "B", []⟩ = [⟨[(0, "B"), (0, "D")], "D", []⟩])
    (hC : next ⟨[(1, "C")], "C", []⟩ = []) (hD : next ⟨[(0, "B"), (0, "D")], "D", []⟩ = []) :
    walk next (·.name) [⟨[], "A", []⟩] ["A"] = some nestedNodes := by
  rw [BreadthFirst.walk_cons, hA]
  show (walk next StructNode.name
    [⟨[(0, "B")], "B", []⟩, ⟨[(1, "C")], "C", []⟩] ["A", "B", "C"]).map _ = _
  rw [BreadthFirst.walk_cons, hB]
  show ((walk next StructNode.name
    [⟨[(1, "C")], "C", []⟩, ⟨[(0, "B"), (0, "D")], "D", []⟩] ["A", "B", "C", "D"]).map _).map _ = _
  rw [BreadthFirst.walk_cons, hC]
  show (((walk next StructNode.name
    [⟨[(0, "B"), (0, "D")], "D", []⟩] ["A", "B", "C", "D"]).map _).map _).map _ = _
  rw [BreadthFirst.walk_cons, hD]
  show ((((walk next StructNode.name [] ["A", "B", "C", "D"]).map _).map _).map _).map _ = _
  rw [BreadthFirst.walk_nil]
  rfl

/-- At the same value, for the field `D` of `B` and for the method of `C`: both are promoted, and
both are found. -/
theorem embedding_agrees_iff_nestedValue :
    HasType nestedTables nestedValue (.struct "A" []) ∧
    (FieldAgrees nestedTables "A" [] nestedValue "D" ∧
      MethodAgrees nestedTables showCalls "A" [] nestedValue "D") ∧
    (FieldAgrees nestedTables "A" [] nestedValue "show" ∧
      MethodAgrees nestedTables showCalls "A" [] nestedValue "show") ∧
    Runtime.objectFieldOpt nestedValue "D" = some (.object "D" [("x", .int 1)]) ∧
    Runtime.lookupMethodRecv showCalls nestedValue "show" =
      some ((), .object "C" [("x", .str "s")]) := by
  have hvisited : ∀ nodes, visitedStructs nestedTables "A" [] = some nodes → nodes = nestedNodes :=
    fun nodes h => Option.some.inj (h.symm.trans (walk_nestedNodes rfl rfl rfl rfl))
  have hdeclared : ∀ nodes, visitedDeclared nestedTables "A" = some nodes → nodes = nestedNodes :=
    fun nodes h => Option.some.inj (h.symm.trans (walk_nestedNodes rfl rfl rfl rfl))
  have hiff := embedding_agrees_iff nestedTables showCalls "A" [] nestedValue hasType_nestedValue
    depth_nestedValue
  refine ⟨hasType_nestedValue, (hiff "D").mpr ⟨?_, ?_⟩, (hiff "show").mpr ⟨?_, ?_⟩, rfl, rfl⟩
  · intro nodes h
    rw [hvisited nodes h]
    decide
  · intro declared nodes hd h m hm hmethod
    rw [hdeclared declared hd] at hm
    have hnone : ∀ m ∈ nestedNodes, ¬ hasMethod showCalls "D" m = true := by decide
    exact absurd hmethod (hnone m hm)
  · intro nodes h
    rw [hvisited nodes h]
    decide
  · intro declared nodes hd h m hm hmethod
    rw [hdeclared declared hd, hvisited nodes h]
    have honly : ∀ m ∈ nestedNodes, hasMethod showCalls "show" m = true →
        m = ⟨[(1, "C")], "C", []⟩ := by
      intro m hm hmethod
      simp only [nestedNodes, List.mem_cons, List.not_mem_nil, or_false] at hm
      rcases hm with rfl | rfl | rfl | rfl
      · exact absurd hmethod (by decide)
      · exact absurd hmethod (by decide)
      · rfl
      · exact absurd hmethod (by decide)
    have hlast : lastSegment "C" = "C" := by decide
    refine ⟨⟨[1], "C", [("x", .str "s")]⟩, by simp [nestedValue, embeddedObjects,
      Runtime.embeddedInFields, Runtime.isEmbeddedValue, EmbeddedObject.below, hlast],
      ⟨[(1, "C")], "C", []⟩, by simp [nestedNodes], "C.show", rfl, by decide, rfl, rfl,
      fun m hm hmethod => .inl (honly m hm hmethod), .inr ⟨by decide, ⟨[(1, "C")], "C", []⟩, ?_, rfl,
      rfl, fun site hsite hname => .inl ?_⟩⟩
    · exact List.mem_cons_of_mem _ List.mem_cons_self
    · have hsites : site ∈ [(⟨[(0, "B")], "B", []⟩ : StructNode), ⟨[(1, "C")], "C", []⟩,
        ⟨[(0, "B"), (0, "D")], "D", []⟩] := hsite
      simp only [List.mem_cons, List.not_mem_nil, or_false] at hsites
      rcases hsites with rfl | rfl | rfl
      · exact absurd hname (by decide)
      · rfl
      · exact absurd hname (by decide)

end ZzLang.Checker
