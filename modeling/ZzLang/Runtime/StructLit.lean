import ZzLang.Runtime.Binary
import ZzLang.Runtime.Embedding
import Mathlib.Data.List.Perm.Subperm

/-!
# Struct literals

A literal of a struct is built in two ways. The general one goes through the fields of the layout:
a field that the literal names is taken from it, and the fields of the literal that the layout does
not have are passed on to the embedded structs. A literal that names exactly the fields of the
layout is built directly, by position if the names are in order, and otherwise by taking the value
of every field out of the slot of its name, which is expected to be there still.

Both build the same object (`makeStruct_eq`). The reason is a pigeonhole: as many names as fields,
and the same ones, are the fields in another order if no field is there twice (`Direct.perm`), so a
name is at one position only, and the slots are emptied at different positions.
-/

namespace ZzLang.Runtime

/-- The fields of every struct, in the order of their declaration. -/
abbrev Layouts := List (String × List String)

/-- The layout of an embedded field: the struct of its name, or the first one that has its name as
its last segment. -/
def embeddedLayoutName (layouts : Layouts) (fname : String) : Option String :=
  if (layouts.lookup fname).isSome then some fname
  else
    let hits := (layouts.map Prod.fst).filter fun k => ("." ++ fname).toList.isSuffixOf k.toList
    (hits.mergeSort fun k l => decide (k ≤ l)).head?

/-- The value of a field of a layout. The objects of embedded fields are built by `inner`. -/
def buildField (layouts : Layouts) (given : List (String × Value))
    (inner : String → List String → Except Failure Value) (fname : String) :
    Except Failure (String × Value) :=
  match given.find? fun f => f.1 == fname with
  | some f => .ok f
  | none =>
    match embeddedLayoutName layouts fname with
    | some innerName =>
      match layouts.lookup innerName with
      | some innerLayout => do return (fname, ← inner innerName innerLayout)
      | none => .error (.error s!"unknown struct \x60{innerName}\x60")
    | none => .error (.error s!"missing field \x60{fname}\x60 in struct literal")

/-- Build a struct from the fields of a literal, with room for some levels of embedded structs. -/
def buildStructLiteral (layouts : Layouts) :
    ℕ → String → List String → List (String × Value) → Except Failure Value
  | 0, sname, _, _ =>
    .error (.error s!"struct \x60{sname}\x60 is embedded too deeply (possible cycle)")
  | room + 1, sname, registered, given => do
    let leftovers := given.filter fun f => !registered.contains f.1
    let out ← registered.mapM (buildField layouts given fun innerName innerLayout =>
      buildStructLiteral layouts room innerName innerLayout leftovers)
    return .object sname out

/-! ### The op -/

/-- What the interpreter knows of structs. -/
structure StructTable where
  structs : Layouts
  importAliases : List (String × String)

/-- The name under which a struct is registered, and its layout. -/
def StructTable.resolve (t : StructTable) (name : String) :
    Except Failure (String × List String) :=
  let lookup :=
    if (t.structs.lookup name).isSome then some name else t.importAliases.lookup name
  match lookup with
  | some key =>
    match t.structs.lookup key with
    | some registered => .ok (key, registered)
    | none => .error (.error s!"unknown struct \x60{name}\x60")
  | none => .error (.error s!"unknown struct \x60{name}\x60")

/-- Does a literal name exactly the fields of the layout? -/
def isDirect (fieldNames registered : List String) : Bool :=
  fieldNames.length == registered.length &&
    fieldNames.all (fun n => registered.any fun r => r == n) &&
    registered.all fun r => fieldNames.any fun n => n == r

/-- Take the value of every field out of the slot at the position of its name. -/
def takeSlots (fieldNames : List String) :
    List String → List (Option Value) → Except Failure (List (String × Value))
  | [], _ => .ok []
  | fname :: registered, slots =>
    match fieldNames.findIdx? fun n => n == fname with
    | none => .error .panic
    | some pos =>
      match slots[pos]?, fieldNames[pos]? with
      | some (some v), some n => do
        let out ← takeSlots fieldNames registered (slots.set pos none)
        return (n, v) :: out
      | _, _ => .error .panic

/-- The fields of a literal that names exactly the fields of the layout. -/
def directFields (fieldNames registered : List String) (vals : List Value) :
    Except Failure (List (String × Value)) :=
  if (fieldNames.zip registered).all fun p => p.1 == p.2 then .ok (fieldNames.zip vals)
  else takeSlots fieldNames registered (vals.map some)

/-- Pop the values of a literal, the last one first. -/
def popValues : ℕ → List Value → Except Failure (List Value × List Value)
  | 0, stack => .ok ([], stack)
  | _ + 1, [] => .error .panic
  | n + 1, v :: stack => do
    let (vals, rest) ← popValues n stack
    return (vals ++ [v], rest)

/-- `Op::MakeStruct`, on a stack whose top comes first. -/
def makeStruct (t : StructTable) (name : String) (fieldNames : List String) (stack : List Value) :
    Except Failure (List Value) := do
  let (key, registered) ← t.resolve name
  let (vals, rest) ← popValues fieldNames.length stack
  if isDirect fieldNames registered then
    let out ← directFields fieldNames registered vals
    return .object key out :: rest
  else
    let obj ← buildStructLiteral t.structs (maxEmbedDepth + 1) key registered (fieldNames.zip vals)
    return obj :: rest

/-- The op without its direct construction. -/
def makeStructSlow (t : StructTable) (name : String) (fieldNames : List String)
    (stack : List Value) : Except Failure (List Value) := do
  let (key, registered) ← t.resolve name
  let (vals, rest) ← popValues fieldNames.length stack
  let obj ← buildStructLiteral t.structs (maxEmbedDepth + 1) key registered (fieldNames.zip vals)
  return obj :: rest

/-! ### What the names of a direct literal are -/

theorem isDirect_iff {fieldNames registered : List String} :
    isDirect fieldNames registered = true ↔
      fieldNames.length = registered.length ∧ ∀ n, n ∈ fieldNames ↔ n ∈ registered := by
  simp only [isDirect, Bool.and_eq_true, beq_iff_eq, List.all_eq_true, List.any_eq_true,
    exists_eq_right, and_assoc]
  refine and_congr_right fun _ => ⟨fun h n => ⟨h.1 n, h.2 n⟩, fun h => ⟨fun n => (h n).mp,
    fun n => (h n).mpr⟩⟩

/-! ### Both constructions find the same values -/

/-- The first pair of a name is at the first position of the name. -/
theorem find_zip (fname : String) : ∀ (names : List String) (vals : List Value),
    vals.length = names.length →
      (names.zip vals).find? (fun f => f.1 == fname) =
        (names.findIdx? fun n => n == fname).bind fun pos =>
          names[pos]?.bind fun n => vals[pos]?.map fun v => (n, v)
  | [], _, _ => rfl
  | n :: names, [], h => by cases h
  | n :: names, v :: vals, h => by
    have ih := find_zip fname names vals (by simpa using h)
    by_cases hn : (n == fname) = true
    · simp [List.findIdx?_cons, hn]
    · rw [List.zip_cons_cons, List.find?_cons_of_neg (by exact hn), ih, List.findIdx?_cons, if_neg hn]
      rcases names.findIdx? fun n => n == fname with _ | pos <;> simp

/-- A name of the literal has a position, with the name and a value there. -/
theorem position_of_mem {fieldNames : List String} {vals : List Value}
    (hlen : vals.length = fieldNames.length) {fname : String} (h : fname ∈ fieldNames) :
    ∃ pos v, fieldNames.findIdx? (fun n => n == fname) = some pos ∧
      fieldNames[pos]? = some fname ∧ vals[pos]? = some v := by
  obtain ⟨pos, hpos⟩ : ∃ pos, fieldNames.findIdx? (fun n => n == fname) = some pos := by
    rw [← Option.isSome_iff_exists, List.findIdx?_isSome, List.any_eq_true]
    exact ⟨fname, h, by simp⟩
  obtain ⟨hlt, hname, -⟩ := List.findIdx?_eq_some_iff_getElem.mp hpos
  have hlt' : pos < vals.length := hlen ▸ hlt
  refine ⟨pos, vals[pos], hpos, ?_, List.getElem?_eq_getElem hlt'⟩
  rw [List.getElem?_eq_getElem hlt, beq_iff_eq.mp hname]

/-- Taking the values out of their slots finds what a search finds, as long as the slots of the
fields that are left are full. -/
theorem takeSlots_eq {fieldNames : List String} {vals : List Value}
    (hlen : vals.length = fieldNames.length)
    {build : String → Except Failure (String × Value)}
    (hbuild : ∀ fname f, (fieldNames.zip vals).find? (fun f => f.1 == fname) = some f →
      build fname = .ok f) :
    ∀ (registered : List String) (slots : List (Option Value)), registered.Nodup →
      (∀ fname ∈ registered, fname ∈ fieldNames) →
      (∀ fname ∈ registered, ∀ pos : ℕ, fieldNames[pos]? = some fname →
        slots[pos]? = vals[pos]?.map some) →
      takeSlots fieldNames registered slots = registered.mapM build ∧
        ∃ out, registered.mapM build = .ok out
  | [], _, _, _, _ => ⟨rfl, [], rfl⟩
  | fname :: registered, slots, hnodup, hmem, hfull => by
    obtain ⟨hnot, hnodup⟩ := List.nodup_cons.mp hnodup
    obtain ⟨pos, v, hpos, hname, hv⟩ := position_of_mem hlen (hmem fname (by simp))
    have hslot : slots[pos]? = some (some v) := by
      rw [hfull fname (by simp) pos hname, hv, Option.map_some]
    -- the slot that is emptied belongs to no field that is left
    have hrest : ∀ g ∈ registered, ∀ i : ℕ, fieldNames[i]? = some g →
        (slots.set pos none)[i]? = vals[i]?.map some := by
      intro g hg i hi
      have hne : pos ≠ i := by
        rintro rfl
        obtain rfl : fname = g := by simpa [hname] using hi
        exact hnot hg
      rw [List.getElem?_set_ne hne]
      exact hfull g (by simp [hg]) i hi
    obtain ⟨ih, out, hout⟩ := takeSlots_eq hlen hbuild registered (slots.set pos none) hnodup
      (fun g hg => hmem g (by simp [hg])) hrest
    have hfind : (fieldNames.zip vals).find? (fun f => f.1 == fname) = some (fname, v) := by
      rw [find_zip fname fieldNames vals hlen, hpos, Option.bind_some, hname, Option.bind_some, hv,
        Option.map_some]
    refine ⟨?_, (fname, v) :: out, ?_⟩
    · simp only [takeSlots, hpos, hslot, hname, ih, List.mapM_cons, hbuild _ _ hfind]
      rfl
    · simp only [List.mapM_cons, hbuild _ _ hfind, hout]
      rfl

/-- Names in the order of the fields pair with their values by position. -/
theorem zip_eq_mapM {build : String → Except Failure (String × Value)} :
    ∀ (names : List String) (vals : List Value), names.Nodup → vals.length = names.length →
      (∀ fname f, (names.zip vals).find? (fun f => f.1 == fname) = some f →
        build fname = .ok f) →
      names.mapM build = .ok (names.zip vals)
  | [], _, _, _, _ => rfl
  | n :: names, [], _, h, _ => by cases h
  | n :: names, v :: vals, hnodup, hlen, hbuild => by
    obtain ⟨hnot, hnodup⟩ := List.nodup_cons.mp hnodup
    have hhead : build n = .ok (n, v) := hbuild n (n, v) (by simp)
    have htail := zip_eq_mapM names vals hnodup (by simpa using hlen) fun fname f hf => by
      refine hbuild fname f ?_
      have hne : ¬ (n == fname) = true := by
        intro heq
        obtain rfl : n = fname := beq_iff_eq.mp heq
        obtain ⟨⟨k, u⟩, hk⟩ : ∃ g, g = f := ⟨f, rfl⟩
        have hkey := List.find?_some hf
        have hin := List.mem_of_find?_eq_some hf
        have : f.1 = n := beq_iff_eq.mp hkey
        exact hnot (this ▸ (List.of_mem_zip hin).1)
      rw [List.zip_cons_cons, List.find?_cons_of_neg (by exact hne), hf]
    rw [List.mapM_cons, hhead, htail]
    rfl

/-- The names are the fields in their order if they pair up. -/
theorem eq_of_zip_all : ∀ {names registered : List String}, names.length = registered.length →
    ((names.zip registered).all fun p => p.1 == p.2) = true → names = registered
  | [], [], _, _ => rfl
  | n :: names, r :: registered, hlen, hall => by
    simp only [List.zip_cons_cons, List.all_cons, Bool.and_eq_true, beq_iff_eq] at hall
    rw [hall.1, eq_of_zip_all (by simpa using hlen) hall.2]

/-- The fields that are built directly are the ones that are searched for. -/
theorem directFields_eq {fieldNames registered : List String} {vals : List Value}
    (hdirect : isDirect fieldNames registered = true) (hnodup : registered.Nodup)
    (hlen : vals.length = fieldNames.length)
    {build : String → Except Failure (String × Value)}
    (hbuild : ∀ fname f, (fieldNames.zip vals).find? (fun f => f.1 == fname) = some f →
      build fname = .ok f) :
    directFields fieldNames registered vals = registered.mapM build ∧
      ∃ out, registered.mapM build = .ok out := by
  obtain ⟨hlength, hmem⟩ := isDirect_iff.mp hdirect
  simp only [directFields]
  split_ifs with hall
  · obtain rfl := eq_of_zip_all hlength hall
    have hzip := zip_eq_mapM fieldNames vals hnodup hlen hbuild
    exact ⟨hzip.symm, _, hzip⟩
  · exact takeSlots_eq hlen hbuild registered (vals.map some) hnodup
      (fun fname h => (hmem fname).mpr h) (fun _ _ pos _ => by rw [List.getElem?_map])

/-! ### Both constructions agree -/

theorem popValues_length : ∀ (n : ℕ) (stack : List Value) {vals rest : List Value},
    popValues n stack = .ok (vals, rest) → vals.length = n
  | 0, _, vals, rest, h => by
    obtain ⟨rfl, -⟩ : [] = vals ∧ _ = rest := by simpa [popValues] using h
    rfl
  | n + 1, [], _, _, h => by cases h
  | n + 1, v :: stack, vals, rest, h => by
    rcases hpop : popValues n stack with e | ⟨vs, rs⟩
    · simp [popValues, hpop, bind, Except.bind] at h
    · obtain ⟨rfl, rfl⟩ : vs ++ [v] = vals ∧ rs = rest := by
        simpa [popValues, hpop, bind, Except.bind, pure, Except.pure] using h
      simp [popValues_length n stack hpop]

/-- A field that the literal names is taken from it. -/
theorem buildField_given (layouts : Layouts) {given : List (String × Value)}
    (inner : String → List String → Except Failure Value) {fname : String} {f : String × Value}
    (h : given.find? (fun f => f.1 == fname) = some f) :
    buildField layouts given inner fname = .ok f := by
  rw [buildField, h]

/-- **The direct construction is the general one.** If no struct has a field twice, then a literal
that is built directly becomes the object that the general construction makes of it, and none of
the slots that are expected to be full is empty. -/
theorem makeStruct_eq (t : StructTable) (name : String) (fieldNames : List String)
    (stack : List Value) (hnodup : ∀ key registered, t.resolve name = .ok (key, registered) →
      registered.Nodup) :
    makeStruct t name fieldNames stack = makeStructSlow t name fieldNames stack ∧
      ∀ key registered vals rest, t.resolve name = .ok (key, registered) →
        popValues fieldNames.length stack = .ok (vals, rest) →
        isDirect fieldNames registered = true →
          ∃ out, directFields fieldNames registered vals = .ok out ∧
            buildStructLiteral t.structs (maxEmbedDepth + 1) key registered
              (fieldNames.zip vals) = .ok (.object key out) := by
  have hagree : ∀ key registered vals rest, t.resolve name = .ok (key, registered) →
      popValues fieldNames.length stack = .ok (vals, rest) →
      isDirect fieldNames registered = true →
        ∃ out, directFields fieldNames registered vals = .ok out ∧
          buildStructLiteral t.structs (maxEmbedDepth + 1) key registered
            (fieldNames.zip vals) = .ok (.object key out) := by
    intro key registered vals rest hkey hpop hdirect
    obtain ⟨heq, out, hout⟩ := directFields_eq hdirect (hnodup key registered hkey)
      (popValues_length _ _ hpop) fun fname f hf =>
        buildField_given t.structs (fun innerName innerLayout =>
          buildStructLiteral t.structs maxEmbedDepth innerName innerLayout
            ((fieldNames.zip vals).filter fun f => !registered.contains f.1)) hf
    refine ⟨out, heq.trans hout, ?_⟩
    simp only [buildStructLiteral, hout]
    rfl
  refine ⟨?_, hagree⟩
  simp only [makeStruct, makeStructSlow]
  rcases hkey : t.resolve name with e | ⟨key, registered⟩
  · rfl
  rcases hpop : popValues fieldNames.length stack with e | ⟨vals, rest⟩
  · rfl
  by_cases hdirect : isDirect fieldNames registered = true
  · obtain ⟨out, hout, hslow⟩ := hagree key registered vals rest hkey hpop hdirect
    simp [hdirect, hout, hslow, bind, Except.bind]
  · simp [hdirect, bind, Except.bind]

/-- A literal with the fields of `P` in another order. -/
theorem makeStruct_eq_swapped :
    makeStruct ⟨[("P", ["x", "y"])], []⟩ "P" ["y", "x"] [.int 1, .int 2] =
      .ok [.object "P" [("x", .int 1), ("y", .int 2)]] := by
  rw [(makeStruct_eq ⟨[("P", ["x", "y"])], []⟩ "P" ["y", "x"] [.int 1, .int 2] ?_).1]
  · rfl
  · intro key registered hkey
    obtain ⟨-, rfl⟩ : "P" = key ∧ ["x", "y"] = registered := Prod.mk.inj (Except.ok.inj hkey)
    decide

end ZzLang.Runtime
