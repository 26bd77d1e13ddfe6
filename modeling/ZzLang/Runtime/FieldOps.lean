import ZzLang.Runtime.DictData
import ZzLang.Runtime.Embedding

/-!
# Fields and elements

Reading and writing the fields of an object and the elements of a container. A write takes the
container, and gives back what it left of it together with the result: a write that fails leaves the
container as it was (`setObjectField_error`, `setIndex_error`).

Fields are promoted through embedded objects. Reading and writing go the same way: an object has the
field that is to be written exactly if it has the field to be read, and writing what was read
changes nothing (`setObjectField_of_read`).

A dict is its pairs here, since its index is invisible. A tuple can be indexed like an array but not
pushed to. What a byte buffer holds, what the text of a value is and which handles are `==` are
parameters (`ValueOps`).
-/

namespace ZzLang.Runtime

open FirstIndex

/-- What the operations on values need from outside. -/
structure ValueOps where
  prims : Prims
  /-- `==` of two handles of one kind. -/
  handleEq : HandleKind → ℕ → ℕ → Bool
  /-- The contents of a byte buffer. -/
  bytes : ℕ → List UInt8
  /-- The text of a value. -/
  display : Value → String

variable (O : ValueOps)

/-! ### Fields -/

/-- The error of a field that is not there. -/
def objectFieldMiss (v : Value) (name : String) : String :=
  match v with
  | .object n _ => s!"struct \x60{n}\x60 has no field \x60{name}\x60"
  | .dict _ => s!"dict has no key \x60{name}\x60"
  | .request _ => s!"http.request has no field \x60{name}\x60"
  | v => s!"cannot access field \x60{name}\x60 on a value of type \x60{O.display v}\x60"

/-- Read a field. -/
def objectField (v : Value) (name : String) : Except Failure Value :=
  match objectFieldOpt v name with
  | some w => .ok w
  | none => .error (.error (objectFieldMiss O v name))

/-- Write to the first field of a name. -/
def setFirst (name : String) (value : Value) : List (String × Value) → List (String × Value)
  | [] => []
  | (fname, v) :: fields =>
    if fname == name then (fname, value) :: fields else (fname, v) :: setFirst name value fields

mutual

/-- Write a field of a value at some depth: the result, and the value afterwards. -/
def setObjectFieldDepth (v : Value) (name : String) (value : Value) (depth : ℕ) :
    Except Failure Unit × Value :=
  match v with
  | .object n fields =>
    if fields.any fun f => f.1 == name then (.ok (), .object n (setFirst name value fields))
    else if depth < maxEmbedDepth then
      match setInFields fields name value depth with
      | (true, fields) => (.ok (), .object n fields)
      | (false, fields) =>
        (.error (.error s!"struct \x60{n}\x60 has no field \x60{name}\x60"), .object n fields)
    else (.error (.error s!"struct \x60{n}\x60 has no field \x60{name}\x60"), .object n fields)
  | v =>
    (.error (.error
      s!"cannot assign to field \x60{name}\x60 of a value of type \x60{O.display v}\x60"), v)

/-- Try the embedded objects among some fields. -/
def setInFields (fields : List (String × Value)) (name : String) (value : Value) (depth : ℕ) :
    Bool × List (String × Value) :=
  match fields with
  | [] => (false, [])
  | (fname, v) :: rest =>
    if isEmbeddedValue fname v then
      match setObjectFieldDepth v name value (depth + 1) with
      | (.ok (), v) => (true, (fname, v) :: rest)
      | (.error _, v) =>
        match setInFields rest name value depth with
        | (done, rest) => (done, (fname, v) :: rest)
    else
      match setInFields rest name value depth with
      | (done, rest) => (done, (fname, v) :: rest)

end

/-- Write a field. -/
def setObjectField (v : Value) (name : String) (value : Value) : Except Failure Unit × Value :=
  setObjectFieldDepth O v name value 0

/-! ### Elements -/

/-- A position from an index, which counts from the end if it is negative. -/
def normalizeIndex (i : Int64) (len : ℕ) : Except Failure ℕ :=
  let idx : ℤ := if i < 0 then len + i.toInt else i.toInt
  if idx < 0 ∨ len ≤ idx then
    .error (.error s!"index {i.toInt} out of bounds for length {len}")
  else .ok idx.toNat

/-- The element of an array or a tuple at an index. -/
def elementAt (items : List Value) (i : Int64) : Except Failure Value :=
  match normalizeIndex i items.length with
  | .ok idx =>
    match items[idx]? with
    | some w => .ok w
    | none => .error .panic
  | .error e => .error e

/-- Read an element. -/
def getIndex (v index : Value) : Except Failure Value :=
  match v, index with
  | .array items, .int i | .tuple items, .int i => elementAt items i
  | .handle .bytes b, .int i =>
    match normalizeIndex i (O.bytes b).length with
    | .ok idx =>
      match (O.bytes b)[idx]? with
      | some byte => .ok (.int (.ofNat byte.toNat))
      | none => .error .panic
    | .error e => .error e
  | .dict entries, key =>
    match lookup (valueKeys O.handleEq) entries key with
    | some w => .ok w
    | none => .error (.error s!"key \x60{O.display key}\x60 not found in dict")
  | .str s, .int i =>
    -- of an ASCII string, positions of bytes are positions of characters
    match normalizeIndex i s.toList.length with
    | .ok idx =>
      match s.toList[idx]? with
      | some c => .ok (.str (.singleton c))
      | none => .error .panic
    | .error e => .error e
  | v, _ => .error (.error s!"cannot index a value of type \x60{v.typeName}\x60")

/-- Write an element: the result, and the container afterwards. -/
def setIndex (v index value : Value) : Except Failure Unit × Value :=
  match v, index with
  | .array items, .int i =>
    match normalizeIndex i items.length with
    | .ok idx => (.ok (), .array (items.set idx value))
    | .error e => (.error e, .array items)
  | .tuple items, .int i =>
    match normalizeIndex i items.length with
    | .ok idx => (.ok (), .tuple (items.set idx value))
    | .error e => (.error e, .tuple items)
  | .dict entries, key => (.ok (), .dict (store (valueKeys O.handleEq) entries key value))
  | .str s, _ => (.error (.error "cannot assign to an index of a string"), .str s)
  | v, _ =>
    (.error (.error s!"cannot assign to an index of a value of type \x60{v.typeName}\x60"), v)

/-! ### Lengths -/

/-- The length of a range with a step that is not zero. -/
def rangeLen (start stop step : Int64) : Int64 :=
  if (0 < step ∧ start < stop) ∨ (step < 0 ∧ stop < start) then
    (stop - start + step - (if 0 < step then 1 else -1)) / step
  else 0

/-- The length of a value that has one. -/
def valueLen : Value → Option Int64
  | .array vs | .tuple vs => some (.ofNat vs.length)
  | .handle .bytes b => some (.ofNat (O.bytes b).length)
  | .str s => some (.ofNat s.toList.length)
  | .dict entries => some (.ofNat entries.length)
  | .range start stop step => if step = 0 then none else some (rangeLen start stop step)
  | _ => none

/-- The error of a value without a length. -/
def lenError (v : Value) : String :=
  match v with
  | .range start stop step =>
    if step = 0 then "range step cannot be zero"
    else s!"len expects array, tuple, bytes, string, dict, or range, found \x60{O.display
      (.range start stop step)}\x60"
  | v => s!"len expects array, tuple, bytes, string, dict, or range, found \x60{O.display v}\x60"

/-- The native `len`. -/
def nativeLen (v : Value) : Except Failure Value :=
  match v with
  | .array vs | .tuple vs => .ok (.int (.ofNat vs.length))
  | .handle .bytes b => .ok (.int (.ofNat (O.bytes b).length))
  | .str s => .ok (.int (.ofNat s.toList.length))
  | .dict entries => .ok (.int (.ofNat entries.length))
  | .range start stop step =>
    if step = 0 then .error (.error "range step cannot be zero")
    else .ok (.int (rangeLen start stop step))
  | v =>
    .error (.error
      s!"len expects array, tuple, bytes, string, dict, or range, found \x60{O.display v}\x60")

/-- The native `vec.push`. -/
def vecPush (vs x : Value) : Except Failure Value :=
  match vs with
  | .array items => .ok (.array (items ++ [x]))
  | v => .error (.error s!"\x60vec.push\x60 expects an array, found \x60{O.display v}\x60")

/-! ### Laws -/

variable {O}

/-- `valueLen` and `lenError` are the native `len`. -/
theorem nativeLen_eq (v : Value) : nativeLen O v =
    match valueLen O v with
    | some n => .ok (.int n)
    | none => .error (.error (lenError O v)) := by
  rcases v with _ | _ | _ | _ | _ | _ | _ | _ | _ | _ | _ | _ | _ | ⟨start, stop, step⟩ | _ |
    ⟨kind, i⟩ <;> try rfl
  · rw [nativeLen, valueLen, lenError]
    split_ifs <;> rfl
  · cases kind <;> rfl

/-- A write to an element that fails leaves the container. -/
theorem setIndex_error {v index value : Value} (h : (setIndex O v index value).1 ≠ .ok ()) :
    (setIndex O v index value).2 = v := by
  revert h
  unfold setIndex
  split
  next items i =>
    rcases normalizeIndex i items.length with e | idx
    · exact fun _ => rfl
    · exact absurd rfl
  next items i =>
    rcases normalizeIndex i items.length with e | idx
    · exact fun _ => rfl
    · exact absurd rfl
  next => exact absurd rfl
  all_goals exact fun _ => rfl

theorem setFirst_setFirst (name : String) (v w : Value) (fields : List (String × Value)) :
    setFirst name v (setFirst name w fields) = setFirst name v fields := by
  induction fields with
  | nil => rfl
  | cons f fields ih =>
    obtain ⟨fname, u⟩ := f
    by_cases hname : (fname == name) = true <;> simp [setFirst, hname, ih]

/-- Writing the value that is found changes nothing. -/
theorem setFirst_of_find {name k : String} {v : Value} {fields : List (String × Value)}
    (h : fields.find? (fun f => f.1 == name) = some (k, v)) : setFirst name v fields = fields := by
  induction fields with
  | nil => cases h
  | cons f fields ih =>
    obtain ⟨fname, u⟩ := f
    by_cases hname : (fname == name) = true
    · obtain ⟨rfl, rfl⟩ : fname = k ∧ u = v := by simpa [hname] using h
      rw [setFirst, if_pos hname]
    · rw [setFirst, if_neg hname, ih (by simpa [hname] using h)]

@[simp] theorem any_setFirst (name : String) (v : Value) (fields : List (String × Value)) :
    ((setFirst name v fields).any fun f => f.1 == name) = fields.any fun f => f.1 == name := by
  induction fields with
  | nil => rfl
  | cons f fields ih =>
    obtain ⟨fname, u⟩ := f
    by_cases hname : (fname == name) = true <;> simp [setFirst, hname]
    simpa using ih

mutual

/-- A write to a field that fails leaves the value. -/
theorem setObjectFieldDepth_error (name : String) (value : Value) : ∀ (v : Value) (depth : ℕ),
    (setObjectFieldDepth O v name value depth).1 ≠ .ok () →
      (setObjectFieldDepth O v name value depth).2 = v
  | .object n fields, depth, h => by
    rw [setObjectFieldDepth] at h ⊢
    by_cases hdirect : (fields.any fun f => f.1 == name) = true
    · exact absurd (by rw [if_pos hdirect]) h
    · rw [if_neg hdirect] at h ⊢
      by_cases hdepth : depth < maxEmbedDepth
      · rw [if_pos hdepth] at h ⊢
        have hin := setInFields_false name value fields depth
        rcases hset : setInFields O fields name value depth with ⟨_ | _, after⟩
        · rw [hset] at hin
          obtain rfl : after = fields := hin rfl
          rfl
        · exact absurd (by rw [hset]) h
      · rw [if_neg hdepth]
  | .int _, _, _ | .float _, _, _ | .str _, _, _ | .bool _, _, _ | .unit, _, _
  | .some _, _, _ | .none, _, _ | .ok _, _, _ | .err _, _, _ | .array _, _, _ | .tuple _, _, _
  | .dict _, _, _ | .range _ _ _, _, _ | .request _, _, _ | .handle _ _, _, _ => by
    rw [setObjectFieldDepth]
    nofun

theorem setInFields_false (name : String) (value : Value) :
    ∀ (fields : List (String × Value)) (depth : ℕ),
      (setInFields O fields name value depth).1 = false →
        (setInFields O fields name value depth).2 = fields
  | [], _, _ => by rw [setInFields]
  | (fname, v) :: rest, depth, h => by
    have hrest := setInFields_false name value rest depth
    rw [setInFields] at h ⊢
    by_cases hemb : isEmbeddedValue fname v = true
    · have hv := setObjectFieldDepth_error name value v (depth + 1)
      rw [if_pos hemb] at h ⊢
      rcases hset : setObjectFieldDepth O v name value (depth + 1) with ⟨e | _, after⟩
      · rw [hset] at h hv
        obtain rfl : after = v := hv nofun
        simp [hrest h]
      · rw [hset] at h
        cases h
    · rw [if_neg hemb] at h ⊢
      simp [hrest h]

end

theorem find_eq_none_of_not_any {fields : List (String × Value)} {name : String}
    (h : ¬ (fields.any fun f => f.1 == name) = true) :
    fields.find? (fun f => f.1 == name) = none := by
  rw [List.find?_eq_none]
  exact fun f hf hname => h (List.any_eq_true.mpr ⟨f, hf, hname⟩)

theorem any_of_find {fields : List (String × Value)} {name : String} {f : String × Value}
    (h : fields.find? (fun f => f.1 == name) = some f) :
    (fields.any fun f => f.1 == name) = true :=
  List.any_eq_true.mpr ⟨f, List.mem_of_find?_eq_some h,
    List.find?_some (p := fun f : String × Value => f.1 == name) h⟩

mutual

/-- An object has a field to write if it has it to read, and writing what was read changes
nothing. -/
theorem setObjectFieldDepth_of_locate (name : String) : ∀ (v : Value) (depth : ℕ),
    v.isObject = true →
      match locateField v name depth with
      | some (_, w) => setObjectFieldDepth O v name w depth = (.ok (), v)
      | none => ∀ value, (setObjectFieldDepth O v name value depth).1 ≠ .ok ()
  | .object n fields, depth, _ => by
    by_cases hdirect : (fields.any fun f => f.1 == name) = true
    · obtain ⟨⟨k, w⟩, hfind⟩ : ∃ f, fields.find? (fun f => f.1 == name) = some f :=
        Option.isSome_iff_exists.mp (by simpa using hdirect)
      simp only [locateField, hfind, setObjectFieldDepth, hdirect, if_true, setFirst_of_find hfind]
    · have hfind := find_eq_none_of_not_any hdirect
      by_cases hdepth : depth < maxEmbedDepth
      · have hin := setInFields_of_locate name fields depth 0
        simp only [locateField, hfind, setObjectFieldDepth, hdirect, hdepth, if_true]
        rcases hloc : locateInFields fields name depth 0 with _ | ⟨path, w⟩
        · rw [hloc] at hin
          intro value
          rcases hset : setInFields O fields name value depth with ⟨_ | _, after⟩
          · rw [if_neg (by simp)]
            nofun
          · have hfalse : (setInFields O fields name value depth).1 = false := hin value
            rw [hset] at hfalse
            cases hfalse
        · rw [hloc] at hin
          have htrue : setInFields O fields name w depth = (true, fields) := hin
          simp [htrue]
      · simp only [locateField, hfind, setObjectFieldDepth, hdirect, hdepth, if_false]
        intro value
        simp
  | .int _, _, h | .float _, _, h | .str _, _, h | .bool _, _, h | .unit, _, h
  | .some _, _, h | .none, _, h | .ok _, _, h | .err _, _, h | .array _, _, h | .tuple _, _, h
  | .dict _, _, h | .range _ _ _, _, h | .request _, _, h | .handle _ _, _, h => by cases h

theorem setInFields_of_locate (name : String) : ∀ (fields : List (String × Value)) (depth i : ℕ),
    match locateInFields fields name depth i with
    | some (_, w) => setInFields O fields name w depth = (true, fields)
    | none => ∀ value, (setInFields O fields name value depth).1 = false
  | [], _, _ => by
    simp [locateInFields, setInFields]
  | (fname, v) :: rest, depth, i => by
    have hrest := setInFields_of_locate name rest depth (i + 1)
    by_cases hemb : isEmbeddedValue fname v = true
    · have hv := setObjectFieldDepth_of_locate name v (depth + 1) (isObject_of_isEmbeddedValue hemb)
      rw [locateInFields, if_pos hemb]
      rcases hloc : locateField v name (depth + 1) with _ | ⟨path, w⟩
      · rw [hloc] at hv
        have hskip : ∀ value, setInFields O ((fname, v) :: rest) name value depth =
            ((setInFields O rest name value depth).1,
              (fname, v) :: (setInFields O rest name value depth).2) := by
          intro value
          have hafter := setObjectFieldDepth_error name value v (depth + 1) (hv value)
          rw [setInFields, if_pos hemb]
          rcases hset : setObjectFieldDepth O v name value (depth + 1) with ⟨e | _, after⟩
          · rw [hset] at hafter
            obtain rfl : after = v := hafter
            rfl
          · exact absurd (by rw [hset]) (hv value)
        rcases hlocs : locateInFields rest name depth (i + 1) with _ | ⟨path, w⟩
        · rw [hlocs] at hrest
          exact fun value => by rw [hskip, hrest value]
        · rw [hlocs] at hrest
          have htrue : setInFields O rest name w depth = (true, rest) := hrest
          show setInFields O _ name w depth = _
          rw [hskip, htrue]
      · rw [hloc] at hv
        have htrue : setObjectFieldDepth O v name w (depth + 1) = (.ok (), v) := hv
        show setInFields O _ name w depth = _
        rw [setInFields, if_pos hemb, htrue]
    · have hskip : ∀ value, setInFields O ((fname, v) :: rest) name value depth =
          ((setInFields O rest name value depth).1,
            (fname, v) :: (setInFields O rest name value depth).2) := by
        intro value
        rw [setInFields, if_neg hemb]
      rw [locateInFields, if_neg hemb]
      rcases hlocs : locateInFields rest name depth (i + 1) with _ | ⟨path, w⟩
      · rw [hlocs] at hrest
        exact fun value => by rw [hskip, hrest value]
      · rw [hlocs] at hrest
        have htrue : setInFields O rest name w depth = (true, rest) := hrest
        show setInFields O _ name w depth = _
        rw [hskip, htrue]

end

/-- A write to a field that fails leaves the value. -/
theorem setObjectField_error {v : Value} {name : String} {value : Value}
    (h : (setObjectField O v name value).1 ≠ .ok ()) : (setObjectField O v name value).2 = v :=
  setObjectFieldDepth_error name value v 0 h

/-- Writing what was read changes nothing, whether the write goes through or not. -/
theorem setObjectField_of_read {v w : Value} {name : String}
    (h : objectFieldOpt v name = some w) : (setObjectField O v name w).2 = v := by
  by_cases hobject : v.isObject = true
  · have hset := setObjectFieldDepth_of_locate (O := O) name v 0 hobject
    obtain ⟨⟨path, w'⟩, hloc, rfl⟩ := Option.map_eq_some_iff.mp h
    rw [hloc] at hset
    rw [setObjectField, show setObjectFieldDepth O v name w' 0 = (.ok (), v) from hset]
  · refine setObjectField_error ?_
    cases v <;> first | exact absurd rfl hobject | simp [setObjectField, setObjectFieldDepth]

theorem objectFieldOpt_of_find {n name k : String} {fields : List (String × Value)} {v : Value}
    (h : fields.find? (fun f => f.1 == name) = some (k, v)) :
    objectFieldOpt (.object n fields) name = some v := by
  simp [objectFieldOpt, locateField, h]

theorem setObjectField_of_any {n name : String} {fields : List (String × Value)}
    (h : (fields.any fun f => f.1 == name) = true) (value : Value) :
    setObjectField O (.object n fields) name value =
      (.ok (), .object n (setFirst name value fields)) := by
  rw [setObjectField, setObjectFieldDepth, if_pos h]

end ZzLang.Runtime
