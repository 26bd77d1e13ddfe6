import Mathlib.Tactic
import ZzLang.Runtime.Doubles
import ZzLang.Runtime.Value

/-!
# Values of compiled programs

A value of a compiled program is a tag and a word, and the word of a string, an array, a dict, a
struct or a wrapper points to a block that is either on the heap, with a count of its owners, or
in an arena, which is overwritten as a whole when a loop goes round. Where a block is, its `refs`
field says: the count of a block on the heap is positive, and zero and a few magic numbers stand
for arenas and the stack.

Here a value is the tree of what can be reached from it, and at each level we keep where the block
is, not its count. The headers of structs and the boxes of wrappers are always on the heap. What a
value denotes is the tree without these marks (`Value.content`), and equality of values, and so of
the keys of a dict, is a matter of contents (`valuesEqual_content`).
-/

namespace ZzLang

namespace Aot

/-! ### Values -/

/-- Where a string is: `interned` is set, `refs` is positive, or `refs` is zero. -/
inductive StrMem
  | interned
  | heap
  | arena
  deriving DecidableEq

/-- Where an array is: `refs` is a count, zero, `ZZ_ARRAY_STACK_MAGIC`, `ZZ_ARRAY_LIT_MAGIC` or
`ZZ_ARRAY_ARENA_MAGIC`. -/
inductive ArrayMem
  | heap
  | arena
  | stack
  | lit
  | sized
  deriving DecidableEq

/-- Where a dict is: `refs` is a count, zero or `ZZ_DICT_ARENA_MAGIC`. -/
inductive DictMem
  | heap
  | arena
  | sized
  deriving DecidableEq

/-- The tags whose word points to a box with a value in it. -/
inductive BoxTag
  | tuple
  | optionSome
  | resultOk
  | resultErr
  | json
  deriving DecidableEq

/-- The tags whose word may be a null pointer instead of a block this model opens. -/
inductive PtrTag
  | str
  | array
  | dict
  | object
  | box (tag : BoxTag)
  deriving DecidableEq

/-- The tags of handles, which are equal to nothing. -/
inductive HandleTag
  | func
  | native
  | chan
  | taskJoin
  | tcpStream
  | tcpListener
  | db
  | file
  | vfs
  deriving DecidableEq

/-- The values with nothing in them that an arena could hold. A byte buffer is its window, a range
its three numbers. -/
inductive Scalar
  | unit
  | optionNone
  | bool (b : Bool)
  | int (i : ℤ)
  | float (x : F64)
  | bytes (b : List UInt8)
  | range (start stop step : ℤ)
  | handle (tag : HandleTag) (id : ℕ)
  deriving DecidableEq

/-- A value (`zz_value`), with what it points to. The fields of a struct are pairs of a name and a
value. -/
inductive Value
  | scalar (s : Scalar)
  | null (tag : PtrTag)
  | str (mem : StrMem) (bytes : List UInt8)
  | array (mem : ArrayMem) (items : List Value)
  | dict (mem : DictMem) (entries : List (Value × Value))
  | object (typeName : Option (List UInt8)) (fields : List (Value × Value))
  | box (tag : BoxTag) (payload : Value)

/-- The tags (`zz_tag`). -/
inductive Tag
  | unit
  | int
  | float
  | bool
  | optionNone
  | range
  | bytes
  | ptr (tag : PtrTag)
  | handle (tag : HandleTag)
  deriving DecidableEq

/-- The tag of a value without parts. -/
def Scalar.tag : Scalar → Tag
  | unit => .unit
  | optionNone => .optionNone
  | bool _ => .bool
  | int _ => .int
  | float _ => .float
  | bytes _ => .bytes
  | range _ _ _ => .range
  | handle t _ => .handle t

/-- The tag of a value. -/
def Value.tag : Value → Tag
  | scalar s => s.tag
  | null t => .ptr t
  | str _ _ => .ptr .str
  | array _ _ => .ptr .array
  | dict _ _ => .ptr .dict
  | object _ _ => .ptr .object
  | box t _ => .ptr (.box t)

/-- The bytes of a string. -/
def Value.strBytes : Value → Option (List UInt8)
  | str _ b => some b
  | _ => none

/-- Induction on values, through the lists of their parts. -/
@[elab_as_elim]
theorem Value.induct {P : Value → Prop} (scalar : ∀ s, P (scalar s)) (null : ∀ t, P (null t))
    (str : ∀ m b, P (str m b)) (array : ∀ m items, (∀ v ∈ items, P v) → P (array m items))
    (dict : ∀ m es, (∀ e ∈ es, P e.1 ∧ P e.2) → P (dict m es))
    (object : ∀ t fs, (∀ e ∈ fs, P e.1 ∧ P e.2) → P (object t fs))
    (box : ∀ t p, P p → P (box t p)) (v : Value) : P v := by
  refine @Value.rec P (fun vs => ∀ v ∈ vs, P v) (fun es => ∀ e ∈ es, P e.1 ∧ P e.2)
    (fun e => P e.1 ∧ P e.2) scalar null str array dict object box ?_ ?_ ?_ ?_ ?_ v
  · exact fun _ h => absurd h List.not_mem_nil
  · exact fun _ _ hv hvs => List.forall_mem_cons.mpr ⟨hv, hvs⟩
  · exact fun _ h => absurd h List.not_mem_nil
  · exact fun _ _ he hes => List.forall_mem_cons.mpr ⟨he, hes⟩
  · exact fun _ _ h₁ h₂ => ⟨h₁, h₂⟩

/-! ### What a value denotes -/

mutual

/-- What a value denotes: the tree without the marks that say where its blocks are. -/
def Value.content : Value → Value
  | .scalar s => .scalar s
  | .null t => .null t
  | .str _ b => .str .heap b
  | .array _ items => .array .heap (contents items)
  | .dict _ es => .dict .heap (pairContents es)
  | .object t fs => .object t (pairContents fs)
  | .box t p => .box t p.content

/-- The contents of the items of an array. -/
def contents : List Value → List Value
  | [] => []
  | v :: vs => v.content :: contents vs

/-- The contents of the entries of a dict, or of the fields of a struct. -/
def pairContents : List (Value × Value) → List (Value × Value)
  | [] => []
  | (k, v) :: es => (k.content, v.content) :: pairContents es

end

/-! ### Equality -/

/-- An integer or a double as a double. -/
def Scalar.toDouble : Scalar → Option F64
  | int i => some (.ofInt i)
  | float x => some x
  | _ => none

/-- Equality of values without parts: integers and doubles mix, handles are equal to nothing. -/
def Scalar.equal : Scalar → Scalar → Bool
  | int a, int b => a = b
  | unit, unit => true
  | optionNone, optionNone => true
  | bool a, bool b => a = b
  | bytes a, bytes b => a = b
  | range a b c, range a' b' c' => a = a' && b = b' && c = c'
  | a, b =>
    match a.toDouble, b.toDouble with
    | some x, some y => x.ieeeEq y
    | _, _ => false

mutual

/-- `zz_values_equal`. The box of a tuple is read as if it were the header of an array: where its
length should be there is the address of the items, so two boxes are different. -/
def valuesEqual : Value → Value → Bool
  | .scalar a, .scalar b => a.equal b
  | .null a, .null b => a = b
  | .str _ a, .str _ b => a = b
  | .array _ as, .array _ bs => as.length = bs.length && itemsEqual as bs
  | .dict _ as, .dict _ bs => as.length = bs.length && entriesEqual as bs
  | .object t as, .object u bs => as.length = bs.length && t = u && fieldsEqual as bs
  | .box t a, .box u b => t = u && t ≠ .tuple && valuesEqual a b
  | _, _ => false
termination_by structural a => a

/-- The loop over the items of two arrays. -/
def itemsEqual : List Value → List Value → Bool
  | a :: as, b :: bs => valuesEqual a b && itemsEqual as bs
  | _, _ => true

/-- The loop over the entries of a dict: the first entry of the other with the same key has the
same value. -/
def entriesEqual : List (Value × Value) → List (Value × Value) → Bool
  | [], _ => true
  | (k, v) :: es, fs =>
    (match fs.find? fun f => k.tag = f.1.tag && valuesEqual k f.1 with
      | some f => valuesEqual v f.2
      | none => false) && entriesEqual es fs

/-- The loop over the fields of two structs: names are strings, and the same, at each place. -/
def fieldsEqual : List (Value × Value) → List (Value × Value) → Bool
  | (n, v) :: es, (n', v') :: fs =>
    (match n.strBytes, n'.strBytes with
      | some a, some b => a = b
      | _, _ => false) && valuesEqual v v' && fieldsEqual es fs
  | _, _ => true

end

/-- `zz_key_eq`. -/
def keyEq (a b : Value) : Bool :=
  a.tag = b.tag && valuesEqual a b

/-! ### Equality is a matter of contents -/

theorem contents_eq (vs : List Value) : contents vs = vs.map Value.content := by
  induction vs with
  | nil => rfl
  | cons v vs ih => rw [contents, ih, List.map_cons]

theorem pairContents_eq (es : List (Value × Value)) :
    pairContents es = es.map fun e => (e.1.content, e.2.content) := by
  induction es with
  | nil => rfl
  | cons e es ih => rw [pairContents, ih, List.map_cons]

@[simp]
theorem content_array (m : ArrayMem) (items : List Value) :
    (Value.array m items).content = .array .heap (items.map Value.content) := by
  rw [Value.content, contents_eq]

@[simp]
theorem content_dict (m : DictMem) (es : List (Value × Value)) :
    (Value.dict m es).content = .dict .heap (es.map fun e => (e.1.content, e.2.content)) := by
  rw [Value.content, pairContents_eq]

@[simp]
theorem content_object (t : Option (List UInt8)) (fs : List (Value × Value)) :
    (Value.object t fs).content = .object t (fs.map fun e => (e.1.content, e.2.content)) := by
  rw [Value.content, pairContents_eq]

attribute [simp] Value.content.eq_1 Value.content.eq_2 Value.content.eq_3 Value.content.eq_7

@[simp]
theorem tag_content (v : Value) : v.content.tag = v.tag := by
  induction v using Value.induct <;> simp [Value.tag]

@[simp]
theorem strBytes_content (v : Value) : v.content.strBytes = v.strBytes := by
  induction v using Value.induct <;> simp [Value.strBytes]

theorem itemsEqual_content_left {as : List Value}
    (ih : ∀ v ∈ as, ∀ w, valuesEqual v.content w = valuesEqual v w) (bs : List Value) :
    itemsEqual (as.map Value.content) bs = itemsEqual as bs := by
  induction as generalizing bs with
  | nil => rfl
  | cons a as iha =>
    obtain ⟨h, hs⟩ := List.forall_mem_cons.mp ih
    rcases bs with _ | ⟨b, bs⟩
    · simp [itemsEqual]
    · rw [List.map_cons, itemsEqual, itemsEqual, h, iha hs]

theorem entriesEqual_content_left {es : List (Value × Value)}
    (ih : ∀ e ∈ es, (∀ w, valuesEqual e.1.content w = valuesEqual e.1 w) ∧
      ∀ w, valuesEqual e.2.content w = valuesEqual e.2 w) (fs : List (Value × Value)) :
    entriesEqual (es.map fun e => (e.1.content, e.2.content)) fs = entriesEqual es fs := by
  induction es with
  | nil => rfl
  | cons e es ihe =>
    obtain ⟨⟨hk, hv⟩, hs⟩ := List.forall_mem_cons.mp ih
    obtain ⟨k, v⟩ := e
    simp only [List.map_cons, entriesEqual, tag_content, hk, hv, ihe hs]

theorem fieldsEqual_content_left {es : List (Value × Value)}
    (ih : ∀ e ∈ es, (∀ w, valuesEqual e.1.content w = valuesEqual e.1 w) ∧
      ∀ w, valuesEqual e.2.content w = valuesEqual e.2 w) (fs : List (Value × Value)) :
    fieldsEqual (es.map fun e => (e.1.content, e.2.content)) fs = fieldsEqual es fs := by
  induction es generalizing fs with
  | nil => simp [fieldsEqual]
  | cons e es ihe =>
    obtain ⟨⟨-, hv⟩, hs⟩ := List.forall_mem_cons.mp ih
    obtain ⟨n, v⟩ := e
    rcases fs with _ | ⟨⟨n', v'⟩, fs⟩
    · simp [fieldsEqual]
    · simp only [List.map_cons, fieldsEqual, strBytes_content, hv, ihe hs]

/-- Equality sees the content of its left side only. -/
theorem valuesEqual_content_left (v : Value) : ∀ w, valuesEqual v.content w = valuesEqual v w := by
  induction v using Value.induct with
  | scalar s => exact fun _ => rfl
  | null t => exact fun _ => rfl
  | str m b => intro w; cases w <;> simp [valuesEqual]
  | array m items ih =>
    intro w
    cases w <;> simp [valuesEqual, itemsEqual_content_left ih]
  | dict m es ih =>
    intro w
    cases w <;> simp [valuesEqual, entriesEqual_content_left ih]
  | object t fs ih =>
    intro w
    cases w <;> simp [valuesEqual, fieldsEqual_content_left ih]
  | box t p ih => intro w; cases w <;> simp [valuesEqual, ih]

theorem itemsEqual_content_right {as : List Value}
    (ih : ∀ v ∈ as, ∀ w, valuesEqual v (Value.content w) = valuesEqual v w) (bs : List Value) :
    itemsEqual as (bs.map Value.content) = itemsEqual as bs := by
  induction as generalizing bs with
  | nil => simp [itemsEqual]
  | cons a as iha =>
    obtain ⟨h, hs⟩ := List.forall_mem_cons.mp ih
    rcases bs with _ | ⟨b, bs⟩
    · rfl
    · rw [List.map_cons, itemsEqual, itemsEqual, h, iha hs]

theorem entriesEqual_content_right {es : List (Value × Value)}
    (ih : ∀ e ∈ es, (∀ w, valuesEqual e.1 (Value.content w) = valuesEqual e.1 w) ∧
      ∀ w, valuesEqual e.2 (Value.content w) = valuesEqual e.2 w) (fs : List (Value × Value)) :
    entriesEqual es (fs.map fun f => (f.1.content, f.2.content)) = entriesEqual es fs := by
  induction es with
  | nil => simp [entriesEqual]
  | cons e es ihe =>
    obtain ⟨⟨hk, hv⟩, hs⟩ := List.forall_mem_cons.mp ih
    obtain ⟨k, v⟩ := e
    simp only [entriesEqual, List.find?_map, Function.comp_def, tag_content, hk, ihe hs]
    generalize List.find? _ fs = found
    cases found <;> simp [hv]

theorem fieldsEqual_content_right {es : List (Value × Value)}
    (ih : ∀ e ∈ es, (∀ w, valuesEqual e.1 (Value.content w) = valuesEqual e.1 w) ∧
      ∀ w, valuesEqual e.2 (Value.content w) = valuesEqual e.2 w) (fs : List (Value × Value)) :
    fieldsEqual es (fs.map fun f => (f.1.content, f.2.content)) = fieldsEqual es fs := by
  induction es generalizing fs with
  | nil => simp [fieldsEqual]
  | cons e es ihe =>
    obtain ⟨⟨-, hv⟩, hs⟩ := List.forall_mem_cons.mp ih
    obtain ⟨n, v⟩ := e
    rcases fs with _ | ⟨⟨n', v'⟩, fs⟩
    · simp [fieldsEqual]
    · simp only [List.map_cons, fieldsEqual, strBytes_content, hv, ihe hs]

/-- Equality sees the content of its right side only. -/
theorem valuesEqual_content_right (v : Value) :
    ∀ w, valuesEqual v (Value.content w) = valuesEqual v w := by
  induction v using Value.induct with
  | scalar s => intro w; cases w <;> simp [valuesEqual]
  | null t => intro w; cases w <;> simp [valuesEqual]
  | str m b => intro w; cases w <;> simp [valuesEqual]
  | array m items ih =>
    intro w
    cases w <;> simp [valuesEqual, itemsEqual_content_right ih]
  | dict m es ih =>
    intro w
    cases w <;> simp [valuesEqual, entriesEqual_content_right ih]
  | object t fs ih =>
    intro w
    cases w <;> simp [valuesEqual, fieldsEqual_content_right ih]
  | box t p ih => intro w; cases w <;> simp [valuesEqual, ih]

/-- Whether two keys are the same is a matter of what they denote. -/
theorem keyEq_content (a b : Value) : keyEq a.content b.content = keyEq a b := by
  rw [keyEq, keyEq, tag_content, tag_content, valuesEqual_content_left,
    valuesEqual_content_right]

theorem keyEq_congr {a a' b b' : Value} (ha : a.content = a'.content)
    (hb : b.content = b'.content) : keyEq a b = keyEq a' b' := by
  rw [← keyEq_content a b, ha, hb, keyEq_content]

/-! ### Heights and well-formed values -/

mutual

/-- How deep a value is nested. -/
def Value.height : Value → ℕ
  | .scalar _ => 0
  | .null _ => 0
  | .str _ _ => 0
  | .array _ items => heights items
  | .dict _ es => pairHeights es
  | .object _ fs => pairHeights fs
  | .box _ p => p.height + 1

/-- One more than the items of an array, if there are any. -/
def heights : List Value → ℕ
  | [] => 0
  | v :: vs => max (v.height + 1) (heights vs)

/-- One more than the parts of entries or fields, if there are any. -/
def pairHeights : List (Value × Value) → ℕ
  | [] => 0
  | (k, v) :: es => max (max (k.height + 1) (v.height + 1)) (pairHeights es)

end

theorem height_lt_of_mem {vs : List Value} {v : Value} (h : v ∈ vs) : v.height < heights vs := by
  induction vs with
  | nil => exact absurd h List.not_mem_nil
  | cons w vs ih =>
    rw [heights]
    rcases List.mem_cons.mp h with rfl | h
    · omega
    · have := ih h
      omega

theorem height_lt_of_mem_pairs {es : List (Value × Value)} {e : Value × Value} (h : e ∈ es) :
    e.1.height < pairHeights es ∧ e.2.height < pairHeights es := by
  induction es with
  | nil => exact absurd h List.not_mem_nil
  | cons f es ih =>
    rw [pairHeights]
    rcases List.mem_cons.mp h with rfl | h
    · omega
    · have := ih h
      omega

theorem heights_content {vs : List Value} (ih : ∀ v ∈ vs, v.content.height = v.height) :
    heights (vs.map Value.content) = heights vs := by
  induction vs with
  | nil => rfl
  | cons v vs ihv =>
    obtain ⟨h, hs⟩ := List.forall_mem_cons.mp ih
    rw [List.map_cons, heights, heights, h, ihv hs]

theorem pairHeights_content {es : List (Value × Value)}
    (ih : ∀ e ∈ es, e.1.content.height = e.1.height ∧ e.2.content.height = e.2.height) :
    pairHeights (es.map fun e => (e.1.content, e.2.content)) = pairHeights es := by
  induction es with
  | nil => rfl
  | cons e es ihe =>
    obtain ⟨⟨hk, hv⟩, hs⟩ := List.forall_mem_cons.mp ih
    rw [List.map_cons, pairHeights, pairHeights, hk, hv, ihe hs]

@[simp]
theorem height_content (v : Value) : v.content.height = v.height := by
  induction v using Value.induct with
  | scalar s => rfl
  | null t => rfl
  | str m b => rfl
  | array m items ih => rw [content_array, Value.height, Value.height, heights_content ih]
  | dict m es ih => rw [content_dict, Value.height, Value.height, pairHeights_content ih]
  | object t fs ih => rw [content_object, Value.height, Value.height, pairHeights_content ih]
  | box t p ih => rw [Value.content, Value.height, Value.height, ih]

/-- No two entries of a dict have the same key. Every dict is built by insertions, which look for
the key first. -/
def DistinctKeys (es : List (Value × Value)) : Prop :=
  es.Pairwise fun e f => keyEq e.1 f.1 = false

/-- The dicts in a value have distinct keys. -/
inductive Value.WellFormed : Value → Prop
  | scalar (s) : WellFormed (scalar s)
  | null (t) : WellFormed (null t)
  | str (m b) : WellFormed (str m b)
  | array (m) {items} : (∀ v ∈ items, v.WellFormed) → WellFormed (array m items)
  | dict (m) {es} : (∀ e ∈ es, e.1.WellFormed) → (∀ e ∈ es, e.2.WellFormed) → DistinctKeys es →
    WellFormed (dict m es)
  | object (t) {fs} : (∀ e ∈ fs, e.1.WellFormed) → (∀ e ∈ fs, e.2.WellFormed) →
    WellFormed (object t fs)
  | box (t) {p} : p.WellFormed → WellFormed (box t p)

theorem wellFormed_array {m : ArrayMem} {items : List Value} :
    (Value.array m items).WellFormed ↔ ∀ v ∈ items, v.WellFormed := by
  constructor
  · intro h
    cases h with
    | array _ h => exact h
  · exact .array m

theorem wellFormed_dict {m : DictMem} {es : List (Value × Value)} :
    (Value.dict m es).WellFormed ↔
      (∀ e ∈ es, e.1.WellFormed) ∧ (∀ e ∈ es, e.2.WellFormed) ∧ DistinctKeys es := by
  constructor
  · intro h
    cases h with
    | dict _ hk hv hd => exact ⟨hk, hv, hd⟩
  · rintro ⟨hk, hv, hd⟩
    exact .dict m hk hv hd

theorem wellFormed_object {t : Option (List UInt8)} {fs : List (Value × Value)} :
    (Value.object t fs).WellFormed ↔ (∀ e ∈ fs, e.1.WellFormed) ∧ ∀ e ∈ fs, e.2.WellFormed := by
  constructor
  · intro h
    cases h with
    | object _ hk hv => exact ⟨hk, hv⟩
  · rintro ⟨hk, hv⟩
    exact .object t hk hv

theorem wellFormed_box {t : BoxTag} {p : Value} :
    (Value.box t p).WellFormed ↔ p.WellFormed := by
  constructor
  · intro h
    cases h with
    | box _ h => exact h
  · exact .box t

theorem distinctKeys_content {es : List (Value × Value)} :
    DistinctKeys (es.map fun e => (e.1.content, e.2.content)) ↔ DistinctKeys es := by
  simp only [DistinctKeys, List.pairwise_map, keyEq_content]

/-- Whether a value is well formed is a matter of what it denotes. -/
theorem wellFormed_content (v : Value) : v.content.WellFormed ↔ v.WellFormed := by
  induction v using Value.induct with
  | scalar s => exact Iff.rfl
  | null t => exact Iff.rfl
  | str m b => exact ⟨fun _ => .str m b, fun _ => .str .heap b⟩
  | array m items ih =>
    rw [content_array, wellFormed_array, wellFormed_array, List.forall_mem_map]
    exact forall₂_congr ih
  | dict m es ih =>
    rw [content_dict, wellFormed_dict, wellFormed_dict, List.forall_mem_map, List.forall_mem_map,
      distinctKeys_content, forall₂_congr fun e he => (ih e he).1,
      forall₂_congr fun e he => (ih e he).2]
  | object t fs ih =>
    rw [content_object, wellFormed_object, wellFormed_object, List.forall_mem_map,
      List.forall_mem_map, forall₂_congr fun e he => (ih e he).1,
      forall₂_congr fun e he => (ih e he).2]
  | box t p ih => rw [Value.content, wellFormed_box, wellFormed_box, ih]

theorem Value.WellFormed.of_content {v w : Value} (h : v.WellFormed)
    (hw : w.content = v.content) : w.WellFormed :=
  (wellFormed_content w).mp (hw ▸ (wellFormed_content v).mpr h)

end Aot

end ZzLang
