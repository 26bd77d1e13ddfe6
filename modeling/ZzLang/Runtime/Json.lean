import ZzLang.Ir.Model
import ZzLang.Library.FirstIndex

/-!
# JSON values

A JSON object keeps its entries in the order of insertion, repeated keys included, and a key means
its first entry. An object of more than eight entries also has an index from keys to first
positions, which `from_entries` builds and `push` keeps (`JsonObject.Built.indexed`), so a lookup is
a search for the first entry of the key (`JsonObject.Built.get_eq`).

The merge of two objects has a map of its own, from the keys of the first object to positions. It
enters them one after the other, so of a repeated key it holds the last position, and it is there
that every entry of the second object with this key is written. What the merge finds is therefore
not always what the second object finds (`merge_follows_iff`). The invariant is that the map holds
last positions (`LastIndex`); the values of a key are followed through the loop as a list, whose
last member is the one that is overwritten (`valuesOf_mergeInto`).
-/

namespace ZzLang.Runtime

open FirstIndex

/-- An object: its entries, and the index if there is one. -/
structure JsonObject (V : Type) where
  entries : List (String × V)
  index : Option (String → Option ℕ)

namespace JsonObject

variable {V : Type}

/-- Up to this many entries an object has no index. -/
def indexThreshold : ℕ := 8

def new : JsonObject V := ⟨[], none⟩

/-- The loop that enters the keys from position `i` on into an index: the first one stays. -/
def addPositions : ℕ → List (String × V) → (String → Option ℕ) → String → Option ℕ
  | _, [], index => index
  | i, (k, _) :: es, index =>
    addPositions (i + 1) es
      (if (index k).isSome then index else Function.update index k (some i))

def buildIndex (obj : JsonObject V) : JsonObject V :=
  { obj with index := some (addPositions 0 obj.entries fun _ => none) }

def fromEntries (entries : List (String × V)) : JsonObject V :=
  let obj : JsonObject V := ⟨entries, none⟩
  if indexThreshold < obj.entries.length then obj.buildIndex else obj

/-- The value of a key. -/
def get (obj : JsonObject V) (key : String) : Option V :=
  match obj.index with
  | some idx => (idx key).bind fun i => obj.entries[i]?.map (·.2)
  | none => (obj.entries.find? fun e => e.1 == key).map (·.2)

def contains (obj : JsonObject V) (key : String) : Bool := (obj.get key).isSome

/-- Add an entry. -/
def push (obj : JsonObject V) (k : String) (v : V) : JsonObject V :=
  let isNew := match obj.index with
    | some idx => (idx k).isNone
    | none => true
  let obj := { obj with entries := obj.entries ++ [(k, v)] }
  if isNew then
    match obj.index with
    | some idx => { obj with index := some (Function.update idx k (some (obj.entries.length - 1))) }
    | none => if indexThreshold < obj.entries.length then obj.buildIndex else obj
  else obj

/-- The objects there are: their fields are private. -/
inductive Built : JsonObject V → Prop
  | new : Built new
  | fromEntries (entries : List (String × V)) : Built (fromEntries entries)
  | push {obj : JsonObject V} (h : Built obj) (k : String) (v : V) : Built (obj.push k v)

end JsonObject

/-- A parsed JSON value. -/
inductive JsonValue
  | null
  | bool (b : Bool)
  | num (n : F64)
  | str (s : String)
  | arr (items : List JsonValue)
  | obj (o : JsonObject JsonValue)

/-! ### The merge -/

section Merge

variable {V : Type}

/-- The map that the merge makes of the keys from position `i` on: the last one stays. -/
def lastPositions : ℕ → List (String × V) → (String → Option ℕ) → String → Option ℕ
  | _, [], index => index
  | i, (k, _) :: es, index => lastPositions (i + 1) es (Function.update index k (some i))

/-- Write the entries of the second object. -/
def mergeInto : List (String × V) → (String → Option ℕ) → List (String × V) → List (String × V)
  | out, _, [] => out
  | out, index, (k, v) :: es =>
    match index k with
    | some i => mergeInto (out.set i (k, v)) index es
    | none => mergeInto (out ++ [(k, v)]) (Function.update index k (some out.length)) es

/-- The merge of two objects. -/
def mergeObjects (a b : JsonObject V) : JsonObject V :=
  .fromEntries (mergeInto a.entries (lastPositions 0 a.entries fun _ => none) b.entries)

end Merge

/-- Merge two values: what is not an object is replaced. -/
def jsonMerge (a b : JsonValue) : JsonValue :=
  match a, b with
  | .obj a, .obj b => .obj (mergeObjects a b)
  | _, b => b

/-! ### The index of an object -/

/-- Keys of objects are compared as they are. -/
def stringKeys : Keys String String where
  eq k l := k == l
  of := some
  eq_iff_of := by
    rintro k d ⟨⟩ k'
    simp

namespace JsonObject

variable {V : Type} {obj : JsonObject V}

/-- The index is there exactly for long objects, and holds the first positions. -/
def Indexed (obj : JsonObject V) : Prop :=
  obj.index =
    if indexThreshold < obj.entries.length then some fun key => position some obj.entries key
    else none

theorem addPositions_eq (i : ℕ) (es : List (String × V)) (index : String → Option ℕ) (key : String) :
    addPositions i es index key = (index key).or ((position some es key).map (· + i)) := by
  induction es generalizing i index with
  | nil => simp [addPositions, position]
  | cons e es ih =>
    obtain ⟨k, v⟩ := e
    rw [addPositions, ih]
    have hcons : position some ((k, v) :: es) key =
        if k = key then some 0 else (position some es key).map (· + 1) := by
      rw [position, List.findIdx?_cons, position]
      by_cases hk : k = key <;> simp [hk]
    have hrest : (position some es key).map (· + (i + 1)) =
        ((position some es key).map (· + 1)).map (· + i) := by
      rw [Option.map_map]
      congr 1
      funext n
      exact (Nat.add_right_comm n 1 i).symm
    rw [hcons, hrest]
    by_cases hk : k = key
    · subst hk
      rcases hi : index k with _ | j <;> simp [hi]
    · rcases hi : index k with _ | j <;> simp [hk, Function.update_of_ne (Ne.symm hk)]

theorem indexed_buildIndex (h : indexThreshold < obj.entries.length) :
    obj.buildIndex.Indexed := by
  have hindex : addPositions 0 obj.entries (fun _ => none) =
      fun key => position some obj.entries key := by
    funext key
    rw [addPositions_eq]
    simp
  exact (congrArg some hindex).trans (if_pos h).symm

theorem indexed_fromEntries (entries : List (String × V)) : (fromEntries entries).Indexed := by
  rw [fromEntries]
  split_ifs with h
  · exact indexed_buildIndex h
  · exact (if_neg h).symm

@[simp] theorem entries_fromEntries (entries : List (String × V)) :
    (fromEntries entries).entries = entries := by
  rw [fromEntries]
  split_ifs <;> rfl

@[simp] theorem entries_push (obj : JsonObject V) (k : String) (v : V) :
    (obj.push k v).entries = obj.entries ++ [(k, v)] := by
  rcases obj with ⟨entries, _ | idx⟩
  · simp only [push]
    split_ifs <;> rfl
  · simp only [push]
    split_ifs <;> rfl

theorem Indexed.push (h : obj.Indexed) (k : String) (v : V) : (obj.push k v).Indexed := by
  obtain ⟨entries, index⟩ := obj
  have hlen : (entries ++ [(k, v)]).length = entries.length + 1 := by simp
  rw [Indexed] at h
  simp only at h
  split_ifs at h with hlong
  · -- a new key is entered with the last position, an old one keeps its first
    have hlong' : indexThreshold < (entries ++ [(k, v)]).length := by omega
    have hpos : ∀ key, position some (entries ++ [(k, v)]) key =
        (position some entries key).or (if k = key then some entries.length else none) := by
      intro key
      rw [position_append_singleton]
      simp
    subst h
    simp only [JsonObject.push]
    split_ifs with hnew
    · rw [Indexed, if_pos hlong']
      refine congrArg some (funext fun key => ?_)
      rw [hpos]
      by_cases hk : k = key
      · subst hk
        simp [Option.isNone_iff_eq_none.mp hnew]
      · simp [hk, Function.update_of_ne (Ne.symm hk)]
    · rw [Indexed, if_pos hlong']
      refine congrArg some (funext fun key => ?_)
      rw [hpos]
      by_cases hk : k = key
      · subst hk
        obtain ⟨i, hi⟩ : ∃ i, position some entries k = some i := by
          simpa [Option.isNone_iff_eq_none, Option.ne_none_iff_exists'] using hnew
        rw [hi, Option.some_or]
      · simp [hk]
  · subst h
    simp only [JsonObject.push, if_true]
    split_ifs with hgrow
    · exact indexed_buildIndex hgrow
    · exact (if_neg hgrow).symm

/-- Every object has the index that belongs to its entries. -/
theorem Built.indexed (h : Built obj) : obj.Indexed := by
  induction h with
  | new => rfl
  | fromEntries entries => exact indexed_fromEntries entries
  | push _ k v ih => exact ih.push k v

/-- A lookup is a search for the first entry of the key. -/
theorem Indexed.get_eq (h : obj.Indexed) (key : String) :
    obj.get key = (obj.entries.find? fun e => e.1 == key).map (·.2) := by
  rw [get, h]
  split_ifs
  · exact (@lookup_eq_position _ _ _ stringKeys _ obj.entries key key rfl).symm
  · rfl

theorem Built.get_eq (h : Built obj) (key : String) :
    obj.get key = (obj.entries.find? fun e => e.1 == key).map (·.2) :=
  h.indexed.get_eq key

end JsonObject

/-! ### What the merge does to the values of a key -/

section Values

variable {V : Type}

/-- The values of a key, in order. -/
def valuesOf (es : List (String × V)) (k : String) : List V :=
  (es.filter fun e => e.1 == k).map (·.2)

@[simp] theorem valuesOf_append (es es' : List (String × V)) (k : String) :
    valuesOf (es ++ es') k = valuesOf es k ++ valuesOf es' k := by
  simp [valuesOf]

@[simp] theorem valuesOf_cons_self (es : List (String × V)) (k : String) (v : V) :
    valuesOf ((k, v) :: es) k = v :: valuesOf es k := by
  simp [valuesOf]

theorem valuesOf_cons_of_ne (es : List (String × V)) {k l : String} (v : V) (h : k ≠ l) :
    valuesOf ((k, v) :: es) l = valuesOf es l := by
  simp [valuesOf, h]

theorem find_eq_head_valuesOf (es : List (String × V)) (k : String) :
    (es.find? fun e => e.1 == k).map (·.2) = (valuesOf es k).head? := by
  rw [valuesOf, List.head?_map, List.head?_filter]

theorem JsonObject.Built.get_eq_head {obj : JsonObject V} (h : obj.Built) (k : String) :
    obj.get k = (valuesOf obj.entries k).head? :=
  (h.get_eq k).trans (find_eq_head_valuesOf obj.entries k)

/-- The map holds the last position of every key. -/
structure LastIndex (out : List (String × V)) (index : String → Option ℕ) : Prop where
  absent : ∀ k, index k = none → valuesOf out k = []
  last : ∀ k i, index k = some i →
    ∃ before w after, out = before ++ (k, w) :: after ∧ before.length = i ∧ valuesOf after k = []

/-- A key that is added comes last. -/
theorem LastIndex.push {out : List (String × V)} {index : String → Option ℕ}
    (h : LastIndex out index) (k : String) (v : V) :
    LastIndex (out ++ [(k, v)]) (Function.update index k (some out.length)) := by
  constructor
  · intro l hl
    have hne : k ≠ l := by
      rintro rfl
      simp at hl
    rw [Function.update_of_ne hne.symm] at hl
    rw [valuesOf_append, h.absent l hl, valuesOf_cons_of_ne _ _ hne]
    rfl
  · intro l i hl
    by_cases hne : k = l
    · subst hne
      obtain rfl : out.length = i := by simpa using hl
      exact ⟨out, v, [], rfl, rfl, rfl⟩
    · rw [Function.update_of_ne (Ne.symm hne)] at hl
      obtain ⟨before, w, after, rfl, rfl, hafter⟩ := h.last l i hl
      refine ⟨before, w, after ++ [(k, v)], by simp, rfl, ?_⟩
      rw [valuesOf_append, hafter, valuesOf_cons_of_ne _ _ hne]
      rfl

theorem lastIndex_lastPositions (out es : List (String × V)) (index : String → Option ℕ)
    (h : LastIndex out index) : LastIndex (out ++ es) (lastPositions out.length es index) := by
  induction es generalizing out index with
  | nil => simpa [lastPositions] using h
  | cons e es ih =>
    obtain ⟨k, v⟩ := e
    have hnext := ih (out ++ [(k, v)]) _ (h.push k v)
    rw [List.append_assoc, List.length_append] at hnext
    exact hnext

/-- An entry that is overwritten keeps its key, so the map still holds last positions. -/
theorem LastIndex.set {out : List (String × V)} {index : String → Option ℕ}
    (h : LastIndex out index) {k : String} {i : ℕ} (hi : index k = some i) (v : V) :
    LastIndex (out.set i (k, v)) index ∧
      valuesOf (out.set i (k, v)) k = (valuesOf out k).dropLast ++ [v] ∧
      ∀ l, k ≠ l → valuesOf (out.set i (k, v)) l = valuesOf out l := by
  obtain ⟨before, w, after, rfl, rfl, hafter⟩ := h.last k i hi
  have hset : (before ++ (k, w) :: after).set before.length (k, v) =
      before ++ (k, v) :: after := by
    rw [List.set_append_right _ _ (Nat.le_refl _), Nat.sub_self, List.set_cons_zero]
  have hother : ∀ l, k ≠ l →
      valuesOf (before ++ (k, v) :: after) l = valuesOf (before ++ (k, w) :: after) l := by
    intro l hl
    rw [valuesOf_append, valuesOf_append, valuesOf_cons_of_ne _ _ hl, valuesOf_cons_of_ne _ _ hl]
  rw [hset]
  refine ⟨⟨?_, ?_⟩, ?_, hother⟩
  · intro l hl
    have hne : k ≠ l := by
      rintro rfl
      rw [hi] at hl
      cases hl
    rw [hother l hne]
    exact h.absent l hl
  · intro l j hl
    by_cases hne : k = l
    · subst hne
      obtain rfl : before.length = j := Option.some.inj (hi.symm.trans hl)
      exact ⟨before, v, after, rfl, rfl, hafter⟩
    · obtain ⟨before', w', after', heq, rfl, hafter'⟩ := h.last l j hl
      -- the overwritten entry is before or after the last one of `l`
      rcases List.append_eq_append_iff.mp heq with ⟨mid, rfl, htail⟩ | ⟨mid, rfl, htail⟩
      · rcases mid with _ | ⟨e, mid⟩
        · exact absurd (congrArg Prod.fst (List.cons.inj htail).1) hne
        · obtain ⟨rfl, rfl⟩ := List.cons.inj htail
          exact ⟨before ++ (k, v) :: mid, w', after', by simp, by simp, hafter'⟩
      · rcases mid with _ | ⟨e, mid⟩
        · exact absurd (congrArg Prod.fst (List.cons.inj htail).1).symm hne
        · obtain ⟨rfl, rfl⟩ := List.cons.inj htail
          refine ⟨before', w', mid ++ (k, v) :: after, by simp, rfl, ?_⟩
          have hmid : valuesOf (mid ++ (k, w) :: after) l = [] := hafter'
          rw [valuesOf_append, valuesOf_cons_of_ne _ _ hne] at hmid ⊢
          exact hmid
  · rw [valuesOf_append, valuesOf_append, valuesOf_cons_self, valuesOf_cons_self, hafter,
      List.dropLast_concat]

/-- Values of a key of which the last one gives way to the last one of another list. -/
def overwritten (xs ys : List V) : List V :=
  match ys.getLast? with
  | none => xs
  | some v => xs.dropLast ++ [v]

/-- The last of the second object's values of a key takes the place of the last of the first
object's. -/
theorem valuesOf_mergeInto (es : List (String × V)) (k : String) :
    ∀ (out : List (String × V)) (index : String → Option ℕ), LastIndex out index →
      valuesOf (mergeInto out index es) k = overwritten (valuesOf out k) (valuesOf es k) := by
  induction es with
  | nil => intro out index _; rfl
  | cons e es ih =>
    obtain ⟨l, v⟩ := e
    intro out index h
    -- whether the key is in the map or not, its last value is replaced and the others are kept
    obtain ⟨out', index', hstep, h', hself, hother⟩ : ∃ out' index',
        mergeInto out index ((l, v) :: es) = mergeInto out' index' es ∧ LastIndex out' index' ∧
        valuesOf out' l = (valuesOf out l).dropLast ++ [v] ∧
        ∀ m, l ≠ m → valuesOf out' m = valuesOf out m := by
      rcases hi : index l with _ | i
      · refine ⟨_, _, by rw [mergeInto, hi], h.push l v, ?_, ?_⟩
        · rw [valuesOf_append, h.absent l hi, valuesOf_cons_self]
          rfl
        · intro m hm
          rw [valuesOf_append, valuesOf_cons_of_ne _ _ hm]
          exact List.append_nil _
      · obtain ⟨hset, hself, hother⟩ := h.set hi v
        exact ⟨_, _, by rw [mergeInto, hi], hset, hself, hother⟩
    rw [hstep, ih out' index' h']
    by_cases hk : l = k
    · subst hk
      rw [valuesOf_cons_self, overwritten, overwritten, List.getLast?_cons, hself]
      rcases (valuesOf es l).getLast? with _ | w <;> simp
    · rw [valuesOf_cons_of_ne _ _ hk, hother k hk]

/-- In the merge of two objects as well. -/
theorem valuesOf_mergeObjects (a b : JsonObject V) (k : String) :
    valuesOf (mergeObjects a b).entries k =
      overwritten (valuesOf a.entries k) (valuesOf b.entries k) := by
  rw [mergeObjects, JsonObject.entries_fromEntries]
  refine valuesOf_mergeInto b.entries k a.entries _ ?_
  exact lastIndex_lastPositions [] a.entries _ ⟨fun _ _ => rfl, fun _ _ h => by cases h⟩

end Values

/-- **Merging values**: two objects are merged key by key, and any other value gives way to the
second one. -/
theorem jsonMerge_spec (a b : JsonValue) :
    (∃ o o' out, a = .obj o ∧ b = .obj o' ∧ jsonMerge a b = .obj out ∧ out.Built ∧
      ∀ k, valuesOf out.entries k = overwritten (valuesOf o.entries k) (valuesOf o'.entries k)) ∨
    ((∀ o o', a = .obj o → b ≠ .obj o') ∧ jsonMerge a b = b) := by
  rw [jsonMerge.eq_def]
  split
  · exact .inl ⟨_, _, _, rfl, rfl, rfl, .fromEntries _, valuesOf_mergeObjects _ _⟩
  · rename_i hnot
    exact .inr ⟨fun o o' ha hb => hnot o o' ha hb, rfl⟩

/-! ### When the merge follows lookups -/

section Follows

variable {V : Type}

/-- Looking a key up in the merge gives what the second object has, or else the first one, and a
lookup in an object is a search for the first entry. -/
structure MergeFollows (a b : JsonObject V) (k : String) : Prop where
  merge : (mergeObjects a b).get k = if b.contains k then b.get k else a.get k
  linear : ∀ obj : JsonObject V, obj.Built → ∀ key,
    obj.get key = (obj.entries.find? fun e => e.1 == key).map (·.2)

/-- **The merge follows lookups** exactly if a key of the second object has there the same first
and last value and is at most once in the first object, or is more than once in the first object
with the value it has first in the second. -/
theorem merge_follows_iff {a b : JsonObject V} (ha : a.Built) (hb : b.Built) (k : String) :
    MergeFollows a b k ↔
      (valuesOf b.entries k ≠ [] →
        if (valuesOf a.entries k).length ≤ 1 then
          (valuesOf b.entries k).getLast? = (valuesOf b.entries k).head?
        else (valuesOf a.entries k).head? = (valuesOf b.entries k).head?) := by
  have hmerge : (mergeObjects a b).get k = (valuesOf (mergeObjects a b).entries k).head? :=
    JsonObject.Built.get_eq_head (.fromEntries _) k
  have hiff : MergeFollows a b k ↔
      (mergeObjects a b).get k = if b.contains k then b.get k else a.get k :=
    ⟨MergeFollows.merge, fun h => ⟨h, fun obj hobj key => hobj.get_eq key⟩⟩
  rw [hiff, hmerge, valuesOf_mergeObjects, overwritten, JsonObject.contains, ha.get_eq_head,
    hb.get_eq_head]
  rcases hB : valuesOf b.entries k with _ | ⟨v, B⟩
  · simp
  · obtain ⟨w, hw⟩ : ∃ w, (v :: B).getLast? = some w := ⟨_, List.getLast?_cons⟩
    rw [hw]
    rcases valuesOf a.entries k with _ | ⟨x, _ | ⟨y, A⟩⟩ <;> simp

/-- An entry of the second object takes the place of an entry of the first. -/
theorem merge_follows_overwrite :
    MergeFollows (V := ℕ) (.fromEntries [("x", 1), ("y", 2)]) (.fromEntries [("y", 99)]) "y" :=
  (merge_follows_iff (.fromEntries _) (.fromEntries _) "y").mpr fun _ => by decide

/-- A key that is twice in the first object keeps its first value. -/
theorem not_merge_follows_repeated :
    ¬ MergeFollows (V := ℕ) (.fromEntries [("k", 1), ("k", 2)]) (.fromEntries [("k", 3)]) "k" :=
  fun h => absurd h.merge (by decide)

end Follows

end ZzLang.Runtime
