import Mathlib.Data.UInt
import ZzLang.Aot.Stores
import ZzLang.Library.LinearProbing
import ZzLang.Library.FirstIndex

/-!
# Dicts of compiled programs

A dict is a buffer of entries in the order of insertion, and for a dict of more than eight entries a
table of slots that finds an integer, boolean or string key by its hash, with linear probing. Keys
of other kinds are never in the table, and are searched for entry by entry, like all keys of a small
dict.

A dict is in one of three places. On the heap both its buffer and its table grow; the header of a
dict made by `zz_dict_new_arena` is in an arena, but its buffer and table grow like those of the
heap; and what `zz_dict_new_arena_sized` makes in an arena has a buffer of fixed capacity, so a new
key that finds it full is dropped.

A loop that does not end is `none`. Sizes are numbers, so the sizes of buffers do not overflow, and
the allocator has memory.
-/

namespace ZzLang.Aot

open LinearProbing

/-! ### Hashes -/

/-- FNV-1a. -/
def fnv (bytes : List UInt8) : UInt64 :=
  bytes.foldl (fun h b => (h ^^^ b.toUInt64) * 1099511628211) 1469598103934665603

/-- The splitmix64 finalizer. -/
def splitmix (h : UInt64) : UInt64 :=
  let h := h ^^^ (h >>> 30)
  let h := h * 0xbf58476d1ce4e5b9
  let h := h ^^^ (h >>> 27)
  let h := h * 0x94d049bb133111eb
  h ^^^ (h >>> 31)

/-- `zz_dict_key_hash`. -/
def dictKeyHash : Value → Option ℕ
  | .scalar (.int i) => some (splitmix (.ofInt i)).toNat
  | .scalar (.bool b) => some (splitmix (if b then 1 else 0)).toNat
  | .str _ bytes => some (splitmix (fnv bytes)).toNat
  | _ => none

/-! ### Dicts -/

/-- `zz_dict`: where it is, the entries with the capacity of their buffer, and the table. -/
structure Dict where
  mem : DictMem
  entries : List (Value × Value)
  cap : ℕ
  idx : Option (List ℕ)

/-- `ZZ_DICT_INDEX_THRESHOLD`. -/
def dictIndexThreshold : ℕ := 8

/-- The loop of `zz_dict_cap_for`. -/
def dictCapLoop (len cap : ℕ) (hcap : 0 < cap) : ℕ :=
  if cap - cap >>> 2 < len then
    dictCapLoop len (cap <<< 1) (by rw [Nat.shiftLeft_eq]; omega)
  else cap
termination_by len - (cap - cap >>> 2)
decreasing_by
  simp only [Nat.shiftRight_eq_div_pow, Nat.shiftLeft_eq] at *
  omega

/-- `zz_dict_cap_for`. -/
def dictCapFor (len : ℕ) : ℕ :=
  dictCapLoop len 16 (by decide)

/-- The slot a probe loop stops at: the first that is empty or names an entry with the key. -/
def dictProbe (es : List (Value × Value)) (slots : List ℕ) (h : ℕ) (key : Value) : Option ℕ :=
  let mask := slots.length - 1
  probe (fun p => (p + 1) &&& mask) slots
    (fun j => (es[j]?.map fun e => keyEq e.1 key).getD false) slots.length (h &&& mask)

/-- `zz_dict_idx_place`. -/
def dictIdxPlace (es : List (Value × Value)) (slots : List ℕ) (j : ℕ) : Option (List ℕ) :=
  match es[j]? with
  | none => some slots
  | some e =>
    match dictKeyHash e.1 with
    | none => some slots
    | some h =>
      (dictProbe es slots h e.1).map fun p =>
        if slots.getD p 0 = 0 then slots.set p (j + 1) else slots

/-- The entries placed into a table of empty slots, one after another. -/
def dictIdxFill (es : List (Value × Value)) (cap : ℕ) : Option (List ℕ) :=
  (List.range es.length).foldlM (dictIdxPlace es) (List.replicate cap 0)

/-- `zz_dict_idx_build`. -/
def Dict.idxBuild (d : Dict) (cap : ℕ) : Option Dict :=
  if cap = 0 then some d
  else (dictIdxFill d.entries cap).map fun slots => { d with idx := some slots }

/-- `zz_dict_idx_insert`. -/
def Dict.idxInsert (d : Dict) (i : ℕ) : Option Dict :=
  match d.entries[i]?.bind fun e => dictKeyHash e.1 with
  | none => some d
  | some _ =>
    match d.idx with
    | none =>
      if d.entries.length ≤ dictIndexThreshold then some d
      else d.idxBuild (dictCapFor d.entries.length)
    | some slots =>
      if slots.length * 3 < d.entries.length * 4 then
        -- A table in an arena cannot grow, and without it the entries are searched one by one.
        if d.mem = .sized then some { d with idx := none }
        else (dictIdxFill d.entries (slots.length <<< 1)).map fun slots =>
          { d with idx := some slots }
      else (dictIdxPlace d.entries slots i).map fun slots => { d with idx := some slots }

/-- `zz_dict_find`. -/
def Dict.find (d : Dict) (key : Value) : Option (Option ℕ) :=
  match d.idx, dictKeyHash key with
  | some slots, some h =>
    (dictProbe d.entries slots h key).map fun p =>
      match slots.getD p 0 with
      | 0 => none
      | j + 1 => some j
  | _, _ => some (dictFind d.entries key)

/-! ### Constructors -/

/-- `zz_dict_new`. -/
def Dict.new : Dict :=
  { mem := .heap, entries := [], cap := 0, idx := none }

/-- `zz_dict_new_arena`, in an arena or without one. -/
def Dict.newArena (arena : Bool) : Dict :=
  { mem := if arena then .arena else .heap, entries := [], cap := 0, idx := none }

/-- `zz_dict_new_arena_sized`, in an arena or without one. -/
def Dict.newArenaSized (arena : Bool) (hint : ℕ) : Option Dict :=
  let d : Dict :=
    { mem := if arena then .sized else .heap, entries := [], cap := hint, idx := none }
  if dictIndexThreshold < hint then d.idxBuild (dictCapFor hint) else some d

/-- `zz_dict_new_sized`. -/
def Dict.newSized (hint : ℕ) : Option Dict :=
  Dict.newArenaSized false hint

/-! ### Operations -/

/-- A new entry after the others. -/
def Dict.append (d : Dict) (key val : Value) : Option Dict :=
  Dict.idxInsert
    { d with entries := d.entries ++ [(cloneForStore key, healForMove val)] } d.entries.length

/-- `zz_dict_set`. -/
def Dict.set (d : Dict) (key val : Value) : Option Dict :=
  (d.find key).bind fun
    | some pos =>
      some { d with entries := d.entries.modify pos fun e => (e.1, assign val) }
    | none =>
      if d.entries.length = d.cap then
        -- The buffer in the arena is of fixed capacity: the key is dropped.
        if d.mem = .sized then some d
        else
          ({ d with cap := if d.cap = 0 then 4 else d.cap * 2 } : Dict).append key val
      else d.append key val

/-- `zz_dict_get`, an error being `none`. -/
def Dict.get (d : Dict) (key : Value) : Option (Option Value) :=
  (d.find key).map fun pos => pos.bind fun p => d.entries[p]?.map Prod.snd

/-- `zz_dict_has`. -/
def Dict.has (d : Dict) (key : Value) : Option Bool :=
  (d.find key).map Option.isSome

/-- `zz_dict_keys`: the items of the array. -/
def Dict.keys (d : Dict) : List Value :=
  d.entries.foldl (fun items e => vecAppend items e.1) []

/-- `zz_dict_dup_value`. -/
def Dict.dupValue (d : Dict) : Option Dict :=
  (Dict.newSized d.entries.length).bind fun out =>
    d.entries.foldlM (fun out e => out.set e.1 e.2) out

end ZzLang.Aot
