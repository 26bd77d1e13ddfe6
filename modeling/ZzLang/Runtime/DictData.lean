import ZzLang.Library.FirstIndex
import ZzLang.Runtime.Binary

/-!
# Dicts and their index

A dict is a list of pairs in insertion order, possibly with several pairs of one key; a key means
its first pair. A dict of more than eight pairs also carries an index from its integer, boolean and
string keys to the positions of their first pairs. Floats, which need not equal themselves, and
compound keys are never in the index and are always searched for.

The index is built when a dict grows past eight pairs, kept up to date when a pair is added, and
built again or dropped after pairs were removed. At every moment it holds the first positions of the
keys of the current pairs (`DictData.Indexed`), so nothing that a dict answers depends on it
(`index_invisible`).

Byte buffers, functions and the handles of the standard library are a kind and an identity here;
what `==` says of two of them is a parameter.
-/

namespace ZzLang.Runtime

open FirstIndex

/-! ### Equality of values -/

section Eq

variable (H : HandleKind → ℕ → ℕ → Bool)

mutual

/-- `==` on values. -/
def Value.eq : Value → Value → Bool
  | .int a, .int b => a == b
  | .float a, .float b => a.ieeeEq b
  | .str a, .str b => a == b
  | .bool a, .bool b => a == b
  | .unit, .unit => true
  | .some a, .some b => a.eq b
  | .none, .none => true
  | .ok a, .ok b => a.eq b
  | .err a, .err b => a.eq b
  | .array a, .array b | .tuple a, .tuple b => Value.eqList a b
  | .dict a, .dict b => Value.eqEntries a b
  | .object n a, .object m b => n == m && Value.eqFields a b
  | .range a b c, .range a' b' c' => a == a' && b == b' && c == c'
  | .request a, .request b => a == b
  | .handle k i, .handle l j => k == l && H k i j
  | _, _ => false
termination_by structural a => a

def Value.eqList : List Value → List Value → Bool
  | [], [] => true
  | a :: as, b :: bs => a.eq b && Value.eqList as bs
  | _, _ => false
termination_by structural a => a

def Value.eqEntries : List (Value × Value) → List (Value × Value) → Bool
  | [], [] => true
  | (k, v) :: as, (l, w) :: bs => k.eq l && v.eq w && Value.eqEntries as bs
  | _, _ => false
termination_by structural a => a

def Value.eqFields : List (String × Value) → List (String × Value) → Bool
  | [], [] => true
  | (k, v) :: as, (l, w) :: bs => k == l && v.eq w && Value.eqFields as bs
  | _, _ => false
termination_by structural a => a

end

end Eq

/-- The keys that can be hashed. -/
inductive DictKey
  | int (i : Int64)
  | bool (b : Bool)
  | str (s : String)
  deriving DecidableEq

/-- The hashed form of a key, if it has one. -/
def DictKey.of : Value → Option DictKey
  | .int i => some (.int i)
  | .bool b => some (.bool b)
  | .str s => some (.str s)
  | _ => none

/-- The keys of a dict. -/
def valueKeys (H : HandleKind → ℕ → ℕ → Bool) : Keys Value DictKey where
  eq := Value.eq H
  of := DictKey.of
  eq_iff_of := by
    intro k d hk k'
    rcases k <;> simp only [DictKey.of, Option.some.injEq, reduceCtorEq] at hk <;> subst hk <;>
      rcases k' <;> simp [DictKey.of, Value.eq]

/-! ### The dict -/

/-- A dict: its pairs, and the index if there is one. -/
structure DictData where
  entries : List (Value × Value)
  index : Option (DictKey → Option ℕ)

namespace DictData

/-- Up to this many pairs a dict has no index. -/
def indexThreshold : ℕ := 8

def new : DictData := ⟨[], none⟩

/-- The loop that enters the pairs from position `i` on into an index: the first one stays. -/
def addPositions : ℕ → List (Value × Value) → (DictKey → Option ℕ) → DictKey → Option ℕ
  | _, [], index => index
  | i, (k, _) :: es, index =>
    match DictKey.of k with
    | some dk =>
      addPositions (i + 1) es
        (if (index dk).isSome then index else Function.update index dk (some i))
    | none => addPositions (i + 1) es index

def rebuildIndex (dict : DictData) : DictData :=
  { dict with index := some (addPositions 0 dict.entries fun _ => none) }

/-- Build the index once the dict has outgrown the threshold. -/
def ensureIndex (dict : DictData) : DictData :=
  if dict.index.isNone ∧ indexThreshold < dict.entries.length then dict.rebuildIndex else dict

def fromEntries (entries : List (Value × Value)) : DictData :=
  let dict : DictData := ⟨entries, none⟩
  if indexThreshold < dict.entries.length then dict.rebuildIndex else dict

/-- `from_iter`: the pairs of an iterator, collected. -/
def fromIter (pairs : List (Value × Value)) : DictData := fromEntries pairs

variable (H : HandleKind → ℕ → ℕ → Bool)

/-- Read a key; a position outside the pairs is a panic. -/
def get (dict : DictData) (key : Value) : Except Failure (Option Value) :=
  match dict.index, DictKey.of key with
  | some index, some dk =>
    match index dk with
    | some i =>
      match dict.entries[i]? with
      | some e => .ok (some e.2)
      | none => .error .panic
    | none => .ok none
  | _, _ => .ok ((dict.entries.find? fun e => e.1.eq H key).map Prod.snd)

/-- Set or add a pair by a walk over the pairs. -/
def insertLinear (dict : DictData) (key value : Value) : DictData :=
  match dict.entries.findIdx? fun e => e.1.eq H key with
  | some i => { dict with entries := dict.entries.modify i fun e => (e.1, value) }
  | none => ensureIndex { dict with entries := dict.entries ++ [(key, value)] }

/-- Write a key; the pair at an indexed position must have this key (a debug assertion). -/
def insert (dict : DictData) (key value : Value) : Except Failure DictData :=
  match DictKey.of key, dict.index with
  | some dk, some index =>
    match index dk with
    | some i =>
      match dict.entries[i]? with
      | some e =>
        if e.1.eq H key then .ok { dict with entries := dict.entries.set i (e.1, value) }
        else .error .panic
      | none => .error .panic
    | none =>
      .ok
        { entries := dict.entries ++ [(key, value)]
          index := some (Function.update index dk (some dict.entries.length)) }
  | _, _ => .ok (dict.insertLinear H key value)

/-- Keep the pairs that satisfy a predicate. -/
def retain (dict : DictData) (pred : Value × Value → Bool) : DictData :=
  let kept : DictData := { dict with entries := dict.entries.filter pred }
  if kept.index.isSome then
    if indexThreshold < kept.entries.length then kept.rebuildIndex else { kept with index := none }
  else kept

/-! ### The invariant -/

/-- The index is there exactly for long dicts, and holds the first positions. -/
structure Indexed (dict : DictData) : Prop where
  lazy : dict.index.isSome = true ↔ indexThreshold < dict.entries.length
  positions : ∀ index, dict.index = some index →
    ∀ dk, index dk = position DictKey.of dict.entries dk

theorem addPositions_eq (i : ℕ) (es : List (Value × Value)) (index : DictKey → Option ℕ)
    (dk : DictKey) : addPositions i es index dk =
      (index dk).or ((position DictKey.of es dk).map (· + i)) := by
  induction es generalizing i index with
  | nil => simp [addPositions, position]
  | cons e es ih =>
    obtain ⟨k, v⟩ := e
    have hrest : (position DictKey.of es dk).map (· + (i + 1)) =
        ((position DictKey.of es dk).map (· + 1)).map (· + i) := by
      rw [Option.map_map]
      congr 1
      funext n
      exact (Nat.add_right_comm n 1 i).symm
    have hcons : position DictKey.of ((k, v) :: es) dk = if DictKey.of k = some dk then some 0
        else (position DictKey.of es dk).map (· + 1) := by
      rw [position, List.findIdx?_cons, position]
      by_cases hk : DictKey.of k = some dk <;> simp [hk]
    rw [hcons, addPositions]
    rcases hof : DictKey.of k with _ | dk'
    · dsimp only
      rw [ih, hrest, if_neg (by simp)]
    · dsimp only
      rw [ih, hrest]
      by_cases hdk : dk' = dk
      · subst hdk
        rw [if_pos rfl]
        rcases hi : index dk' with _ | j <;> simp [hi]
      · rw [if_neg fun heq => hdk (Option.some.inj heq)]
        rcases hi : index dk' with _ | j
        · simp [Function.update_of_ne (Ne.symm hdk)]
        · simp

theorem positions_rebuildIndex {dict : DictData} (index : DictKey → Option ℕ)
    (h : dict.rebuildIndex.index = some index) (dk : DictKey) :
    index dk = position DictKey.of dict.entries dk := by
  obtain rfl : addPositions 0 dict.entries (fun _ => none) = index := Option.some.inj h
  rw [addPositions_eq]
  simp

theorem indexed_rebuildIndex {dict : DictData} (h : indexThreshold < dict.entries.length) :
    dict.rebuildIndex.Indexed where
  lazy := iff_of_true rfl h
  positions := positions_rebuildIndex

theorem indexed_of_short {dict : DictData} (hindex : dict.index = none)
    (h : ¬ indexThreshold < dict.entries.length) : dict.Indexed where
  lazy := by
    rw [hindex]
    exact iff_of_false Bool.false_ne_true h
  positions index hsome := by
    rw [hindex] at hsome
    cases hsome

theorem entries_fromEntries (entries : List (Value × Value)) :
    (fromEntries entries).entries = entries := by
  rw [fromEntries]
  split_ifs <;> rfl

theorem indexed_fromEntries (entries : List (Value × Value)) : (fromEntries entries).Indexed := by
  rw [fromEntries]
  split_ifs with h
  · exact indexed_rebuildIndex h
  · exact indexed_of_short rfl h

theorem indexed_new : new.Indexed :=
  indexed_of_short rfl (by decide)

theorem indexed_retain {dict : DictData} (h : dict.Indexed) (pred : Value × Value → Bool) :
    (dict.retain pred).Indexed := by
  rw [retain]
  have hle : (dict.entries.filter pred).length ≤ dict.entries.length := List.length_filter_le ..
  split_ifs with hsome hlong
  · exact indexed_rebuildIndex hlong
  · exact indexed_of_short rfl hlong
  · have hshort := h.lazy.not.mp hsome
    exact indexed_of_short (by simpa using hsome) fun hlt => hshort (Nat.lt_of_lt_of_le hlt hle)

theorem entries_retain (dict : DictData) (pred : Value × Value → Bool) :
    (dict.retain pred).entries = dict.entries.filter pred := by
  rw [retain]
  split_ifs <;> rfl

theorem entries_ensureIndex (dict : DictData) : dict.ensureIndex.entries = dict.entries := by
  rw [ensureIndex]
  split_ifs <;> rfl

theorem indexed_ensureIndex {dict : DictData}
    (h : dict.index = none ∨ dict.Indexed) : dict.ensureIndex.Indexed := by
  rw [ensureIndex]
  split_ifs with hgrow
  · exact indexed_rebuildIndex hgrow.2
  · rcases h with hnone | h
    · exact indexed_of_short hnone fun hlong => hgrow ⟨by simp [hnone], hlong⟩
    · exact h

/-! ### One operation -/

variable {H} {dict : DictData}

/-- **Reading a key**: what the first pair with this key holds. -/
theorem get_eq (h : dict.Indexed) (key : Value) :
    dict.get H key = .ok (lookup (valueKeys H) dict.entries key) := by
  rw [get]
  rcases hindex : dict.index with _ | index
  · rfl
  rcases hof : DictKey.of key with _ | dk
  · rfl
  have hpos := h.positions index hindex dk
  have hkey : (valueKeys H).of key = some dk := hof
  rw [lookup_eq_position hkey]
  change _ = Except.ok ((position DictKey.of dict.entries dk).bind _)
  dsimp only
  rw [hpos]
  rcases hi : position DictKey.of dict.entries dk with _ | i
  · rfl
  · have hlt := position_lt hi
    simp [List.getElem?_eq_getElem hlt]

theorem entries_insertLinear (key value : Value) : (dict.insertLinear H key value).entries =
    store (valueKeys H) dict.entries key value := by
  have hstore (es : List (Value × Value)) : store (valueKeys H) es key value =
      match es.findIdx? fun e => e.1.eq H key with
      | some i => es.modify i fun e => (e.1, value)
      | none => es ++ [(key, value)] := by
    induction es with
    | nil => rfl
    | cons e es ih =>
      rw [store, ih, List.findIdx?_cons]
      change (if e.1.eq H key = true then _ else _) = _
      rcases e.1.eq H key with _ | _
      · rw [if_neg Bool.false_ne_true, if_neg Bool.false_ne_true]
        cases List.findIdx? (fun e => e.1.eq H key) es <;> rfl
      · rfl
  rw [insertLinear, hstore]
  cases dict.entries.findIdx? fun e => e.1.eq H key with
  | none => exact entries_ensureIndex _
  | some i => rfl

/-- A key that is not hashed, or a dict without an index. -/
theorem indexed_insertLinear (h : dict.Indexed) {key : Value} (value : Value)
    (hlane : DictKey.of key = none ∨ dict.index = none) :
    (dict.insertLinear H key value).Indexed := by
  rw [insertLinear]
  cases dict.entries.findIdx? fun e => e.1.eq H key with
  | none =>
    refine indexed_ensureIndex ?_
    rcases hindex : dict.index with _ | index
    · exact .inl rfl
    · refine .inr ⟨?_, fun index' hindex' dk => ?_⟩
      · have hlong := h.lazy.mp (by rw [hindex]; rfl)
        exact iff_of_true rfl (by rw [List.length_append]; exact Nat.lt_add_right _ hlong)
      · -- the new pair has no hashed key
        obtain rfl : index = index' := Option.some.inj hindex'
        have hof : DictKey.of key = none := hlane.resolve_right (by rw [hindex]; exact nofun)
        have hnew : ¬ DictKey.of key = some dk := by simp [hof]
        rw [h.positions index hindex dk, position_append_singleton, if_neg hnew, Option.or_none]
  | some i =>
    have hkeys : (dict.entries.modify i fun e => (e.1, value)).map Prod.fst =
        dict.entries.map Prod.fst := by
      refine List.ext_getElem (by simp) fun j _ _ => ?_
      rw [List.getElem_map, List.getElem_map, List.getElem_modify]
      split_ifs <;> rfl
    refine ⟨?_, fun index hindex dk => ?_⟩
    · rw [List.length_modify]
      exact h.lazy
    · rw [position_congr hkeys]
      exact h.positions index hindex dk

/-- **Writing a key**: the first pair with this key gets the value, or a pair is added. -/
theorem insert_spec (h : dict.Indexed) (key value : Value) :
    ∃ dict', dict.insert H key value = .ok dict' ∧ dict'.Indexed ∧
      dict'.entries = store (valueKeys H) dict.entries key value := by
  rw [insert]
  rcases hof : DictKey.of key with _ | dk
  · exact ⟨_, rfl, indexed_insertLinear h value (.inl hof), entries_insertLinear key value⟩
  rcases hindex : dict.index with _ | index
  · exact ⟨_, rfl, indexed_insertLinear h value (.inr hindex), entries_insertLinear key value⟩
  have hpos := h.positions index hindex dk
  have hhashed : (valueKeys H).of key = some dk := hof
  dsimp only
  rw [hpos]
  have hlong := h.lazy.mp (by rw [hindex]; rfl)
  rcases hi : position DictKey.of dict.entries dk with _ | i
  · refine ⟨_, rfl, ⟨?_, fun index' hindex' dk' => ?_⟩,
      (store_of_position_none hhashed hi value).symm⟩
    · exact iff_of_true rfl (by rw [List.length_append]; exact Nat.lt_add_right _ hlong)
    · obtain rfl := Option.some.inj hindex'
      rw [position_append_singleton]
      by_cases hdk : dk' = dk
      · subst hdk
        rw [Function.update_self, hi, if_pos hof]
        rfl
      · have hnew : ¬ DictKey.of key = some dk' := by
          rw [hof]
          exact fun heq => hdk (Option.some.inj heq).symm
        rw [Function.update_of_ne hdk, if_neg hnew, Option.or_none]
        exact h.positions index hindex dk'
  · have hlt := position_lt hi
    have hkey : dict.entries[i].1.eq H key = true := by
      refine ((valueKeys H).eq_iff_of hof _).mpr ?_
      exact of_decide_eq_true (List.findIdx?_eq_some_iff_getElem.mp hi).2.1
    obtain ⟨k', hk', hstore⟩ := store_of_position_some hhashed hi value
    dsimp only
    rw [List.getElem?_eq_getElem hlt] at hk' ⊢
    obtain rfl : dict.entries[i].1 = k' := Option.some.inj hk'
    refine ⟨_, if_pos hkey, ⟨?_, fun index' hindex' dk' => ?_⟩, hstore.symm⟩
    · rw [List.length_set]
      exact iff_of_true rfl hlong
    · obtain rfl : index = index' := Option.some.inj hindex'
      rw [h.positions index hindex dk']
      refine position_congr ?_
      refine List.ext_getElem (by simp) fun j _ _ => ?_
      rw [List.getElem_map, List.getElem_map, List.getElem_set]
      split_ifs with hj
      · subst hj
        rfl
      · rfl

end DictData

/-! ### Runs -/

/-- The operations that change a dict. -/
inductive DictOp
  | insert (key value : Value)
  | retain (pred : Value × Value → Bool)

/-- How a dict is made. -/
inductive DictStart
  | new
  | fromEntries (entries : List (Value × Value))
  | fromIter (pairs : List (Value × Value))

def DictStart.dict : DictStart → DictData
  | new => .new
  | fromEntries entries => .fromEntries entries
  | fromIter pairs => .fromIter pairs

/-- The pairs a dict starts with. -/
def DictStart.pairs : DictStart → List (Value × Value)
  | new => []
  | fromEntries entries => entries
  | fromIter pairs => pairs

variable (H : HandleKind → ℕ → ℕ → Bool)

def DictOp.run (dict : DictData) : DictOp → Except Failure DictData
  | insert key value => dict.insert H key value
  | retain pred => .ok (dict.retain pred)

/-- The operation on a plain list of pairs. -/
def DictOp.plain (entries : List (Value × Value)) : DictOp → List (Value × Value)
  | insert key value => store (valueKeys H) entries key value
  | retain pred => entries.filter pred

/-- One operation after another. -/
def runDict : DictData → List DictOp → Except Failure DictData
  | dict, [] => .ok dict
  | dict, op :: ops => do runDict (← op.run H dict) ops

variable {H}

theorem DictOp.run_spec {dict : DictData} (h : dict.Indexed) (op : DictOp) :
    ∃ dict', op.run H dict = .ok dict' ∧ dict'.Indexed ∧ dict'.entries = op.plain H dict.entries := by
  cases op with
  | insert key value => exact DictData.insert_spec h key value
  | retain pred =>
    exact ⟨_, rfl, DictData.indexed_retain h pred, DictData.entries_retain dict pred⟩

theorem runDict_spec (ops : List DictOp) {dict : DictData} (h : dict.Indexed) :
    ∃ dict', runDict H dict ops = .ok dict' ∧ dict'.Indexed ∧
      dict'.entries = ops.foldl (DictOp.plain H) dict.entries := by
  induction ops generalizing dict with
  | nil => exact ⟨dict, rfl, h, rfl⟩
  | cons op ops ih =>
    obtain ⟨next, hrun, hnext, hentries⟩ := op.run_spec (H := H) h
    obtain ⟨dict', hrest, hdict', heq⟩ := ih hnext
    refine ⟨dict', ?_, hdict', by rw [heq, hentries]; rfl⟩
    rw [runDict, hrun]
    exact hrest

theorem DictStart.spec (start : DictStart) :
    start.dict.Indexed ∧ start.dict.entries = start.pairs := by
  cases start with
  | new => exact ⟨DictData.indexed_new, rfl⟩
  | fromEntries entries =>
    exact ⟨DictData.indexed_fromEntries entries, DictData.entries_fromEntries entries⟩
  | fromIter pairs => exact ⟨DictData.indexed_fromEntries pairs, DictData.entries_fromEntries pairs⟩

end ZzLang.Runtime
