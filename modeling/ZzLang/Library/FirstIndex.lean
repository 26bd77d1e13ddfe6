import Mathlib.Data.List.Basic
import Mathlib.Logic.Function.Basic

/-!
# An index of first occurrences

A list of pairs is a map when a key means the first pair whose key equals it. Looking a key up takes
a walk over the list. An index makes it shorter for the keys that can be hashed: it maps a hashed
key to the position of the first pair with that key.

Keys need not have a lawful equality. What is asked of the hashed form is that a key that has one
equals exactly the keys with the same hashed form (`Keys.eq_iff_of`); the other keys may equal
anything else or nothing, not even themselves.
-/

namespace FirstIndex

/-- The comparison of keys, and the hashed form of those that have one. -/
structure Keys (K D : Type) where
  eq : K → K → Bool
  of : K → Option D
  eq_iff_of : ∀ {k : K} {d : D}, of k = some d → ∀ k', eq k' k = true ↔ of k' = some d

variable {K V D : Type} (keys : Keys K D)

/-! ### Lists as maps -/

/-- The value of the first pair whose key equals `k`. -/
def lookup (es : List (K × V)) (k : K) : Option V :=
  (es.find? fun e => keys.eq e.1 k).map Prod.snd

/-- Set the value of the first pair whose key equals `k`, or add a pair at the end. -/
def store : List (K × V) → K → V → List (K × V)
  | [], k, v => [(k, v)]
  | e :: es, k, v => if keys.eq e.1 k then (e.1, v) :: es else e :: store es k v

variable {keys}

theorem store_of_forall_not {es : List (K × V)} {k : K} (v : V)
    (h : ∀ e ∈ es, keys.eq e.1 k = false) : store keys es k v = es ++ [(k, v)] := by
  induction es with
  | nil => rfl
  | cons e es ih =>
    rw [store, h e List.mem_cons_self, if_neg Bool.false_ne_true,
      ih fun e' he' => h e' (List.mem_cons_of_mem e he'), List.cons_append]

/-- No pair has the key of an earlier one. -/
def Distinct (keys : Keys K D) (es : List (K × V)) : Prop :=
  es.Pairwise fun e f => keys.eq e.1 f.1 = false

/-- Setting the keys of a list with distinct keys one after another gives the list. -/
theorem foldl_store_of_distinct {acc es : List (K × V)} (h : Distinct keys (acc ++ es)) :
    es.foldl (fun out e => store keys out e.1 e.2) acc = acc ++ es := by
  induction es generalizing acc with
  | nil => simp
  | cons e es ih =>
    have hnew : ∀ f ∈ acc, keys.eq f.1 e.1 = false := fun f hf =>
      (List.pairwise_append.mp h).2.2 f hf e List.mem_cons_self
    rw [List.foldl_cons, store_of_forall_not e.2 hnew, ih, List.append_assoc]
    · rfl
    · rwa [List.append_assoc]

/-! ### Keys of another kind -/

section Map

variable {K' V' D' : Type} {keys' : Keys K' D'} {f : K → K'} {g : V → V'} {es : List (K × V)} {k : K}

theorem lookup_map (h : ∀ e ∈ es, keys'.eq (f e.1) (f k) = keys.eq e.1 k) :
    lookup keys' (es.map fun e => (f e.1, g e.2)) (f k) = (lookup keys es k).map g := by
  induction es with
  | nil => rfl
  | cons e es ih =>
    obtain ⟨he, hes⟩ := List.forall_mem_cons.mp h
    have hrest := ih hes
    simp only [lookup, List.map_cons, List.find?_cons, he] at hrest ⊢
    rcases keys.eq e.1 k with _ | _
    · exact hrest
    · rfl

theorem store_map (v : V) (h : ∀ e ∈ es, keys'.eq (f e.1) (f k) = keys.eq e.1 k) :
    store keys' (es.map fun e => (f e.1, g e.2)) (f k) (g v) =
      (store keys es k v).map fun e => (f e.1, g e.2) := by
  induction es with
  | nil => rfl
  | cons e es ih =>
    obtain ⟨he, hes⟩ := List.forall_mem_cons.mp h
    simp only [List.map_cons, store, he, ih hes]
    rcases keys.eq e.1 k with _ | _ <;> rfl

end Map

/-- A pair of the list after a store has a key of the list, or the key that was set. -/
theorem mem_store {es : List (K × V)} {k : K} {v : V} {e : K × V} (h : e ∈ store keys es k v) :
    e.1 = k ∨ ∃ e' ∈ es, e'.1 = e.1 := by
  induction es with
  | nil => exact .inl (congrArg Prod.fst (List.mem_singleton.mp h))
  | cons e' es ih =>
    rw [store] at h
    split_ifs at h
    · obtain rfl | h := List.mem_cons.mp h
      · exact .inr ⟨e', List.mem_cons_self, rfl⟩
      · exact .inr ⟨e, List.mem_cons_of_mem e' h, rfl⟩
    · obtain rfl | h := List.mem_cons.mp h
      · exact .inr ⟨e, List.mem_cons_self, rfl⟩
      · exact (ih h).imp_right fun ⟨f, hf, hfe⟩ => ⟨f, List.mem_cons_of_mem e' hf, hfe⟩

/-- A list does not get shorter. -/
theorem length_le_length_store (es : List (K × V)) (k : K) (v : V) :
    es.length ≤ (store keys es k v).length := by
  induction es with
  | nil => exact Nat.zero_le _
  | cons e es ih =>
    rw [store]
    split_ifs
    · exact Nat.le_refl _
    · exact Nat.succ_le_succ ih

/-! ### First positions -/

/-- The position of the first pair with hashed key `d`. -/
def position (of : K → Option D) (es : List (K × V)) (d : D) [DecidableEq D] : Option ℕ :=
  es.findIdx? fun e => of e.1 = some d

variable [DecidableEq D] {es : List (K × V)} {k : K} {d : D}

theorem position_lt {of : K → Option D} {i : ℕ} (h : position of es d = some i) :
    i < es.length :=
  (List.findIdx?_eq_some_iff_getElem.mp h).1

/-- The pairs with a key that can be hashed are found by its hashed form. -/
theorem eq_eq_of (hk : keys.of k = some d) (e : K × V) :
    keys.eq e.1 k = decide (keys.of e.1 = some d) := by
  rw [Bool.eq_iff_iff, keys.eq_iff_of hk, decide_eq_true_iff]

theorem lookup_eq_position (hk : keys.of k = some d) :
    lookup keys es k = (position keys.of es d).bind fun i => es[i]?.map Prod.snd := by
  have hp : (fun e : K × V => keys.eq e.1 k) = fun e => decide (keys.of e.1 = some d) :=
    funext fun e => eq_eq_of hk e
  rw [lookup, position, hp, List.find?_eq_bind_findIdx?_getElem?, Option.map_bind]
  rfl

/-- A key at a known first position is set there. -/
theorem store_of_position_some (hk : keys.of k = some d) {i : ℕ}
    (hi : position keys.of es d = some i) (v : V) :
    ∃ k', es[i]?.map Prod.fst = some k' ∧ store keys es k v = es.set i (k', v) := by
  induction es generalizing i with
  | nil => cases hi
  | cons e es ih =>
    rw [position, List.findIdx?_cons] at hi
    rw [store, eq_eq_of hk]
    rcases hdec : decide (keys.of e.1 = some d) with _ | _
    · rw [hdec] at hi
      obtain ⟨j, hj, rfl⟩ : ∃ j, position keys.of es d = some j ∧ j + 1 = i := by
        simpa [position] using hi
      obtain ⟨k', hk', hset⟩ := ih hj
      exact ⟨k', by simpa using hk', by simp [hset]⟩
    · rw [hdec] at hi
      obtain rfl : 0 = i := Option.some.inj hi
      exact ⟨e.1, rfl, rfl⟩

/-- A key without a position is added at the end. -/
theorem store_of_position_none (hk : keys.of k = some d) (hnone : position keys.of es d = none)
    (v : V) : store keys es k v = es ++ [(k, v)] := by
  refine store_of_forall_not v fun e he => ?_
  rw [eq_eq_of hk]
  exact List.findIdx?_eq_none_iff.mp hnone e he

theorem position_append_singleton {of : K → Option D} (e : K × V) :
    position of (es ++ [e]) d =
      (position of es d).or (if of e.1 = some d then some es.length else none) := by
  rw [position, List.findIdx?_append, List.findIdx?_singleton, position]
  by_cases he : of e.1 = some d <;> simp [he]

/-- Positions depend on the keys only. -/
theorem position_congr {of : K → Option D} {es' : List (K × V)}
    (h : es.map Prod.fst = es'.map Prod.fst) : position of es d = position of es' d := by
  have hkeys (l : List (K × V)) : position of l d =
      (l.map Prod.fst).findIdx? fun k => of k = some d := by
    rw [position, List.findIdx?_map]
    rfl
  rw [hkeys, hkeys, h]

end FirstIndex
