import ZzLang.Aot.Dict

/-!
# The table of a dict is invisible

The table of a dict is a power of two long, at most three quarters of its slots are filled, and it
is a table of all the entries with a hashed key (`Table`). So a search ends, and it ends at the one
entry with the key, if there is one: looking a key up is a walk over the entries (`find_eq`).

Entries with a key that is not hashed come without a look at the load of the table, so a table can
be far smaller than the number of entries. The load is a matter of the hashed ones, and of these
only one comes at a time: doubling the table once is always enough.
-/

namespace ZzLang.Aot

open LinearProbing FirstIndex

/-! ### Hashed keys -/

/-- The keys that are hashed. -/
inductive NativeKey
  | int (i : ℤ)
  | bool (b : Bool)
  | str (bytes : List UInt8)
  deriving DecidableEq

/-- The hashed form of a key, if it has one. -/
def NativeKey.of : Value → Option NativeKey
  | .scalar (.int i) => some (.int i)
  | .scalar (.bool b) => some (.bool b)
  | .str _ bytes => some (.str bytes)
  | _ => none

/-- The hash of a hashed key. -/
def NativeKey.hash : NativeKey → ℕ
  | int i => (splitmix (.ofInt i)).toNat
  | bool b => (splitmix (if b then 1 else 0)).toNat
  | str bytes => (splitmix (fnv bytes)).toNat

theorem dictKeyHash_eq (v : Value) : dictKeyHash v = (NativeKey.of v).map NativeKey.hash := by
  rcases v with s | t | ⟨m, b⟩ | ⟨m, items⟩ | ⟨m, es⟩ | ⟨t, fs⟩ | ⟨t, p⟩
  case scalar => cases s <;> rfl
  all_goals rfl

theorem keyEq_iff_of {k : Value} {d : NativeKey} (hk : NativeKey.of k = some d) (k' : Value) :
    keyEq k' k = true ↔ NativeKey.of k' = some d := by
  rcases k with s | t | ⟨m, b⟩ | ⟨m, items⟩ | ⟨m, es⟩ | ⟨t, fs⟩ | ⟨t, p⟩
  case scalar =>
    rcases s with _ | _ | b | i | x | w | r | q <;> try cases hk
    all_goals
      rcases k' with s' | t' | ⟨m', b'⟩ | ⟨m', items'⟩ | ⟨m', es'⟩ | ⟨t', fs'⟩ | ⟨t', p'⟩
      case scalar =>
        cases s' <;> simp [keyEq, Value.tag, Scalar.tag, NativeKey.of, valuesEqual, Scalar.equal]
      all_goals simp [keyEq, Value.tag, Scalar.tag, NativeKey.of]
  case str =>
    obtain rfl : NativeKey.str b = d := Option.some.inj hk
    rcases k' with s' | t' | ⟨m', b'⟩ | ⟨m', items'⟩ | ⟨m', es'⟩ | ⟨t', fs'⟩ | ⟨t', p'⟩
    case scalar => cases s' <;> simp [keyEq, Value.tag, Scalar.tag, NativeKey.of]
    all_goals simp [keyEq, Value.tag, NativeKey.of, valuesEqual]
  all_goals cases hk

/-- The keys of dicts: those that are hashed equal exactly the keys with the same hashed form. -/
def nativeKeys : Keys Value NativeKey where
  eq := keyEq
  of := NativeKey.of
  eq_iff_of := keyEq_iff_of

/-! ### Tables -/

/-- The hash of the key of an entry. -/
def home (es : List (Value × Value)) (j : ℕ) : Option ℕ :=
  es[j]?.bind fun e => dictKeyHash e.1

/-- How many of the first entries have a hashed key. -/
def hashed (es : List (Value × Value)) (n : ℕ) : ℕ :=
  (List.range n).countP fun j => (home es j).isSome

/-- **The table** of the first `n` entries. -/
structure Table (es : List (Value × Value)) (slots : List ℕ) (n : ℕ) : Prop where
  pow : ∃ e, 2 ≤ e ∧ slots.length = 2 ^ e
  linked : Linked (home es) slots n
  load : hashed es n * 4 ≤ slots.length * 3

variable {es : List (Value × Value)} {slots : List ℕ} {key : Value} {h n : ℕ}

theorem hashed_succ (es : List (Value × Value)) (n : ℕ) :
    hashed es (n + 1) = hashed es n + if (home es n).isSome then 1 else 0 := by
  rw [hashed, List.range_succ, List.countP_append, List.countP_singleton, hashed]

theorem hashed_mono (es : List (Value × Value)) {m : ℕ} (hmn : m ≤ n) :
    hashed es m ≤ hashed es n :=
  List.Sublist.countP_le (List.range_sublist.mpr hmn)

theorem hashed_le (es : List (Value × Value)) (n : ℕ) : hashed es n ≤ n := by
  have := List.countP_le_length (p := fun j => (home es j).isSome) (l := List.range n)
  rwa [List.length_range] at this

theorem Table.pos (T : Table es slots n) : 4 ≤ slots.length := by
  obtain ⟨e, he, hlen⟩ := T.pow
  rw [hlen]
  exact Nat.pow_le_pow_right (n := 2) (by decide) he

/-- There is always an empty slot. -/
theorem Table.zero_mem (T : Table es slots n) : 0 ∈ slots := by
  have hload := T.load
  have hpos := T.pos
  exact T.linked.zero_mem (by rw [← hashed]; omega)

theorem keyEq_of_home {e : Value × Value} {v : ℕ} (hv : es[v]? = some e)
    (hk : dictKeyHash key = some h) (heq : keyEq e.1 key = true) : home es v = some h := by
  rw [dictKeyHash_eq] at hk
  obtain ⟨d, hd, rfl⟩ := Option.map_eq_some_iff.mp hk
  rw [home, hv, Option.bind_some, dictKeyHash_eq, (keyEq_iff_of hd _).mp heq, Option.map_some]

/-- **The probe loop ends**, at an empty slot when no entry of the table has the key, and else at a
slot that names one. -/
theorem Table.probe_spec (T : Table es slots n) (hn : n ≤ es.length)
    (hk : dictKeyHash key = some h) :
    ∃ i < slots.length, dictProbe es slots h key = some (LinearProbing.place slots h i) ∧
      (∀ j < i, slots.getD (LinearProbing.place slots h j) 0 ≠ 0) ∧
      (slots.getD (LinearProbing.place slots h i) 0 = 0 ∧
          (∀ v < n, ∀ e, es[v]? = some e → keyEq e.1 key = false) ∨
        ∃ v < n, slots.getD (LinearProbing.place slots h i) 0 = v + 1 ∧
          ∃ e, es[v]? = some e ∧ keyEq e.1 key = true) := by
  obtain ⟨b, -, hlen⟩ := T.pow
  have hmask (x : ℕ) : x &&& (slots.length - 1) = x % slots.length := by
    rw [hlen, Nat.and_two_pow_sub_one_eq_mod]
  obtain ⟨i, hi, hprobe, hway, hend⟩ := @LinearProbing.Linked.search slots
    (fun j => (es[j]?.map fun e => keyEq e.1 key).getD false) h n _ T.linked T.zero_mem
    fun v hv hhit => by
      have hget := List.getElem?_eq_getElem (Nat.lt_of_lt_of_le hv hn)
      rw [hget] at hhit
      exact keyEq_of_home hget hk hhit
  refine ⟨i, hi, ?_, hway, ?_⟩
  · rw [dictProbe]
    simp only [hmask]
    exact hprobe
  · refine hend.imp (And.imp_right fun hnone v hv e he => ?_) ?_
    · have := hnone v hv
      rwa [he] at this
    · rintro ⟨v, hv, hslot, hhit⟩
      have hget := List.getElem?_eq_getElem (Nat.lt_of_lt_of_le hv hn)
      rw [hget] at hhit
      exact ⟨v, hv, hslot, _, hget, hhit⟩

theorem distinct_getElem? (hd : DistinctKeys es) {i j : ℕ} {e f : Value × Value} (hij : i < j)
    (hi : es[i]? = some e) (hj : es[j]? = some f) : keyEq e.1 f.1 = false := by
  obtain ⟨hi', rfl⟩ := List.getElem?_eq_some_iff.mp hi
  obtain ⟨hj', rfl⟩ := List.getElem?_eq_some_iff.mp hj
  exact List.pairwise_iff_getElem.mp hd i j hi' hj' hij

/-- **Placing the next entry** into the table, with room for it. -/
theorem Table.place_spec (T : Table es slots n) (hd : DistinctKeys es) (hn : n < es.length)
    (hroom : hashed es (n + 1) * 4 ≤ slots.length * 3) :
    ∃ slots', dictIdxPlace es slots n = some slots' ∧ slots'.length = slots.length ∧
      Table es slots' (n + 1) := by
  have hget := List.getElem?_eq_getElem hn
  rcases hk : dictKeyHash es[n].1 with _ | h
  · have hhome : home es n = none := by rw [home, hget, Option.bind_some, hk]
    refine ⟨slots, ?_, rfl, T.pow, T.linked.skip hhome, hroom⟩
    simp only [dictIdxPlace, hget, hk]
  · have hhome : home es n = some h := by rw [home, hget, Option.bind_some, hk]
    obtain ⟨i, hi, hprobe, hway, ⟨hempty, -⟩ | ⟨v, hv, -, e, he, heq⟩⟩ :=
      T.probe_spec (Nat.le_of_lt hn) hk
    · refine ⟨slots.set (LinearProbing.place slots h i) (n + 1), ?_, List.length_set .., ?_,
        T.linked.place hhome hi hempty hway, ?_⟩
      · simp only [dictIdxPlace, hget, hk, hprobe, Option.map_some, hempty, if_pos]
      · rw [List.length_set]
        exact T.pow
      · rw [List.length_set]
        exact hroom
    · rw [distinct_getElem? hd hv he hget] at heq
      cases heq

/-- **Building a table** that is large enough for the entries with a hashed key. -/
theorem fill_spec (hd : DistinctKeys es) {b : ℕ} (hb : 2 ≤ b)
    (hroom : hashed es es.length * 4 ≤ 2 ^ b * 3) :
    ∃ slots, dictIdxFill es (2 ^ b) = some slots ∧ Table es slots es.length := by
  have hprefix : ∀ k ≤ es.length, ∃ slots,
      (List.range k).foldlM (dictIdxPlace es) (List.replicate (2 ^ b) 0) = some slots ∧
        slots.length = 2 ^ b ∧ Table es slots k := by
    intro k
    induction k with
    | zero =>
      intro _
      refine ⟨_, rfl, List.length_replicate, ⟨b, hb, List.length_replicate⟩, linked_empty _ _, ?_⟩
      exact Nat.zero_le _
    | succ k ih =>
      intro hk
      obtain ⟨slots, hfold, hlen, T⟩ := ih (Nat.le_of_succ_le hk)
      have hload : hashed es (k + 1) * 4 ≤ slots.length * 3 := by
        have := hashed_mono es hk
        omega
      obtain ⟨slots', hplace, hlen', T'⟩ := T.place_spec hd hk hload
      refine ⟨slots', ?_, hlen'.trans hlen, T'⟩
      rw [List.range_succ, List.foldlM_append, hfold]
      simp [hplace]
  obtain ⟨slots, hfill, -, T⟩ := hprefix es.length le_rfl
  exact ⟨slots, hfill, T⟩

/-! ### The size of a table -/

theorem dictCapLoop_spec (len cap : ℕ) (hcap : 0 < cap) {b : ℕ} (hb : 2 ≤ b) (hpow : cap = 2 ^ b) :
    ∃ c, 2 ≤ c ∧ dictCapLoop len cap hcap = 2 ^ c ∧ len * 4 ≤ 2 ^ c * 3 := by
  induction cap, hcap using dictCapLoop.induct len generalizing b with
  | case1 cap hcap hlt ih =>
    rw [dictCapLoop, if_pos hlt]
    exact ih (Nat.le_succ_of_le hb) (by rw [hpow, Nat.shiftLeft_eq, pow_one, Nat.pow_succ])
  | case2 cap hcap hge =>
    rw [dictCapLoop, if_neg hge]
    refine ⟨b, hb, hpow, ?_⟩
    obtain ⟨c, rfl⟩ : ∃ c, b = c + 2 := ⟨b - 2, by omega⟩
    rw [Nat.shiftRight_eq_div_pow] at hge
    rw [← hpow]
    have : cap = 2 ^ c * 4 := by rw [hpow, Nat.pow_add]
    omega

/-- The table for a number of entries is a power of two long, and three quarters of it hold them. -/
theorem dictCapFor_spec (len : ℕ) :
    ∃ c, 2 ≤ c ∧ dictCapFor len = 2 ^ c ∧ len * 4 ≤ 2 ^ c * 3 :=
  dictCapLoop_spec len 16 (by decide) (b := 4) (by decide) (by decide)

/-! ### Dicts -/

/-- **The invariant of a dict**: its keys are distinct, its entries well formed, and its table, if
it has one, is the table of all its entries. A buffer of fixed capacity holds its entries. -/
structure Dict.Valid (d : Dict) : Prop where
  distinct : DistinctKeys d.entries
  parts : ∀ e ∈ d.entries, e.1.WellFormed ∧ e.2.WellFormed
  table : ∀ slots, d.idx = some slots → Table d.entries slots d.entries.length
  fits : d.mem = .sized → d.entries.length ≤ d.cap

variable {d : Dict}

/-- **Looking a key up** is a walk over the entries. -/
theorem Dict.Valid.find_eq (V : d.Valid) (key : Value) :
    d.find key = some (dictFind d.entries key) := by
  rw [Dict.find]
  rcases hidx : d.idx with _ | slots
  · rfl
  rcases hk : dictKeyHash key with _ | h
  · rfl
  obtain ⟨i, -, hprobe, -, ⟨hempty, hnone⟩ | ⟨v, hv, hslot, e, he, heq⟩⟩ :=
    (V.table slots hidx).probe_spec le_rfl hk
  · have hfind : dictFind d.entries key = none := by
      refine dictFind_eq_none.mpr fun e he => ?_
      obtain ⟨v, hv, rfl⟩ := List.getElem_of_mem he
      exact hnone v hv _ (List.getElem?_eq_getElem hv)
    simp only [hprobe, Option.map_some, hempty, hfind]
  · have hfind : dictFind d.entries key = some v := by
      obtain ⟨hlt, rfl⟩ := List.getElem?_eq_some_iff.mp he
      refine List.findIdx?_eq_some_iff_getElem.mpr ⟨hlt, heq, fun j hj hj' => ?_⟩
      -- an earlier entry with the key would have the key of this one
      rw [dictKeyHash_eq] at hk
      obtain ⟨dk, hdk, -⟩ := Option.map_eq_some_iff.mp hk
      have hsame := (keyEq_iff_of ((keyEq_iff_of hdk _).mp heq) _).mpr ((keyEq_iff_of hdk _).mp hj')
      rw [distinct_getElem? V.distinct hj (List.getElem?_eq_getElem (Nat.lt_trans hj hlt))
        (List.getElem?_eq_getElem hlt)] at hsame
      cases hsame
    simp only [hprobe, Option.map_some, hslot, hfind]

/-- The table of the entries before the last is one of all but the last. -/
theorem Table.append (T : Table es slots es.length) (e : Value × Value) :
    Table (es ++ [e]) slots es.length := by
  have hhome : ∀ v < es.length, home (es ++ [e]) v = home es v := fun v hv => by
    rw [home, home, List.getElem?_append_left hv]
  refine ⟨T.pow, T.linked.congr hhome, ?_⟩
  have hsame : hashed (es ++ [e]) es.length = hashed es es.length := by
    rw [hashed, hashed]
    exact List.countP_congr fun v hv => by rw [hhome v (List.mem_range.mp hv)]
  rw [hsame]
  exact T.load

/-- **The table after a new entry**, whatever becomes of it. -/
theorem idxInsert_spec {cap : ℕ} {mem : DictMem} {idx : Option (List ℕ)} {e : Value × Value}
    (hd : DistinctKeys (es ++ [e]))
    (htable : ∀ slots, idx = some slots → Table es slots es.length) :
    ∃ idx', Dict.idxInsert ⟨mem, es ++ [e], cap, idx⟩ es.length =
        some ⟨mem, es ++ [e], cap, idx'⟩ ∧
      ∀ slots, idx' = some slots → Table (es ++ [e]) slots (es ++ [e]).length := by
  have hlen : (es ++ [e]).length = es.length + 1 := by simp
  have hlast : home (es ++ [e]) es.length = dictKeyHash e.1 := by simp [home]
  have hgrow : hashed (es ++ [e]) (es ++ [e]).length ≤ hashed (es ++ [e]) es.length + 1 := by
    rw [hlen, hashed_succ]
    split_ifs <;> omega
  rcases hk : dictKeyHash e.1 with _ | h
  · have hkey : (es ++ [e])[es.length]?.bind (fun e => dictKeyHash e.1) = none := hlast.trans hk
    refine ⟨idx, by simp only [Dict.idxInsert, hkey], fun slots hs => ?_⟩
    have T := (htable slots hs).append e
    rw [hlen]
    refine ⟨T.pow, T.linked.skip (hlast.trans hk), ?_⟩
    rw [hashed_succ, hlast, hk]
    exact T.load
  have hkey : (es ++ [e])[es.length]?.bind (fun e => dictKeyHash e.1) = some h := hlast.trans hk
  rcases idx with _ | slots
  · simp only [Dict.idxInsert, hkey]
    split_ifs with hsmall
    · exact ⟨none, rfl, nofun⟩
    · obtain ⟨c, hc, hcap, hroom⟩ := dictCapFor_spec (es ++ [e]).length
      have hload := hashed_le (es ++ [e]) (es ++ [e]).length
      obtain ⟨slots, hfill, T⟩ := fill_spec hd hc (by omega)
      refine ⟨some slots, ?_, fun slots' hs => Option.some.inj hs ▸ T⟩
      rw [Dict.idxBuild, hcap, if_neg (Nat.two_pow_pos c).ne', hfill]
      rfl
  · have T := (htable slots rfl).append e
    simp only [Dict.idxInsert, hkey]
    split_ifs with hfull hmem
    · exact ⟨none, rfl, nofun⟩
    · -- only the entries with a hashed key count, and only the last is new among them
      obtain ⟨b, hb, hpow⟩ := T.pow
      have hload := T.load
      have hpos := T.pos
      have hdouble : slots.length <<< 1 = 2 ^ (b + 1) := by
        rw [hpow, Nat.shiftLeft_eq, pow_one, Nat.pow_succ]
      obtain ⟨slots', hfill, T'⟩ := fill_spec hd (b := b + 1) (Nat.le_succ_of_le hb)
        (by rw [Nat.pow_succ, ← hpow]; omega)
      refine ⟨some slots', ?_, fun slots'' hs => Option.some.inj hs ▸ T'⟩
      rw [hdouble, hfill]
      rfl
    · have hload : hashed (es ++ [e]) (es.length + 1) * 4 ≤ slots.length * 3 := by
        have := hashed_le (es ++ [e]) (es.length + 1)
        omega
      obtain ⟨slots', hplace, -, T'⟩ := T.place_spec hd (by omega) hload
      refine ⟨some slots', ?_, fun slots'' hs => ?_⟩
      · rw [hplace]
        rfl
      · rw [hlen]
        exact Option.some.inj hs ▸ T'

end ZzLang.Aot
