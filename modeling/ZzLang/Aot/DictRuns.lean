import ZzLang.Aot.DictIndex

/-!
# Runs of dict operations

What a dict denotes is the list of its entries, with the contents of their keys and values; and each
operation on it is that operation on a plain list of pairs, where a key means the first pair that
has it (`Dict.Valid.call_spec`). The plain list may hold any number of pairs, except that the list
of a dict made by `zz_dict_new_arena_sized` in an arena has room for as many as the hint says, and
drops any other key (`storeWithin`).

A copy is on the heap, so it has room for all keys. A run that goes on with a copy of the dict is
one with the same pairs and without the bound.
-/

namespace ZzLang

open FirstIndex

/-! ### Operations on plain lists of pairs -/

/-- The operations on a dict. A duplicate is made, and the run goes on with it or with the dict. -/
inductive DictCall (V : Type)
  | set (key val : V)
  | get (key : V)
  | has (key : V)
  | keys
  | dup (go : Bool)

/-- What an operation answers. -/
inductive DictAnswer (V : Type)
  | done
  | got (val : Option V)
  | has (found : Bool)
  | keys (keys : List V)
  | copy (entries : List (V × V))

variable {V W D : Type}

def DictCall.map (f : V → W) : DictCall V → DictCall W
  | .set key val => .set (f key) (f val)
  | .get key => .get (f key)
  | .has key => .has (f key)
  | .keys => .keys
  | .dup go => .dup go

/-- Pairs with both parts mapped. -/
def mapPairs (f : V → W) (es : List (V × V)) : List (W × W) :=
  es.map fun e => (f e.1, f e.2)

def DictAnswer.map (f : V → W) : DictAnswer V → DictAnswer W
  | .done => .done
  | .got val => .got (val.map f)
  | .has found => .has found
  | .keys ks => .keys (ks.map f)
  | .copy entries => .copy (mapPairs f entries)

/-- A plain list of pairs, and how many it may hold if there is a bound. -/
structure Plain (V : Type) where
  entries : List (V × V)
  room : Option ℕ

def Plain.map (f : V → W) (p : Plain V) : Plain W :=
  ⟨mapPairs f p.entries, p.room⟩

section Plain

variable (keys : Keys V D)

/-- Set the value of the first pair with the key, or add a pair if there is room for it. -/
def storeWithin (room : Option ℕ) (es : List (V × V)) (key val : V) : List (V × V) :=
  if es.any (fun e => keys.eq e.1 key) || room.all (es.length < ·) then store keys es key val else es

/-- One operation on a plain list of pairs. -/
def Plain.call (p : Plain V) : DictCall V → Plain V × DictAnswer V
  | .set key val => ({ p with entries := storeWithin keys p.room p.entries key val }, .done)
  | .get key => (p, .got (lookup keys p.entries key))
  | .has key => (p, .has (lookup keys p.entries key).isSome)
  | .keys => (p, .keys (p.entries.map Prod.fst))
  | .dup go => (if go then { p with room := none } else p, .copy p.entries)

/-- One operation after another, with their answers. -/
def Plain.run (p : Plain V) : List (DictCall V) → Plain V × List (DictAnswer V)
  | [] => (p, [])
  | op :: ops =>
    let (p', answer) := p.call keys op
    let (p'', answers) := p'.run ops
    (p'', answer :: answers)

end Plain

variable {keys : Keys V D}

theorem storeWithin_none (es : List (V × V)) (key val : V) :
    storeWithin keys none es key val = store keys es key val := by
  simp [storeWithin]

/-! ### Plain lists with other keys -/

section Map

variable {D' : Type} {keys' : Keys W D'} {f : V → W}

theorem storeWithin_map {room : Option ℕ} {es : List (V × V)} {key : V} (val : V)
    (h : ∀ e ∈ es, keys'.eq (f e.1) (f key) = keys.eq e.1 key) :
    storeWithin keys' room (mapPairs f es) (f key) (f val) =
      mapPairs f (storeWithin keys room es key val) := by
  have hany : (mapPairs f es).any (fun e => keys'.eq e.1 (f key)) =
      es.any fun e => keys.eq e.1 key := by
    rw [mapPairs, List.any_map, Bool.eq_iff_iff, List.any_eq_true, List.any_eq_true]
    exact exists_congr fun e => and_congr_right fun he => by rw [Function.comp, h e he]
  rw [storeWithin, storeWithin, hany, mapPairs, List.length_map]
  split_ifs
  · exact store_map val h
  · rfl

/-- The keys an operation names. -/
def DictCall.keysOf : DictCall V → List V
  | .set key _ | .get key | .has key => [key]
  | .keys | .dup _ => []

theorem fst_mem_storeWithin {room : Option ℕ} {es : List (V × V)} {key val : V} {e : V × V}
    (he : e ∈ storeWithin keys room es key val) : e.1 = key ∨ ∃ e' ∈ es, e'.1 = e.1 := by
  rw [storeWithin] at he
  split_ifs at he
  · exact mem_store he
  · exact .inr ⟨e, he, rfl⟩

/-- **Lists of pairs whose keys are compared alike** go through the same runs. -/
theorem Plain.run_map (S : V → Prop) (hS : ∀ a b, S a → S b → keys'.eq (f a) (f b) = keys.eq a b)
    (ops : List (DictCall V)) (hops : ∀ op ∈ ops, ∀ k ∈ op.keysOf, S k) (p : Plain V)
    (hp : ∀ e ∈ p.entries, S e.1) :
    (p.map f).run keys' (ops.map (DictCall.map f)) =
      ((p.run keys ops).1.map f, (p.run keys ops).2.map (DictAnswer.map f)) := by
  induction ops generalizing p with
  | nil => rfl
  | cons op ops ih =>
    obtain ⟨hop, hrest⟩ := List.forall_mem_cons.mp hops
    have hsame : ∀ key, S key → ∀ e ∈ p.entries,
        keys'.eq (f e.1) (f key) = keys.eq e.1 key := fun key hkey e he => hS _ _ (hp e he) hkey
    have hcall : (p.map f).call keys' (op.map f) =
        ((p.call keys op).1.map f, (p.call keys op).2.map f) := by
      cases op with
      | set key val =>
        simp only [DictCall.map, Plain.call, Plain.map, DictAnswer.map,
          storeWithin_map val (hsame key (hop key List.mem_cons_self))]
      | get key =>
        have hkey := lookup_map (g := f)
          (hsame key (hop key List.mem_cons_self))
        simp only [DictCall.map, Plain.call, Plain.map, DictAnswer.map, mapPairs, hkey]
      | has key =>
        have hkey := lookup_map (g := f)
          (hsame key (hop key List.mem_cons_self))
        simp only [DictCall.map, Plain.call, Plain.map, DictAnswer.map, mapPairs, hkey,
          Option.isSome_map]
      | keys =>
        simp only [DictCall.map, Plain.call, Plain.map, DictAnswer.map, mapPairs, List.map_map]
        rfl
      | dup go => cases go <;> rfl
    have hp' : ∀ e ∈ (p.call keys op).1.entries, S e.1 := by
      cases op with
      | set key val =>
        intro e he
        obtain hkey | ⟨e', he', hfst⟩ := fst_mem_storeWithin he
        · exact hkey ▸ hop key List.mem_cons_self
        · exact hfst ▸ hp e' he'
      | get | has | keys => exact hp
      | dup go => cases go <;> exact hp
    simp only [List.map_cons, Plain.run, hcall, ih hrest _ hp']

end Map

theorem length_storeWithin_le (room : Option ℕ) (es : List (V × V)) (key val : V) :
    es.length ≤ (storeWithin keys room es key val).length := by
  rw [storeWithin]
  split_ifs
  · exact length_le_length_store es key val
  · exact le_rfl

/-- Lists of pairs only grow. -/
theorem Plain.length_le_run (ops : List (DictCall V)) (p : Plain V) :
    p.entries.length ≤ (p.run keys ops).1.entries.length := by
  induction ops generalizing p with
  | nil => exact le_rfl
  | cons op ops ih =>
    refine le_trans ?_ (ih (p.call keys op).1)
    cases op with
    | set key val => exact length_storeWithin_le _ _ _ _
    | get | has | keys => exact le_rfl
    | dup go => cases go <;> exact le_rfl

/-- A key for which a list has room is stored as if there were no bound. -/
theorem storeWithin_of_fits {room : Option ℕ} {es : List (V × V)} {key val : V} {n : ℕ}
    (hn : (store keys es key val).length ≤ n) (hroom : room.all (n ≤ ·) = true) :
    storeWithin keys room es key val = store keys es key val := by
  rw [storeWithin]
  rcases hfound : es.any fun e => keys.eq e.1 key with _ | _
  · have hnew : ∀ e ∈ es, keys.eq e.1 key = false := by simpa using hfound
    rw [store_of_forall_not val hnew, List.length_append, List.length_singleton] at hn
    rcases room with _ | m
    · rfl
    · have hm : n ≤ m := of_decide_eq_true hroom
      rw [Bool.false_or, Option.all_some, if_pos (decide_eq_true (by omega))]
  · rw [Bool.true_or, if_pos rfl]

/-- **A list that never outgrows its room** goes through the run of one without a bound. -/
theorem Plain.run_room (ops : List (DictCall V)) (es : List (V × V)) (room : Option ℕ)
    (h : room.all (((⟨es, none⟩ : Plain V).run keys ops).1.entries.length ≤ ·) = true) :
    ((⟨es, room⟩ : Plain V).run keys ops).1.entries =
        ((⟨es, none⟩ : Plain V).run keys ops).1.entries ∧
      ((⟨es, room⟩ : Plain V).run keys ops).2 = ((⟨es, none⟩ : Plain V).run keys ops).2 := by
  induction ops generalizing es room with
  | nil => exact ⟨rfl, rfl⟩
  | cons op ops ih =>
    cases op with
    | set key val =>
      have hgrow := @Plain.length_le_run V D keys ops ⟨store keys es key val, none⟩
      simp only [Plain.run, Plain.call, storeWithin_none] at h ⊢
      rw [storeWithin_of_fits hgrow h]
      obtain ⟨hentries, hanswers⟩ := ih _ room h
      exact ⟨hentries, congrArg (_ :: ·) hanswers⟩
    | get | has | keys =>
      obtain ⟨hentries, hanswers⟩ := ih es room h
      exact ⟨hentries, congrArg (_ :: ·) hanswers⟩
    | dup go =>
      cases go with
      | false =>
        obtain ⟨hentries, hanswers⟩ := ih es room h
        exact ⟨hentries, congrArg (_ :: ·) hanswers⟩
      | true => exact ⟨rfl, rfl⟩

namespace Aot

/-! ### Operations on dicts of compiled programs -/

/-- One operation on a dict. -/
def Dict.call (d : Dict) : DictCall Value → Option (Dict × DictAnswer Value)
  | .set key val => (d.set key val).map fun d' => (d', .done)
  | .get key => (d.get key).map fun val => (d, .got val)
  | .has key => (d.has key).map fun found => (d, .has found)
  | .keys => some (d, .keys d.keys)
  | .dup go => d.dupValue.map fun copy => (if go then copy else d, .copy copy.entries)

/-- One operation after another, with their answers. -/
def Dict.run (d : Dict) : List (DictCall Value) → Option (Dict × List (DictAnswer Value))
  | [] => some (d, [])
  | op :: ops => do
    let (d', answer) ← d.call op
    let (d'', answers) ← d'.run ops
    return (d'', answer :: answers)

/-- What a dict denotes. -/
def Dict.plain (d : Dict) : Plain Value :=
  ⟨mapPairs Value.content d.entries, if d.mem = .sized then some d.cap else none⟩

/-- The dicts in the key and the value have distinct keys. -/
def WellFormedCall : DictCall Value → Prop
  | .set key val => key.WellFormed ∧ val.WellFormed
  | _ => True

variable {d : Dict} {es : List (Value × Value)}

theorem lookup_contents (es : List (Value × Value)) (key : Value) :
    lookup nativeKeys (mapPairs Value.content es) key.content =
      ((dictFind es key).bind fun p => es[p]?.map Prod.snd).map Value.content := by
  have hmap := @lookup_map _ _ _ nativeKeys _ _ _ nativeKeys Value.content
    Value.content es key fun e _ => keyEq_content e.1 key
  rw [mapPairs, hmap, lookup, List.find?_eq_bind_findIdx?_getElem?, Option.map_bind]
  rfl

theorem store_contents {key val : Value} (hkey : key.WellFormed) (hval : val.WellFormed) :
    mapPairs Value.content (dictSet es key val) =
      store nativeKeys (mapPairs Value.content es) key.content val.content := by
  have hassign : (assignWith healForMove val).content = val.content := (assign_spec hval).1
  rw [mapPairs, mapPairs,
    @store_map _ _ _ nativeKeys _ _ _ nativeKeys _ _ _ _ val fun e _ => keyEq_content e.1 key,
    dictSet]
  induction es with
  | nil =>
    simp [dictSetWith, dictFind, store, (healForMove_spec hkey).1, (healForMove_spec hval).1]
  | cons e es ih =>
    rw [store]
    change _ = List.map _ (if keyEq e.1 key = true then _ else _)
    rcases heq : keyEq e.1 key with _ | _
    · rw [if_neg Bool.false_ne_true, List.map_cons, ← ih]
      simp only [dictSetWith, dictFind, List.findIdx?_cons, heq]
      cases List.findIdx? (fun e => keyEq e.1 key) es <;> rfl
    · rw [if_pos rfl, List.map_cons]
      simp [dictSetWith, dictFind, List.findIdx?_cons, heq, hassign]

/-- A key has an entry exactly if the contents have a pair. -/
theorem any_contents (es : List (Value × Value)) (key : Value) :
    (mapPairs Value.content es).any (fun e => nativeKeys.eq e.1 key.content) =
      (dictFind es key).isSome := by
  rw [mapPairs, List.any_map, dictFind, List.findIdx?_isSome]
  refine congrArg (es.any ·) (funext fun e => ?_)
  exact keyEq_content e.1 key

/-! ### The operations keep the invariant -/

/-- **A new entry.** -/
theorem append_spec (V : d.Valid) {key val : Value} (hkey : key.WellFormed)
    (hval : val.WellFormed) (hnew : dictFind d.entries key = none) {cap : ℕ}
    (hcap : d.mem = .sized → d.entries.length < cap) :
    ∃ d', ({ d with cap := cap } : Dict).append key val = some d' ∧ d'.Valid ∧ d'.mem = d.mem ∧
      d'.cap = cap ∧ d'.entries = dictSet d.entries key val := by
  have hentries : d.entries ++ [(cloneForStore key, healForMove val)] =
      dictSet d.entries key val := by
    rw [dictSet, dictSetWith, hnew]
    rfl
  have hdistinct : DistinctKeys (d.entries ++ [(cloneForStore key, healForMove val)]) :=
    hentries ▸ distinctKeys_dictSet val V.distinct hkey
  obtain ⟨idx', hinsert, htable⟩ := @idxInsert_spec _ cap d.mem _ _ hdistinct V.table
  refine ⟨_, hinsert, ⟨hdistinct, fun e he => ?_, htable, fun hmem => ?_⟩, rfl, rfl, hentries⟩
  · obtain he | he := List.mem_append.mp he
    · exact V.parts e he
    · obtain rfl := List.mem_singleton.mp he
      exact ⟨hkey.of_content (healForMove_spec hkey).1, hval.of_content (healForMove_spec hval).1⟩
  · rw [List.length_append, List.length_singleton]
    exact hcap hmem

theorem home_congr {es' : List (Value × Value)} (h : es.map Prod.fst = es'.map Prod.fst) :
    home es = home es' := by
  have hkeys (l : List (Value × Value)) (j : ℕ) :
      home l j = (l.map Prod.fst)[j]?.bind dictKeyHash := by
    rw [home, List.getElem?_map, Option.bind_map]
    rfl
  funext j
  rw [hkeys, hkeys, h]

/-- **Another value** in an entry leaves the table as it is. -/
theorem Dict.Valid.replace (V : d.Valid) (pos : ℕ) {w : Value} (hw : w.WellFormed) :
    ({ d with entries := d.entries.modify pos fun e => (e.1, w) } : Dict).Valid := by
  have hkeys : (d.entries.modify pos fun e => (e.1, w)).map Prod.fst = d.entries.map Prod.fst := by
    refine List.ext_getElem (by simp) fun j _ _ => ?_
    rw [List.getElem_map, List.getElem_map, List.getElem_modify]
    split_ifs <;> rfl
  refine ⟨?_, fun e he => ?_, fun slots hs => ?_, fun h => ?_⟩
  · rw [DistinctKeys, ← List.pairwise_map (f := Prod.fst) (R := fun a b => keyEq a b = false),
      hkeys]
    exact List.pairwise_map.mpr V.distinct
  · obtain ⟨j, hj⟩ := List.mem_iff_getElem?.mp he
    rw [List.getElem?_modify] at hj
    obtain ⟨e', he', rfl⟩ := Option.map_eq_some_iff.mp hj
    have hparts := V.parts e' (List.mem_of_getElem? he')
    split_ifs
    · exact ⟨hparts.1, hw⟩
    · exact hparts
  · have T := V.table slots hs
    have hhome := home_congr hkeys
    rw [List.length_modify]
    exact ⟨T.pow, hhome ▸ T.linked, by rw [hashed, hhome]; exact T.load⟩
  · rw [List.length_modify]
    exact V.fits h

/-- **Setting a key**: the pair of the key gets the value, or a pair is added if there is room. -/
theorem set_spec (V : d.Valid) {key val : Value} (hkey : key.WellFormed) (hval : val.WellFormed) :
    ∃ d', d.set key val = some d' ∧ d'.Valid ∧
      d'.plain = (d.plain.call nativeKeys (.set key.content val.content)).1 := by
  have hplain : ∀ d' : Dict, d'.mem = d.mem → (d.mem = .sized → d'.cap = d.cap) →
      mapPairs Value.content d'.entries = storeWithin nativeKeys d.plain.room
        (mapPairs Value.content d.entries) key.content val.content →
      d'.plain = (d.plain.call nativeKeys (.set key.content val.content)).1 := by
    intro d' hmem hcap hentries
    rw [Dict.plain, hentries, hmem, Plain.call]
    split_ifs with h
    · rw [hcap h]
      simp only [Dict.plain, if_pos h]
    · simp only [Dict.plain, if_neg h]
  rw [Dict.set, V.find_eq, Option.bind_some]
  rcases hfind : dictFind d.entries key with _ | pos
  · dsimp only
    by_cases hfull : d.entries.length = d.cap
    · rw [if_pos hfull]
      by_cases hsized : d.mem = .sized
      · -- the key is dropped
        refine ⟨d, if_pos hsized, V, hplain d rfl (fun _ => rfl) ?_⟩
        rw [storeWithin, any_contents, hfind, Dict.plain, if_pos hsized, mapPairs, List.length_map,
          ← hfull]
        simp
      · rw [if_neg hsized]
        obtain ⟨d', happend, V', hmem, -, hentries⟩ := @append_spec _ V _ _ hkey hval hfind
          (if d.cap = 0 then 4 else d.cap * 2) fun h => absurd h hsized
        refine ⟨d', happend, V', hplain d' hmem (fun h => absurd h hsized) ?_⟩
        rw [hentries, store_contents hkey hval, Dict.plain, if_neg hsized, storeWithin_none]
    · rw [if_neg hfull]
      have hlt (h : d.mem = .sized) : d.entries.length < d.cap := lt_of_le_of_ne (V.fits h) hfull
      obtain ⟨d', happend, V', hmem, hcap, hentries⟩ := append_spec V hkey hval hfind hlt
      refine ⟨d', happend, V', hplain d' hmem (fun _ => hcap) ?_⟩
      rw [hentries, store_contents hkey hval, storeWithin, if_pos]
      rw [any_contents, hfind, Dict.plain, mapPairs, List.length_map]
      split_ifs with h
      · simpa using hlt h
      · rfl
  · have hset : d.entries.modify pos (fun e => (e.1, assign val)) = dictSet d.entries key val := by
      rw [dictSet, dictSetWith, hfind]
      rfl
    refine ⟨_, rfl, V.replace pos (hval.of_content (assign_spec hval).1),
      hplain _ rfl (fun _ => rfl) ?_⟩
    dsimp only
    rw [hset, store_contents hkey hval, storeWithin, any_contents, hfind]
    rfl

/-- **A new dict of some size** is empty. -/
theorem newArenaSized_spec (arena : Bool) (hint : ℕ) :
    ∃ d, Dict.newArenaSized arena hint = some d ∧ d.Valid ∧
      d.plain = ⟨[], if arena then some hint else none⟩ := by
  have hmem : (if arena then DictMem.sized else DictMem.heap) = .sized ↔ arena = true := by
    cases arena <;> simp
  have hvalid : ∀ idx : Option (List ℕ), (∀ slots, idx = some slots → Table [] slots 0) →
      (⟨if arena then .sized else .heap, [], hint, idx⟩ : Dict).Valid ∧
        (⟨if arena then .sized else .heap, [], hint, idx⟩ : Dict).plain =
          ⟨[], if arena then some hint else none⟩ := fun idx htable =>
    ⟨⟨List.Pairwise.nil, fun _ h => absurd h List.not_mem_nil, htable, fun _ => Nat.zero_le _⟩,
      by simp only [Dict.plain, hmem]; rfl⟩
  rw [Dict.newArenaSized]
  by_cases hlarge : dictIndexThreshold < hint
  · rw [if_pos hlarge]
    obtain ⟨c, hc, hcap, -⟩ := dictCapFor_spec hint
    obtain ⟨slots, hfill, T⟩ := @fill_spec [] List.Pairwise.nil c hc (Nat.zero_le _)
    have hbuilt := hvalid (some slots) fun slots' h => Option.some.inj h ▸ T
    refine ⟨_, ?_, hbuilt⟩
    rw [Dict.idxBuild, hcap, if_neg (Nat.two_pow_pos c).ne', hfill]
    rfl
  · rw [if_neg hlarge]
    exact ⟨_, rfl, hvalid none (by rintro _ ⟨⟩)⟩

/-- Setting the keys of a list, one after another. -/
theorem foldlM_set_spec (es : List (Value × Value)) (V : d.Valid) (hheap : d.plain.room = none)
    (hparts : ∀ e ∈ es, e.1.WellFormed ∧ e.2.WellFormed) :
    ∃ d', es.foldlM (fun out e => out.set e.1 e.2) d = some d' ∧ d'.Valid ∧
      d'.plain = ⟨(mapPairs Value.content es).foldl (fun out e => store nativeKeys out e.1 e.2)
        d.plain.entries, none⟩ := by
  induction es generalizing d with
  | nil => exact ⟨d, rfl, V, by rw [← hheap]; rfl⟩
  | cons e es ih =>
    obtain ⟨⟨hkey, hval⟩, hrest⟩ := List.forall_mem_cons.mp hparts
    obtain ⟨d', hset, V', hplain⟩ := set_spec V hkey hval
    simp only [Plain.call, hheap, storeWithin_none] at hplain
    obtain ⟨d'', hfold, V'', hplain'⟩ := ih V' (by rw [hplain]) hrest
    refine ⟨d'', ?_, V'', ?_⟩
    · rw [List.foldlM_cons, hset]
      exact hfold
    · rw [hplain', hplain]
      rfl

/-- **A copy** has the same pairs, and room for all keys. -/
theorem dupValue_spec (V : d.Valid) :
    ∃ d', d.dupValue = some d' ∧ d'.Valid ∧ d'.plain = ⟨d.plain.entries, none⟩ := by
  obtain ⟨out, hnew, hout, hempty⟩ := newArenaSized_spec false d.entries.length
  obtain ⟨d', hfold, V', hplain⟩ := foldlM_set_spec d.entries hout (by rw [hempty]; rfl) V.parts
  refine ⟨d', ?_, V', ?_⟩
  · rw [Dict.dupValue, Dict.newSized, hnew]
    exact hfold
  · have hdistinct : Distinct nativeKeys ([] ++ mapPairs Value.content d.entries) :=
      distinctKeys_content.mpr V.distinct
    rw [hplain, hempty, foldl_store_of_distinct hdistinct]
    rfl

theorem keys_spec (V : d.Valid) :
    d.keys.map Value.content = (mapPairs Value.content d.entries).map Prod.fst := by
  have hfold : ∀ (es : List (Value × Value)) (acc : List Value), (∀ e ∈ es, e.1.WellFormed) →
      (es.foldl (fun items e => vecAppend items e.1) acc).map Value.content =
        acc.map Value.content ++ (mapPairs Value.content es).map Prod.fst := by
    intro es
    induction es with
    | nil => simp [mapPairs]
    | cons e es ih =>
      intro acc h
      obtain ⟨he, hes⟩ := List.forall_mem_cons.mp h
      rw [List.foldl_cons, ih _ hes, vecAppend, List.map_append, List.map_singleton,
        (cloneForStore_spec he).1]
      simp [mapPairs]
  exact hfold d.entries [] fun e he => (V.parts e he).1

/-- **One operation** on a dict is that operation on what it denotes. -/
theorem Dict.Valid.call_spec (V : d.Valid) {op : DictCall Value} (hop : WellFormedCall op) :
    ∃ d' answer, d.call op = some (d', answer) ∧ d'.Valid ∧
      (d'.plain, answer.map Value.content) =
        d.plain.call nativeKeys (op.map Value.content) := by
  have hlookup (key : Value) := lookup_contents d.entries key
  cases op with
  | set key val =>
    obtain ⟨d', hset, V', hplain⟩ := set_spec V hop.1 hop.2
    exact ⟨d', .done, by rw [Dict.call, hset]; rfl, V', by rw [hplain]; rfl⟩
  | get key =>
    refine ⟨d, _, by rw [Dict.call, Dict.get, V.find_eq]; rfl, V, ?_⟩
    simp only [DictCall.map, Plain.call, Dict.plain, DictAnswer.map, hlookup]
  | has key =>
    refine ⟨d, _, by rw [Dict.call, Dict.has, V.find_eq]; rfl, V, ?_⟩
    simp only [DictCall.map, Plain.call, Dict.plain, DictAnswer.map, hlookup]
    rcases hfind : dictFind d.entries key with _ | p
    · rfl
    · have hp : p < d.entries.length := (List.findIdx?_eq_some_iff_findIdx_eq.mp hfind).1
      simp [List.getElem?_eq_getElem hp]
  | keys =>
    refine ⟨d, _, rfl, V, ?_⟩
    simp only [DictCall.map, Plain.call, DictAnswer.map, keys_spec V]
    rfl
  | dup go =>
    obtain ⟨d', hdup, V', hplain⟩ := dupValue_spec V
    have hcopy : mapPairs Value.content d'.entries = d.plain.entries := congrArg Plain.entries hplain
    refine ⟨_, _, by rw [Dict.call, hdup]; rfl, ?_, ?_⟩
    · cases go
      · exact V
      · exact V'
    · simp only [DictCall.map, Plain.call, DictAnswer.map, hcopy]
      cases go
      · rfl
      · exact congrArg (·, DictAnswer.copy d.plain.entries) hplain

/-- **A run** of operations on a dict is that run on what it denotes, and no loop in it fails to
end. -/
theorem Dict.Valid.run_spec {ops : List (DictCall Value)} (V : d.Valid)
    (hops : ∀ op ∈ ops, WellFormedCall op) :
    ∃ d' answers, d.run ops = some (d', answers) ∧ d'.Valid ∧
      (d'.plain, answers.map (DictAnswer.map Value.content)) =
        d.plain.run nativeKeys (ops.map (DictCall.map Value.content)) := by
  induction ops generalizing d with
  | nil => exact ⟨d, [], rfl, V, rfl⟩
  | cons op ops ih =>
    obtain ⟨hop, hrest⟩ := List.forall_mem_cons.mp hops
    obtain ⟨d', answer, hcall, V', hstep⟩ := V.call_spec hop
    obtain ⟨d'', answers, hrun, V'', hsteps⟩ := ih V' hrest
    refine ⟨d'', answer :: answers, ?_, V'', ?_⟩
    · rw [Dict.run, hcall]
      simp only [Option.bind_eq_bind, Option.bind_some, hrun]
      rfl
    · simp only [List.map_cons, Plain.run, ← hstep, ← hsteps]

end Aot

end ZzLang
