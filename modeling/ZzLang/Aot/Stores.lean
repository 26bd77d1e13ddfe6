import ZzLang.Aot.Heal

/-!
# Stores that keep a value

A value goes into a variable, an array, a dict or the field of a struct in one of two ways. Most
stores heal what they store. An assignment, and with it the store to an element of an array and to
a key that a dict has, looks at the value itself only: strings, arrays and dicts of an arena are
healed, structs and wrappers are stored as they are. So `x = .some(s + "!")` in a loop leaves in
`x` a string that is gone when the loop goes round (`assigned_some_dangles`), where a push of the
same value does not.

A store is described by the container as a function of what is in the slot (`Store`): the other
slots are those of the container with nothing in the slot. The result says, for each of the two
ways, exactly which values leave a clean container clean (`store_keeps_iff`).
-/

namespace ZzLang.Aot

/-! ### The stores -/

/-- `zz_assign`: what is in the variable or element afterwards. -/
def assign (src : Value) : Value :=
  assignWith healForMove src

/-- `zz_array_push`. -/
def arrayPush (items : List Value) (item : Value) : List Value :=
  arrayPushWith healForMove items item

/-- `zz_array_dup`: an array with items of its own. -/
def arrayDup (items : List Value) : List Value :=
  items.foldl (fun out x => arrayPush out x) []

/-- The element an index refers to; a negative one counts from the end. -/
def elementIndex (len : ℕ) (i : ℤ) : ℤ :=
  if i < 0 then i + len else i

/-- The index check of `zz_array_set`. -/
def setIndex (len : ℕ) : Value → Option ℕ
  | .scalar (.int i) =>
    if 0 ≤ elementIndex len i ∧ elementIndex len i < len then some (elementIndex len i).toNat
    else none
  | _ => none

/-- `zz_array_set`, an error being `none`. -/
def arraySet (items : List Value) (idx item : Value) : Option (List Value) :=
  (setIndex items.length idx).map fun i => items.set i (assign item)

/-- `zz_vec_append`. -/
def vecAppend (items : List Value) (item : Value) : List Value :=
  items ++ [cloneForStore item]

/-- `zz_vec_push`. -/
def vecPush (items : List Value) (item : Value) : List Value :=
  arrayDup items ++ [cloneForStore item]

/-- The index check of `zz_vec_insert`, for which anything but an integer is zero. -/
def insertIndex (len : ℕ) (idx : Value) : Option ℕ :=
  let i := elementIndex len (match idx with | .scalar (.int i) => i | _ => 0)
  if 0 ≤ i ∧ i ≤ len then some i.toNat else none

/-- `zz_vec_insert`, an error being `none`. -/
def vecInsert (items : List Value) (idx item : Value) : Option (List Value) :=
  (insertIndex items.length idx).map fun i => (arrayDup items).insertIdx i (cloneForStore item)

/-- `zz_dict_set` on a dict of the heap. -/
def dictSet (es : List (Value × Value)) (key val : Value) : List (Value × Value) :=
  dictSetWith healForMove es key val

/-- `ZZ_EMBED_MAX_DEPTH`. -/
def embedMaxDepth : ℕ := 32

/-- `zz_embedded_match`: the slot holds a struct, and the last segment of its type is the name of
the field. -/
def embeddedMatch (fname slot : Value) : Bool :=
  match slot with
  | .object (some t) _ =>
    fname.strBytes = some (t.reverse.takeWhile fun c => c ≠ 46).reverse
  | _ => false

mutual

/-- `zz_object_set_depth`, with what goes into the slot: a field of the name, or else of an embedded
struct. -/
def objectPutDepth : Value → List UInt8 → Value → ℕ → Option Value
  | .object t fs, name, w, depth =>
    match fs.findIdx? fun e => e.1.strBytes = some name with
    | some i => some (.object t (fs.modify i fun e => (e.1, w)))
    | none =>
      if depth < embedMaxDepth then (promotedPut fs name w (depth + 1)).map (.object t) else none
  | _, _, _, _ => none

/-- The loop over the embedded structs. -/
def promotedPut :
    List (Value × Value) → List UInt8 → Value → ℕ → Option (List (Value × Value))
  | [], _, _, _ => none
  | (k, v) :: fs, name, w, depth =>
    match if embeddedMatch k v then objectPutDepth v name w depth else none with
    | some v' => some ((k, v') :: fs)
    | none => (promotedPut fs name w depth).map ((k, v) :: ·)

end

/-- `zz_object_set_field`, which does nothing if there is no such field. -/
def objectSetField (obj : Value) (name : List UInt8) (val : Value) : Value :=
  (objectPutDepth obj name (cloneForStore val) 0).getD obj

/-! ### Slots -/

/-- The two ways in which a value is made ready for a slot. -/
inductive Route
  | assign
  | heal

/-- **A store** of a value: the way it goes, the container as a function of what is in the slot, and
the container afterwards. -/
inductive Store (v : Value) : Route → (Value → Value) → Value → Prop
  | assign : Store v .assign (fun w => w) (assign v)
  | arraySet {items out : List Value} {idx : Value} {i : ℕ}
    (hi : setIndex items.length idx = some i) (h : arraySet items idx v = some out) :
    Store v .assign (fun w => .array .heap (items.set i w)) (.array .heap out)
  | arrayPush (items : List Value) :
    Store v .heal (fun w => .array .heap (items ++ [w])) (.array .heap (arrayPush items v))
  | vecAppend (items : List Value) :
    Store v .heal (fun w => .array .heap (items ++ [w])) (.array .heap (vecAppend items v))
  | vecPush (items : List Value) :
    Store v .heal (fun w => .array .heap (items ++ [w])) (.array .heap (vecPush items v))
  | vecInsert {items out : List Value} {idx : Value} {i : ℕ}
    (hi : insertIndex items.length idx = some i) (h : vecInsert items idx v = some out) :
    Store v .heal (fun w => .array .heap (items.insertIdx i w)) (.array .heap out)
  | dictReplace {es : List (Value × Value)} {key : Value} {p : ℕ} (h : dictFind es key = some p) :
    Store v .assign (fun w => .dict .heap (es.modify p fun e => (e.1, w)))
      (.dict .heap (dictSet es key v))
  | dictInsert {es : List (Value × Value)} {key : Value} (h : dictFind es key = none) :
    Store v .heal (fun w => .dict .heap (es ++ [(cloneForStore key, w)]))
      (.dict .heap (dictSet es key v))
  | dictKey {es : List (Value × Value)} {val : Value} (h : dictFind es v = none) :
    Store v .heal (fun w => .dict .heap (es ++ [(w, healForMove val)]))
      (.dict .heap (dictSet es v val))
  | setField {obj : Value} {name : List UInt8}
    (h : (objectPutDepth obj name (cloneForStore v) 0).isSome) :
    Store v .heal (fun w => (objectPutDepth obj name w 0).getD obj) (objectSetField obj name v)
  | cloneForStore : Store v .heal (fun w => w) (cloneForStore v)

/-- **What a way of storing keeps**: healing reaches every arena value in the value; and if it is
assigned, structs and wrappers are clean. -/
def Value.kept : Route → Value → Bool
  | .heal, v => v.heals healMaxDepth
  | .assign, .str m b => (Value.str m b).heals healMaxDepth
  | .assign, .array m items => (Value.array m items).heals healMaxDepth
  | .assign, .dict m es => (Value.dict m es).heals healMaxDepth
  | .assign, v => v.clean

/-! ### A slot is one part of its container -/

theorem allClean_append (us vs : List Value) :
    allClean (us ++ vs) = (allClean us && allClean vs) := by
  induction us with
  | nil => rfl
  | cons u us ih => simp only [List.cons_append, allClean, ih, Bool.and_assoc]

theorem pairsClean_append (es fs : List (Value × Value)) :
    pairsClean (es ++ fs) = (pairsClean es && pairsClean fs) := by
  induction es with
  | nil => rfl
  | cons e es ih => simp only [List.cons_append, pairsClean, ih, Bool.and_assoc]

theorem allClean_set {items : List Value} {i : ℕ} (hi : i < items.length) (w : Value) :
    allClean (items.set i w) = (w.clean && allClean (items.set i (.scalar .unit))) := by
  simp only [List.set_eq_take_append_cons_drop, hi, if_true, allClean_append, allClean,
    Value.clean]
  cases w.clean <;> simp

theorem allClean_insertIdx {items : List Value} {i : ℕ} (hi : i ≤ items.length) (w : Value) :
    allClean (items.insertIdx i w) = (w.clean && allClean items) := by
  rw [Bool.eq_iff_iff, allClean_iff, Bool.and_eq_true, allClean_iff]
  simp [List.mem_insertIdx hi]

theorem pairsClean_modify {es : List (Value × Value)} {p : ℕ} (hp : p < es.length) (w : Value) :
    pairsClean (es.modify p fun e => (e.1, w)) =
      (w.clean && pairsClean (es.modify p fun e => (e.1, .scalar .unit))) := by
  simp only [List.modify_eq_take_cons_drop hp, pairsClean_append, pairsClean, Value.clean]
  cases w.clean <;> simp

/-- Whether there is a slot does not depend on what goes into it, and what goes into it is one part
of the struct. -/
theorem promotedPut_clean {fs : List (Value × Value)} {name : List UInt8} {depth : ℕ} {w : Value}
    (ih : ∀ e ∈ fs, (objectPutDepth e.2 name w depth).map Value.clean =
      (objectPutDepth e.2 name (.scalar .unit) depth).map fun obj => w.clean && obj.clean) :
    (promotedPut fs name w depth).map pairsClean =
      (promotedPut fs name (.scalar .unit) depth).map fun gs => w.clean && pairsClean gs := by
  induction fs with
  | nil => simp [promotedPut]
  | cons e fs ihfs =>
    obtain ⟨he, hfs⟩ := List.forall_mem_cons.mp ih
    obtain ⟨k, v⟩ := e
    have hrest := ihfs hfs
    have hmiss : ((promotedPut fs name w depth).map ((k, v) :: ·)).map pairsClean =
        ((promotedPut fs name (.scalar .unit) depth).map ((k, v) :: ·)).map
          fun gs => w.clean && pairsClean gs := by
      have hcons := congrArg (Option.map fun b => k.clean && v.clean && b) hrest
      simp only [Option.map_map, Function.comp_def] at hcons ⊢
      simp only [pairsClean, hcons]
      refine congrArg (fun f => Option.map f _) (funext fun gs => ?_)
      cases w.clean <;> simp
    rcases hmatch : embeddedMatch k v with _ | _
    · simpa only [promotedPut, hmatch, Bool.false_eq_true, if_false] using hmiss
    · simp only [promotedPut, hmatch, if_true]
      rcases hunit : objectPutDepth v name (.scalar .unit) depth with _ | obj
      · rw [hunit] at he
        rw [Option.map_eq_none_iff.mp he]
        exact hmiss
      · rw [hunit] at he
        obtain ⟨obj', hw, hclean⟩ := Option.map_eq_some_iff.mp he
        rw [hw]
        simp only [Option.map_some, pairsClean, hclean]
        cases w.clean <;> simp

theorem objectPutDepth_clean (obj : Value) (name : List UInt8) (w : Value) (depth : ℕ) :
    (objectPutDepth obj name w depth).map Value.clean =
      (objectPutDepth obj name (.scalar .unit) depth).map fun o => w.clean && o.clean := by
  induction obj using Value.induct generalizing depth with
  | object t fs ih =>
    rw [objectPutDepth, objectPutDepth]
    generalize hfind : List.findIdx? _ fs = found
    rcases found with _ | i
    · split_ifs
      · have hfs := promotedPut_clean fun e he => (ih e he).2 (depth + 1)
        rw [Option.map_map, Option.map_map]
        exact hfs
      · rfl
    · have hi : i < fs.length := (List.findIdx?_eq_some_iff_findIdx_eq.mp hfind).1
      simp only [Option.map_some, Value.clean, pairsClean_modify hi w]
  | _ => simp [objectPutDepth]

/-- What is stored through one of the two ways: it denotes the same, and it is clean exactly if
the way keeps the value. -/
theorem cloneForStore_spec {v : Value} (hwf : v.WellFormed) :
    (cloneForStore v).content = v.content ∧ (cloneForStore v).clean = v.kept .heal :=
  healForMove_spec hwf

theorem assign_spec {v : Value} (hwf : v.WellFormed) :
    (assign v).content = v.content ∧ (assign v).clean = v.kept .assign := by
  have hheap : ∀ v : Value, valueNeedsHeal v 0 = false →
      v.content = v.content ∧ v.clean = v.heals healMaxDepth :=
    fun v h => ⟨rfl, (Copied.refl h).clean (Nat.zero_le _)⟩
  rcases v with s | t | ⟨m, b⟩ | ⟨m, items⟩ | ⟨m, es⟩ | ⟨t, fs⟩ | ⟨t, p⟩
  case str => rcases m with _ | _ | _ <;> exact ⟨rfl, rfl⟩
  case array =>
    rw [assign, assignWith]
    split_ifs with hm
    · exact healForMove_spec hwf
    · exact hheap _ (by simp [valueNeedsHeal, hm])
  case dict =>
    rw [assign, assignWith]
    split_ifs with hm
    · exact healForMove_spec hwf
    · exact hheap _ (by simp [valueNeedsHeal, hm])
  all_goals exact ⟨rfl, rfl⟩

/-- The copy of an array whose items are clean has the same items. -/
theorem arrayDup_of_clean {items : List Value} (h : allClean items = true) :
    arrayDup items = items := by
  rw [allClean_iff] at h
  rw [arrayDup]
  refine (foldl_arrayPushWith healForMove id items []).trans ?_
  have hmap : items.map (fun x => healForMove (id x)) = items.map id :=
    List.map_congr_left fun x hx => healForMove_of_clean (h x hx)
  rw [List.nil_append, hmap, List.map_id]

theorem setIndex_lt {len i : ℕ} {idx : Value} (h : setIndex len idx = some i) : i < len := by
  rcases idx with s | t | ⟨m, b⟩ | ⟨m, items⟩ | ⟨m, es⟩ | ⟨t, fs⟩ | ⟨t, p⟩
  case scalar =>
    cases s with
    | int j =>
      simp only [setIndex, Option.ite_none_right_eq_some, Option.some_inj] at h
      omega
    | _ => cases h
  all_goals cases h

theorem insertIndex_le {len i : ℕ} {idx : Value} (h : insertIndex len idx = some i) : i ≤ len := by
  simp only [insertIndex, Option.ite_none_right_eq_some, Option.some_inj] at h
  omega

theorem dictFind_lt {es : List (Value × Value)} {key : Value} {p : ℕ}
    (h : dictFind es key = some p) : p < es.length :=
  (List.findIdx?_eq_some_iff_findIdx_eq.mp h).1

/-- Insertion keeps the keys of a dict distinct. -/
theorem distinctKeys_dictSet {es : List (Value × Value)} {key : Value} (val : Value)
    (hd : DistinctKeys es) (hkey : key.WellFormed) : DistinctKeys (dictSet es key val) := by
  rcases hfind : dictFind es key with _ | p
  · rw [dictSet, dictSetWith, hfind]
    refine List.pairwise_append.mpr ⟨hd, List.pairwise_singleton _ _, fun e he f hf => ?_⟩
    obtain rfl := List.mem_singleton.mp hf
    rw [keyEq_congr rfl (healForMove_spec hkey).1]
    exact dictFind_eq_none.mp hfind e he
  · rw [dictSet, dictSetWith, hfind, DistinctKeys]
    have hkeys : (es.modify p fun e => (e.1, assignWith healForMove val)).map Prod.fst =
        es.map Prod.fst := by
      refine List.ext_getElem? fun i => ?_
      simp only [List.getElem?_map, List.getElem?_modify]
      split_ifs <;> cases es[i]? <;> rfl
    rw [← List.pairwise_map (f := Prod.fst) (R := fun a b => keyEq a b = false), hkeys]
    exact List.pairwise_map.mpr hd

section Slots

variable {v : Value} {route : Route} {fill : Value → Value} {after : Value}

/-- A container with clean other slots is as clean as what is in the slot. -/
theorem clean_fill (h : Store v route fill after)
    (hothers : (fill (.scalar .unit)).clean = true) (w : Value) : (fill w).clean = w.clean := by
  cases h with
  | assign | cloneForStore => rfl
  | @arraySet items _ _ i hi =>
    have hfill := allClean_set (setIndex_lt hi) w
    simp_all [Value.clean]
  | arrayPush items | vecAppend items | vecPush items =>
    simp_all [Value.clean, allClean_append, allClean]
  | @vecInsert items _ _ i hi =>
    have hfill := allClean_insertIdx (insertIndex_le hi)
    simp_all [Value.clean]
  | @dictReplace es _ p hp =>
    have hfill := pairsClean_modify (dictFind_lt hp) w
    simp_all [Value.clean]
  | dictInsert | dictKey =>
    simp_all [Value.clean, pairsClean_append, pairsClean]
  | @setField obj name h =>
    have hput := objectPutDepth_clean obj name
    obtain ⟨stored, hstored⟩ := Option.isSome_iff_exists.mp h
    obtain ⟨blank, hblank⟩ : ∃ blank, objectPutDepth obj name (.scalar .unit) 0 = some blank := by
      have hsome := congrArg Option.isSome (hput (cloneForStore v) 0)
      rw [hstored, Option.isSome_map, Option.isSome_map] at hsome
      exact Option.isSome_iff_exists.mp hsome.symm
    have hw := hput w 0
    simp only [hblank, Option.map_some, Option.getD_some, Option.map_eq_some_iff] at hw hothers ⊢
    obtain ⟨filled, hfilled, hclean⟩ := hw
    rw [hfilled, Option.getD_some, hclean, hothers, Bool.and_true]

/-- **What is in the slot afterwards** denotes what was stored, and it is clean exactly if the way
of storing keeps the value. -/
theorem exists_filled (h : Store v route fill after) (hwf : v.WellFormed)
    (hothers : (fill (.scalar .unit)).clean = true) :
    ∃ w, after = fill w ∧ w.content = v.content ∧ w.clean = v.kept route := by
  obtain ⟨hcontent, hclean⟩ := cloneForStore_spec hwf
  have hassign := assign_spec hwf
  cases h with
  | assign => exact ⟨assign v, rfl, hassign⟩
  | arraySet hi h =>
    rw [arraySet, hi, Option.map_some, Option.some_inj] at h
    exact ⟨assign v, congrArg _ h.symm, hassign⟩
  | arrayPush items => exact ⟨_, rfl, hcontent, hclean⟩
  | vecAppend items => exact ⟨_, rfl, hcontent, hclean⟩
  | vecPush items =>
    have hitems : allClean items = true := by
      simp_all [Value.clean, allClean_append]
    exact ⟨cloneForStore v, by rw [vecPush, arrayDup_of_clean hitems], hcontent, hclean⟩
  | @vecInsert items _ _ i hi h =>
    have hitems : allClean items = true := by
      simp_all [Value.clean, allClean_insertIdx (insertIndex_le hi)]
    rw [vecInsert, hi, Option.map_some, Option.some_inj, arrayDup_of_clean hitems] at h
    exact ⟨cloneForStore v, congrArg _ h.symm, hcontent, hclean⟩
  | dictReplace hp => exact ⟨assign v, by rw [dictSet, dictSetWith, hp]; rfl, hassign⟩
  | dictInsert hp =>
    exact ⟨cloneForStore v, by rw [dictSet, dictSetWith, hp]; rfl, hcontent, hclean⟩
  | dictKey hp =>
    exact ⟨cloneForStore v, by rw [dictSet, dictSetWith, hp]; rfl, hcontent, hclean⟩
  | @setField obj name h =>
    refine ⟨cloneForStore v, rfl, hcontent, hclean⟩
  | cloneForStore => exact ⟨_, rfl, hcontent, hclean⟩

end Slots

/-- **Stores into clean containers**: afterwards the whole container is clean, and what is in the
slot denotes what was stored, exactly if the way of storing keeps the value. -/
theorem store_keeps_iff {v : Value} {route : Route} {fill : Value → Value} {after : Value}
    (hwf : v.WellFormed) (h : Store v route fill after)
    (hothers : (fill (.scalar .unit)).clean = true) :
    (after.clean = true ∧ ∃ w, after = fill w ∧ w.content = v.content) ↔ v.kept route = true := by
  obtain ⟨w, rfl, hcontent, hclean⟩ := exists_filled h hwf hothers
  rw [clean_fill h hothers, hclean]
  exact and_iff_left ⟨w, rfl, hcontent⟩

/-- A push of `.some(s + "z")`, with the string in a loop's arena. -/
theorem store_keeps_iff_push :
    (Value.array .heap (arrayPush [] (.box .optionSome (.str .arena [122])))).clean = true ∧
      ∃ w, Value.array .heap (arrayPush [] (.box .optionSome (.str .arena [122]))) =
        .array .heap ([] ++ [w]) ∧
        w.content = (Value.box .optionSome (.str .arena [122])).content :=
  (store_keeps_iff (.box _ (.str _ _)) (.arrayPush []) rfl).mpr (by decide)

/-- What is assigned from `.some(s + "z")` in a loop is in the arena. -/
theorem assigned_some_dangles :
    ∃ v after, Value.WellFormed v ∧ Store v .assign (fun w => w) after ∧ after.clean = false :=
  ⟨.box .optionSome (.str .arena [122]), _, .box _ (.str _ _), .assign, rfl⟩

end ZzLang.Aot
