import ZzLang.Aot.NativeValue

/-!
# Healing

What a loop builds in its arena is gone when the loop goes round, so a store that keeps a value
first copies to the heap what of it is in an arena: the value is healed. How much is looked at is
decided twice. `value_needs_heal` looks through the headers of structs and the boxes of wrappers,
which are on the heap and may hold anything, but not into arrays and dicts of the heap: what these
hold was healed when it was put in. And it looks only 32 levels deep.

The copy has the same bound, but the items of an array go into the copy by the store of an array,
and this heals them once more, from depth zero. So the bound counts the structs and wrappers
between an arena value and the next array or dict of the arena above it, or the value stored: this
is `Value.heals`, and it says exactly which values healing makes clean (`clean_healForMove`).
-/

namespace ZzLang.Aot

/-! ### The functions -/

/-- `ZZ_HEAL_MAX_DEPTH`. -/
def healMaxDepth : ℕ := 32

/-- `zz_array_is_arena`. -/
def ArrayMem.isArena (m : ArrayMem) : Bool :=
  m ≠ .heap

/-- `zz_dict_is_arena`. -/
def DictMem.isArena (m : DictMem) : Bool :=
  m ≠ .heap

mutual

/-- `value_needs_heal`. -/
def valueNeedsHeal (v : Value) (depth : ℕ) : Bool :=
  if healMaxDepth < depth then false else
  match v with
  | .str m _ => m = .arena
  | .array m _ => m.isArena
  | .dict m _ => m.isArena
  | .object _ fs => fieldsNeedHeal fs (depth + 1)
  | .box _ p => valueNeedsHeal p (depth + 1)
  | _ => false

/-- The loop over the slots of a struct. -/
def fieldsNeedHeal : List (Value × Value) → ℕ → Bool
  | [], _ => false
  | (k, v) :: fs, depth =>
    valueNeedsHeal k depth || valueNeedsHeal v depth || fieldsNeedHeal fs depth

end

/-- `zz_str_heal_arena`. -/
def strHealArena : Value → Value
  | .str .arena b => .str .heap b
  | v => v

section Stores

variable (heal : Value → Value)

/-- What `zz_assign` puts in the slot: it heals strings, arrays and dicts of an arena, and nothing
else. -/
def assignWith (src : Value) : Value :=
  match src with
  | .str _ _ => strHealArena src
  | .array m _ => if m.isArena then heal src else src
  | .dict m _ => if m.isArena then heal src else src
  | _ => src

/-- `zz_array_push`. -/
def arrayPushWith (items : List Value) (item : Value) : List Value :=
  items ++ [heal item]

/-- `zz_dict_find`: the place of the first entry with the key. -/
def dictFind (es : List (Value × Value)) (key : Value) : Option ℕ :=
  es.findIdx? fun e => keyEq e.1 key

/-- `zz_dict_set`: the first occurrence wins on the key, the value is replaced. -/
def dictSetWith (es : List (Value × Value)) (key val : Value) : List (Value × Value) :=
  match dictFind es key with
  | some p => es.modify p fun e => (e.1, assignWith heal val)
  | none => es ++ [(heal key, heal val)]

end Stores

/-- `heal_deep_copy`. What is shared is the same value again. The first argument bounds the levels
gone down, those of the stores into the copy among them; the height of the value is enough
(`copied_healDeepCopy`). -/
def healDeepCopy : ℕ → Value → ℕ → Value
  | 0, v, _ => v
  | n + 1, v, depth =>
    if healMaxDepth < depth then v else
    let heal := fun w => if valueNeedsHeal w 0 then healDeepCopy n w 0 else w
    match v with
    | .str _ _ => strHealArena v
    | .array m items =>
      if m.isArena then
        .array .heap <| items.foldl
          (fun out x => arrayPushWith heal out (healDeepCopy n x (depth + 1))) []
      else v
    | .dict m es =>
      if m.isArena then
        .dict .heap <| es.foldl
          (fun out e => dictSetWith heal out (healDeepCopy n e.1 (depth + 1))
            (healDeepCopy n e.2 (depth + 1))) []
      else v
    | .box t p =>
      -- Clean payloads stay shared.
      if valueNeedsHeal p (depth + 1) then .box t (healDeepCopy n p (depth + 1)) else v
    | .object t fs =>
      if valueNeedsHeal v depth then
        .object t (fs.map fun e => (healDeepCopy n e.1 (depth + 1), healDeepCopy n e.2 (depth + 1)))
      else v
    | _ => v

/-- `zz_heal_for_move`. -/
def healForMove (v : Value) : Value :=
  if valueNeedsHeal v 0 then healDeepCopy (v.height + 1) v 0 else v

/-- `zz_clone_for_store`. The clone shares the value. -/
def cloneForStore (v : Value) : Value :=
  if valueNeedsHeal v 0 then healDeepCopy (v.height + 1) v 0 else v

/-! ### What healing should reach, and what it reaches -/

mutual

/-- Nothing that can be reached from the value is in an arena. -/
def Value.clean : Value → Bool
  | .scalar _ => true
  | .null _ => true
  | .str m _ => m ≠ .arena
  | .array m items => !m.isArena && allClean items
  | .dict m es => !m.isArena && pairsClean es
  | .object _ fs => pairsClean fs
  | .box _ p => p.clean

/-- Nothing that can be reached from the items is in an arena. -/
def allClean : List Value → Bool
  | [] => true
  | v :: vs => v.clean && allClean vs

/-- Nothing that can be reached from the entries or fields is in an arena. -/
def pairsClean : List (Value × Value) → Bool
  | [] => true
  | (k, v) :: es => k.clean && v.clean && pairsClean es

end

mutual

/-- **What healing reaches**: arrays and dicts of the heap are clean, and every other arena value is
at most `budget` structs and wrappers away, a number that is full again below each array and dict
of an arena. -/
def Value.heals : Value → ℕ → Bool
  | .scalar _, _ => true
  | .null _, _ => true
  | .str _ _, _ => true
  | .array m items, _ => if m.isArena then allHeal items healMaxDepth else allClean items
  | .dict m es, _ => if m.isArena then pairsHeal es healMaxDepth else pairsClean es
  | .object _ fs, 0 => pairsClean fs
  | .object _ fs, budget + 1 => pairsHeal fs budget
  | .box _ p, 0 => p.clean
  | .box _ p, budget + 1 => p.heals budget

/-- Healing reaches every arena value in the items. -/
def allHeal : List Value → ℕ → Bool
  | [], _ => true
  | v :: vs, budget => v.heals budget && allHeal vs budget

/-- Healing reaches every arena value in the entries or fields. -/
def pairsHeal : List (Value × Value) → ℕ → Bool
  | [], _ => true
  | (k, v) :: es, budget => k.heals budget && v.heals budget && pairsHeal es budget

end

theorem fieldsNeedHeal_iff {fs : List (Value × Value)} {depth : ℕ} :
    fieldsNeedHeal fs depth = false ↔
      ∀ e ∈ fs, valueNeedsHeal e.1 depth = false ∧ valueNeedsHeal e.2 depth = false := by
  induction fs with
  | nil => simp [fieldsNeedHeal]
  | cons e fs ih => simp [fieldsNeedHeal, ih]

theorem allClean_iff {vs : List Value} : allClean vs = true ↔ ∀ v ∈ vs, v.clean = true := by
  induction vs with
  | nil => simp [allClean]
  | cons v vs ih => simp [allClean, ih]

theorem pairsClean_iff {es : List (Value × Value)} :
    pairsClean es = true ↔ ∀ e ∈ es, e.1.clean = true ∧ e.2.clean = true := by
  induction es with
  | nil => simp [pairsClean]
  | cons e es ih => simp [pairsClean, ih]

theorem allHeal_iff {vs : List Value} {budget : ℕ} :
    allHeal vs budget = true ↔ ∀ v ∈ vs, v.heals budget = true := by
  induction vs with
  | nil => simp [allHeal]
  | cons v vs ih => simp [allHeal, ih]

theorem pairsHeal_iff {es : List (Value × Value)} {budget : ℕ} :
    pairsHeal es budget = true ↔ ∀ e ∈ es, e.1.heals budget = true ∧ e.2.heals budget = true := by
  induction es with
  | nil => simp [pairsHeal]
  | cons e es ih => simp [pairsHeal, ih]

/-- Within the limit, the mark of a list or a dict decides. -/
theorem isArena_of_needsHeal {m : Bool} {depth : ℕ} (hd : depth ≤ healMaxDepth)
    (h : (if healMaxDepth < depth then false else m) = false) : m = false := by
  rwa [if_neg (not_lt.mpr hd)] at h

theorem heals_of_not_isArena {m a b : Bool} (hm : m = false) (h : (if m then a else b) = true) :
    b = true := by
  rwa [hm, if_neg Bool.false_ne_true] at h

theorem not_isArena_of_clean {m b : Bool} (h : (!m && b) = true) : m = false ∧ b = true :=
  (Bool.and_eq_true_iff.mp h).imp_left fun hm => by rwa [Bool.not_eq_true'] at hm

/-- A clean value needs no healing. -/
theorem needsHeal_of_clean {v : Value} (depth : ℕ) (h : v.clean = true) :
    valueNeedsHeal v depth = false := by
  induction v using Value.induct generalizing depth with
  | scalar s => simp [valueNeedsHeal]
  | null t => simp [valueNeedsHeal]
  | str m b => simp_all [valueNeedsHeal, Value.clean]
  | array m items ih =>
    show (if healMaxDepth < depth then false else m.isArena) = false
    rw [(not_isArena_of_clean h).1, ite_self]
  | dict m es ih =>
    show (if healMaxDepth < depth then false else m.isArena) = false
    rw [(not_isArena_of_clean h).1, ite_self]
  | object t fs ih =>
    rw [Value.clean, pairsClean_iff] at h
    have hfs : fieldsNeedHeal fs (depth + 1) = false :=
      fieldsNeedHeal_iff.mpr fun e he => ⟨(ih e he).1 _ (h e he).1, (ih e he).2 _ (h e he).2⟩
    simp [valueNeedsHeal, hfs]
  | box t p ih =>
    simp [valueNeedsHeal, ih (depth + 1) h]

/-- Healing reaches everything in a clean value: there is nothing to reach. -/
theorem heals_of_clean {v : Value} (budget : ℕ) (h : v.clean = true) :
    v.heals budget = true := by
  induction v using Value.induct generalizing budget with
  | scalar s => rfl
  | null t => rfl
  | str m b => rfl
  | array m items ih =>
    obtain ⟨hm, hitems⟩ := not_isArena_of_clean h
    rw [Value.heals, hm]
    exact hitems
  | dict m es ih =>
    obtain ⟨hm, hes⟩ := not_isArena_of_clean h
    rw [Value.heals, hm]
    exact hes
  | object t fs ih =>
    rcases budget with _ | budget
    · exact h
    · rw [Value.clean, pairsClean_iff] at h
      rw [Value.heals, pairsHeal_iff]
      exact fun e he => ⟨(ih e he).1 budget (h e he).1, (ih e he).2 budget (h e he).2⟩
  | box t p ih =>
    rcases budget with _ | budget
    · exact h
    · exact ih budget h

/-- What healing reaches in a value that does not seem to need it is clean. -/
theorem clean_of_heals {v : Value} {depth : ℕ} (hd : depth ≤ healMaxDepth)
    (hn : valueNeedsHeal v depth = false) (h : v.heals (healMaxDepth - depth) = true) :
    v.clean = true := by
  induction v using Value.induct generalizing depth with
  | scalar s => rfl
  | null t => rfl
  | str m b => simp_all [valueNeedsHeal, Value.clean]
  | array m items ih =>
    have hm : m.isArena = false := isArena_of_needsHeal hd hn
    rw [Value.clean, hm]
    exact heals_of_not_isArena hm h
  | dict m es ih =>
    have hm : m.isArena = false := isArena_of_needsHeal hd hn
    rw [Value.clean, hm]
    exact heals_of_not_isArena hm h
  | object t fs ih =>
    have hn : fieldsNeedHeal fs (depth + 1) = false := by simpa [valueNeedsHeal, hd] using hn
    rw [fieldsNeedHeal_iff] at hn
    obtain hb | ⟨b, hb⟩ : healMaxDepth - depth = 0 ∨ ∃ b, healMaxDepth - depth = b + 1 := by
      rcases healMaxDepth - depth with _ | b <;> simp
    · rw [hb] at h
      exact h
    · rw [hb, Value.heals, pairsHeal_iff] at h
      obtain rfl : b = healMaxDepth - (depth + 1) := by omega
      rw [Value.clean, pairsClean_iff]
      exact fun e he => ⟨(ih e he).1 (by omega) (hn e he).1 (h e he).1,
        (ih e he).2 (by omega) (hn e he).2 (h e he).2⟩
  | box t p ih =>
    have hn : valueNeedsHeal p (depth + 1) = false := by simpa [valueNeedsHeal, hd] using hn
    obtain hb | ⟨b, hb⟩ : healMaxDepth - depth = 0 ∨ ∃ b, healMaxDepth - depth = b + 1 := by
      rcases healMaxDepth - depth with _ | b <;> simp
    · rw [hb] at h
      exact h
    · rw [hb] at h
      obtain rfl : b = healMaxDepth - (depth + 1) := by omega
      exact ih (by omega) hn h

theorem depth_le_of_needsHeal {v : Value} {depth : ℕ} (h : valueNeedsHeal v depth = true) :
    depth ≤ healMaxDepth := by
  by_contra hd
  rw [valueNeedsHeal.eq_def, if_pos (by omega)] at h
  exact absurd h Bool.false_ne_true

/-! ### Lists of copies -/

theorem foldl_arrayPushWith (heal copy : Value → Value) (items acc : List Value) :
    items.foldl (fun out x => arrayPushWith heal out (copy x)) acc =
      acc ++ items.map fun x => heal (copy x) := by
  induction items generalizing acc with
  | nil => simp
  | cons x items ih =>
    rw [List.foldl_cons, ih, arrayPushWith, List.append_assoc, List.singleton_append,
      List.map_cons]

theorem dictFind_eq_none {es : List (Value × Value)} {key : Value} :
    dictFind es key = none ↔ ∀ e ∈ es, keyEq e.1 key = false :=
  List.findIdx?_eq_none_iff

/-- Copies of entries with distinct keys that denote the same are put in one after the other. -/
theorem foldl_dictSetWith {heal copy : Value → Value} {done es : List (Value × Value)}
    (hd : DistinctKeys (done ++ es))
    (hcopy : ∀ e ∈ done ++ es, (copy e.1).content = e.1.content ∧
      (heal (copy e.1)).content = e.1.content) :
    es.foldl (fun out e => dictSetWith heal out (copy e.1) (copy e.2))
        (done.map fun e => (heal (copy e.1), heal (copy e.2))) =
      (done ++ es).map fun e => (heal (copy e.1), heal (copy e.2)) := by
  induction es generalizing done with
  | nil => simp
  | cons e es ih =>
    have hfind : dictFind (done.map fun e => (heal (copy e.1), heal (copy e.2))) (copy e.1) =
        none := by
      rw [dictFind_eq_none, List.forall_mem_map]
      intro f hf
      have hkey := (List.pairwise_append.mp hd).2.2 f hf e List.mem_cons_self
      rwa [keyEq_congr (hcopy f (List.mem_append_left _ hf)).2
        (hcopy e (List.mem_append_right _ List.mem_cons_self)).1]
    have hset : dictSetWith heal (done.map fun e => (heal (copy e.1), heal (copy e.2)))
        (copy e.1) (copy e.2) =
          (done ++ [e]).map fun e => (heal (copy e.1), heal (copy e.2)) := by
      rw [dictSetWith, hfind, List.map_append, List.map_singleton]
    rw [List.foldl_cons, hset, ih (by simpa using hd) (by simpa using hcopy), List.append_assoc,
      List.singleton_append]

theorem foldl_dictSetWith_nil (heal copy : Value → Value) {es : List (Value × Value)}
    (hd : DistinctKeys es)
    (hcopy : ∀ e ∈ es, (copy e.1).content = e.1.content ∧
      (heal (copy e.1)).content = e.1.content) :
    es.foldl (fun out e => dictSetWith heal out (copy e.1) (copy e.2)) [] =
      es.map fun e => (heal (copy e.1), heal (copy e.2)) := by
  have hfold := @foldl_dictSetWith heal copy [] es
  rw [List.map_nil, List.nil_append] at hfold
  exact hfold hd hcopy

theorem allClean_map {f : Value → Value} {items : List Value} {budget : ℕ}
    (h : ∀ x ∈ items, (f x).clean = x.heals budget) :
    allClean (items.map f) = allHeal items budget := by
  rw [Bool.eq_iff_iff, allClean_iff, allHeal_iff, List.forall_mem_map]
  exact forall₂_congr fun x hx => by rw [h x hx]

theorem pairsClean_map {f : Value → Value} {es : List (Value × Value)} {budget : ℕ}
    (h : ∀ e ∈ es, (f e.1).clean = e.1.heals budget ∧ (f e.2).clean = e.2.heals budget) :
    pairsClean (es.map fun e => (f e.1, f e.2)) = pairsHeal es budget := by
  rw [Bool.eq_iff_iff, pairsClean_iff, pairsHeal_iff, List.forall_mem_map]
  exact forall₂_congr fun e he => by rw [(h e he).1, (h e he).2]

theorem pairsHeal_map {f : Value → Value} {es : List (Value × Value)} {budget : ℕ}
    (h : ∀ e ∈ es, (f e.1).heals budget = e.1.heals budget ∧
      (f e.2).heals budget = e.2.heals budget) :
    pairsHeal (es.map fun e => (f e.1, f e.2)) budget = pairsHeal es budget := by
  rw [Bool.eq_iff_iff, pairsHeal_iff, pairsHeal_iff, List.forall_mem_map]
  exact forall₂_congr fun e he => by rw [(h e he).1, (h e he).2]

theorem pairs_content_map {f : Value → Value} {es : List (Value × Value)}
    (h : ∀ e ∈ es, (f e.1).content = e.1.content ∧ (f e.2).content = e.2.content) :
    (es.map fun e => (f e.1, f e.2)).map (fun e => (e.1.content, e.2.content)) =
      es.map fun e => (e.1.content, e.2.content) := by
  rw [List.map_map]
  exact List.map_congr_left fun e he => Prod.ext (h e he).1 (h e he).2

/-! ### What the copy is -/

/-- What a copy made at some depth has in common with the value: it denotes the same, healing it
again would reach as much, and it is clean if the levels left reach everything. -/
structure Copied (depth : ℕ) (v w : Value) : Prop where
  content : w.content = v.content
  heals : ∀ budget, healMaxDepth ≤ depth + budget → w.heals budget = v.heals budget
  clean : depth ≤ healMaxDepth → w.clean = v.heals (healMaxDepth - depth)

/-- A value that needs no healing at this depth is its own copy. -/
theorem Copied.refl {depth : ℕ} {v : Value} (h : valueNeedsHeal v depth = false) :
    Copied depth v v where
  content := rfl
  heals _ _ := rfl
  clean hd := by
    rw [Bool.eq_iff_iff]
    exact ⟨heals_of_clean _, clean_of_heals hd h⟩

/-- `zz_heal_for_move` with a bound on the levels gone down. -/
def healAt (n : ℕ) (w : Value) : Value :=
  if valueNeedsHeal w 0 then healDeepCopy n w 0 else w

/-- What is stored again from depth zero is clean if healing reaches everything. -/
theorem Copied.store {depth n : ℕ} {v w : Value} (h : Copied depth v w) (hwf : v.WellFormed)
    (hn : v.height < n)
    (hcopy : ∀ v, v.WellFormed → v.height < n → Copied 0 v (healDeepCopy n v 0)) :
    (healAt n w).content = v.content ∧ (healAt n w).clean = v.heals healMaxDepth := by
  have hreach : w.heals healMaxDepth = v.heals healMaxDepth := h.heals _ (Nat.le_add_left _ _)
  have hheight : w.height = v.height := by
    rw [← height_content w, h.content, height_content]
  rw [healAt]
  rcases hneeds : valueNeedsHeal w 0 with _ | _
  · exact ⟨h.content, ((Copied.refl hneeds).clean (Nat.zero_le _)).trans hreach⟩
  · have hagain := hcopy w (hwf.of_content h.content) (hheight ▸ hn)
    exact ⟨hagain.content.trans h.content, (hagain.clean (Nat.zero_le _)).trans hreach⟩

section Levels

variable {n depth : ℕ}

theorem healDeepCopy_array (hd : ¬healMaxDepth < depth) (m : ArrayMem) (items : List Value) :
    healDeepCopy (n + 1) (.array m items) depth =
      if m.isArena then
        .array .heap (items.map fun x => healAt n (healDeepCopy n x (depth + 1)))
      else .array m items := by
  rw [healDeepCopy, if_neg hd]
  exact if_congr Iff.rfl (congrArg (Value.array .heap) (foldl_arrayPushWith _ _ _ _)) rfl

/-- The keys of the copy are as distinct as those of the dict, so each entry is put in anew. -/
theorem healDeepCopy_dict (hd : ¬healMaxDepth < depth) {m : DictMem} {es : List (Value × Value)}
    (hkeys : DistinctKeys es)
    (hcopy : ∀ e ∈ es, (healDeepCopy n e.1 (depth + 1)).content = e.1.content ∧
      (healAt n (healDeepCopy n e.1 (depth + 1))).content = e.1.content) :
    healDeepCopy (n + 1) (.dict m es) depth =
      if m.isArena then
        .dict .heap (es.map fun e => (healAt n (healDeepCopy n e.1 (depth + 1)),
          healAt n (healDeepCopy n e.2 (depth + 1))))
      else .dict m es := by
  rw [healDeepCopy, if_neg hd]
  exact if_congr Iff.rfl (congrArg (Value.dict .heap) (foldl_dictSetWith_nil (healAt n)
    (fun x => healDeepCopy n x (depth + 1)) hkeys hcopy)) rfl

theorem healDeepCopy_object (hd : ¬healMaxDepth < depth) (t : Option (List UInt8))
    (fs : List (Value × Value)) :
    healDeepCopy (n + 1) (.object t fs) depth =
      if valueNeedsHeal (.object t fs) depth then
        .object t (fs.map fun e =>
          (healDeepCopy n e.1 (depth + 1), healDeepCopy n e.2 (depth + 1)))
      else .object t fs := by
  rw [healDeepCopy, if_neg hd]

theorem healDeepCopy_box (hd : ¬healMaxDepth < depth) (t : BoxTag) (p : Value) :
    healDeepCopy (n + 1) (.box t p) depth =
      if valueNeedsHeal p (depth + 1) then .box t (healDeepCopy n p (depth + 1))
      else .box t p := by
  rw [healDeepCopy, if_neg hd]

/-- A copy of an array of an arena: its items are stored again, and clean if healing reaches
everything in them. -/
theorem Copied.array {m : ArrayMem} (hm : m.isArena = true) {items : List Value}
    {f : Value → Value}
    (hf : ∀ x ∈ items, (f x).content = x.content ∧ (f x).clean = x.heals healMaxDepth) :
    Copied depth (.array m items) (.array .heap (items.map f)) := by
  have hclean : allClean (items.map f) = allHeal items healMaxDepth :=
    allClean_map fun x hx => (hf x hx).2
  refine ⟨?_, fun budget _ => ?_, fun _ => ?_⟩
  · rw [content_array, content_array, List.map_map]
    exact congrArg _ (List.map_congr_left fun x hx => (hf x hx).1)
  · rw [Value.heals, Value.heals, hm, if_pos rfl, ← hclean]
    rfl
  · rw [Value.clean, Value.heals, hm, if_pos rfl, ← hclean]
    rfl

theorem Copied.dict {m : DictMem} (hm : m.isArena = true) {es : List (Value × Value)}
    {f : Value → Value}
    (hf : ∀ e ∈ es, ((f e.1).content = e.1.content ∧ (f e.2).content = e.2.content) ∧
      (f e.1).clean = e.1.heals healMaxDepth ∧ (f e.2).clean = e.2.heals healMaxDepth) :
    Copied depth (.dict m es) (.dict .heap (es.map fun e => (f e.1, f e.2))) := by
  have hclean : pairsClean (es.map fun e => (f e.1, f e.2)) = pairsHeal es healMaxDepth :=
    pairsClean_map fun e he => (hf e he).2
  refine ⟨?_, fun budget _ => ?_, fun _ => ?_⟩
  · rw [content_dict, content_dict, pairs_content_map fun e he => (hf e he).1]
  · rw [Value.heals, Value.heals, hm, if_pos rfl, ← hclean]
    rfl
  · rw [Value.clean, Value.heals, hm, if_pos rfl, ← hclean]
    rfl

/-- A copy of a struct: its fields are not stored again, so the level counts. -/
theorem Copied.object {t : Option (List UInt8)} {fs : List (Value × Value)} {f : Value → Value}
    (hd : depth + 1 ≤ healMaxDepth)
    (hf : ∀ e ∈ fs, Copied (depth + 1) e.1 (f e.1) ∧ Copied (depth + 1) e.2 (f e.2)) :
    Copied depth (.object t fs) (.object t (fs.map fun e => (f e.1, f e.2))) where
  content := by
    rw [content_object, content_object,
      pairs_content_map fun e he => ⟨(hf e he).1.content, (hf e he).2.content⟩]
  heals budget hb := by
    obtain ⟨b, rfl⟩ : ∃ b, budget = b + 1 := ⟨budget - 1, by omega⟩
    exact pairsHeal_map fun e he =>
      ⟨(hf e he).1.heals b (by omega), (hf e he).2.heals b (by omega)⟩
  clean _ := by
    rw [show healMaxDepth - depth = healMaxDepth - (depth + 1) + 1 by omega]
    exact pairsClean_map fun e he => ⟨(hf e he).1.clean hd, (hf e he).2.clean hd⟩

/-- A copy of a wrapper, likewise. -/
theorem Copied.box {t : BoxTag} {p q : Value} (hd : depth + 1 ≤ healMaxDepth)
    (h : Copied (depth + 1) p q) : Copied depth (.box t p) (.box t q) where
  content := congrArg (Value.box t) h.content
  heals budget hb := by
    obtain ⟨b, rfl⟩ : ∃ b, budget = b + 1 := ⟨budget - 1, by omega⟩
    exact h.heals b (by omega)
  clean _ := by
    rw [show healMaxDepth - depth = healMaxDepth - (depth + 1) + 1 by omega]
    exact h.clean hd

/-- **The deep copy**: it denotes the same value, and it is clean exactly if the levels left reach
every arena value. -/
theorem copied_healDeepCopy (n : ℕ) (v : Value) (depth : ℕ) (hwf : v.WellFormed)
    (hn : v.height < n) : Copied depth v (healDeepCopy n v depth) := by
  induction n generalizing v depth with
  | zero => exact absurd hn (Nat.not_lt_zero _)
  | succ n ih =>
    by_cases hdepth : healMaxDepth < depth
    · rw [healDeepCopy, if_pos hdepth]
      exact Copied.refl (by rw [valueNeedsHeal.eq_def, if_pos hdepth])
    have hstore : ∀ x : Value, x.WellFormed → x.height < n →
        (healAt n (healDeepCopy n x (depth + 1))).content = x.content ∧
          (healAt n (healDeepCopy n x (depth + 1))).clean = x.heals healMaxDepth :=
      fun x hx hxn => (ih x (depth + 1) hx hxn).store hx hxn fun v => ih v 0
    rcases v with s | t | ⟨m, b⟩ | ⟨m, items⟩ | ⟨m, es⟩ | ⟨t, fs⟩ | ⟨t, p⟩
    · rw [healDeepCopy, if_neg hdepth]
      exact Copied.refl (by simp [valueNeedsHeal])
    · rw [healDeepCopy, if_neg hdepth]
      exact Copied.refl (by simp [valueNeedsHeal])
    · rw [healDeepCopy, if_neg hdepth]
      rcases m with _ | _ | _ <;> exact ⟨rfl, fun _ _ => rfl, fun _ => rfl⟩
    · rw [healDeepCopy_array hdepth]
      split_ifs with hm
      · have hmem : ∀ x ∈ items, x.height < n := fun x hx => by
          have := height_lt_of_mem hx
          rw [Value.height] at hn
          omega
        exact Copied.array hm fun x hx =>
          hstore x (wellFormed_array.mp hwf x hx) (hmem x hx)
      · exact Copied.refl (by simp [valueNeedsHeal, hm])
    · obtain ⟨hk, hv, hdistinct⟩ := wellFormed_dict.mp hwf
      have hmem : ∀ e ∈ es, e.1.height < n ∧ e.2.height < n := fun e he => by
        have := height_lt_of_mem_pairs he
        rw [Value.height] at hn
        omega
      have hkey : ∀ e ∈ es, (healDeepCopy n e.1 (depth + 1)).content = e.1.content ∧
          (healAt n (healDeepCopy n e.1 (depth + 1))).content = e.1.content := fun e he =>
        ⟨(ih e.1 (depth + 1) (hk e he) (hmem e he).1).content,
          (hstore e.1 (hk e he) (hmem e he).1).1⟩
      rw [healDeepCopy_dict hdepth hdistinct hkey]
      split_ifs with hm
      · refine Copied.dict (f := fun x => healAt n (healDeepCopy n x (depth + 1))) hm
          fun e he => ?_
        obtain ⟨h₁, h₂⟩ := hstore e.1 (hk e he) (hmem e he).1
        obtain ⟨h₃, h₄⟩ := hstore e.2 (hv e he) (hmem e he).2
        exact ⟨⟨h₁, h₃⟩, h₂, h₄⟩
      · exact Copied.refl (by simp [valueNeedsHeal, hm])
    · rw [healDeepCopy_object hdepth]
      split_ifs with hneeds
      · obtain ⟨hk, hv⟩ := wellFormed_object.mp hwf
        have hmem : ∀ e ∈ fs, e.1.height < n ∧ e.2.height < n := fun e he => by
          have := height_lt_of_mem_pairs he
          rw [Value.height] at hn
          omega
        refine Copied.object (f := fun x => healDeepCopy n x (depth + 1)) ?_ fun e he =>
          ⟨ih _ _ (hk e he) (hmem e he).1, ih _ _ (hv e he) (hmem e he).2⟩
        by_contra hcon
        have hquiet : fieldsNeedHeal fs (depth + 1) = false :=
          fieldsNeedHeal_iff.mpr fun e _ => by
            rw [valueNeedsHeal.eq_def, valueNeedsHeal.eq_def, if_pos (by omega),
              if_pos (by omega)]
            exact ⟨rfl, rfl⟩
        rw [valueNeedsHeal, if_neg hdepth, hquiet] at hneeds
        exact Bool.false_ne_true hneeds
      · exact Copied.refl (by simpa using hneeds)
    · rw [healDeepCopy_box hdepth]
      split_ifs with hneeds
      · exact Copied.box (depth_le_of_needsHeal hneeds)
          (ih p _ (wellFormed_box.mp hwf) (Nat.lt_of_succ_lt_succ hn))
      · exact Copied.refl (by simp [valueNeedsHeal, hneeds])

end Levels

/-- **Healing**: the healed value denotes the same, and is clean exactly if healing reaches every
arena value. -/
theorem healForMove_spec {v : Value} (hwf : v.WellFormed) :
    (healForMove v).content = v.content ∧ (healForMove v).clean = v.heals healMaxDepth := by
  rcases hneeds : valueNeedsHeal v 0 with _ | _
  · rw [healForMove, hneeds]
    exact ⟨rfl, (Copied.refl hneeds).clean (Nat.zero_le _)⟩
  · have hcopy := copied_healDeepCopy (v.height + 1) v 0 hwf (Nat.lt_succ_self _)
    rw [healForMove, if_pos hneeds]
    exact ⟨hcopy.content, hcopy.clean (Nat.zero_le _)⟩

/-- What is clean is stored as it is. -/
theorem healForMove_of_clean {v : Value} (h : v.clean = true) : healForMove v = v := by
  rw [healForMove, needsHeal_of_clean 0 h, if_neg Bool.false_ne_true]

end ZzLang.Aot
