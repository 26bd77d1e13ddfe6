import ZzLang.Runtime.FieldOps

/-!
# Fields of objects as lenses

Reading and writing resolve a promoted field by two recursions of their own. Both take the first
object, depth first, that has the field itself, so they arrive at the same one: a field can be
written exactly if it can be read, what was written is read back, writing what was read changes
nothing, and neither does a write that fails (`objectField_lens`).

What carries the argument is that a write keeps the names of the fields and of the embedded objects,
so the objects on the way are passed by and entered as before (`locateField_written`).
-/

namespace ZzLang.Runtime

variable {O : ValueOps}

theorem find_setFirst {name k : String} {w : Value} {fields : List (String × Value)}
    (h : fields.find? (fun f => f.1 == name) = some (k, w)) (value : Value) :
    (setFirst name value fields).find? (fun f => f.1 == name) = some (k, value) := by
  induction fields with
  | nil => cases h
  | cons f fields ih =>
    obtain ⟨fname, u⟩ := f
    by_cases hname : (fname == name) = true
    · obtain ⟨rfl, rfl⟩ : fname = k ∧ u = w := by simpa [hname] using h
      simp [setFirst, hname]
    · simp only [setFirst, if_neg hname]
      simpa [hname] using ih (by simpa [hname] using h)

theorem find_eq_none_congr {fields fields' : List (String × Value)} {name : String}
    (hnames : fields'.map Prod.fst = fields.map Prod.fst)
    (h : fields.find? (fun f => f.1 == name) = none) :
    fields'.find? (fun f => f.1 == name) = none := by
  have hany : ∀ fs : List (String × Value), fs.find? (fun f => f.1 == name) = none ↔
      ∀ k ∈ fs.map Prod.fst, ¬ (k == name) = true := by
    intro fs
    rw [List.find?_eq_none, List.forall_mem_map]
  rw [hany, hnames, ← hany]
  exact h

/-- A field without the name, or with it too deep, is passed by. -/
theorem setInFields_skip {fname name : String} {v : Value} {depth : ℕ}
    (hskip : isEmbeddedValue fname v = true → locateField v name (depth + 1) = none)
    (rest : List (String × Value)) (value : Value) :
    setInFields O ((fname, v) :: rest) name value depth =
      ((setInFields O rest name value depth).1,
        (fname, v) :: (setInFields O rest name value depth).2) := by
  rw [setInFields]
  by_cases hemb : isEmbeddedValue fname v = true
  · have hfails := setObjectFieldDepth_of_locate (O := O) name v (depth + 1)
      (isObject_of_isEmbeddedValue hemb)
    rw [hskip hemb] at hfails
    have hafter := setObjectFieldDepth_error name value v (depth + 1) (hfails value)
    rw [if_pos hemb]
    rcases hset : setObjectFieldDepth O v name value (depth + 1) with ⟨e | _, after⟩
    · rw [hset] at hafter
      obtain rfl : after = v := hafter
      rfl
    · exact absurd (by rw [hset]) (hfails value)
  · rw [if_neg hemb]

theorem locateInFields_skip {fname name : String} {v : Value} {depth : ℕ}
    (hskip : isEmbeddedValue fname v = true → locateField v name (depth + 1) = none)
    (rest : List (String × Value)) (i : ℕ) :
    locateInFields ((fname, v) :: rest) name depth i =
      locateInFields rest name depth (i + 1) := by
  rw [locateInFields]
  by_cases hemb : isEmbeddedValue fname v = true
  · rw [if_pos hemb, hskip hemb]
  · rw [if_neg hemb]

mutual

/-- A field that is found can be written, and is found again where it was, with the new value. -/
theorem locateField_written (name : String) (value : Value) : ∀ (v : Value) (depth : ℕ),
    v.isObject = true → ∀ path w, locateField v name depth = some (path, w) →
      ∃ v', setObjectFieldDepth O v name value depth = (.ok (), v') ∧
        locateField v' name depth = some (path, value) ∧
        ∀ fname, isEmbeddedValue fname v' = isEmbeddedValue fname v
  | .object n fields, depth, _, path, w, hloc => by
    simp only [locateField] at hloc
    rcases hfind : fields.find? fun f => f.1 == name with _ | ⟨k, u⟩
    · have hdirect : ¬ (fields.any fun f => f.1 == name) = true := by
        intro hany
        have hsome := List.find?_isSome.mpr (List.any_eq_true.mp hany)
        rw [hfind] at hsome
        cases hsome
      simp only [hfind] at hloc
      split_ifs at hloc with hdepth
      obtain ⟨fields', hset, hloc', hnames⟩ :=
        locateInFields_written name value fields depth 0 path w hloc
      refine ⟨.object n fields', ?_, ?_, fun _ => rfl⟩
      · rw [setObjectFieldDepth, if_neg hdirect, if_pos hdepth, hset]
      · simp only [locateField, find_eq_none_congr hnames hfind, hdepth, if_true, hloc']
    · simp only [hfind, Option.some.injEq, Prod.mk.injEq] at hloc
      obtain ⟨rfl, rfl⟩ := hloc
      refine ⟨.object n (setFirst name value fields), ?_, ?_, fun _ => rfl⟩
      · rw [setObjectFieldDepth, if_pos (any_of_find hfind)]
      · simp only [locateField, find_setFirst hfind]
  | .int _, _, h, _, _, _ | .float _, _, h, _, _, _ | .str _, _, h, _, _, _
  | .bool _, _, h, _, _, _ | .unit, _, h, _, _, _ | .some _, _, h, _, _, _
  | .none, _, h, _, _, _ | .ok _, _, h, _, _, _ | .err _, _, h, _, _, _
  | .array _, _, h, _, _, _ | .tuple _, _, h, _, _, _ | .dict _, _, h, _, _, _
  | .range _ _ _, _, h, _, _, _ | .request _, _, h, _, _, _ | .handle _ _, _, h, _, _, _ => by
    cases h

theorem locateInFields_written (name : String) (value : Value) :
    ∀ (fields : List (String × Value)) (depth i : ℕ) (path : List ℕ) (w : Value),
      locateInFields fields name depth i = some (path, w) →
        ∃ fields', setInFields O fields name value depth = (true, fields') ∧
          locateInFields fields' name depth i = some (path, value) ∧
          fields'.map Prod.fst = fields.map Prod.fst
  | [], _, _, _, _, hloc => by
    rw [locateInFields] at hloc
    cases hloc
  | (fname, v) :: rest, depth, i, path, w, hloc => by
    by_cases hfound : isEmbeddedValue fname v = true ∧ (locateField v name (depth + 1)).isSome
    · obtain ⟨hemb, hsome⟩ := hfound
      obtain ⟨⟨p, u⟩, hv⟩ := Option.isSome_iff_exists.mp hsome
      obtain ⟨v', hset, hloc', hsame⟩ := locateField_written name value v (depth + 1)
        (isObject_of_isEmbeddedValue hemb) p u hv
      rw [locateInFields, if_pos hemb, hv, Option.some.injEq, Prod.mk.injEq] at hloc
      obtain ⟨rfl, -⟩ := hloc
      refine ⟨(fname, v') :: rest, ?_, ?_, rfl⟩
      · rw [setInFields, if_pos hemb, hset]
      · rw [locateInFields, if_pos ((hsame fname).trans hemb), hloc']
    · have hskip : isEmbeddedValue fname v = true → locateField v name (depth + 1) = none := by
        intro hemb
        simpa using fun hsome => hfound ⟨hemb, hsome⟩
      rw [locateInFields_skip hskip] at hloc
      obtain ⟨fields', hset, hloc', hnames⟩ :=
        locateInFields_written name value rest depth (i + 1) path w hloc
      refine ⟨(fname, v) :: fields', ?_, ?_, by rw [List.map_cons, List.map_cons, hnames]⟩
      · rw [setInFields_skip hskip, hset]
      · rw [locateInFields_skip hskip, hloc']

end

/-- Reading and writing a field of an object obey the laws of a lens, and a write that fails leaves
the object. -/
theorem objectField_lens (n name : String) (fields : List (String × Value)) :
    (∀ value, (setObjectField O (.object n fields) name value).1 = .ok () ↔
        ∃ w, objectField O (.object n fields) name = .ok w) ∧
      (∀ value o, setObjectField O (.object n fields) name value = (.ok (), o) →
        objectField O o name = .ok value) ∧
      (∀ w, objectField O (.object n fields) name = .ok w →
        setObjectField O (.object n fields) name w = (.ok (), .object n fields)) ∧
      ∀ value, (setObjectField O (.object n fields) name value).1 ≠ .ok () →
        (setObjectField O (.object n fields) name value).2 = .object n fields := by
  have hread : ∀ {o : Value} {w : Value}, objectField O o name = .ok w ↔
      ∃ path, locateField o name 0 = some (path, w) := by
    intro o w
    simp only [objectField, objectFieldOpt]
    rcases locateField o name 0 with _ | ⟨path, u⟩ <;> simp
  have hlocate := setObjectFieldDepth_of_locate (O := O) name (.object n fields) 0 rfl
  have hwritten : ∀ path w, locateField (.object n fields) name 0 = some (path, w) →
      ∀ value, ∃ v', setObjectFieldDepth O (.object n fields) name value 0 = (.ok (), v') ∧
        locateField v' name 0 = some (path, value) ∧
        ∀ fname, isEmbeddedValue fname v' = isEmbeddedValue fname (.object n fields) :=
    fun path w hloc value => locateField_written name value _ 0 rfl path w hloc
  simp only [hread, setObjectField]
  rcases hloc : locateField (.object n fields) name 0 with _ | ⟨path, w⟩
  · rw [hloc] at hlocate
    refine ⟨fun value => ⟨fun hok => absurd hok (hlocate value), ?_⟩, fun value o hset => ?_, ?_,
      fun value hfails => setObjectFieldDepth_error name value _ 0 hfails⟩
    · rintro ⟨w, path, ⟨⟩⟩
    · exact absurd (by rw [hset]) (hlocate value)
    · rintro w ⟨path, ⟨⟩⟩
  · rw [hloc] at hlocate
    refine ⟨fun value => ⟨fun _ => ⟨w, path, rfl⟩, fun _ => ?_⟩, fun value o hset => ?_, ?_,
      fun value hfails => setObjectFieldDepth_error name value _ 0 hfails⟩
    · obtain ⟨v', hset, -⟩ := hwritten path w hloc value
      rw [hset]
    · obtain ⟨v', hset', hloc', -⟩ := hwritten path w hloc value
      rw [hset'] at hset
      obtain ⟨-, rfl⟩ := Prod.mk.inj hset
      exact ⟨path, hloc'⟩
    · rintro u ⟨p, hsome⟩
      obtain ⟨rfl, rfl⟩ : path = p ∧ w = u := by simpa using hsome
      exact hlocate

end ZzLang.Runtime
