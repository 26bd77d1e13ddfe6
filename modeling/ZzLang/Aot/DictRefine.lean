import ZzLang.Aot.DictRuns
import ZzLang.Runtime.DictData

/-!
# Dicts of compiled programs and of the interpreter

Both kinds of dicts denote a plain list of pairs, where a key means the first pair that has it. So
they agree as far as they agree on when two keys are the same. They do for integers, booleans,
strings, doubles, ranges, `unit` and `none`, whatever the other key is (`keyEq_native`). For
compound keys this is a matter of the two equalities, and it is asked of the keys of the run.

A dict made by `zz_dict_new_arena_sized` in an arena has room for as many keys as its hint says. It
agrees with the interpreter's dict as long as that does not outgrow the hint (`dict_refines`); the
compiler passes the number of entries of a literal.
-/

namespace ZzLang.Aot

open FirstIndex
open ZzLang.Runtime (DictData HandleKind HttpRequest valueKeys)

/-! ### Values of the interpreter in compiled programs -/

/-- The tags of keys without parts. -/
def plainTags : List Tag :=
  [.unit, .int, .float, .bool, .optionNone, .range, .ptr .str]

/-- What the handles and requests of the interpreter are in a compiled program. Whatever it is, it
is on the heap, and of none of the kinds that have no parts. -/
structure Twins where
  handle : HandleKind → ℕ → Value
  request : HttpRequest → Value
  content_handle : ∀ kind id, (handle kind id).content = handle kind id
  content_request : ∀ req, (request req).content = request req
  tag_handle : ∀ kind id, (handle kind id).tag ∉ plainTags
  tag_request : ∀ req, (request req).tag ∉ plainTags

/-- The bytes of a text. -/
def strBytes (s : String) : List UInt8 :=
  s.toByteArray.data.toList

variable (T : Twins)

mutual

/-- A value of the interpreter in a compiled program. -/
def native : Runtime.Value → Value
  | .int i => .scalar (.int i.toInt)
  | .float x => .scalar (.float x)
  | .str s => .str .heap (strBytes s)
  | .bool b => .scalar (.bool b)
  | .unit => .scalar .unit
  | .some v => .box .optionSome (native v)
  | .none => .scalar .optionNone
  | .ok v => .box .resultOk (native v)
  | .err v => .box .resultErr (native v)
  | .array items => .array .heap (natives items)
  | .tuple items => .box .tuple (.array .heap (natives items))
  | .dict entries => .dict .heap (nativeEntries entries)
  | .object name fields => .object (some (strBytes name)) (nativeFields fields)
  | .range start stop step => .scalar (.range start.toInt stop.toInt step.toInt)
  | .request req => T.request req
  | .handle kind id => T.handle kind id

/-- The items of an array. -/
def natives : List Runtime.Value → List Value
  | [] => []
  | v :: vs => native v :: natives vs

/-- The entries of a dict. -/
def nativeEntries : List (Runtime.Value × Runtime.Value) → List (Value × Value)
  | [] => []
  | (k, v) :: es => (native k, native v) :: nativeEntries es

/-- The fields of a struct. -/
def nativeFields : List (String × Runtime.Value) → List (Value × Value)
  | [] => []
  | (n, v) :: fs => (.str .heap (strBytes n), native v) :: nativeFields fs

end

theorem strBytes_inj {s t : String} : strBytes s = strBytes t ↔ s = t := by
  refine ⟨fun h => ?_, congrArg strBytes⟩
  exact String.toByteArray_inj.mp (ByteArray.ext (Array.toList_inj.mp h))

/-! ### Keys -/

variable (H : HandleKind → ℕ → ℕ → Bool)

/-- The tag of a key without parts. -/
def plainTag : Runtime.Value → Option Tag
  | .int _ => some .int
  | .float _ => some .float
  | .str _ => some (.ptr .str)
  | .bool _ => some .bool
  | .unit => some .unit
  | .none => some .optionNone
  | .range _ _ _ => some .range
  | _ => none

theorem plainTag_eq (k : Runtime.Value) :
    plainTag k = if (native T k).tag ∈ plainTags then some (native T k).tag else none := by
  cases k with
  | request req => exact (if_neg (T.tag_request req)).symm
  | handle kind id => exact (if_neg (T.tag_handle kind id)).symm
  | _ => rfl

/-- Equal keys of the interpreter are both without parts, and of one kind, or neither is. -/
theorem plainTag_of_eq {k k' : Runtime.Value} (h : k.eq H k' = true) : plainTag k = plainTag k' := by
  revert h
  fun_cases Runtime.Value.eq H k k' <;> simp [plainTag]

/-- **Keys without parts** are the same in a compiled program as in the interpreter. -/
theorem keyEq_native {k k' : Runtime.Value}
    (h : (plainTag k).isSome = true ∨ (plainTag k').isSome = true) :
    keyEq (native T k) (native T k') = k.eq H k' := by
  by_cases htag : plainTag k = plainTag k'
  · have hk : (plainTag k).isSome = true := h.elim id fun h => htag ▸ h
    cases k with
    | int | float | str | bool | unit | none | range =>
      cases k' <;> cases htag
      simp [keyEq, native, Value.tag, Scalar.tag, valuesEqual, Scalar.equal, Runtime.Value.eq,
        Scalar.toDouble, strBytes_inj, Int64.toInt_inj, beq_eq_decide]
    | _ => cases hk
  · have hne : k.eq H k' = false := Bool.eq_false_iff.mpr fun heq => htag (plainTag_of_eq H heq)
    have hdiff : (native T k).tag ≠ (native T k').tag := fun heq => by
      rw [plainTag_eq T k, plainTag_eq T k', heq] at htag
      exact htag rfl
    rw [hne, keyEq, decide_eq_false hdiff, Bool.false_and]

/-! ### Runs of the interpreter -/

/-- One operation on a dict of the interpreter. -/
def vmCall (dict : DictData) :
    DictCall Runtime.Value → Except Runtime.Failure (DictData × DictAnswer Runtime.Value)
  | .set key val => do return (← dict.insert H key val, .done)
  | .get key => do return (dict, .got (← dict.get H key))
  | .has key => do return (dict, .has (← dict.get H key).isSome)
  | .keys => .ok (dict, .keys (dict.entries.map Prod.fst))
  | .dup _ => .ok (dict, .copy dict.entries)

/-- One operation after another, with their answers. -/
def vmRun (dict : DictData) : List (DictCall Runtime.Value) →
    Except Runtime.Failure (DictData × List (DictAnswer Runtime.Value))
  | [] => .ok (dict, [])
  | op :: ops => do
    let (dict', answer) ← vmCall H dict op
    let (dict'', answers) ← vmRun dict' ops
    return (dict'', answer :: answers)

variable {H} in
/-- **A run of the interpreter** is that run on a plain list without a bound. -/
theorem vmRun_spec (ops : List (DictCall Runtime.Value)) {dict : DictData} (h : dict.Indexed) :
    ∃ dict', vmRun H dict ops =
        .ok (dict', ((⟨dict.entries, none⟩ : Plain _).run (valueKeys H) ops).2) ∧
      dict'.entries = ((⟨dict.entries, none⟩ : Plain _).run (valueKeys H) ops).1.entries := by
  induction ops generalizing dict with
  | nil => exact ⟨dict, rfl, rfl⟩
  | cons op ops ih =>
    have hcall : ∃ next, vmCall H dict op =
        .ok (next, ((⟨dict.entries, none⟩ : Plain _).call (valueKeys H) op).2) ∧ next.Indexed ∧
          ((⟨dict.entries, none⟩ : Plain _).call (valueKeys H) op).1 = ⟨next.entries, none⟩ := by
      cases op with
      | set key val =>
        obtain ⟨next, hinsert, hnext, hentries⟩ := DictData.insert_spec (H := H) h key val
        refine ⟨next, by rw [vmCall, hinsert]; rfl, hnext, ?_⟩
        rw [hentries, Plain.call, storeWithin_none]
      | get key | has key => exact ⟨dict, by rw [vmCall, DictData.get_eq h]; rfl, h, rfl⟩
      | keys => exact ⟨dict, rfl, h, rfl⟩
      | dup go => exact ⟨dict, rfl, h, by cases go <;> rfl⟩
    obtain ⟨next, hstep, hnext, hplain⟩ := hcall
    obtain ⟨dict', hrun, hentries⟩ := ih hnext
    refine ⟨dict', ?_, ?_⟩
    · rw [vmRun, hstep]
      simp only [bind, Except.bind, hrun, Plain.run, hplain]
      rfl
    · simp only [Plain.run, hplain, hentries]

/-! ### Refinement -/

/-- How a dict is made. -/
inductive DictMake
  | new
  | newSized (hint : ℕ)
  | newArena (arena : Bool)
  | newArenaSized (arena : Bool) (hint : ℕ)

def DictMake.dict : DictMake → Option Dict
  | .new => some .new
  | .newSized hint => Dict.newSized hint
  | .newArena arena => some (.newArena arena)
  | .newArenaSized arena hint => Dict.newArenaSized arena hint

/-- How many keys the dict has room for, if there is a bound. -/
def DictMake.room : DictMake → Option ℕ
  | .newArenaSized true hint => some hint
  | _ => none

theorem DictMake.spec (make : DictMake) :
    ∃ d, make.dict = some d ∧ d.Valid ∧ d.plain = ⟨[], make.room⟩ := by
  have hempty : ∀ mem : DictMem, mem ≠ .sized → (⟨mem, [], 0, none⟩ : Dict).Valid ∧
      (⟨mem, [], 0, none⟩ : Dict).plain = ⟨[], none⟩ := fun mem hmem =>
    ⟨⟨List.Pairwise.nil, fun _ h => absurd h List.not_mem_nil, nofun, fun _ => le_rfl⟩,
      by rw [Dict.plain, if_neg hmem]; rfl⟩
  cases make with
  | new => exact ⟨_, rfl, hempty .heap (by rintro ⟨⟩)⟩
  | newSized hint => exact newArenaSized_spec false hint
  | newArena arena => exact ⟨_, rfl, hempty _ (by cases arena <;> decide)⟩
  | newArenaSized arena hint =>
    cases arena
    · exact newArenaSized_spec false hint
    · exact newArenaSized_spec true hint

/-- **Dicts of compiled programs refine those of the interpreter.** However a dict is made and
whatever is done to it, every loop ends, and its entries and all answers are those of the plain list
of pairs of the interpreter's values with room for as many keys as the dict has. The interpreter's
dict goes through the same run if its pairs do not outgrow that room. The table of the dict has an
empty slot, and its slots name entries. Compound keys of the run are asked to be the same in the
program as in the interpreter. -/
theorem dict_refines (make : DictMake) (ops : List (DictCall Value))
    (vops : List (DictCall Runtime.Value))
    (hops : ops.map (DictCall.map Value.content) = vops.map (DictCall.map (native T)))
    (hwf : ∀ op ∈ ops, WellFormedCall op)
    (hkeys : ∀ k ∈ vops.flatMap DictCall.keysOf, ∀ k' ∈ vops.flatMap DictCall.keysOf,
      plainTag k = none → plainTag k' = none → keyEq (native T k) (native T k') = k.eq H k') :
    ∃ d answers dict vanswers,
      (make.dict.bind fun d => d.run ops) = some (d, answers) ∧
      vmRun H .new vops = .ok (dict, vanswers) ∧
      (mapPairs Value.content d.entries =
          mapPairs (native T) ((⟨[], make.room⟩ : Plain _).run (valueKeys H) vops).1.entries ∧
        answers.map (DictAnswer.map Value.content) =
          ((⟨[], make.room⟩ : Plain _).run (valueKeys H) vops).2.map
            (DictAnswer.map (native T))) ∧
      (make.room.all (dict.entries.length ≤ ·) = true →
        mapPairs Value.content d.entries = mapPairs (native T) dict.entries ∧
        answers.map (DictAnswer.map Value.content) = vanswers.map (DictAnswer.map (native T))) ∧
      ∀ slots, d.idx = some slots → 0 ∈ slots ∧ ∀ j, j + 1 ∈ slots → j < d.entries.length := by
  obtain ⟨start, hstart, V, hempty⟩ := make.spec
  obtain ⟨d, answers, hrun, V', hplain⟩ := V.run_spec hwf
  obtain ⟨dict, hvm, hentries⟩ := vmRun_spec (H := H) vops DictData.indexed_new
  have hagree : ∀ k k' : Runtime.Value, k ∈ vops.flatMap DictCall.keysOf →
      k' ∈ vops.flatMap DictCall.keysOf →
      nativeKeys.eq (native T k) (native T k') = (valueKeys H).eq k k' := fun k k' hk hk' => by
    by_cases hplainKey : (plainTag k).isSome = true ∨ (plainTag k').isSome = true
    · exact keyEq_native T H hplainKey
    · simp only [not_or, Option.not_isSome_iff_eq_none] at hplainKey
      exact hkeys k hk k' hk' hplainKey.1 hplainKey.2
  have hmap := @Plain.run_map _ _ _ (valueKeys H) _ nativeKeys (native T)
    (· ∈ vops.flatMap DictCall.keysOf) hagree vops
    (fun op hop k hk => List.mem_flatMap.mpr ⟨op, hop, hk⟩) ⟨[], make.room⟩
    (fun _ h => absurd h List.not_mem_nil)
  have hsame : mapPairs Value.content d.entries =
        mapPairs (native T) ((⟨[], make.room⟩ : Plain _).run (valueKeys H) vops).1.entries ∧
      answers.map (DictAnswer.map Value.content) =
        ((⟨[], make.room⟩ : Plain _).run (valueKeys H) vops).2.map (DictAnswer.map (native T)) := by
    rw [hops, hempty] at hplain
    have hboth := hplain.trans hmap
    exact ⟨congrArg (Plain.entries ∘ Prod.fst) hboth, congrArg Prod.snd hboth⟩
  refine ⟨d, answers, dict, _, by rw [hstart]; exact hrun, hvm, hsame, fun hroom => ?_,
    fun slots hslots => ?_⟩
  · obtain ⟨hp, hanswers⟩ := @Plain.run_room _ _ (valueKeys H) vops [] make.room
      (hentries ▸ hroom)
    rw [hsame.1, hsame.2, hp, hanswers, hentries]
    exact ⟨rfl, rfl⟩
  · have table := V'.table slots hslots
    exact ⟨table.zero_mem, fun j hj => (table.linked.entry j hj).1⟩

/-- Handles and requests are not used. -/
def noTwins : Twins :=
  ⟨fun _ _ => .scalar (.handle .db 0), fun _ => .object none [], fun _ _ => rfl, fun _ => rfl,
    fun _ _ => by decide, fun _ => by decide⟩

/-- Fourteen numbers, a string and an empty array are set as keys, and the string is looked up in a
copy. -/
def mixedCalls : List (DictCall Runtime.Value) :=
  (List.range 14).map (fun i => .set (.int (.ofNat i)) .unit) ++
    [.set (.str "a") (.int 1), .set (.array []) .unit, .dup true, .get (.str "a")]

/-- The string and the array are first in an arena. -/
def mixedNatives : List (DictCall Value) :=
  (List.range 14).map (fun i => .set (.scalar (.int (Int64.ofNat i).toInt)) (.scalar .unit)) ++
    [.set (.str .arena [97]) (.scalar (.int 1)), .set (.array .arena []) (.scalar .unit),
      .dup true, .get (.str .heap [97])]

/-- The table is made at the ninth key, and made anew with more slots at the thirteenth. -/
theorem dict_refines_copy :
    ∃ d answers dict vanswers slots,
      (DictMake.new.dict.bind fun d => d.run mixedNatives) = some (d, answers) ∧
      vmRun (fun _ _ _ => false) .new mixedCalls = .ok (dict, vanswers) ∧
      mapPairs Value.content d.entries = mapPairs (native noTwins) dict.entries ∧
      answers.map (DictAnswer.map Value.content) =
        vanswers.map (DictAnswer.map (native noTwins)) ∧
      d.idx = some slots ∧ slots.length = 32 ∧ 0 ∈ slots := by
  have hbytes : strBytes "a" = [97] := by decide
  have hops : mixedNatives.map (DictCall.map Value.content) =
      mixedCalls.map (DictCall.map (native noTwins)) := by
    simp [mixedNatives, mixedCalls, DictCall.map, native, natives, hbytes, Function.comp_def]
  have hwf : ∀ op ∈ mixedNatives, WellFormedCall op :=
    List.forall_mem_append.mpr ⟨List.forall_mem_map.mpr fun i _ => ⟨.scalar _, .scalar _⟩,
      by simp [WellFormedCall, wellFormed_array, Value.WellFormed.str, Value.WellFormed.scalar]⟩
  have hcompound : ∀ k ∈ mixedCalls.flatMap DictCall.keysOf, plainTag k = none → k = .array [] := by
    intro k hk htag
    simp only [mixedCalls, List.flatMap_append, List.mem_append, List.mem_flatMap] at hk
    rcases hk with ⟨op, hop, hk⟩ | ⟨op, hop, hk⟩
    · obtain ⟨i, -, rfl⟩ := List.mem_map.mp hop
      cases List.mem_singleton.mp hk
      cases htag
    · simp only [List.mem_cons, List.not_mem_nil, or_false] at hop
      rcases hop with rfl | rfl | rfl | rfl <;> simp [DictCall.keysOf] at hk <;> subst hk <;>
        first | rfl | cases htag
  obtain ⟨d, answers, dict, vanswers, hrun, hvm, -, hsame, htable⟩ :=
    dict_refines noTwins (fun _ _ _ => false) .new _ _ hops hwf fun k hk k' hk' htag htag' => by
      rw [hcompound k hk htag, hcompound k' hk' htag']
      simp [native, natives, keyEq, valuesEqual, itemsEqual, Runtime.Value.eq,
        Runtime.Value.eqList]
  have hslots : ((DictMake.new.dict.bind fun d => d.run mixedNatives).map
      fun p => p.1.idx.map List.length) = some (some 32) := by decide +kernel
  rw [hrun] at hslots
  obtain ⟨slots, hidx, hlen⟩ := Option.map_eq_some_iff.mp (Option.some.inj hslots)
  obtain ⟨hentries, hanswers⟩ := hsame rfl
  exact ⟨d, answers, dict, vanswers, slots, hrun, hvm, hentries, hanswers, hidx, hlen,
    (htable slots hidx).1⟩

/-- A key that finds the buffer of an arena full is dropped, and two arrays are the same key in a
compiled program if their items are the same number. -/
theorem key_is_dropped :
    (((DictMake.newArenaSized true 0).dict.bind fun d => d.run
        [.set (.scalar (.int 1)) (.scalar (.int 2)), .has (.scalar (.int 1))]).map
          fun p => p.1.entries.length) = some 0 ∧
    ((vmRun (fun _ _ _ => false) .new [.set (.int 1) (.int 2), .has (.int 1)]).map
          fun p => p.1.entries.length) = .ok 1 ∧
    ((DictMake.new.dict.bind fun d => d.run
        [.set (.array .heap [.scalar (.int 1)]) (.scalar .unit),
          .set (.array .heap [.scalar (.float ⟨0x3FF0000000000000⟩)]) (.scalar .unit)]).map
          fun p => p.1.entries.length) = some 1 ∧
    ((vmRun (fun _ _ _ => false) .new [.set (.array [.int 1]) .unit,
        .set (.array [.float ⟨0x3FF0000000000000⟩]) .unit]).map
          fun p => p.1.entries.length) = .ok 2 := by
  refine ⟨by decide, rfl, ?_, ?_⟩
  · have hone : F64.ieeeEq (.ofInt 1) ⟨0x3FF0000000000000⟩ = true := by decide
    have hsame : keyEq (.array .heap [.scalar (.int 1)])
        (.array .heap [.scalar (.float ⟨0x3FF0000000000000⟩)]) = true := by
      simp [keyEq, Value.tag, valuesEqual, itemsEqual, Scalar.equal, Scalar.toDouble, hone]
    have hclone : cloneForStore (.array .heap [.scalar (.int 1)]) =
        .array .heap [.scalar (.int 1)] := by
      simp [cloneForStore, valueNeedsHeal, ArrayMem.isArena]
    simp [DictMake.dict, Dict.new, Dict.run, Dict.call, Dict.set, Dict.find, dictFind, dictKeyHash,
      Dict.append, Dict.idxInsert, hsame, hclone]
  · have hdiff : Runtime.Value.eq (fun _ _ _ => false) (.array [.int 1])
        (.array [.float ⟨0x3FF0000000000000⟩]) = false := by
      simp [Runtime.Value.eq, Runtime.Value.eqList]
    simp [vmRun, vmCall, DictData.insert, DictData.new, Runtime.DictKey.of,
      DictData.insertLinear, hdiff, DictData.ensureIndex, DictData.indexThreshold, bind,
      Except.bind, Except.map, pure, Except.pure]

end ZzLang.Aot
