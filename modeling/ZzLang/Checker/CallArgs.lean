import Mathlib.Data.List.Nodup
import Mathlib.Data.List.Count
import Mathlib.Tactic.Common

/-!
# Arguments and parameters

A call has positional arguments and named ones. The checker first counts them, against the number of
parameters and the number of defaults, then puts them into the slots of the parameters, and then
checks each argument against the type of its slot. That a slot without a default stays empty is
never looked at: the count stands in for it. But the count does not say which parameters are left
out, so a call that names a parameter with a default may leave out one without
(`accepted_iff_supplied`).

The types and the check of one argument are parameters here.
-/

namespace ZzLang.Checker

variable {T E S D : Type}

/-- The parameters of a function: names, types, and which have a default. A method and a value of
a function type give no pattern of defaults. -/
structure ParamList (T : Type) where
  names : List String
  types : List T
  hasDefault : List Bool
  length_types : types.length = names.length
  length_hasDefault : hasDefault.length ≤ names.length
  nodup : names.Nodup

namespace ParamList

variable (P : ParamList T)

/-- The fewest arguments a call needs (`allowed_min`). -/
def allowedMin : ℕ :=
  P.types.length - P.hasDefault.count true

/-- The signature in a message. -/
def sig : List (String × T) :=
  P.names.zip P.types

end ParamList

/-- What is wrong with the arguments of a call, apart from their types. -/
inductive ArgError (T E : Type)
  | count (callee : Option String) (allowedMin total : ℕ) (sig : List (String × T)) (found : ℕ)
    (missing : Option (String × T))
  | tooMany (max : ℕ) (arg : E)
  | conflict (pos : ℕ) (arg : E)
  | provided (name : String) (val : E)
  | unknown (name : String)

/-- A parameter in a message. -/
def showParam (showTy : T → String) (p : String × T) : String :=
  p.1 ++ ": " ++ showTy p.2

/-- How many arguments a function takes. -/
def countText (allowedMin total : ℕ) : String :=
  if allowedMin = total then
    if total = 1 then "takes 1 argument" else s!"takes {total} arguments"
  else s!"takes {allowedMin} to {total} arguments"

/-- The text of an error. -/
def ArgError.message (showTy : T → String) : ArgError T E → String
  | count callee allowedMin total sig found _ =>
    let count := countText allowedMin total
    let head := match callee.filter (· ≠ "") with
      | some name => "\x60" ++ name ++ "\x60 " ++ count
      | none => count
    head ++ " (" ++ ", ".intercalate (sig.map (showParam showTy)) ++ "), found " ++ toString found
  | tooMany max _ => s!"too many positional arguments (max {max})"
  | conflict pos _ => "positional argument \x60" ++ toString pos ++ "\x60 conflicts with named argument"
  | provided name _ => "argument \x60" ++ name ++ "\x60 already provided positionally"
  | unknown name => "unknown parameter \x60" ++ name ++ "\x60"

/-- The note of an error. -/
def ArgError.note (showTy : T → String) : ArgError T E → Option String
  | count _ _ _ _ _ (some p) => some ("missing argument for \x60" ++ showParam showTy p ++ "\x60")
  | _ => none

/-! ### Slots -/

/-- The loop over the positional arguments. -/
def fillPositional (total : ℕ) : ℕ → List E → List (Option E) →
    Except (ArgError T E) (List (Option E))
  | _, [], slots => .ok slots
  | i, arg :: args, slots =>
    if total ≤ i then .error (.tooMany total arg)
    else if (slots[i]?.join).isSome then .error (.conflict i arg)
    else fillPositional total (i + 1) args (slots.set i (some arg))

/-- The loop over the named arguments. -/
def fillNamed (names : List String) : List (String × E) → List (Option E) →
    Except (ArgError T E) (List (Option E))
  | [], slots => .ok slots
  | (name, val) :: named, slots =>
    match names.idxOf? name with
    | some i =>
      if (slots[i]?.join).isSome then .error (.provided name val)
      else fillNamed names named (slots.set i (some val))
    | none => .error (.unknown name)

/-- The count of arguments, and the slots. -/
def fillSlots (callee : Option String) (P : ParamList T) (args : List E)
    (named : List (String × E)) : Except (ArgError T E) (List (Option E)) :=
  let totalProvided := args.length + named.length
  let totalParams := P.types.length
  if totalProvided < P.allowedMin ∨ totalParams < totalProvided then
    let missing := if totalProvided < P.allowedMin then
      ((P.sig.drop args.length).filter fun p => !named.any fun a => a.1 = p.1).head? else none
    .error (.count callee P.allowedMin totalParams P.sig totalProvided missing)
  else do
    let slots ← fillPositional totalParams 0 args (List.replicate totalParams none)
    fillNamed P.names named slots

/-- Each argument in a slot is checked against the type of the slot. -/
def checkSlots (checkArg : ℕ → E → S → S × List D) : ℕ → List (Option E) → S → S × List D
  | _, [], s => (s, [])
  | i, none :: slots, s => checkSlots checkArg (i + 1) slots s
  | i, some arg :: slots, s =>
    let (s, errors) := checkArg i arg s
    let (s, errors') := checkSlots checkArg (i + 1) slots s
    (s, errors ++ errors')

/-- `check_args_against`: the state of the checker afterwards, and the errors it has reported. -/
def checkArgsAgainst (checkArg : ℕ → E → S → S × List D) (callee : Option String)
    (P : ParamList T) (args : List E) (named : List (String × E)) (s : S) :
    S × List (ArgError T E ⊕ D) :=
  match fillSlots callee P args named with
  | .error e => (s, [.inl e])
  | .ok slots =>
    let (s, errors) := checkSlots checkArg 0 slots s
    (s, errors.map .inr)

/-! ### What the slots should be -/

section Spec

variable (P : ParamList T) (args : List E) (named : List (String × E))

/-- Argument `j`, where the positional ones come first, fills parameter `i`. -/
def Fills (j i : ℕ) : Prop :=
  i < P.names.length ∧ (j < args.length ∧ i = j ∨
    args.length ≤ j ∧ ∃ p, named[j - args.length]? = some p ∧ P.names[i]? = some p.1)

/-- **A call that supplies what is required**: each parameter without a default is filled by exactly
one argument, and each argument fills exactly one parameter. -/
structure Supplied : Prop where
  params : ∀ i < P.names.length, P.hasDefault[i]? ≠ some true → ∃! j, Fills P args named j i
  args : ∀ j < args.length + named.length, ∃! i, Fills P args named j i

/-- The arguments can be placed: there are not too many in positions, and names are those of other
parameters, each given once. -/
structure Placeable : Prop where
  le : args.length ≤ P.names.length
  known : ∀ p ∈ named, p.1 ∈ P.names.drop args.length
  once : (named.map Prod.fst).Nodup

/-- The slots of arguments that can be placed. -/
def placed : List (Option E) :=
  args.map some ++ (P.names.drop args.length).map fun n => named.lookup n

/-- A parameter without a default that no argument fills. -/
def Missing (i : ℕ) : Prop :=
  i < P.names.length ∧ P.hasDefault[i]? ≠ some true ∧ args.length ≤ i ∧
    ∀ p ∈ named, P.names[i]? ≠ some p.1

end Spec

/-! ### The loops -/

variable {P : ParamList T} {args : List E} {named : List (String × E)}

theorem fillPositional_ok (total : ℕ) (before as : List E) (k : ℕ)
    (hle : before.length + as.length ≤ total) :
    fillPositional (T := T) total before.length as
      (before.map some ++ List.replicate (as.length + k) none) =
        .ok ((before ++ as).map some ++ List.replicate k none) := by
  induction as generalizing before with
  | nil => simp [fillPositional]
  | cons a as ih =>
    rw [List.length_cons] at hle ⊢
    have hslots : (before.map some ++ List.replicate (as.length + 1 + k) (none : Option E)).set
        before.length (some a) = (before ++ [a]).map some ++ List.replicate (as.length + k) none := by
      rw [List.set_append_right _ _ (by simp), List.length_map, Nat.sub_self,
        show as.length + 1 + k = as.length + k + 1 by omega, List.replicate_succ, List.set_cons_zero]
      simp
    have hnone : ((before.map some ++ List.replicate (as.length + 1 + k) (none : Option E))[
        before.length]?.join).isSome = false := by
      rw [List.getElem?_append_right (by simp), List.length_map, Nat.sub_self,
        show as.length + 1 + k = as.length + k + 1 by omega, List.replicate_succ]
      rfl
    rw [fillPositional, if_neg (by omega), hnone, if_neg (by simp), hslots]
    have hnext := ih (before ++ [a]) (by simp; omega)
    rw [List.length_append, List.length_singleton] at hnext
    rw [hnext, List.append_assoc, List.singleton_append]

theorem getElem?_placed {i : ℕ} (hi : args.length ≤ i) :
    (placed P args named)[i]? = P.names[i]?.map fun n => named.lookup n := by
  rw [placed, List.getElem?_append_right (by simpa using hi), List.length_map, List.getElem?_map,
    List.getElem?_drop, Nat.add_sub_cancel' hi]

theorem getElem?_placed_left {i : ℕ} (hi : i < args.length) :
    (placed P args named)[i]? = some (some args[i]) := by
  rw [placed, List.getElem?_append_left (by simpa using hi), List.getElem?_map,
    List.getElem?_eq_getElem hi, Option.map_some]

theorem length_placed (hle : args.length ≤ P.names.length) :
    (placed P args named).length = P.names.length := by
  simp [placed]
  omega

theorem lookup_isSome {α : Type} (l : List (String × α)) (n : String) :
    (l.lookup n).isSome = true ↔ n ∈ l.map Prod.fst := by
  rw [Option.isSome_iff_ne_none, ne_eq, List.lookup_eq_none_iff, List.mem_map]
  simp only [not_forall, bne_iff_ne, ne_eq, not_not, exists_prop, eq_comm (a := n)]

/-- A named argument goes into the slot of its parameter. -/
theorem set_placed (hle : args.length ≤ P.names.length) {i : ℕ} {name : String} {val : E}
    (hi : args.length ≤ i) (hname : P.names[i]? = some name) (hnew : name ∉ named.map Prod.fst) :
    (placed P args named).set i (some val) = placed P args (named ++ [(name, val)]) := by
  have hlt : i < P.names.length := (List.getElem?_eq_some_iff.mp hname).1
  ext1 j
  by_cases hj : j < args.length
  · rw [List.getElem?_set_ne (by omega), getElem?_placed_left hj, getElem?_placed_left hj]
  · rw [Nat.not_lt] at hj
    rw [getElem?_placed hj]
    by_cases hij : i = j
    · subst hij
      have hnone : named.lookup name = none := by
        rw [← Option.not_isSome_iff_eq_none, lookup_isSome]
        exact hnew
      rw [List.getElem?_set_self (by rw [length_placed hle]; exact hlt), hname, Option.map_some,
        List.lookup_append, hnone]
      simp
    · rw [List.getElem?_set_ne hij, getElem?_placed hj]
      rcases hm : P.names[j]? with _ | m
      · rfl
      · have hne : m ≠ name := fun heq =>
          hij ((List.getElem?_inj hlt P.nodup).mp (hname.trans (heq ▸ hm.symm)))
        rw [Option.map_some, Option.map_some, List.lookup_append]
        have hsingle : List.lookup m [(name, val)] = none := by
          rw [List.lookup_cons, beq_eq_false_iff_ne.mpr hne]
          rfl
        rw [hsingle, Option.or_none]

theorem mem_drop_iff {k i : ℕ} {name : String} (hname : P.names[i]? = some name) :
    name ∈ P.names.drop k ↔ k ≤ i := by
  constructor
  · intro hmem
    obtain ⟨j, hj⟩ := List.mem_iff_getElem?.mp hmem
    rw [List.getElem?_drop] at hj
    have hlt : i < P.names.length := (List.getElem?_eq_some_iff.mp hname).1
    have heq := (List.getElem?_inj hlt P.nodup).mp (hname.trans hj.symm)
    omega
  · intro hle
    refine List.mem_iff_getElem?.mpr ⟨i - k, ?_⟩
    rw [List.getElem?_drop, Nat.add_sub_cancel' hle, hname]

/-- The loop over the named arguments, when some have been placed already. -/
theorem fillNamed_ok_iff (hle : args.length ≤ P.names.length) (before : List (String × E))
    {slots : List (Option E)} :
    fillNamed (T := T) P.names named (placed P args before) = .ok slots ↔
      (∀ p ∈ named, p.1 ∈ P.names.drop args.length ∧ p.1 ∉ before.map Prod.fst) ∧
        (named.map Prod.fst).Nodup ∧ slots = placed P args (before ++ named) := by
  induction named generalizing before with
  | nil =>
    simp [fillNamed, eq_comm]
  | cons p named ih =>
    obtain ⟨name, val⟩ := p
    rw [fillNamed]
    rcases hidx : P.names.idxOf? name with _ | i
    · have hnot : name ∉ P.names := by simpa using hidx
      refine ⟨nofun, fun ⟨h, _⟩ => ?_⟩
      exact absurd (List.mem_of_mem_drop (h _ List.mem_cons_self).1) hnot
    · have hname : P.names[i]? = some name := by
        obtain ⟨hlt, hget, -⟩ := List.idxOf?_eq_some_iff.mp hidx
        rw [List.getElem?_eq_getElem hlt, hget]
      dsimp only
      by_cases hi : i < args.length
      · rw [getElem?_placed_left hi]
        refine ⟨fun h => by simp at h, fun ⟨h, _⟩ => ?_⟩
        have hdrop := (mem_drop_iff hname).mp (h _ List.mem_cons_self).1
        omega
      · rw [Nat.not_lt] at hi
        rw [getElem?_placed hi, hname, Option.map_some, Option.join_some]
        by_cases hmem : name ∈ before.map Prod.fst
        · rw [if_pos ((lookup_isSome _ _).mpr hmem)]
          exact ⟨fun h => by simp at h, fun ⟨h, _⟩ => absurd hmem (h _ List.mem_cons_self).2⟩
        · rw [if_neg fun h => hmem ((lookup_isSome _ _).mp h), set_placed hle hi hname hmem, ih,
            List.append_assoc, List.singleton_append, List.forall_mem_cons, List.map_cons,
            List.nodup_cons]
          have hdrop : name ∈ P.names.drop args.length := (mem_drop_iff hname).mpr hi
          constructor
          · rintro ⟨hall, hnodup, heq⟩
            refine ⟨⟨⟨hdrop, hmem⟩, fun p hp => ⟨(hall p hp).1, fun h => (hall p hp).2 ?_⟩⟩,
              ⟨fun h => ?_, hnodup⟩, heq⟩
            · rw [List.map_append]
              exact List.mem_append_left _ h
            · obtain ⟨p, hp, rfl⟩ := List.mem_map.mp h
              exact (hall p hp).2 (by simp)
          · rintro ⟨⟨-, hall⟩, ⟨hnot, hnodup⟩, heq⟩
            refine ⟨fun p hp => ⟨(hall p hp).1, fun h => ?_⟩, hnodup, heq⟩
            rw [List.map_append, List.mem_append] at h
            rcases h with h | h
            · exact (hall p hp).2 h
            · rw [List.map_singleton, List.mem_singleton] at h
              exact hnot (h ▸ List.mem_map_of_mem hp)

/-! ### What is accepted -/

theorem Placeable.length_le (h : Placeable P args named) :
    args.length + named.length ≤ P.names.length := by
  have hsub : named.map Prod.fst ⊆ P.names.drop args.length := by
    intro n hn
    obtain ⟨p, hp, rfl⟩ := List.mem_map.mp hn
    exact h.known p hp
  have hle := (List.subperm_of_subset h.once hsub).length_le
  rw [List.length_map, List.length_drop] at hle
  have := h.le
  omega

/-- **What goes through to the types**: the count is in its bounds, and the arguments can be
placed. -/
theorem fillSlots_ok_iff {callee : Option String} {slots : List (Option E)} :
    fillSlots callee P args named = .ok slots ↔ P.allowedMin ≤ args.length + named.length ∧
      Placeable P args named ∧ slots = placed P args named := by
  have hstart (h : args.length ≤ P.names.length) : fillPositional (T := T) P.types.length 0 args
      (List.replicate P.types.length none) = .ok (placed P args []) := by
    have hrun := fillPositional_ok (T := T) P.types.length [] args (P.names.length - args.length)
      (by rw [P.length_types, List.length_nil, Nat.zero_add]; exact h)
    rw [Nat.add_sub_cancel' h, ← P.length_types] at hrun
    rw [placed, ← P.length_types] at *
    simpa [Function.const_def, List.map_const', P.length_types] using hrun
  rw [fillSlots]
  dsimp only
  by_cases hcount : args.length + named.length < P.allowedMin ∨
      P.types.length < args.length + named.length
  · rw [if_pos hcount]
    refine ⟨nofun, fun ⟨hmin, hplace, _⟩ => ?_⟩
    have hle := hplace.length_le
    rw [← P.length_types] at hle
    omega
  · rw [if_neg hcount]
    rw [not_or, Nat.not_lt, Nat.not_lt] at hcount
    obtain ⟨hmin, hmax⟩ := hcount
    have hle : args.length ≤ P.names.length := by
      rw [← P.length_types]
      omega
    have hbind : (do
        let slots ← fillPositional (T := T) P.types.length 0 args
          (List.replicate P.types.length none)
        fillNamed P.names named slots) = fillNamed (T := T) P.names named (placed P args []) := by
      rw [hstart hle]
      rfl
    rw [hbind, fillNamed_ok_iff hle, List.nil_append]
    constructor
    · rintro ⟨hknown, honce, rfl⟩
      exact ⟨hmin, ⟨hle, fun p hp => (hknown p hp).1, honce⟩, rfl⟩
    · rintro ⟨-, hplace, rfl⟩
      exact ⟨fun p hp => ⟨hplace.known p hp, List.not_mem_nil⟩, hplace.once, rfl⟩

theorem fills_left {j i : ℕ} (hj : j < args.length) :
    Fills P args named j i ↔ i < P.names.length ∧ i = j := by
  rw [Fills]
  constructor
  · rintro ⟨hi, ⟨-, rfl⟩ | ⟨hle, -⟩⟩
    · exact ⟨hi, rfl⟩
    · omega
  · rintro ⟨hi, rfl⟩
    exact ⟨hi, .inl ⟨hj, rfl⟩⟩

theorem fills_right {j i : ℕ} (hj : args.length ≤ j) : Fills P args named j i ↔
    ∃ p, named[j - args.length]? = some p ∧ P.names[i]? = some p.1 := by
  rw [Fills]
  constructor
  · rintro ⟨-, ⟨hlt, -⟩ | ⟨-, hp⟩⟩
    · omega
    · exact hp
  · rintro ⟨p, hp, hi⟩
    exact ⟨(List.getElem?_eq_some_iff.mp hi).1, .inr ⟨hj, p, hp, hi⟩⟩

/-- Arguments that can be placed fill one parameter each. -/
theorem Placeable.exists_unique (h : Placeable P args named) {j : ℕ}
    (hj : j < args.length + named.length) : ∃! i, Fills P args named j i := by
  by_cases hlt : j < args.length
  · refine ⟨j, (fills_left hlt).mpr ⟨Nat.lt_of_lt_of_le hlt h.le, rfl⟩, fun i hi => ?_⟩
    exact ((fills_left hlt).mp hi).2
  · rw [Nat.not_lt] at hlt
    have hlen : j - args.length < named.length := by omega
    have hp : named[j - args.length]? = some named[j - args.length] :=
      List.getElem?_eq_getElem hlen
    obtain ⟨i, hi⟩ := List.mem_iff_getElem?.mp
      (List.mem_of_mem_drop (h.known _ (List.mem_of_getElem? hp)))
    refine ⟨i, (fills_right hlt).mpr ⟨_, hp, hi⟩, fun i' hi' => ?_⟩
    obtain ⟨p, hp', hi'⟩ := (fills_right hlt).mp hi'
    obtain rfl := Option.some_inj.mp (hp.symm.trans hp')
    have hlt' : i' < P.names.length := (List.getElem?_eq_some_iff.mp hi').1
    exact (List.getElem?_inj hlt' P.nodup).mp (hi'.trans hi.symm)

/-- Arguments that can be placed are all that is required if no parameter without a default is left
out. -/
theorem Placeable.supplied_iff (h : Placeable P args named) :
    Supplied P args named ↔ ∀ i, ¬ Missing P args named i := by
  constructor
  · rintro hsupplied i ⟨hi, hdefault, hle, hnot⟩
    obtain ⟨j, hj, -⟩ := hsupplied.params i hi hdefault
    rcases hj.2 with ⟨hlt, rfl⟩ | ⟨-, p, hp, hname⟩
    · omega
    · exact hnot p (List.mem_of_getElem? hp) hname
  · refine fun hall => ⟨fun i hi hdefault => ?_, fun j hj => h.exists_unique hj⟩
    by_cases hlt : i < args.length
    · refine ⟨i, (fills_left hlt).mpr ⟨hi, rfl⟩, fun j hj => ?_⟩
      rcases hj.2 with ⟨-, rfl⟩ | ⟨hle, p, hp, hname⟩
      · rfl
      · have hdrop := (mem_drop_iff hname).mp (h.known p (List.mem_of_getElem? hp))
        omega
    · rw [Nat.not_lt] at hlt
      obtain ⟨p, hp, hname⟩ : ∃ p ∈ named, P.names[i]? = some p.1 := by
        by_contra hnot
        exact hall i ⟨hi, hdefault, hlt, fun p hp hname => hnot ⟨p, hp, hname⟩⟩
      obtain ⟨k, hk⟩ := List.mem_iff_getElem?.mp hp
      refine ⟨args.length + k, (fills_right (by omega)).mpr ⟨p, by simpa using hk, hname⟩,
        fun j hj => ?_⟩
      rcases hj.2 with ⟨hjlt, rfl⟩ | ⟨hle, q, hq, hqname⟩
      · omega
      · have heq : p.1 = q.1 := Option.some_inj.mp (hname.symm.trans hqname)
        have hkey (m : ℕ) (r : String × E) (hr : named[m]? = some r) :
            (named.map Prod.fst)[m]? = some r.1 := by rw [List.getElem?_map, hr, Option.map_some]
        have hklt : k < (named.map Prod.fst).length :=
          (List.getElem?_eq_some_iff.mp (hkey k p hk)).1
        have := (List.getElem?_inj hklt h.once).mp
          ((hkey k p hk).trans (heq ▸ (hkey _ q hq).symm))
        omega

/-- **When an accepted call supplies what is required**: exactly if the call leaves out no parameter
without a default, unless it is rejected for another reason: an argument cannot be placed, there are
fewer arguments than parameters without a default, or an argument fails its own check. -/
theorem accepted_iff_supplied (checkArg : ℕ → E → S → S × List D) (callee : Option String)
    (P : ParamList T) (args : List E) (named : List (String × E)) (s : S) :
    ((checkArgsAgainst checkArg callee P args named s).2 = [] → Supplied P args named) ↔
      (Placeable P args named → P.allowedMin ≤ args.length + named.length →
        (checkSlots checkArg 0 (placed P args named) s).2 = [] → ∀ i, ¬ Missing P args named i) := by
  have haccepted : (checkArgsAgainst checkArg callee P args named s).2 = [] ↔
      Placeable P args named ∧ P.allowedMin ≤ args.length + named.length ∧
        (checkSlots checkArg 0 (placed P args named) s).2 = [] := by
    rw [checkArgsAgainst]
    rcases hfill : fillSlots callee P args named with e | slots
    · refine ⟨nofun, fun ⟨hplace, hmin, _⟩ => ?_⟩
      rw [fillSlots_ok_iff.mpr ⟨hmin, hplace, rfl⟩] at hfill
      exact nomatch hfill
    · obtain ⟨hmin, hplace, rfl⟩ := fillSlots_ok_iff.mp hfill
      simp [hmin, hplace]
  rw [haccepted]
  constructor
  · intro h hplace hmin htypes
    exact hplace.supplied_iff.mp (h ⟨hplace, hmin, htypes⟩)
  · rintro h ⟨hplace, hmin, htypes⟩
    exact hplace.supplied_iff.mpr (h hplace hmin htypes)

/-- The parameters `(a: int, b: int = 1)`. -/
def defaultLast : ParamList Unit where
  names := ["a", "b"]
  types := [(), ()]
  hasDefault := [false, true]
  length_types := rfl
  length_hasDefault := Nat.le_refl 2
  nodup := by decide

/-- `f(b: 2)` is accepted, though it leaves out `a`. -/
theorem named_default_accepted :
    (checkArgsAgainst (fun _ _ s => (s, ([] : List Empty))) (some "f") defaultLast []
      [("b", 2)] ()).2 = [] ∧ ¬ Supplied defaultLast [] [("b", 2)] := by
  refine ⟨rfl, fun h => ?_⟩
  obtain ⟨j, ⟨-, ⟨hlt, -⟩ | ⟨-, p, hp, hname⟩⟩, -⟩ := h.params 0 (by decide) (by decide)
  · exact absurd hlt (Nat.not_lt_zero j)
  · obtain rfl : p = ("b", 2) := List.mem_singleton.mp (List.mem_of_getElem? hp)
    exact absurd hname (by decide)

end ZzLang.Checker
