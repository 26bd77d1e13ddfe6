import ZzLang.Ir.Machine
import ZzLang.Ir.Verify

/-!
# Expanding fused ops keeps the meaning of a module

A fused slot op reads one slot and a second operand, computes with one operator, and pushes the
result, stores it or branches on it. Its expansion does the same with the operand stack. The
two differ in two ways: the fast path of a fused op, which computes what the generic operator
does (`fastBinary_eq`, `fastCmp_eq`), and the position of the operands, which in the expansion
lie on top of the slots.

So a step of the module is matched by three or four steps of its expansion, and the two run
alike up to the positions of the ops, as long as the slots a fused op names are positions of
the stack when it is reached.
-/

namespace ZzLang

open ZzLang.Runtime (Value Prims Failure evalBinary evalIntBinary intCmp evalBinary_int
  evalIntBinary_of_intCmp evalBinary_comparison)
open OpaquePc Lockstep Stutter

/-! ### Rewritten positions -/

/-- The same op with its positions moved. -/
def Op.Moved (φ : ℕ → ℕ) : Op → Op → Prop :=
  Op.Rewired fun t t' => t' = φ t

theorem Op.moved_id (op : Op) : op.Moved id op :=
  Op.rewired_refl (P := fun t t' => t' = id t) (fun _ => rfl) op

theorem Op.Moved.targets {φ : ℕ → ℕ} {op op' : Op} (h : op.Moved φ op') :
    op'.targets = op.targets.map φ := by
  rw [← List.forall₂_eq_eq_eq, List.forall₂_map_right_iff]
  exact h.2.flip.imp fun _ _ h => h

/-! ### Where the expansions start -/

/-- The position of the expansion of an op. -/
def place (groups : List (List Op)) (pc : ℕ) : ℕ :=
  (groups.take pc).flatten.length + (pc - groups.length)

theorem place_zero (groups : List (List Op)) : place groups 0 = 0 := by simp [place]

theorem place_succ_of_ge {groups : List (List Op)} {pc : ℕ} (h : groups.length ≤ pc) :
    place groups (pc + 1) = place groups pc + 1 := by
  rw [place, place, List.take_of_length_le h, List.take_of_length_le (by omega)]
  omega

theorem place_succ {groups : List (List Op)} {pc : ℕ} {group : List Op}
    (h : groups[pc]? = some group) : place groups (pc + 1) = place groups pc + group.length := by
  have hlt := (List.getElem?_eq_some_iff.mp h).1
  rw [place, place, List.take_add_one, h]
  simp
  omega

theorem le_place_of_ge {groups : List (List Op)} {pc : ℕ} (h : groups.length ≤ pc) :
    groups.flatten.length ≤ place groups pc := by
  rw [place, List.take_of_length_le h]
  omega

theorem getElem?_place {groups : List (List Op)} {pc j : ℕ} {group : List Op}
    (h : groups[pc]? = some group) (hj : j < group.length) :
    groups.flatten[place groups pc + j]? = group[j]? := by
  obtain ⟨hlt, rfl⟩ := List.getElem?_eq_some_iff.mp h
  have hplace : place groups pc = (groups.take pc).flatten.length := by
    simp [place]
    omega
  have hflat : groups.flatten =
      (groups.take pc).flatten ++ (groups[pc] ++ (groups.drop (pc + 1)).flatten) := by
    rw [← List.flatten_cons, ← List.drop_eq_getElem_cons hlt, ← List.flatten_append,
      List.take_append_drop]
  rw [hplace, hflat, List.getElem?_append_right (by omega), Nat.add_sub_cancel_left,
    List.getElem?_append_left hj]

theorem getElem?_scanl (groups : List (List Op)) (a t : ℕ) :
    (groups.scanl (fun pc seq => pc + UInt32.ofNat seq.length) (UInt32.ofNat a))[t]? =
      if t ≤ groups.length then some (UInt32.ofNat (a + (groups.take t).flatten.length))
      else none := by
  induction groups generalizing a t with
  | nil =>
    rcases t with _ | t
    · simp
    · simp
  | cons group groups ih =>
    rcases t with _ | t
    · simp
    · have hsum : UInt32.ofNat a + UInt32.ofNat group.length = UInt32.ofNat (a + group.length) := by
        simp
      rw [List.scanl_cons, hsum, List.getElem?_cons_succ, ih]
      simp [Nat.add_assoc]

/-- The table of the pass holds the positions of the expansions. -/
theorem toNat_of_lookupPc {groups : List (List Op)} {message : String} {t t' : UInt32}
    (hsmall : groups.flatten.length < 2 ^ 32)
    (h : lookupPc (basePcs groups) message t = .ok t') : t'.toNat = place groups t.toNat := by
  have hget := getElem?_scanl groups 0 t.toNat
  rw [lookupPc, basePcs, show (0 : UInt32) = UInt32.ofNat 0 from rfl, hget] at h
  split_ifs at h with hle
  · obtain rfl := Except.ok.inj h
    have hlen : (groups.take t.toNat).flatten.length ≤ groups.flatten.length := by
      conv_rhs => rw [← List.take_append_drop t.toNat groups, List.flatten_append,
        List.length_append]
      omega
    rw [place, Nat.sub_eq_zero_of_le hle, Nat.add_zero, Nat.zero_add, UInt32.toNat_ofNat']
    exact Nat.mod_eq_of_lt (by omega)

/-! ### What a fused op computes -/

/-- The second operand of a fused op. -/
inductive Operand
  | slot (b : UInt16)
  | imm (i : Int64)
  | const (k : ConstId)

/-- What a fused op does with its result. -/
inductive Tail
  | push
  | store (dst : UInt16)
  | branch

/-- A fused op: the slot and the second operand it reads, its operator, and what it does with
the result. -/
structure Fused where
  lhs : UInt16
  rhs : Operand
  op : BinOp
  tail : Tail

/-- What a fused op is made of. -/
def Op.fused : Op → Option Fused
  | .slotAddInt dst src => some ⟨dst, .slot src, .add, .store dst⟩
  | .slotInc slot => some ⟨slot, .imm 1, .add, .store slot⟩
  | .slotAddIntImm dst imm => some ⟨dst, .imm imm, .add, .store dst⟩
  | .slotSubIntImm dst imm => some ⟨dst, .imm imm, .sub, .store dst⟩
  | .slotMulIntImm dst imm => some ⟨dst, .imm imm, .mul, .store dst⟩
  | .slotLessIntSlot a b => some ⟨a, .slot b, .lt, .push⟩
  | .slotLessIntImm a imm => some ⟨a, .imm imm, .lt, .push⟩
  | .slotCmpIntSlot a b op => some ⟨a, .slot b, op, .push⟩
  | .slotCmpIntImm a imm op => some ⟨a, .imm imm, op, .push⟩
  | .slotCmpConst a k op => some ⟨a, .const k, op, .push⟩
  | .slotBinaryInt dst lhs rhs op => some ⟨lhs, .slot rhs, op, .store dst⟩
  | .slotBinaryIntImm dst lhs imm op => some ⟨lhs, .imm imm, op, .store dst⟩
  | .pushSlotIntImm a imm op => some ⟨a, .imm imm, op, .push⟩
  | .jumpIfFalseSlotCmpIntImm a imm op _ => some ⟨a, .imm imm, op, .branch⟩
  | .jumpIfFalseSlotCmpIntSlot a b op _ => some ⟨a, .slot b, op, .branch⟩
  | _ => none

theorem Op.fused_eq_none {op : Op} (h : op.isFusedSlotOp = false) : op.fused = none := by
  rcases op <;> first | rfl | cases h

variable {E I F : Type} {m m' : Module} {host : Host E I F}

/-- The value of the second operand. -/
def Operand.value (m : Module) (d : Data E I) : Operand → Option Value
  | .slot b => d.slot b
  | .imm i => some (.int i)
  | .const k => m.constValue k

/-- What happens to the result. -/
def Tail.effect (d : Data E I) : Tail → Value → Effect E I F
  | .push, v => .next (d.push v)
  | .store dst, v => d.storeSlot dst v
  | .branch, v => branchOn d v

/-- A fast path that computes what the operator does on integers changes nothing. -/
theorem fastBinary_eq (P : Prims) {fast : Int64 → Int64 → Except Failure Value} {op : BinOp}
    (hfast : ∀ a b, fast a b = evalIntBinary op a b) : fastBinary P fast op = evalBinary P op := by
  funext l r
  unfold fastBinary
  split
  · rw [hfast, evalBinary_int]
  · rfl

theorem fastCmp_eq (op : BinOp) (a b : Int64) : fastCmp op a b = evalIntBinary op a b := by
  rw [fastCmp]
  split
  · exact (evalIntBinary_of_intCmp ‹_›).symm
  · rfl

/-- The fast paths of a comparison with a constant change nothing. -/
theorem fastCmpConst_eq (P : Prims) (op : BinOp) : (fun l r =>
    match fastCmpConst op l r with
    | some c => .ok (.bool c)
    | none => evalBinary P op l r) = evalBinary P op := by
  funext l r
  split
  case h_2 => rfl
  case h_1 c hfast =>
    unfold fastCmpConst at hfast
    split at hfast
    · split at hfast
      · obtain rfl := Option.some.inj hfast
        rfl
      · obtain rfl := Option.some.inj hfast
        rfl
      · cases hfast
    · rw [evalBinary_int, evalIntBinary_of_intCmp hfast]
    · cases hfast

/-- A fused op computes with the generic operator. -/
theorem effect_of_fused {op : Op} {φ : Fused} (h : op.fused = some φ) (v : View E I) :
    m.effect host op.shape v = operate v.toData (v.toData.slot φ.lhs)
      (φ.rhs.value m v.toData) (evalBinary host.prims φ.op) (φ.tail.effect v.toData) := by
  rcases op <;> cases h
  case slotAddInt | slotInc | slotAddIntImm | slotSubIntImm | slotMulIntImm | slotLessIntSlot |
      slotLessIntImm =>
    rw [← fastBinary_eq host.prims fun a b => rfl]
    rfl
  case slotCmpIntSlot | slotCmpIntImm | jumpIfFalseSlotCmpIntImm | jumpIfFalseSlotCmpIntSlot =>
    rw [← fastBinary_eq host.prims (fastCmp_eq _)]
    rfl
  case slotCmpConst =>
    rw [← fastCmpConst_eq]
    rfl
  case slotBinaryInt | slotBinaryIntImm | pushSlotIntImm =>
    rw [← fastBinary_eq host.prims fun a b => rfl]
    rfl

/-! ### The expansion of an op -/

/-- The op that loads the second operand, with the constants of this pool. -/
def Operand.LoadedBy (K : List Const) (load : Op) : Operand → Prop
  | .slot b => load = .loadSlot b
  | .imm i => ∃ c : ConstId, load = .pushConst c ∧ K[c.val.toNat]? = some (.int i)
  | .const k => load = .pushConst k

/-- The op that deals with the result, if there is one. -/
def Tail.ops (positions : List UInt32) : Tail → List Op
  | .push => []
  | .store dst => [.storeSlot dst]
  | .branch => positions.map .jumpIfFalse

/-- The ops an op stands for, with the constants of this pool. -/
def Op.ExpandsTo (K : List Const) (op : Op) (group : List Op) : Prop :=
  match op.fused with
  | some φ => ∃ load, φ.rhs.LoadedBy K load ∧
      group = .loadSlot φ.lhs :: load :: .binOp φ.op :: φ.tail.ops op.positions
  | none => group = [op]

theorem internInt_prefix (pool : List Const) (i : Int64) : pool <+: (internInt pool i).2 := by
  rw [internInt]
  split
  · exact List.prefix_refl pool
  · exact List.prefix_append pool _

theorem getElem?_internInt {pool K : List Const} {i : Int64} (hK : (internInt pool i).2 <+: K)
    (hsmall : K.length ≤ 2 ^ 32) : K[(internInt pool i).1.val.toNat]? = some (.int i) := by
  obtain ⟨rest, rfl⟩ := hK
  rw [internInt] at hsmall ⊢
  split
  · rename_i p hp
    rw [hp] at hsmall
    obtain ⟨hlt, heq, -⟩ := List.findIdx?_eq_some_iff_getElem.mp hp
    have hmod : p % 2 ^ 32 = p := Nat.mod_eq_of_lt (by simp at hsmall; omega)
    simp only [UInt32.toNat_ofNat', hmod]
    rw [List.getElem?_append_left hlt, List.getElem?_eq_getElem hlt]
    simpa using heq
  · rename_i hnone
    rw [hnone] at hsmall
    have hmod : pool.length % 2 ^ 32 = pool.length :=
      Nat.mod_eq_of_lt (by simp at hsmall; omega)
    simp only [UInt32.toNat_ofNat', hmod]
    simp

theorem expandOp_extends (pool : List Const) (op : Op) : pool <+: (expandOp pool op).2 := by
  rcases op
  case slotInc | slotAddIntImm | slotSubIntImm | slotMulIntImm | slotLessIntImm | slotCmpIntImm |
      slotBinaryIntImm | pushSlotIntImm | jumpIfFalseSlotCmpIntImm => exact internInt_prefix _ _
  all_goals exact List.prefix_refl pool

theorem expandsTo_expandOp {pool K : List Const} {op : Op} (hK : (expandOp pool op).2 <+: K)
    (hsmall : K.length ≤ 2 ^ 32) : op.ExpandsTo K (expandOp pool op).1 := by
  rcases op
  case slotInc | slotAddIntImm | slotSubIntImm | slotMulIntImm | slotLessIntImm | slotCmpIntImm |
      slotBinaryIntImm | pushSlotIntImm | jumpIfFalseSlotCmpIntImm =>
    exact ⟨_, ⟨_, rfl, getElem?_internInt hK hsmall⟩, rfl⟩
  case slotAddInt | slotLessIntSlot | slotCmpIntSlot | slotCmpConst | slotBinaryInt |
      jumpIfFalseSlotCmpIntSlot => exact ⟨_, rfl, rfl⟩
  all_goals rfl

theorem expandCode_extends (pool : List Const) (code : List Op) :
    pool <+: (expandCode pool code).2 := by
  induction code generalizing pool with
  | nil => exact List.prefix_refl pool
  | cons op code ih => exact (expandOp_extends pool op).trans (ih _)

theorem expandsTo_expandCode {pool K : List Const} {code : List Op}
    (hK : (expandCode pool code).2 <+: K) (hsmall : K.length ≤ 2 ^ 32) :
    List.Forall₂ (Op.ExpandsTo K) code (expandCode pool code).1 := by
  induction code generalizing pool with
  | nil => exact .nil
  | cons op code ih =>
    exact .cons (expandsTo_expandOp ((expandCode_extends _ code).trans hK) hsmall) (ih hK)

/-! ### The expansion of a function and of a module -/

/-- The code of a function is that of another one with its ops expanded and moved. -/
def FuncDef.ExpandsTo (K : List Const) (f f' : FuncDef) (groups : List (List Op)) : Prop :=
  List.Forall₂ (Op.ExpandsTo K) f.code groups ∧
    List.Forall₂ (Op.Moved (place groups)) groups.flatten f'.code

theorem flatten_singletons (code : List Op) : (code.map fun op => [op]).flatten = code := by
  rw [← List.flatMap_def, List.flatMap_singleton']

theorem place_singletons (code : List Op) (pc : ℕ) : place (code.map fun op => [op]) pc = pc := by
  rw [place, ← List.map_take, flatten_singletons, List.length_take, List.length_map]
  omega

theorem expandsTo_self {K : List Const} {f : FuncDef}
    (h : f.code.any Op.isFusedSlotOp = false) :
    f.ExpandsTo K f (f.code.map fun op => [op]) := by
  constructor
  · rw [List.forall₂_map_right_iff, List.forall₂_same]
    intro op hop
    have hnone : op.fused = none :=
      Op.fused_eq_none (by simpa using List.any_eq_false.mp h op hop)
    rw [Op.ExpandsTo, hnone]
  · rw [show place (f.code.map fun op => [op]) = id from funext (place_singletons f.code)]
    rw [flatten_singletons, List.forall₂_same]
    exact fun op _ => op.moved_id

theorem expandFunc_spec {pool pool' : List Const} {f f' : FuncDef}
    (h : expandFunc pool f = .ok (f', pool')) :
    pool <+: pool' ∧ ∀ K, pool' <+: K → K.length ≤ 2 ^ 32 → f'.code.length < 2 ^ 32 →
      ∃ groups, f.ExpandsTo K f' groups := by
  rw [expandFunc] at h
  split_ifs at h with hfused
  · obtain ⟨⟨code, spans⟩, hremap, h⟩ := of_bind_ok h
    obtain ⟨maxStack, -, h⟩ := of_bind_ok h
    obtain ⟨rfl, rfl⟩ := Prod.mk.inj (Except.ok.inj h)
    refine ⟨expandCode_extends pool f.code, fun K hK hsmall hcode => ?_⟩
    obtain ⟨code', hcode', hremap⟩ := of_bind_ok hremap
    obtain ⟨rfl, -⟩ := Prod.mk.inj (Except.ok.inj hremap)
    have hmoved := forall₂_of_mapM hcode'
    have hlen : (expandCode pool f.code).1.flatten.length < 2 ^ 32 := by
      rw [hmoved.length_eq]
      exact hcode
    refine ⟨_, expandsTo_expandCode hK hsmall, hmoved.imp fun op op' hop => ?_⟩
    exact Op.rewired_of_retarget (fun t t' => toNat_of_lookupPc hlen)
      (fun t t' => toNat_of_lookupPc hlen) hop
  · obtain ⟨rfl, rfl⟩ := Prod.mk.inj (Except.ok.inj h)
    exact ⟨List.prefix_refl pool, fun K _ _ _ => ⟨_, expandsTo_self (by simpa using hfused)⟩⟩

theorem expandFuncs_spec {pool pool' : List Const} {fs fs' : List FuncDef}
    (h : expandFuncs pool fs = .ok (fs', pool')) :
    pool <+: pool' ∧ ∀ K, pool' <+: K → K.length ≤ 2 ^ 32 → (∀ f ∈ fs', f.code.length < 2 ^ 32) →
      List.Forall₂ (fun f f' => ∃ groups, f.ExpandsTo K f' groups) fs fs' := by
  induction fs generalizing pool fs' with
  | nil =>
    obtain ⟨rfl, rfl⟩ := Prod.mk.inj (Except.ok.inj h)
    exact ⟨List.prefix_refl pool, fun K _ _ _ => .nil⟩
  | cons f fs ih =>
    obtain ⟨⟨f₁, pool₁⟩, hf, h⟩ := of_bind_ok h
    obtain ⟨⟨fs₁, pool₂⟩, hfs, h⟩ := of_bind_ok h
    obtain ⟨rfl, rfl⟩ := Prod.mk.inj (Except.ok.inj h)
    obtain ⟨hle, hspec⟩ := expandFunc_spec hf
    obtain ⟨hle', hspecs⟩ := ih hfs
    refine ⟨hle.trans hle', fun K hK hsmall hcode => ?_⟩
    exact .cons (hspec K (hle'.trans hK) hsmall (hcode _ (by simp)))
      (hspecs K hK hsmall fun g hg => hcode g (by simp [hg]))

/-- A module that fits the width of its indices. -/
structure Module.Small (m : Module) : Prop where
  consts : m.consts.length ≤ 2 ^ 32
  code : ∀ f ∈ m.funcs, f.code.length < 2 ^ 32

/-- What the pass makes of a module. -/
structure Module.ExpandsTo (m m' : Module) : Prop where
  consts : m.consts <+: m'.consts
  strings : m'.strings = m.strings
  funcs : List.Forall₂ (fun f f' => ∃ groups, f.ExpandsTo m'.consts f' groups) m.funcs m'.funcs

theorem expandsTo_of_expandFused (h : expandFused m = .ok m') (hsmall : m'.Small) :
    m.ExpandsTo m' := by
  rw [expandFused] at h
  split_ifs at h with hfused
  · obtain ⟨⟨funcs, consts⟩, hfuncs, h⟩ := of_bind_ok h
    obtain rfl := Except.ok.inj h
    obtain ⟨hle, hspec⟩ := expandFuncs_spec hfuncs
    exact ⟨hle, rfl, hspec _ (List.prefix_refl _) hsmall.consts hsmall.code⟩
  · obtain rfl := Except.ok.inj h
    refine ⟨List.prefix_refl _, rfl, List.forall₂_same.mpr fun f hf => ⟨_, expandsTo_self ?_⟩⟩
    simp only [Bool.not_eq_true, List.any_eq_false] at hfused
    simpa using hfused f hf

/-! ### Constants -/

theorem raiseAll_mono {raise raise' : ConstId → List ConstId → Option (Value × List ConstId)}
    (h : ∀ id seen r, raise id seen = some r → raise' id seen = some r) {ids seen : List ConstId}
    {r : List Value × List ConstId} (hr : raiseAll raise ids seen = some r) :
    raiseAll raise' ids seen = some r := by
  induction ids generalizing seen r with
  | nil => exact hr
  | cons id ids ih =>
    obtain ⟨⟨v, seen₁⟩, hv, hr⟩ := Option.bind_eq_some_iff.mp hr
    obtain ⟨⟨vs, seen₂⟩, hvs, hr⟩ := Option.bind_eq_some_iff.mp hr
    rw [raiseAll, h _ _ _ hv]
    simp only [bind, Option.bind, ih hvs]
    exact hr

/-- A longer pool keeps the values of its constants. -/
theorem raiseConst_mono (hconsts : m.consts <+: m'.consts) (hstrings : m'.strings = m.strings)
    {n n' : ℕ} (hn : n ≤ n') {id : ConstId} {seen : List ConstId} {r : Value × List ConstId}
    (h : m.raiseConst n id seen = some r) : m'.raiseConst n' id seen = some r := by
  induction n generalizing n' id seen r with
  | zero => cases h
  | succ n ih =>
    obtain ⟨n', rfl⟩ := Nat.exists_eq_add_of_le' (Nat.one_le_of_lt hn)
    have ih' : ∀ id seen r, m.raiseConst n id seen = some r → m'.raiseConst n' id seen = some r :=
      fun id seen r => ih (by omega)
    have hget : ∀ c, m.consts[id.val.toNat]? = some c → m'.consts[id.val.toNat]? = some c := by
      intro c hc
      obtain ⟨rest, hrest⟩ := hconsts
      rw [← hrest, List.getElem?_append_left (List.getElem?_eq_some_iff.mp hc).1, hc]
    rw [Module.raiseConst] at h ⊢
    split_ifs at h ⊢ with hmem
    rcases hc : m.consts[id.val.toNat]? with _ | c
    · simp only [hc] at h
      cases h
    · simp only [hc, hget c hc] at h ⊢
      rcases c with _ | _ | _ | _ | str | items | pairs | (_ | x) | ⟨ok, val⟩
      case array | dict =>
        obtain ⟨⟨vs, seen'⟩, hvs, h⟩ := Option.bind_eq_some_iff.mp h
        simp only [bind, Option.bind, raiseAll_mono ih' hvs]
        exact h
      case option.some | result =>
        obtain ⟨⟨v, seen'⟩, hv, h⟩ := Option.bind_eq_some_iff.mp h
        simp only [bind, Option.bind, ih' _ _ _ hv]
        exact h
      case str =>
        rw [hstrings]
        exact h
      all_goals exact h

theorem Module.ExpandsTo.constValue (h : m.ExpandsTo m') {id : ConstId} {v : Value}
    (hv : m.constValue id = some v) : m'.constValue id = some v := by
  obtain ⟨r, hr, rfl⟩ := Option.map_eq_some_iff.mp hv
  rw [Module.constValue, raiseConst_mono h.consts h.strings (by have := h.consts.length_le; omega) hr]
  rfl

theorem constValue_int {id : ConstId} {i : Int64} (h : m.consts[id.val.toNat]? = some (.int i)) :
    m.constValue id = some (.int i) := by
  simp [Module.constValue, Module.raiseConst, h]

/-! ### Steps through an expansion -/

namespace Data

variable {d : Data E I} {v : Value} {s : UInt16}

@[simp]
theorem withTop_push (k : Value → Data E I → Effect E I F) : (d.push v).withTop k = k v d := by
  simp [withTop, push, dropTop]

theorem slot_push (h : d.Live s) : (d.push v).slot s = d.slot s :=
  List.getElem?_append_left h

theorem Live.slot (h : d.Live s) : ∃ v, d.slot s = some v :=
  ⟨_, List.getElem?_eq_getElem h⟩

theorem storeSlot_of_live (h : d.Live s) : (d.storeSlot s v : Effect E I F) = .next (d.setSlot s v) :=
  if_pos h

end Data

/-- A step to the next op. -/
theorem reaches_next {s : MState E I} {d : Data E I} (h : (m.act host s).1 = .next d) :
    (m.machine host).Reaches 1 s [] (.go (s.advance 1 d)) := by
  have hstep : (m.machine host).step s = .go (s.advance 1 d) := by
    simp only [Module.machine, Module.step, h]
    rfl
  have hshows : (m.machine host).shows s = [] := by
    simp only [Module.machine, h]
    rfl
  simpa [hshows] using Machine.Reaches.single hstep

/-- A step that ends the run. -/
theorem reaches_fail {s : MState E I} {d : Data E I} {why : Failure}
    (h : (m.act host s).1 = .fail d why) :
    (m.machine host).Reaches 1 s [] (.stop ⟨.failed why, d⟩) := by
  have hstep : (m.machine host).step s = .stop ⟨.failed why, d⟩ := by
    simp only [Module.machine, Module.step, h]
    rfl
  have hshows : (m.machine host).shows s = [] := by
    simp only [Module.machine, h]
    rfl
  simpa [hshows] using Machine.Reaches.halt hstep

/-- The machine is at the start of these ops, moved as a whole. -/
structure At (m : Module) (s : MState E I) (φ : ℕ → ℕ) (group : List Op) : Prop where
  code : ∀ j op, group[j]? = some op → ∃ f op', m.funcs[s.loc.code]? = some f ∧
    f.code[s.loc.pc + j]? = some op' ∧ op.Moved φ op'

theorem At.act {s : MState E I} {φ : ℕ → ℕ} {group : List Op} (h : At m s φ group)
    (host : Host E I F) {j : ℕ} {op : Op} (hop : group[j]? = some op) (d : Data E I) :
    m.act host (s.advance j d) =
      (m.effect host op.shape (s.advance j d).view, op.targets.map φ) := by
  obtain ⟨f, op', hf, hop', hmoved⟩ := h.code j op hop
  rw [Module.act]
  simp only [MState.advance, hf, hop', hmoved.1, hmoved.targets]

/-- Both operands are loaded and the operator is applied. -/
theorem reaches_binOp (host : Host E I F) {s : MState E I} {φ : ℕ → ℕ} {form : Fused} {load : Op}
    {ops : List Op}
    {l r : Value} (hat : At m s φ (.loadSlot form.lhs :: load :: .binOp form.op :: ops))
    (hl : s.data.slot form.lhs = some l)
    (hload : ∀ v : View E I, v.toData = s.data.push l →
      m.effect host load.shape v = .next (v.toData.push r)) :
    match evalBinary host.prims form.op l r with
    | .ok x => (m.machine host).Reaches 3 s [] (.go (s.advance 3 (s.data.push x)))
    | .error why => (m.machine host).Reaches 3 s [] (.stop ⟨.failed why, s.data⟩) := by
  have h₀ : (m.act host s).1 = .next (s.data.push l) := by
    have := hat.act host (j := 0) rfl s.data
    rw [show s.advance 0 s.data = s from rfl] at this
    rw [this]
    simp [Op.shape, Op.mapTargets, Module.effect, MState.view, hl]
  have h₁ : (m.act host (s.advance 1 (s.data.push l))).1 = .next ((s.data.push l).push r) := by
    rw [hat.act host (j := 1) rfl]
    exact hload _ rfl
  have h₂ : (m.act host (s.advance 2 ((s.data.push l).push r))).1 =
      match evalBinary host.prims form.op l r with
      | .ok x => .next (s.data.push x)
      | .error why => .fail s.data why := by
    rw [hat.act host (j := 2) rfl]
    rcases heval : evalBinary host.prims form.op l r with why | x <;>
      simp only [Op.shape, Op.mapTargets, Module.effect, MState.view, MState.advance,
        Data.withTop_push, heval]
  have htwo : (m.machine host).Reaches 2 s [] (.go (s.advance 2 ((s.data.push l).push r))) :=
    (reaches_next h₀).trans (reaches_next h₁)
  split
  · rename_i x hx
    rw [hx] at h₂
    exact htwo.trans (reaches_next h₂)
  · rename_i why hwhy
    rw [hwhy] at h₂
    exact htwo.trans (reaches_fail h₂)

/-! ### The simulation -/

/-- What is asked of a run of the module: its constants have values, the slots a fused op names
are positions of the stack when it is reached, and a loop is only left or repeated from the
code it is in. -/
structure Module.Meets (m : Module) (host : Host E I F) (s : MState E I) : Prop where
  live : ∀ f op, m.funcs[s.loc.code]? = some f → f.code[s.loc.pc]? = some op →
    op.isFusedSlotOp = true → ∀ x ∈ op.slots, s.data.Live x
  consts : ∀ f op, m.funcs[s.loc.code]? = some f → f.code[s.loc.pc]? = some op →
    ∀ c ∈ op.constIds, (m.constValue c).isSome
  loop : ∀ mv b, (m.act host s).1 = .go mv b →
    Ref.loopExit ∈ mv.refs ∨ Ref.loopHeader ∈ mv.refs → s.LoopAtHome

/-- The fused comparisons of an op compare. -/
def Op.compares : Op → Prop
  | .slotCmpIntSlot _ _ op | .slotCmpIntImm _ _ op | .slotCmpConst _ _ op
  | .jumpIfFalseSlotCmpIntImm _ _ op _ | .jumpIfFalseSlotCmpIntSlot _ _ op _ =>
    op.isComparison = true
  | _ => True

/-- The fused comparisons of a module compare. -/
def Module.Compares (m : Module) : Prop :=
  ∀ f ∈ m.funcs, ∀ op ∈ f.code, op.compares

theorem Op.positions_of_fused {op : Op} {φ : Fused} (h : op.fused = some φ)
    (htail : φ.tail = .branch) : ∃ t, op.positions = [t] := by
  rcases op <;> cases h <;> cases htail <;> exact ⟨_, rfl⟩

theorem Op.isComparison_of_fused {op : Op} {φ : Fused} (h : op.fused = some φ)
    (hop : op.compares) (htail : φ.tail = .branch) : φ.op.isComparison = true := by
  rcases op <;> cases h <;> cases htail <;> exact hop

/-- The slots a fused op reads and writes. -/
theorem Op.mem_slots_of_fused {op : Op} {φ : Fused} (h : op.fused = some φ) :
    φ.lhs ∈ op.slots ∧ (∀ b, φ.rhs = .slot b → b ∈ op.slots) ∧
      (∀ dst, φ.tail = .store dst → dst ∈ op.slots) ∧
      (∀ k, φ.rhs = .const k → k ∈ op.constIds) := by
  rcases op <;> cases h <;>
    refine ⟨by simp [slots], ?_, ?_, ?_⟩ <;> rintro _ ⟨⟩ <;> simp [slots, constIds]

theorem Op.isFusedSlotOp_of_fused {op : Op} {φ : Fused} (h : op.fused = some φ) :
    op.isFusedSlotOp = true := by
  rcases op <;> first | rfl | cases h

/-- The second operand is loaded above the first. -/
theorem effect_load (hexp : m.ExpandsTo m') {rhs : Operand} {load : Op}
    (hload : rhs.LoadedBy m'.consts load) {d : Data E I} {l r : Value}
    (hlive : ∀ b, rhs = .slot b → d.Live b) (hr : rhs.value m d = some r) (v : View E I)
    (hv : v.toData = d.push l) : m'.effect host load.shape v = .next (v.toData.push r) := by
  rcases rhs with b | i | k
  · obtain rfl : load = .loadSlot b := hload
    have hslot : v.toData.slot b = some r := by
      rw [hv, Data.slot_push (hlive b rfl)]
      exact hr
    simp [Op.shape, Op.mapTargets, Module.effect, hslot]
  · obtain ⟨c, rfl, hc⟩ := hload
    obtain rfl := Option.some.inj hr
    simp [Op.shape, Op.mapTargets, Module.effect, constValue_int hc]
  · obtain rfl : load = .pushConst k := hload
    simp [Op.shape, Op.mapTargets, Module.effect, hexp.constValue hr]

/-- The second operand has a value. -/
theorem Operand.exists_value {rhs : Operand} {d : Data E I}
    (hlive : ∀ b, rhs = .slot b → d.Live b)
    (hconst : ∀ k, rhs = .const k → (m.constValue k).isSome) : ∃ r, rhs.value m d = some r := by
  rcases rhs with b | i | k
  · exact (hlive b rfl).slot
  · exact ⟨_, rfl⟩
  · exact Option.isSome_iff_exists.mp (hconst k rfl)

section

variable {groups : ℕ → List (List Op)} {s t : MState E I}

/-- The positions of the expansions. -/
def Placed (groups : ℕ → List (List Op)) (i pc pc' : ℕ) : Prop :=
  pc' = place (groups i) pc

/-- The state after a step to the next op, in both modules. -/
theorem stateRel_advance (hs : StateRel (Placed groups) s t) {group : List Op}
    (hgroup : (groups s.loc.code)[s.loc.pc]? = some group) (d : Data E I) :
    StateRel (Placed groups) (s.advance 1 d) (t.advance group.length d) where
  loc := by
    refine ⟨hs.loc.1, ?_⟩
    have hpc : t.loc.pc = place (groups s.loc.code) s.loc.pc := hs.loc.2
    show t.loc.pc + group.length = place (groups s.loc.code) (s.loc.pc + 1)
    rw [place_succ hgroup, hpc]
  callers := hs.callers
  loops := hs.loops
  data := rfl

/-- A fused op is matched by its expansion. -/
theorem simulates_fused (hexp : m.ExpandsTo m') (hs : StateRel (Placed groups) s t) {op : Op}
    {φ : Fused} {group : List Op} (hφ : op.fused = some φ)
    (hgroup : (groups s.loc.code)[s.loc.pc]? = some group) (hto : op.ExpandsTo m'.consts group)
    (hat : At m' t (place (groups s.loc.code)) group)
    (hact : m.act host s = (m.effect host op.shape s.view, op.targets))
    (hlive : ∀ x ∈ op.slots, s.data.Live x)
    (hconsts : ∀ c ∈ op.constIds, (m.constValue c).isSome) (hcmp : op.compares) :
    ∃ k q, (m'.machine host).Reaches k t ((m.machine host).shows s) q ∧
      Matches (StateRel (Placed groups)) ((m.machine host).step s) q ∧ k ≠ 0 := by
  obtain ⟨hlhs, hrhs, hdst, hk⟩ := Op.mem_slots_of_fused hφ
  rw [Op.ExpandsTo, hφ] at hto
  obtain ⟨load, hload, rfl⟩ := hto
  have hdata : s.data = t.data := hs.data
  obtain ⟨l, hl⟩ := (hlive _ hlhs).slot
  have hliveRhs : ∀ b, φ.rhs = .slot b → s.data.Live b := fun b hb => hlive b (hrhs b hb)
  obtain ⟨r, hr⟩ := Operand.exists_value (m := m) hliveRhs fun k hk' => hconsts k (hk k hk')
  have hbin := reaches_binOp host hat (hdata ▸ hl)
    (effect_load hexp hload (hdata ▸ hliveRhs) (hdata ▸ hr))
  have heff : (m.act host s).1 =
      match evalBinary host.prims φ.op l r with
      | .ok x => φ.tail.effect s.data x
      | .error why => .fail s.data why := by
    rw [hact, effect_of_fused hφ]
    rcases heval : evalBinary host.prims φ.op l r with why | x <;>
      simp only [MState.view, hl, hr, operate, heval]
  rcases hx : evalBinary host.prims φ.op l r with why | x
  · rw [hx] at hbin heff
    obtain ⟨hstep, hshows⟩ := step_of_act_fail heff
    rw [hstep, hshows]
    exact ⟨3, _, hbin, by rw [hdata]; rfl, by omega⟩
  · rw [hx] at hbin heff
    rcases htail : φ.tail with _ | dst | _
    · rw [htail] at heff hgroup
      obtain ⟨hstep, hshows⟩ := step_of_act_next heff
      rw [hstep, hshows]
      exact ⟨3, _, hbin, hdata ▸ stateRel_advance hs hgroup _, by omega⟩
    · -- the result is on top of the stack, above the slot
      rw [htail] at heff hgroup hat
      have hlive' := hlive dst (hdst dst htail)
      obtain ⟨hstep, hshows⟩ := step_of_act_next (heff.trans (Data.storeSlot_of_live hlive'))
      have hstore : (m'.act host (t.advance 3 (t.data.push x))).1 = .next (t.data.setSlot dst x) := by
        rw [hat.act host (j := 3) rfl]
        simp [Op.shape, Op.mapTargets, Module.effect, MState.view, MState.advance,
          Data.storeSlot_of_live (hdata ▸ hlive')]
      rw [hstep, hshows]
      exact ⟨4, _, hbin.trans (reaches_next hstore), hdata ▸ stateRel_advance hs hgroup _,
        by omega⟩
    · -- the result of a comparison is a boolean
      rw [htail] at heff hgroup hat
      obtain ⟨b, rfl⟩ := evalBinary_comparison (Op.isComparison_of_fused hφ hcmp htail) hx
      obtain ⟨target, htarget⟩ := Op.positions_of_fused hφ htail
      rw [htarget] at hgroup hat
      have hjump : m'.act host (t.advance 3 (t.data.push (.bool b))) =
          (.branch t.data !b, [place (groups s.loc.code) target.toNat]) := by
        rw [hat.act host (j := 3) rfl]
        simp [Op.shape, Op.mapTargets, Module.effect, MState.view, MState.advance,
          Runtime.Value.isTruthy, Op.targets, Op.positions]
      have htargets : (m.act host s).2 = [target.toNat] := by
        rw [hact, Op.targets, htarget]
        rfl
      have hshows : (m.machine host).shows s = [!b] := by
        simp only [Module.machine, heff]
        rfl
      have hlast : ∃ q, (m'.machine host).Reaches 1 (t.advance 3 (t.data.push (.bool b)))
          ((m.machine host).shows s) q ∧
          Matches (StateRel (Placed groups)) ((m.machine host).step s) q := by
        have hshows' : (m'.machine host).shows (t.advance 3 (t.data.push (.bool b))) = [!b] := by
          simp only [Module.machine, hjump]
          rfl
        rw [hshows, ← hshows']
        rcases b with _ | _
        · refine ⟨.go ⟨⟨t.loc.code, place (groups s.loc.code) target.toNat⟩, t.callers, t.loops,
            t.data⟩, .single ?_, ?_⟩
          · simp only [Module.machine, Module.step, hjump]
            rfl
          · simp only [Module.machine, Module.step, heff, htargets]
            exact ⟨⟨hs.loc.1, rfl⟩, hs.callers, hs.loops, hdata⟩
        · refine ⟨.go (t.advance 4 t.data), .single ?_, ?_⟩
          · simp only [Module.machine, Module.step, hjump]
            rfl
          · simp only [Module.machine, Module.step, heff, htargets]
            exact hdata ▸ stateRel_advance hs hgroup _
      obtain ⟨q, hq, hmatch⟩ := hlast
      exact ⟨4, q, by simpa using hbin.trans hq, hmatch, by omega⟩

end

/-- The expansions of the ops of each function. -/
def Module.GroupedBy (m m' : Module) (groups : ℕ → List (List Op)) : Prop :=
  ∀ (i : ℕ) (f : FuncDef), m.funcs[i]? = some f →
    ∃ f', m'.funcs[i]? = some f' ∧ f.ExpandsTo m'.consts f' (groups i)

theorem Module.ExpandsTo.exists_groups (h : m.ExpandsTo m') : ∃ groups, m.GroupedBy m' groups := by
  have hall : ∀ i : ℕ, ∃ groups : List (List Op), ∀ f : FuncDef, m.funcs[i]? = some f →
      ∃ f', m'.funcs[i]? = some f' ∧ f.ExpandsTo m'.consts f' groups := by
    intro i
    have hrel := forall₂_getElem? h.funcs i
    rcases hf : m.funcs[i]? with _ | f
    · exact ⟨[], fun f hf' => by cases hf'⟩
    · rw [hf] at hrel
      rcases hf' : m'.funcs[i]? with _ | f' <;> rw [hf'] at hrel
      · cases hrel
      · rcases hrel with ⟨groups, hgroups⟩ | _
        refine ⟨groups, fun g hg => ?_⟩
        obtain rfl := Option.some.inj hg
        exact ⟨f', rfl, hgroups⟩
  choose groups hgroups using hall
  exact ⟨groups, hgroups⟩

/-- The expansion simulates the module. -/
theorem Module.ExpandsTo.simulates (hexp : m.ExpandsTo m') (host : Host E I F) (hcmp : m.Compares)
    {groups : ℕ → List (List Op)} (hgroups : m.GroupedBy m' groups) :
    Simulates (m.machine host) (m'.machine host) (StateRel (Placed groups)) (m.Meets host)
      fun _ => 0 := by
  intro s t hs hmeets
  have hcode : s.loc.code = t.loc.code := hs.loc.1
  have hpc : t.loc.pc = place (groups s.loc.code) s.loc.pc := hs.loc.2
  have hstarts : ∀ c, Placed groups c 0 0 := fun c => (place_zero (groups c)).symm
  -- a step that the expansion takes too, if the next positions are related
  have hsame : (m.act host s).1 = (m'.act host t).1 →
      (m'.act host t).2 = (m.act host s).2.map (place (groups s.loc.code)) →
      place (groups s.loc.code) (s.loc.pc + 1) = t.loc.pc + 1 →
      ∃ k q, (m'.machine host).Reaches k t ((m.machine host).shows s) q ∧
        Matches (StateRel (Placed groups)) ((m.machine host).step s) q ∧ k ≠ 0 := by
    intro heff htargets hnext
    have hmatch := Module.step_related hs heff fun mv b hmv =>
      ⟨by
        rw [htargets, List.forall₂_map_right_iff, List.forall₂_same]
        exact fun _ _ => rfl, hstarts, fun _ => hnext.symm, hmeets.loop mv b hmv⟩
    have hshows : (m'.machine host).shows t = (m.machine host).shows s := by
      simp only [Module.machine, heff]
    exact ⟨1, _, hshows ▸ .one _ t, hmatch, Nat.one_ne_zero⟩
  have hgoal : ∃ k q, (m'.machine host).Reaches k t ((m.machine host).shows s) q ∧
      Matches (StateRel (Placed groups)) ((m.machine host).step s) q ∧ k ≠ 0 := by
    rcases hf : m.funcs[s.loc.code]? with _ | f
    · have hf' : m'.funcs[t.loc.code]? = none := by
        rw [List.getElem?_eq_none_iff, ← hexp.funcs.length_eq, ← hcode]
        exact List.getElem?_eq_none_iff.mp hf
      have hact : m.act host s = (.fail s.data .panic, []) := by simp [Module.act, hf]
      have hact' : m'.act host t = (.fail s.data .panic, []) := by
        simp [Module.act, hf', hs.data]
      obtain ⟨hstep, hshows⟩ := step_of_act_fail (congrArg Prod.fst hact)
      rw [hstep, hshows]
      exact ⟨1, _, reaches_fail (congrArg Prod.fst hact'), rfl, Nat.one_ne_zero⟩
    · obtain ⟨f', hf', hto, hmoved⟩ := hgroups _ f hf
      have hlen := hto.length_eq
      rcases hop : f.code[s.loc.pc]? with _ | op
      · -- behind the last op
        have hge : (groups s.loc.code).length ≤ s.loc.pc := by
          rw [← hlen]
          exact List.getElem?_eq_none_iff.mp hop
        have hop' : f'.code[t.loc.pc]? = none := by
          rw [List.getElem?_eq_none_iff, ← hmoved.length_eq, hpc]
          exact le_place_of_ge hge
        have hact : m.act host s = (host.finish s.view, []) := by simp [Module.act, hf, hop]
        have hact' : m'.act host t = (host.finish t.view, []) := by
          rw [hcode] at hf'
          simp [Module.act, hf', hop']
        refine hsame (by rw [hact, hact', MState.view_eq hs]) (by rw [hact, hact']; rfl) ?_
        rw [place_succ_of_ge hge, hpc]
      · have hrel := forall₂_getElem? hto s.loc.pc
        rw [hop] at hrel
        rcases hgroup : (groups s.loc.code)[s.loc.pc]? with _ | group <;> rw [hgroup] at hrel
        · cases hrel
        · rcases hrel with ⟨hrel⟩ | _
          have hact : m.act host s = (m.effect host op.shape s.view, op.targets) := by
            simp [Module.act, hf, hop]
          have hat : At m' t (place (groups s.loc.code)) group := by
            refine ⟨fun j op' hop' => ?_⟩
            have hj := (List.getElem?_eq_some_iff.mp hop').1
            have hmove := forall₂_getElem? hmoved (t.loc.pc + j)
            rw [hpc, getElem?_place hgroup hj, hop', ← hpc] at hmove
            rcases hmove' : f'.code[t.loc.pc + j]? with _ | op'' <;> rw [hmove'] at hmove
            · cases hmove
            · rcases hmove with ⟨hmove⟩ | _
              exact ⟨f', op'', hcode ▸ hf', hmove', hmove⟩
          have hconsts := hmeets.consts f op hf hop
          rcases hφ : op.fused with _ | φ
          · obtain rfl : group = [op] := by simpa [Op.ExpandsTo, hφ] using hrel
            have hact' := hat.act host (j := 0) rfl t.data
            rw [show t.advance 0 t.data = t from rfl] at hact'
            refine hsame ?_ (by rw [hact, hact']) ?_
            · rw [hact, hact', MState.view_eq hs]
              refine effect_congr (fun c hc => ?_) _
              obtain ⟨v, hv⟩ := Option.isSome_iff_exists.mp (hconsts c hc)
              rw [hv, hexp.constValue hv]
            · rw [place_succ hgroup, hpc]
              rfl
          · exact simulates_fused hexp hs hφ hgroup hrel hat hact
              (hmeets.live f op hf hop (Op.isFusedSlotOp_of_fused hφ)) hconsts
              (hcmp f (List.mem_of_getElem? hf) op (List.mem_of_getElem? hop))
  obtain ⟨k, q, hq, hmatch, hk⟩ := hgoal
  exact ⟨k, q, hq, hmatch, fun h => absurd h hk⟩

/-- **Expanding fused ops keeps the meaning of a module.** From any frame, every function runs
in both modules alike up to the positions of its ops: with the same branches, the same stack,
slots and environment, and the same end. This is so in every run in which the slots a fused op
names are positions of the stack when it is reached, the constants have values, and a loop is
left from the code it is in; the pass needs pools and functions that fit their indices. -/
theorem expandFused_preserves (h : expandFused m = .ok m') (hcmp : m.Compares) (hsmall : m'.Small)
    (host : Host E I F) (func : ℕ) (d : Data E I)
    (hmeets : (m.machine host).AllMeet (m.Meets host) (.start func d)) :
    ∃ pcs : ℕ → ℕ → ℕ,
      (∀ n es p, (m.machine host).Reaches n (.start func d) es p →
        ∃ k q, (m'.machine host).Reaches k (.start func d) es q ∧
          Matches (StateRel fun i pc pc' => pc' = pcs i pc) p q) ∧
      ∀ n es r, (m'.machine host).Reaches n (.start func d) es (.stop r) →
        ∃ k, (m.machine host).Reaches k (.start func d) es (.stop r) := by
  have hexp := expandsTo_of_expandFused h hsmall
  obtain ⟨groups, hgroups⟩ := hexp.exists_groups
  have hsim := hexp.simulates host hcmp hgroups
  have hstart : StateRel (Placed groups) (MState.start func d) (MState.start func d) :=
    ⟨⟨rfl, (place_zero _).symm⟩, .nil, .nil, rfl⟩
  refine ⟨fun i => place (groups i), fun n es p hrun => ?_, fun n es r hrun => ?_⟩
  · exact hsim.forward hstart hmeets hrun
  · exact hsim.backward hstart hmeets hrun

/-! ### Two modules -/

/-- A module of one function without parameters, whose slots are integers. -/
def moduleOf (locals : ℕ) (code : List Op) : Module where
  types := [.int]
  strings := ["main"]
  consts := []
  funcs := [{
    name := ⟨0⟩
    arity := 0
    params := []
    sig := ⟨[], ⟨0⟩⟩
    locals := List.replicate locals ⟨0⟩
    vartab := []
    toplevelSlots := []
    code := code
    spans := List.replicate code.length ⟨0, 0⟩
    maxStack := 0 }]
  entry := ⟨0⟩

/-- A machine with no other ops: at the end of the code it returns the top of the stack. -/
def bareHost : Host Unit Unit (Option Value) where
  prims :=
    { add := fun x _ => x, sub := fun x _ => x, mul := fun x _ => x, div := fun x _ => x,
      rem := fun x _ => x, powf := fun x _ => x, lt := fun _ _ => false, le := fun _ _ => false,
      ofInt := fun _ => ⟨0⟩, deepEq := fun _ _ => false }
  display := fun _ => ""
  safepointExpired := fun _ => none
  forItem := fun _ _ _ => .done
  exec := fun _ v => .fail v.toData .panic
  finish := fun v => .stop (.flow v.stack.getLast?) v.toData

/-- A frame with these integers on its stack. -/
def frameOf (ints : List Int64) : Data Unit Unit := ⟨0, ints.map .int, (), ()⟩

/-- A slot that holds 6 is incremented. -/
theorem slotInc_expanded :
    ∃ m' k r, expandFused (moduleOf 1 [.slotInc 0]) = .ok m' ∧
      (m'.machine bareHost).Reaches k (.start 0 (frameOf [6])) [] (.stop r) ∧
      r.data.stack = [.int 7] := by
  let m := moduleOf 1 [.slotInc 0]
  obtain ⟨m', hm', hsmall⟩ : ∃ m', expandFused m = .ok m' ∧ m'.Small :=
    ⟨_, rfl, by decide, by simp⟩
  have hact : (m.act bareHost (.start 0 (frameOf [6]))).1 = .next (frameOf [7]) := rfl
  have hcmp : m.Compares := by
    intro f hf op hop
    simp only [m, moduleOf, List.mem_singleton] at hf
    subst hf
    obtain rfl := List.mem_singleton.mp hop
    trivial
  have hmeets : (m.machine bareHost).AllMeet (m.Meets bareHost) (.start 0 (frameOf [6])) := by
    refine Machine.allMeet_of_go ⟨?_, ?_, ?_⟩ (step_of_act_next hact).1
      (Machine.allMeet_of_stop ⟨?_, ?_, ?_⟩ rfl)
    · rintro f op ⟨⟩ ⟨⟩ - x hx
      obtain rfl := List.mem_singleton.mp hx
      exact Nat.one_pos
    · rintro f op ⟨⟩ ⟨⟩ c hc
      cases hc
    · intro mv b hmv
      rw [hact] at hmv
      cases hmv
      simp [Move.refs, LoopEdit.refs]
    · rintro f op ⟨⟩ ⟨⟩
    · rintro f op ⟨⟩ ⟨⟩
    · rintro mv b ⟨⟩
  obtain ⟨pcs, hforward, -⟩ := expandFused_preserves hm' hcmp hsmall bareHost 0 _ hmeets
  have hrun : (m.machine bareHost).Reaches 2 (.start 0 (frameOf [6])) []
      (.stop ⟨.flow (some (.int 7)), frameOf [7]⟩) :=
    .next (step_of_act_next hact).1 (.halt rfl)
  obtain ⟨k, q, hq, hmatch⟩ := hforward _ _ _ hrun
  rcases q with t | r
  · exact hmatch.elim
  · obtain rfl : _ = r := hmatch
    exact ⟨m', k, _, hm', hq, rfl⟩

/-- All slots are there when the function starts, but one of them is popped before it is read.
The fused op misses it; its expansion finds the first operand in its place. -/
theorem popped_slot_found :
    ∃ m m' d, verify m = .ok () ∧ expandFused m = .ok m' ∧ m.Compares ∧ m'.Small ∧
      (∀ f ∈ m.funcs, ∀ op ∈ f.code, ∀ x ∈ op.slots, Data.Live d x) ∧
      ¬∀ n es r, (m'.machine bareHost).Reaches n (.start 0 d) es (.stop r) →
        ∃ k, (m.machine bareHost).Reaches k (.start 0 d) es (.stop r) := by
  refine ⟨moduleOf 2 [.pop, .slotAddInt 0 1], _, frameOf [1, 2], by decide, rfl, ?_, ?_, ?_, ?_⟩
  · intro f hf op hop
    simp only [moduleOf, List.mem_singleton] at hf
    subst hf
    simp only [List.mem_cons, List.not_mem_nil, or_false] at hop
    rcases hop with rfl | rfl <;> trivial
  · exact ⟨by decide, by simp⟩
  · intro f hf op hop x hx
    simp only [moduleOf, List.mem_singleton] at hf
    subst hf
    simp only [List.mem_cons, List.not_mem_nil, or_false] at hop
    rcases hop with rfl | rfl <;> simp only [Op.slots, List.mem_cons, List.not_mem_nil, or_false] at hx
    rcases hx with rfl | rfl
    · exact Nat.two_pos
    · exact Nat.one_lt_two
  · intro hall
    obtain ⟨k, hk⟩ := hall _ _ _ (.next rfl (.next rfl (.next rfl (.next rfl (.next rfl (.halt rfl))))))
    have hpanic := Machine.Reaches.next (M := (moduleOf 2 [.pop, .slotAddInt 0 1]).machine bareHost)
      (s := .start 0 (frameOf [1, 2])) rfl (.halt rfl)
    obtain ⟨-, hr⟩ := hk.stop_unique hpanic
    cases hr

end ZzLang
