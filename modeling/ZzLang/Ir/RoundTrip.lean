import ZzLang.Ir.Admissible

/-!
# Encoding, then decoding

Every field of the format is read back exactly: `StepReader.Reads p b x` for the
reader `p` of the field and the bytes `b` the encoder writes for the value `x`.
The file goes up the format one level at a time – numbers, ids and lists; types,
constants and patterns; ops; function records; the container – and at each level
the proof for a value follows the order in which the decoder asks for its
fields, so that a field written and read in two different orders would show up
as a chain that does not fit.

The container is where the levels meet. The section table refers to the payloads
by offset and length, and the function table refers to the code by op index and
op count; `ZzLang.Codec.sectionBytes_tableEntries` and
`ZzLang.Codec.attachCode_codeRangesFrom` say that the two kinds of reference
point where they should, as long as no offset has wrapped.
-/

namespace ZzLang

open StepReader

namespace Codec

/-! ### Numbers, flags and references -/

theorem reads_u8 (x : UInt8) : Reads u8 (putU8 x) x := fun _ => rfl

theorem reads_u16 (x : UInt16) : Reads u16 (putU16 x) x := by
  intro rest
  have h := Reads.takeBytes (truncated "u16") (putU16 x) rest
  rw [putU16, length_leBytes] at h
  rw [u16, putU16, run_bind_ok h, ofLeBytes_leBytes_of_lt (by simpa using x.toNat_lt)]
  simp

theorem reads_u32 (x : UInt32) : Reads u32 (putU32 x) x := by
  intro rest
  have h := Reads.takeBytes (truncated "u32") (putU32 x) rest
  rw [putU32, length_leBytes] at h
  rw [u32, putU32, run_bind_ok h, ofLeBytes_leBytes_of_lt (by simpa using x.toNat_lt)]
  simp

theorem reads_i64 (x : Int64) : Reads i64 (putI64 x) x := by
  intro rest
  have h := Reads.takeBytes (truncated "i64") (putI64 x) rest
  rw [putI64, length_leBytes] at h
  rw [i64, putI64, run_bind_ok h, ofLeBytes_leBytes_of_lt (by simpa using x.toUInt64.toNat_lt)]
  simp

theorem reads_f64 (x : F64) : Reads f64 (putF64 x) x := by
  intro rest
  have h := Reads.takeBytes (truncated "f64") (putF64 x) rest
  rw [putF64, length_leBytes] at h
  rw [f64, putF64, run_bind_ok h, ofLeBytes_leBytes_of_lt (by simpa using x.bits.toNat_lt)]
  simp

theorem reads_strictFlag (b : Bool) (msg : String) : Reads (strictFlag msg) (putBool b) b := by
  intro rest
  cases b <;> rfl

theorem reads_flag (b : Bool) : Reads flag (putBool b) b := by
  intro rest
  cases b <;> rfl

theorem reads_strId (x : StrId) : Reads strId (putU32 x.val) x :=
  (reads_u32 x.val).bind_pure _

theorem reads_typeId (x : TypeId) : Reads typeId (putU32 x.val) x :=
  (reads_u32 x.val).bind_pure _

theorem reads_constId (x : ConstId) : Reads constId (putU32 x.val) x :=
  (reads_u32 x.val).bind_pure _

theorem reads_funcId (x : FuncId) : Reads funcId (putU32 x.val) x :=
  (reads_u32 x.val).bind_pure _

theorem reads_span (x : Span) : Reads span (putSpan x) x :=
  (reads_u32 x.start).bind ((reads_u32 x.stop).bind_pure _)

theorem reads_decodeBinop (op : BinOp) : Reads decodeBinop (encodeBinop op) op := by
  intro rest
  cases op <;> rfl

theorem reads_decodeUnop (op : UnOp) : Reads decodeUnop (encodeUnop op) op := by
  intro rest
  cases op <;> rfl

/-! ### Counts and lists -/

/-- A count below `2 ^ 32` is written without loss. -/
theorem reads_count {n : ℕ} (h : n < 2 ^ 32) : Reads count (putLen n) n := by
  have hn : (UInt32.ofNat n).toNat = n := by simpa using h
  have hr := (reads_u32 (UInt32.ofNat n)).bind_pure UInt32.toNat
  rw [hn] at hr
  exact hr

theorem reads_cappedCount {n cap : ℕ} (hn : n ≤ cap) (hcap : cap < 2 ^ 32) (msg : String) :
    Reads (cappedCount cap msg) (putLen n) n := by
  intro rest
  rw [cappedCount, run_bind_ok (reads_count (hn.trans_lt hcap) rest), if_neg (by omega), run_pure]

/-- A list behind its count, when the count is read without a check. -/
theorem reads_uncappedList {α : Type} {p : Rd α} {w : α → Bytes} {xs : List α}
    (hlen : xs.length < 2 ^ 32) (h : ∀ x ∈ xs, Reads p (w x) x) :
    Reads (uncappedList p) (putList w xs) xs :=
  (reads_count hlen).bind (Reads.times h)

/-- A list behind its count, when the count is checked against a cap. -/
theorem reads_cappedList {α : Type} {p : Rd α} {w : α → Bytes} {xs : List α} {cap : ℕ}
    (hlen : xs.length ≤ cap) (hcap : cap < 2 ^ 32) (msg : String)
    (h : ∀ x ∈ xs, Reads p (w x) x) :
    Reads (cappedList cap msg p) (putList w xs) xs :=
  (reads_cappedCount hlen hcap msg).bind (Reads.times h)

theorem reads_typeIds {xs : List TypeId} (hlen : xs.length < 2 ^ 32) :
    Reads typeIds (putTypeIds xs) xs :=
  reads_uncappedList hlen fun x _ => reads_typeId x

theorem reads_strIds {xs : List StrId} (hlen : xs.length ≤ idListCap) :
    Reads strIds (putIds xs) xs :=
  reads_cappedList hlen (by decide) _ fun x _ => reads_strId x

/-- A string whose byte length fits a count is read back. -/
theorem reads_rawStr {s : String} (hlen : s.toUTF8.size < 2 ^ 32) : Reads rawStr (putStr s) s := by
  intro rest
  have hb : s.toUTF8.data.toList.length = s.toUTF8.size := by simp
  have ht := Reads.takeBytes (truncated "string bytes") s.toUTF8.data.toList rest
  have hu : String.fromUTF8? ⟨s.toUTF8.data.toList.toArray⟩ = some s := by
    have hv : ByteArray.IsValidUTF8 ⟨s.toUTF8.data⟩ := s.isValidUTF8
    rw [Array.toArray_toList, String.fromUTF8?, dif_pos hv]
    rfl
  rw [rawStr, putStr, List.append_assoc, run_bind_ok (reads_count hlen _)]
  rw [hb] at ht
  rw [run_bind_ok ht, hu]
  rfl

/-! ### Types and constants

The lists inside a type or a constant carry no cap of their own: that their
length fits a count follows from the size of the encoding. -/

/-- The bytes of a list are at least as many as its items, when no item is
empty. -/
theorem length_le_putList {α : Type} {w : α → Bytes} (h : ∀ x, 0 < (w x).length)
    (xs : List α) : xs.length ≤ (putList w xs).length := by
  have hflat : xs.length ≤ (xs.flatMap w).length := by
    induction xs with
    | nil => simp
    | cons x xs ih =>
      have hx := h x
      simp only [List.length_cons, List.flatMap_cons, List.length_append]
      omega
  rw [putList, List.length_append]
  omega

@[simp] theorem length_putU8 (x : UInt8) : (putU8 x).length = 1 := rfl

@[simp] theorem length_putU16 (x : UInt16) : (putU16 x).length = 2 := length_leBytes _ _

@[simp] theorem length_putU32 (x : UInt32) : (putU32 x).length = 4 := length_leBytes _ _

theorem length_putTypeIds (xs : List TypeId) : xs.length ≤ (putTypeIds xs).length :=
  length_le_putList (fun x => by simp) xs

theorem reads_decodeType (t : IrType) (h : (encodeType t).length < 2 ^ 32) :
    Reads decodeType (encodeType t) t := by
  refine (reads_u8 t.tag).bind ?_
  have hbody : (encodeTypeBody t).length < 2 ^ 32 := by
    rw [encodeType, List.length_append] at h
    omega
  clear h
  cases t
  case tuple items | union items =>
    have hlen := length_putTypeIds items
    simp only [encodeTypeBody] at hbody
    exact (reads_typeIds (by omega)).bind_pure _
  case func items ret =>
    have hlen := length_putTypeIds items
    simp only [encodeTypeBody, List.length_append] at hbody
    exact (reads_typeIds (by omega)).bind ((reads_typeId ret).bind_pure _)
  case struct id args | enum id args =>
    have hlen := length_putTypeIds args
    simp only [encodeTypeBody, List.length_append] at hbody
    exact (reads_strId id).bind ((reads_typeIds (by omega)).bind_pure _)
  case option inner | array inner | range inner => exact (reads_typeId inner).bind_pure _
  case result a b | dict a b => exact (reads_typeId a).bind ((reads_typeId b).bind_pure _)
  case opaqueHandle id | named id => exact (reads_strId id).bind_pure _
  case var n => exact (reads_u32 n).bind_pure _
  case ptr mutable inner =>
    exact (reads_strictFlag mutable _).bind ((reads_typeId inner).bind_pure _)
  all_goals exact Reads.pure _

theorem reads_constPair (kv : ConstId × ConstId) :
    Reads constPair (putU32 kv.1.val ++ putU32 kv.2.val) kv :=
  (reads_constId kv.1).bind ((reads_constId kv.2).bind_pure _)

theorem reads_decodeConst (c : Const) (h : (encodeConst c).length < 2 ^ 32) :
    Reads decodeConst (encodeConst c) c := by
  cases c with
  | unit => exact (reads_u8 0).bind (Reads.pure _)
  | bool b => exact (reads_u8 1).bind ((reads_strictFlag b _).bind_pure _)
  | int i => exact (reads_u8 2).bind ((reads_i64 i).bind_pure _)
  | float f => exact (reads_u8 3).bind ((reads_f64 f).bind_pure _)
  | str id => exact (reads_u8 4).bind ((reads_strId id).bind_pure _)
  | array items =>
    have hlen : items.length ≤ (putList (fun id : ConstId => putU32 id.val) items).length :=
      length_le_putList (fun x => by simp) items
    rw [encodeConst, List.length_append] at h
    exact (reads_u8 5).bind
      ((reads_uncappedList (by omega) fun x _ => reads_constId x).bind_pure _)
  | dict pairs =>
    have hlen : pairs.length ≤ (putList (fun kv : ConstId × ConstId =>
        putU32 kv.1.val ++ putU32 kv.2.val) pairs).length :=
      length_le_putList (fun x => by simp) pairs
    rw [encodeConst, List.length_append] at h
    exact (reads_u8 6).bind
      ((reads_uncappedList (by omega) fun x _ => reads_constPair x).bind_pure _)
  | option inner =>
    cases inner with
    | none => exact (reads_u8 7).bind ((reads_strictFlag false _).bind_nil (Reads.pure _))
    | some id =>
      exact (reads_u8 7).bind ((reads_strictFlag true _).bind ((reads_constId id).bind_pure _))
  | result ok val =>
    exact (reads_u8 8).bind ((reads_strictFlag ok _).bind ((reads_constId val).bind_pure _))

/-! ### Patterns -/

theorem eats_u8 : Eats u8 := by
  intro bs x r h
  cases bs with
  | nil => simp [u8] at h
  | cons b bs =>
    obtain ⟨-, rfl⟩ : b = x ∧ bs = r := by simpa [u8] using h
    simp

theorem shrinks_u32 : Shrinks u32 :=
  (Shrinks.takeBytes _ 4).bind fun _ => Shrinks.pure _

theorem shrinks_cappedCount (cap : ℕ) (msg : String) : Shrinks (cappedCount cap msg) :=
  (shrinks_u32.bind fun _ => Shrinks.pure _).bind fun _ => (Shrinks.pure _).guard

theorem shrinks_cappedList (cap : ℕ) (msg : String) {p : Rd Pattern} (hp : Shrinks p) :
    Shrinks (cappedList cap msg p) :=
  (shrinks_cappedCount cap msg).bind fun n => hp.times n

theorem shrinks_strictFlag (msg : String) : Shrinks (strictFlag msg) :=
  eats_u8.shrinks.bind fun _ => (Shrinks.pure _).guard

theorem shrinks_strId : Shrinks strId := shrinks_u32.bind fun _ => Shrinks.pure _

theorem shrinks_constId : Shrinks constId := shrinks_u32.bind fun _ => Shrinks.pure _

theorem shrinks_patternCase {p : Rd Pattern} (hp : Shrinks p) (tag : ℕ) :
    Shrinks (patternCase p tag) := by
  unfold patternCase
  split
  · exact Shrinks.pure _
  · exact shrinks_strId.bind fun _ => Shrinks.pure _
  · exact shrinks_constId.bind fun _ => Shrinks.pure _
  · refine shrinks_strId.bind fun name => (shrinks_strictFlag _).bind fun has => ?_
    cases has
    · exact Shrinks.pure _
    · exact hp.bind fun _ => Shrinks.pure _
  · exact (shrinks_cappedList _ _ hp).bind fun _ => Shrinks.pure _
  · exact (shrinks_cappedList _ _ hp).bind fun _ => Shrinks.pure _
  · exact Shrinks.throw _

theorem agreeBelow_patternCase {n : ℕ} {p q : Rd Pattern} (hp : Shrinks p)
    (h : AgreeBelow n p q) (tag : ℕ) : AgreeBelow n (patternCase p tag) (patternCase q tag) := by
  have hlist : ∀ cap msg, AgreeBelow n (cappedList cap msg p) (cappedList cap msg q) :=
    fun cap msg => (AgreeBelow.refl n _).bind (shrinks_cappedCount cap msg) fun k => h.times hp k
  unfold patternCase
  split
  · exact AgreeBelow.refl n _
  · exact AgreeBelow.refl n _
  · exact AgreeBelow.refl n _
  · refine (AgreeBelow.refl n _).bind shrinks_strId fun name =>
      (AgreeBelow.refl n _).bind (shrinks_strictFlag _) fun has => ?_
    cases has
    · exact AgreeBelow.refl n _
    · exact h.bind hp fun _ => AgreeBelow.refl n _
  · exact (hlist _ _).bind (shrinks_cappedList _ _ hp) fun _ => AgreeBelow.refl n _
  · exact (hlist _ _).bind (shrinks_cappedList _ _ hp) fun _ => AgreeBelow.refl n _
  · exact AgreeBelow.refl n _

/-- A pattern reads its tag before it calls itself. -/
theorem guarded_patternBody : Guarded patternBody where
  shrinks _ hp := eats_u8.shrinks.bind fun tag => shrinks_patternCase hp tag.toNat
  agree _ _ _ hp _ h := AgreeBelow.bind_eats eats_u8 fun tag =>
    agreeBelow_patternCase hp h tag.toNat

/-- The recursion of the source: a pattern is its own reader at every child. -/
theorem decodePattern_eq : decodePattern = patternBody decodePattern :=
  fix_eq guarded_patternBody

mutual

theorem reads_decodePattern : ∀ p, cappedPattern p → Reads decodePattern (encodePattern p) p
  | .wildcard, _ => by
    rw [decodePattern_eq]
    exact (reads_u8 0).bind (Reads.pure _)
  | .binding id, _ => by
    rw [decodePattern_eq]
    exact (reads_u8 1).bind ((reads_strId id).bind_pure _)
  | .lit id, _ => by
    rw [decodePattern_eq]
    exact (reads_u8 2).bind ((reads_constId id).bind_pure _)
  | .variant name none, _ => by
    rw [decodePattern_eq]
    exact (reads_u8 3).bind ((reads_strId name).bind
      ((reads_strictFlag false _).bind_nil (Reads.pure _)))
  | .variant name (some p), h => by
    have hp := reads_decodePattern p h
    rw [decodePattern_eq]
    exact (reads_u8 3).bind ((reads_strId name).bind
      ((reads_strictFlag true _).bind (hp.bind_pure _)))
  | .tuple pats, h => by
    have hps := reads_decodePatterns pats h.2
    rw [decodePattern_eq]
    exact (reads_u8 4).bind (((reads_cappedCount h.1 (by decide) _).bind hps).bind_pure _)
  | .or pats, h => by
    have hps := reads_decodePatterns pats h.2
    rw [decodePattern_eq]
    exact (reads_u8 5).bind (((reads_cappedCount h.1 (by decide) _).bind hps).bind_pure _)

theorem reads_decodePatterns : ∀ ps, cappedPatterns ps →
    Reads (times decodePattern ps.length) (encodePatterns ps) ps
  | [], _ => Reads.pure []
  | p :: ps, h =>
    (reads_decodePattern p h.1).bind ((reads_decodePatterns ps h.2).bind_pure _)

end

/-! ### Ops -/

theorem reads_decodeHome {slot : Option UInt16} {var : Option StrId} (h : oneHome slot var) :
    Reads decodeHome (encodeHome slot var) (slot, var) := by
  rcases slot with _ | s
  · rcases var with _ | id
    · exact (reads_u8 2).bind_nil (Reads.pure _)
    · exact (reads_u8 1).bind ((reads_strId id).bind_pure _)
  · -- a slot is written alone, so it is read back with no variable
    obtain rfl : var = none := by
      rcases h with h | h
      · exact absurd h (by simp)
      · exact h
    exact (reads_u8 0).bind ((reads_u16 s).bind_pure _)

theorem reads_enumVariant (v : StrId × Bool) :
    Reads enumVariant (putU32 v.1.val ++ putBool v.2) v :=
  (reads_strId v.1).bind ((reads_flag v.2).bind_pure _)

/-- The fields of an op are read in the order in which they are written. -/
theorem reads_decodeOpBody (op : Op) (h : AdmissibleOp op) :
    Reads (decodeOpBody op.tag.toNat) (encodeOpBody op) op := by
  cases op
  case pushConst id => exact (reads_constId id).bind_pure _
  case loadVar id | defineVar id | storeVar id | takeVar id | getField id | setField id =>
    exact (reads_strId id).bind_pure _
  case loadPath parts | storePath parts => exact (reads_strIds h).bind_pure _
  case popN n | loadSlot n | storeSlot n | getFieldIdx n | setFieldIdx n | slotInc n
      | makeArray n | makeDict n | concat n | dbQuery n | call n =>
    exact (reads_u16 n).bind_pure _
  case vecPushField slot var name | vecPushMethod slot var name | setFieldTake slot var name
      | setFieldIndexTake slot var name | getFieldIndex slot var name | lenField slot var name =>
    exact (reads_decodeHome h).bind ((reads_strId name).bind_pure _)
  case fieldBinopTake slot var field op =>
    exact (reads_decodeHome h).bind ((reads_strId field).bind ((reads_decodeBinop op).bind_pure _))
  case storeIndexTake slot var => exact (reads_decodeHome h).bind_pure _
  case compoundIndexTake slot var op =>
    exact (reads_decodeHome h).bind ((reads_decodeBinop op).bind_pure _)
  case getFieldSlotIdx slot var idx dst =>
    exact (reads_decodeHome h).bind ((reads_u16 idx).bind ((reads_u16 dst).bind_pure _))
  case indexIntSlot a b c | indexDictInt a b c =>
    exact (reads_u16 a).bind ((reads_u16 b).bind ((reads_u16 c).bind_pure _))
  case slotAddInt a b | slotLessIntSlot a b => exact (reads_u16 a).bind ((reads_u16 b).bind_pure _)
  case slotAddIntImm a imm | slotSubIntImm a imm | slotMulIntImm a imm | slotLessIntImm a imm =>
    exact (reads_u16 a).bind ((reads_i64 imm).bind_pure _)
  case slotCmpIntSlot a b op =>
    exact (reads_u16 a).bind ((reads_u16 b).bind ((reads_decodeBinop op).bind_pure _))
  case slotCmpIntImm a imm op | pushSlotIntImm a imm op =>
    exact (reads_u16 a).bind ((reads_i64 imm).bind ((reads_decodeBinop op).bind_pure _))
  case slotCmpConst a k op =>
    exact (reads_u16 a).bind ((reads_constId k).bind ((reads_decodeBinop op).bind_pure _))
  case slotBinaryInt dst lhs rhs op =>
    exact (reads_u16 dst).bind ((reads_u16 lhs).bind ((reads_u16 rhs).bind
      ((reads_decodeBinop op).bind_pure _)))
  case slotBinaryIntImm dst lhs imm op =>
    exact (reads_u16 dst).bind ((reads_u16 lhs).bind ((reads_i64 imm).bind
      ((reads_decodeBinop op).bind_pure _)))
  case jumpIfFalseSlotCmpIntImm a imm op target =>
    exact (reads_u16 a).bind ((reads_i64 imm).bind ((reads_decodeBinop op).bind
      ((reads_u32 target).bind_pure _)))
  case jumpIfFalseSlotCmpIntSlot a b op target =>
    exact (reads_u16 a).bind ((reads_u16 b).bind ((reads_decodeBinop op).bind
      ((reads_u32 target).bind_pure _)))
  case binOp op | compoundIndexOp op => exact (reads_decodeBinop op).bind_pure _
  case unOp op => exact (reads_decodeUnop op).bind_pure _
  case jump t | jumpIfFalse t | jumpIfTrue t | jumpIfFalseBool t | whileCond t =>
    exact (reads_u32 t).bind_pure _
  case forSetup exit header numVars =>
    exact (reads_u32 exit).bind ((reads_u32 header).bind ((reads_u8 numVars).bind_pure _))
  case forNext vars exit body inEnv =>
    exact (reads_strIds h).bind ((reads_u32 exit).bind ((reads_u32 body).bind
      ((reads_flag inEnv).bind_pure _)))
  case whileSetup exit header => exact (reads_u32 exit).bind ((reads_u32 header).bind_pure _)
  case unpackTuple n => exact (reads_u8 n).bind_pure _
  case makeStruct name fields | registerStruct name fields =>
    exact (reads_strId name).bind ((reads_strIds h).bind_pure _)
  case compoundFieldOp name op =>
    exact (reads_strId name).bind ((reads_decodeBinop op).bind_pure _)
  case registerEnum name variants =>
    exact (reads_strId name).bind
      ((reads_cappedList h (by decide) _ fun v _ => reads_enumVariant v).bind_pure _)
  case makeEnum enumName variant argc =>
    exact (reads_strId enumName).bind ((reads_strId variant).bind ((reads_u16 argc).bind_pure _))
  case makeClosure func | makeFunc func | spawnClosure func =>
    exact (reads_funcId func).bind_pure _
  case makeVariant name hasArg => exact (reads_strId name).bind ((reads_flag hasArg).bind_pure _)
  case matchArm pat next hasEnv restore =>
    exact (reads_decodePattern pat h).bind ((reads_u32 next).bind ((reads_flag hasEnv).bind
      ((reads_flag restore).bind_pure _)))
  case matchGuard next hasEnv => exact (reads_u32 next).bind ((reads_flag hasEnv).bind_pure _)
  case ifLetMatch pat els hasEnv =>
    exact (reads_decodePattern pat h).bind ((reads_u32 els).bind
      ((reads_flag hasEnv).bind_pure _))
  case callPath parts argc pspan =>
    exact (reads_strIds h).bind ((reads_u16 argc).bind ((reads_span pspan).bind_pure _))
  case callMethod name argc | callNative name argc =>
    exact (reads_strId name).bind ((reads_u16 argc).bind_pure _)
  all_goals exact Reads.pure _

theorem reads_decodeOp (op : Op) (h : AdmissibleOp op) : Reads decodeOp (encodeOp op) op :=
  (reads_u16 op.tag).bind (reads_decodeOpBody op h)

end Codec

end ZzLang
