import ZzLang.Db.PgWire

/-!
# Answers and the queries they belong to

A call sends one batch and reads the server's answer message by message up to `ReadyForQuery`.
Nothing else pairs answers with calls: what a call leaves unread is what the next call reads first.

A call leaves nothing exactly if no message of the answer makes its loops stop early
(`readable`). There are two loops. The main one returns an error at every message it has no use
for, parameter statuses among them, and at every message that `parseBackendMsg` refuses. The loop
that drains the stream after an error of the server skips what it can parse, and stops at the
first message that it cannot, notifications among them. Whether an answer is readable depends on
this answer only, so that in a whole session the calls stay paired with their answers if and only
if all answers are readable.
-/

namespace ZzLang.Db

open StepReader

/-! ### The socket -/

/-- A message as it is sent. -/
structure Frame where
  ty : UInt8
  body : Bytes
deriving DecidableEq

/-- The bytes of a message. The length counts itself. -/
def Frame.wire (f : Frame) : Bytes := f.ty :: (beBytes 4 (f.body.length + 4) ++ f.body)

/-- The bytes of several messages. -/
def wires (fs : List Frame) : Bytes := fs.flatMap Frame.wire

/-- Errors of a call: a text, or a message that was not expected, which the text shows. -/
inductive PgError
  | text (msg : String)
  | unexpected (msg : BackendMsg)
deriving DecidableEq

/-- The largest length that is accepted. -/
def lengthCap : ℕ := 64 * 1024 * 1024

/-- `i32::from_be_bytes(..) as usize`: a negative number becomes a huge one. -/
def lengthOf (bs : Bytes) : ℕ := ((BitVec.ofNat 32 (ofBeBytes bs)).signExtend 64).toNat

/-- `PgConn::read_msg` on what is there to be read: the outcome, and what is left. There is none
if it waits for bytes. -/
def readMsg (bs : Bytes) : Option (Except PgError BackendMsg × Bytes) :=
  match bs with
  | ty :: b₁ :: b₂ :: b₃ :: b₄ :: rest =>
    let len := lengthOf [b₁, b₂, b₃, b₄]
    if 4 ≤ len ∧ len ≤ lengthCap then
      let n := len - 4
      if n ≤ rest.length then
        some ((parseBackendMsg ty (rest.take n)).mapError .text, rest.drop n)
      else none
    else some (.error (.text "pg: backend message length out of range"), rest)
  | _ => none

/-- What a batch has brought in so far, the triple that `extended` returns. -/
structure RawResult where
  cols : Option (List ColDesc)
  rows : List (List (Option Bytes))
  tag : String
deriving DecidableEq

/-- `drain_to_ready`: what is left after it. -/
def drainToReady : ℕ → Bytes → Option Bytes
  | 0, _ => none
  | fuel + 1, bs =>
    match readMsg bs with
    | none => none
    | some (.ok (.ready _), rest) => some rest
    | some (.error _, rest) => some rest
    | some (.ok _, rest) => drainToReady fuel rest

/-- What the loop of `extended` does with a message. -/
inductive Turn
  | next (acc : RawResult)
  | done
  | failed (fields : List (UInt8 × String))
  | stop (e : PgError)

/-- The arms of the loop of `extended`. -/
def turn (acc : RawResult) : BackendMsg → Turn
  | .parseComplete | .bindComplete => .next acc
  | .paramDesc _ => .next acc
  | .noData => .next { acc with cols := some [] }
  | .emptyQuery => .next acc
  | .rowDesc c => .next { acc with cols := some c }
  | .dataRow r => .next { acc with rows := acc.rows ++ [r] }
  | .commandComplete t => .next { acc with tag := t }
  | .ready _ => .done
  | .notice _ => .next acc
  | .errorMsg fs => .failed fs
  | other => .stop (.unexpected other)

/-- The loop of `extended`. Every message takes five bytes at least, so that the number of bytes is
fuel enough. -/
def readAnswer : ℕ → RawResult → Bytes → Option (Except PgError RawResult × Bytes)
  | 0, _, _ => none
  | fuel + 1, acc, bs =>
    match readMsg bs with
    | none => none
    | some (.error e, rest) => some (.error e, rest)
    | some (.ok msg, rest) =>
      match turn acc msg with
      | .next acc => readAnswer fuel acc rest
      | .done => some (.ok acc, rest)
      | .failed fs =>
        match drainToReady fuel rest with
        | none => none
        | some rest => some (.error (.text ("pg.query: " ++ fieldsMessage fs)), rest)
      | .stop e => some (.error e, rest)

/-- `PgConn::extended`, once the batch has been sent. -/
def extended (bs : Bytes) : Option (Except PgError RawResult × Bytes) :=
  readAnswer bs.length { cols := none, rows := [], tag := "" } bs

/-- The two kinds of calls. -/
inductive CallKind
  | exec
  | query
deriving DecidableEq

/-- What a call returns. -/
inductive CallResult
  | count (n : ℤ)
  | rows (cols : List ColDesc) (rows : List (List (Option Bytes)))
deriving DecidableEq

/-- `PgConn::exec` and `PgConn::query`: what they make of the triple. -/
def CallKind.result : CallKind → RawResult → CallResult
  | .exec, r => .count (commandTagCount r.tag)
  | .query, r => .rows (r.cols.getD []) r.rows

/-- A call, and what the server answers to its batch. -/
structure PgCall where
  kind : CallKind
  answer : List Frame

/-- A call with `unread` left over from earlier ones. -/
def PgCall.run (c : PgCall) (unread : Bytes) : Option (Except PgError CallResult × Bytes) :=
  (extended (unread ++ wires c.answer)).map fun r => (r.1.map c.kind.result, r.2)

/-- The outcomes of a sequence of calls, and what each of them leaves unread. It ends at a call
that does not return. -/
def session : Bytes → List PgCall → List (Option (Except PgError CallResult × Bytes))
  | _, [] => []
  | unread, c :: cs =>
    match c.run unread with
    | none => [none]
    | some r => some r :: session r.2 cs

/-! ### Answers -/

/-- The letter of a message type. -/
def Frame.letter (f : Frame) : Char := Char.ofUInt8 f.ty

/-- What may be inserted at any place: `ParameterStatus`, `NoticeResponse` and
`NotificationResponse`. -/
def Frame.isAsync (f : Frame) : Bool := f.letter = 'S' || f.letter = 'N' || f.letter = 'A'

/-- The types of the messages that answer a batch which succeeds, up to `ReadyForQuery`. A copy to
the client is answered in full. A copy from the client is not: the server passes over the `Sync` of
the batch and waits for data, so that the only end is an error. -/
inductive Completes : List Char → Prop
  | rows (n : ℕ) : Completes ('1' :: '2' :: 'T' :: (List.replicate n 'D' ++ ['C']))
  | noRows : Completes ['1', '2', 'n', 'C']
  | empty : Completes ['1', '2', 'n', 'I']
  | copyOut (n : ℕ) : Completes ('1' :: '2' :: 'n' :: 'H' :: (List.replicate n 'd' ++ ['c', 'C']))

/-- The types of the messages that answer a batch. An error may come at any point, also when the
transaction ends after the last message, and nothing comes after it. -/
inductive Exchange : List Char → Prop
  | completes {ls : List Char} : Completes ls → Exchange ls
  | fails {ls pre : List Char} : Completes ls → pre <+: ls → Exchange (pre ++ ['E'])
  | copyInFails : Exchange ['1', '2', 'n', 'G', 'E']

/-- An answer to a batch. -/
structure Answer (fs : List Frame) : Prop where
  shape : ∃ init ready, fs = init ++ [ready] ∧
    Exchange ((init.filter fun f => !f.isAsync).map Frame.letter) ∧
    ready.letter = 'Z' ∧ ready.body.length = 1
  /-- Lengths are numbers of 32 bits, and not negative. -/
  fits : ∀ f ∈ fs, f.body.length + 4 < 2 ^ 31

/-- The message can be read. -/
def Frame.parsed (f : Frame) : Except PgError BackendMsg :=
  if f.body.length + 4 ≤ lengthCap then (parseBackendMsg f.ty f.body).mapError .text
  else .error (.text "pg: backend message length out of range")

/-- The draining loop skips the message. -/
def Frame.skipped (f : Frame) : Bool := f.parsed.isOk

/-- The loop of `extended` has an arm for the message. -/
def BackendMsg.isTaken : BackendMsg → Bool
  | .parseComplete | .bindComplete | .paramDesc _ | .noData | .emptyQuery | .rowDesc _ | .dataRow _
  | .commandComplete _ | .ready _ | .notice _ | .errorMsg _ => true
  | _ => false

/-- No message of the answer makes one of the loops stop early. -/
def readable : List Frame → Bool
  | [] => true
  | f :: fs =>
    match f.parsed with
    | .error _ => false
    | .ok (.errorMsg _) => fs.all Frame.skipped
    | .ok msg => msg.isTaken && readable fs

/-! ### One message -/

/-- What is left of the bytes of a message and those after it: the body of one whose length is out
of range is not read. -/
def Frame.left (f : Frame) (rest : Bytes) : Bytes :=
  if f.body.length + 4 ≤ lengthCap then rest else f.body ++ rest

theorem Frame.left_of_parsed {f : Frame} {m : BackendMsg} (h : f.parsed = .ok m) (rest : Bytes) :
    f.left rest = rest := by
  rw [Frame.parsed] at h
  rw [Frame.left]
  split_ifs at h ⊢ with hcap
  · rfl

theorem Frame.letter_of_parsed {f : Frame} {m : BackendMsg} (h : f.parsed = .ok m) :
    m.letter = f.letter := by
  rw [Frame.parsed] at h
  split_ifs at h with hcap
  · rcases hparse : parseBackendMsg f.ty f.body with e | m'
    · rw [hparse] at h
      cases h
    · rw [hparse] at h
      obtain rfl : m' = m := Except.ok.inj h
      exact parseBackendMsg_letter hparse

theorem lengthOf_beBytes {n : ℕ} (h : n < 2 ^ 31) : lengthOf (beBytes 4 n) = n := by
  have hsmall : (BitVec.ofNat 32 n).toNat = n := by
    rw [BitVec.toNat_ofNat]
    exact Nat.mod_eq_of_lt (by omega)
  have hmsb : (BitVec.ofNat 32 n).msb = false := by
    rw [BitVec.msb_eq_false_iff_two_mul_lt, hsmall]
    omega
  rw [lengthOf, ofBeBytes_beBytes_of_lt (by omega), BitVec.signExtend_eq_setWidth_of_msb_false hmsb,
    BitVec.toNat_setWidth, hsmall]
  exact Nat.mod_eq_of_lt (by omega)

/-- **Reading a message** from the front of the stream. -/
theorem readMsg_wire {f : Frame} (hfits : f.body.length + 4 < 2 ^ 31) (rest : Bytes) :
    readMsg (f.wire ++ rest) = some (f.parsed, f.left rest) := by
  have hread : readMsg (f.wire ++ rest) =
      if 4 ≤ lengthOf (beBytes 4 (f.body.length + 4)) ∧
          lengthOf (beBytes 4 (f.body.length + 4)) ≤ lengthCap then
        let n := lengthOf (beBytes 4 (f.body.length + 4)) - 4
        if n ≤ (f.body ++ rest).length then
          some ((parseBackendMsg f.ty ((f.body ++ rest).take n)).mapError .text,
            (f.body ++ rest).drop n)
        else none
      else some (.error (.text "pg: backend message length out of range"), f.body ++ rest) := rfl
  rw [hread, lengthOf_beBytes hfits, Frame.parsed, Frame.left]
  by_cases hcap : f.body.length + 4 ≤ lengthCap
  · simp [hcap]
  · simp [hcap]

/-! ### One answer -/

/-- The frames end with the only `ReadyForQuery` among them. -/
inductive Ended : List Frame → Prop
  | ready {f : Frame} : f.letter = 'Z' → f.body.length = 1 → Ended [f]
  | cons {f : Frame} {fs : List Frame} :
      f.letter ≠ 'Z' → f.body.length + 4 < 2 ^ 31 → Ended fs → Ended (f :: fs)

theorem Ended.wires_ne_nil {fs : List Frame} (h : Ended fs) : wires fs ≠ [] := by
  cases h <;> simp [wires, Frame.wire]

theorem parsed_ready {f : Frame} (hletter : f.letter = 'Z') (hone : f.body.length = 1) :
    ∃ status, f.parsed = .ok (.ready status) := by
  obtain ⟨ty, body⟩ := f
  obtain ⟨status, rfl⟩ := List.length_eq_one_iff.mp hone
  refine ⟨status, ?_⟩
  have hread : Cursor.backendMsg ty 1 [status] = .ok (.ready status, []) := by
    have hchar : Char.ofUInt8 ty = 'Z' := hletter
    rw [Cursor.backendMsg, hchar]
    rfl
  have hparse : parseBackendMsg ty [status] = .ok (.ready status) := by
    rw [parseBackendMsg, List.length_singleton, hread]
    rfl
  rw [Frame.parsed, if_pos (by simp [lengthCap]), hparse]
  rfl

theorem parsed_not_ready {f : Frame} {m : BackendMsg} (hletter : f.letter ≠ 'Z')
    (hparsed : f.parsed = .ok m) (status : UInt8) : m ≠ .ready status := by
  rintro rfl
  exact hletter (Frame.letter_of_parsed hparsed).symm

/-- Leaving a message behind leaves something, as `ReadyForQuery` is still to come. -/
theorem Ended.left_ne_nil {fs : List Frame} (h : Ended fs) (f : Frame) :
    f.left (wires fs) ≠ [] := by
  rw [Frame.left]
  split_ifs
  · exact h.wires_ne_nil
  · exact List.append_ne_nil_of_right_ne_nil _ h.wires_ne_nil

theorem wires_cons (f : Frame) (fs : List Frame) : wires (f :: fs) = f.wire ++ wires fs := rfl

/-- What the draining loop does with one message. -/
theorem drainToReady_succ (fuel : ℕ) {bs rest : Bytes} {o : Except PgError BackendMsg}
    (hread : readMsg bs = some (o, rest)) :
    ((∀ m, o ≠ .ok m) → drainToReady (fuel + 1) bs = some rest) ∧
    (∀ status, o = .ok (.ready status) → drainToReady (fuel + 1) bs = some rest) ∧
    (∀ m, o = .ok m → (∀ status, m ≠ .ready status) →
      drainToReady (fuel + 1) bs = drainToReady fuel rest) := by
  rw [drainToReady, hread]
  refine ⟨fun hne => ?_, fun status h => ?_, fun m h hne => ?_⟩
  · rcases o with e | m
    · rfl
    · exact absurd rfl (hne m)
  · subst h
    rfl
  · subst h
    cases m with
    | ready status => exact absurd rfl (hne status)
    | _ => rfl

theorem skipped_iff {f : Frame} : f.skipped = true ↔ ∃ m, f.parsed = .ok m := by
  rw [Frame.skipped]
  rcases f.parsed with e | m <;> simp [Except.isOk, Except.toBool]

/-- The draining loop returns, and it leaves nothing exactly if it can skip everything. -/
theorem drainToReady_wires {fs : List Frame} (h : Ended fs) (fuel : ℕ)
    (hfuel : fs.length ≤ fuel) :
    ∃ left, drainToReady fuel (wires fs) = some left ∧ (left = [] ↔ fs.all Frame.skipped) := by
  induction h generalizing fuel with
  | @ready f hletter hone =>
    obtain ⟨fuel, rfl⟩ : ∃ n, fuel = n + 1 := ⟨fuel - 1, by simp at hfuel; omega⟩
    obtain ⟨status, hparsed⟩ := parsed_ready hletter hone
    have hread := readMsg_wire (f := f) (by omega) (wires [])
    rw [Frame.left_of_parsed hparsed] at hread
    rw [wires_cons]
    refine ⟨_, (drainToReady_succ fuel hread).2.1 status hparsed, ?_⟩
    simp [wires, skipped_iff, hparsed]
  | @cons f fs hletter hfits hrest ih =>
    obtain ⟨fuel, rfl⟩ : ∃ n, fuel = n + 1 := ⟨fuel - 1, by simp at hfuel; omega⟩
    have hread := readMsg_wire hfits (wires fs)
    rw [wires_cons]
    rcases hparsed : f.parsed with e | m
    · have hfails : ∀ m, f.parsed ≠ .ok m := fun m hm => by cases hparsed.symm.trans hm
      refine ⟨_, (drainToReady_succ fuel hread).1 hfails, ?_⟩
      refine ⟨fun hnil => absurd hnil (hrest.left_ne_nil f), fun hall => ?_⟩
      obtain ⟨m, hm⟩ := skipped_iff.mp (Bool.and_eq_true_iff.mp hall).1
      exact absurd hm (hfails m)
    · obtain ⟨left, hdrain, hleft⟩ := ih fuel (by simpa using hfuel)
      rw [Frame.left_of_parsed hparsed] at hread
      refine ⟨left, ?_, ?_⟩
      · rw [(drainToReady_succ fuel hread).2.2 m hparsed
          (parsed_not_ready hletter hparsed), hdrain]
      · rw [hleft, List.all_cons, skipped_iff.mpr ⟨m, hparsed⟩, Bool.true_and]

/-! ### Calls -/

theorem turn_cases (acc : RawResult) (m : BackendMsg) :
    (∃ status, m = .ready status ∧ turn acc m = .done) ∨
    (∃ fs, m = .errorMsg fs ∧ turn acc m = .failed fs) ∨
    (m.isTaken = true ∧ (∀ fs, m ≠ .errorMsg fs) ∧ ∃ acc', turn acc m = .next acc') ∨
    (m.isTaken = false ∧ ∃ e, turn acc m = .stop e) := by
  cases m <;> simp [turn, BackendMsg.isTaken]

/-- What the main loop does with a message that it can read. -/
theorem readAnswer_succ (fuel : ℕ) (acc : RawResult) {bs rest : Bytes} {msg : BackendMsg}
    (hread : readMsg bs = some (.ok msg, rest)) :
    readAnswer (fuel + 1) acc bs =
      match turn acc msg with
      | .next acc => readAnswer fuel acc rest
      | .done => some (.ok acc, rest)
      | .failed fs =>
        match drainToReady fuel rest with
        | none => none
        | some rest => some (.error (.text ("pg.query: " ++ fieldsMessage fs)), rest)
      | .stop e => some (.error e, rest) := by
  simp only [readAnswer, hread]

theorem readAnswer_error (fuel : ℕ) (acc : RawResult) {bs rest : Bytes} {e : PgError}
    (hread : readMsg bs = some (.error e, rest)) :
    readAnswer (fuel + 1) acc bs = some (.error e, rest) := by
  simp only [readAnswer, hread]

theorem readable_cons (f : Frame) (fs : List Frame) :
    readable (f :: fs) =
      match f.parsed with
      | .error _ => false
      | .ok (.errorMsg _) => fs.all Frame.skipped
      | .ok msg => msg.isTaken && readable fs := by
  rw [readable]

/-- A message that is not an error is taken or not, and then the rest matters. -/
theorem readable_cons_of_ne {f : Frame} {fs : List Frame} {m : BackendMsg}
    (hparsed : f.parsed = .ok m) (hne : ∀ fields, m ≠ .errorMsg fields) :
    readable (f :: fs) = (m.isTaken && readable fs) := by
  rw [readable_cons, hparsed]
  cases m with
  | errorMsg fields => exact absurd rfl (hne fields)
  | _ => rfl

/-- **The main loop returns, and it leaves nothing exactly if the answer is readable.** -/
theorem readAnswer_wires {fs : List Frame} (h : Ended fs) (fuel : ℕ) (hfuel : fs.length ≤ fuel)
    (acc : RawResult) :
    ∃ o left, readAnswer fuel acc (wires fs) = some (o, left) ∧ (left = [] ↔ readable fs) := by
  induction h generalizing fuel acc with
  | @ready f hletter hone =>
    obtain ⟨fuel, rfl⟩ : ∃ n, fuel = n + 1 := ⟨fuel - 1, by simp at hfuel; omega⟩
    obtain ⟨status, hparsed⟩ := parsed_ready hletter hone
    have hread := readMsg_wire (f := f) (by omega) (wires [])
    rw [Frame.left_of_parsed hparsed, hparsed] at hread
    rw [wires_cons, readAnswer_succ fuel acc hread]
    refine ⟨.ok acc, wires [], rfl, ?_⟩
    rw [readable_cons, hparsed]
    exact ⟨fun _ => rfl, fun _ => rfl⟩
  | @cons f fs hletter hfits hrest ih =>
    obtain ⟨fuel, rfl⟩ : ∃ n, fuel = n + 1 := ⟨fuel - 1, by simp at hfuel; omega⟩
    have hread := readMsg_wire hfits (wires fs)
    have hfuel : fs.length ≤ fuel := by simpa using hfuel
    rw [wires_cons]
    rcases hparsed : f.parsed with e | m
    · rw [hparsed] at hread
      refine ⟨.error e, _, readAnswer_error fuel acc hread,
        fun hnil => absurd hnil (hrest.left_ne_nil f), ?_⟩
      rw [readable_cons, hparsed]
      exact fun hfalse => absurd hfalse Bool.false_ne_true
    · rw [Frame.left_of_parsed hparsed, hparsed] at hread
      rw [readAnswer_succ fuel acc hread]
      rcases turn_cases acc m with ⟨status, rfl, -⟩ | ⟨fields, rfl, hturn⟩ |
        ⟨htaken, hne, acc', hturn⟩ | ⟨htaken, e, hturn⟩
      · exact absurd rfl (parsed_not_ready hletter hparsed status)
      · obtain ⟨left, hdrain, hleft⟩ := drainToReady_wires hrest fuel hfuel
        simp only [hturn, hdrain]
        exact ⟨_, left, rfl, by rw [hleft, readable_cons, hparsed]⟩
      · obtain ⟨o, left, hrun, hleft⟩ := ih fuel hfuel acc'
        simp only [hturn, hrun]
        refine ⟨o, left, rfl, ?_⟩
        rw [hleft, readable_cons_of_ne hparsed hne, htaken, Bool.true_and]
      · simp only [hturn]
        refine ⟨.error e, wires fs, rfl, fun hnil => absurd hnil hrest.wires_ne_nil, ?_⟩
        rw [readable_cons_of_ne hparsed (by rintro fields rfl; cases htaken), htaken]
        exact fun hfalse => absurd hfalse Bool.false_ne_true

theorem wires_length_le : ∀ fs : List Frame, fs.length ≤ (wires fs).length
  | [] => Nat.le_refl 0
  | f :: fs => by
    have hrest := wires_length_le fs
    rw [wires_cons, List.length_append, List.length_cons]
    have hone : 0 < f.wire.length := by simp [Frame.wire]
    omega

/-- A call with nothing left over from earlier ones returns, and it leaves nothing exactly if its
answer is readable. -/
theorem PgCall.run_nil (c : PgCall) (h : Ended c.answer) :
    ∃ o left, c.run [] = some (o, left) ∧ (left = [] ↔ readable c.answer) := by
  obtain ⟨o, left, hrun, hleft⟩ := readAnswer_wires h (wires c.answer).length
    (wires_length_le c.answer) { cols := none, rows := [], tag := "" }
  refine ⟨o.map c.kind.result, left, ?_, hleft⟩
  rw [PgCall.run, List.nil_append, extended, hrun]
  rfl

/-! ### Sessions -/

/-- The types of an exchange are none of `ReadyForQuery`. -/
theorem Exchange.ne_ready {ls : List Char} (h : Exchange ls) : ∀ l ∈ ls, l ≠ 'Z' := by
  have hcompletes : ∀ {ls : List Char}, Completes ls → ∀ l ∈ ls, l ≠ 'Z' := by
    rintro ls (n | _ | _ | n) l hl rfl <;> simp at hl
  cases h with
  | completes h => exact hcompletes h
  | @fails ls pre h hpre =>
    intro l hl
    rcases List.mem_append.mp hl with hl | hl
    · exact hcompletes h l (hpre.subset hl)
    · rw [List.mem_singleton.mp hl]
      decide
  | copyInFails => simp

theorem Ended.append {init : List Frame} {ready : Frame} (hletter : ready.letter = 'Z')
    (hone : ready.body.length = 1)
    (hinit : ∀ f ∈ init, f.letter ≠ 'Z' ∧ f.body.length + 4 < 2 ^ 31) :
    Ended (init ++ [ready]) := by
  induction init with
  | nil => exact .ready hletter hone
  | cons f init ih =>
    obtain ⟨⟨hne, hfits⟩, hrest⟩ := List.forall_mem_cons.mp hinit
    exact .cons hne hfits (ih hrest)

theorem Answer.ended {fs : List Frame} (h : Answer fs) : Ended fs := by
  obtain ⟨init, ready, rfl, hexchange, hletter, hone⟩ := h.shape
  refine .append hletter hone fun f hf => ⟨fun hz => ?_, h.fits f (by simp [hf])⟩
  by_cases hasync : f.isAsync = true
  · simp [Frame.isAsync, hz] at hasync
  · refine hexchange.ne_ready _ (List.mem_map.mpr ⟨f, ?_, rfl⟩) hz
    exact List.mem_filter.mpr ⟨hf, by simpa using hasync⟩

/-- **Answers stay with their calls, in a whole session, if and only if all of them are readable.**
Then every call gives what it gives with its own answer alone. -/
theorem session_paired_iff (calls : List PgCall) (hanswers : ∀ c ∈ calls, Answer c.answer) :
    ((∀ r ∈ session [] calls, ∃ o, r = some (o, [])) ↔ ∀ c ∈ calls, readable c.answer) ∧
      ((∀ c ∈ calls, readable c.answer) →
        session [] calls = calls.map fun c => c.run []) := by
  induction calls with
  | nil => simp [session]
  | cons c calls ih =>
    obtain ⟨hanswer, hrest⟩ := List.forall_mem_cons.mp hanswers
    obtain ⟨ihIff, ihAlone⟩ := ih hrest
    obtain ⟨o, left, hrun, hleft⟩ := c.run_nil hanswer.ended
    simp only [session, hrun, List.forall_mem_cons, List.map_cons]
    refine ⟨⟨?_, ?_⟩, ?_⟩
    · rintro ⟨⟨o', ho'⟩, hmore⟩
      obtain rfl : left = [] := (Prod.mk.inj (Option.some.inj ho')).2
      exact ⟨hleft.mp rfl, ihIff.mp hmore⟩
    · rintro ⟨hhere, hmore⟩
      obtain rfl : left = [] := hleft.mpr hhere
      exact ⟨⟨o, rfl⟩, ihIff.mpr hmore⟩
    · rintro ⟨hhere, hmore⟩
      obtain rfl : left = [] := hleft.mpr hhere
      rw [ihAlone hmore]

/-! ### A notification in the middle of an answer -/

/-- An update of `n` rows, a digit, with some messages inserted after the description. -/
def updated (n : UInt8) (inserted : List Frame) : PgCall where
  kind := .exec
  answer := (⟨49, []⟩ :: ⟨50, []⟩ :: ⟨110, []⟩ ::
    (inserted ++ [⟨67, [85, 80, 68, 65, 84, 69, 32, 48 + n, 0]⟩])) ++ [⟨90, [73]⟩]

/-- A notification of process 1 on channel `c`, without a payload. -/
def notification : Frame := ⟨65, [0, 0, 0, 1, 99, 0, 0]⟩

theorem updated_answer {n : UInt8} {inserted : List Frame}
    (hletters : (((updated n inserted).answer.dropLast.filter fun f => !f.isAsync).map
      Frame.letter) = ['1', '2', 'n', 'C'])
    (hfits : ∀ f ∈ (updated n inserted).answer, f.body.length + 4 < 2 ^ 31) :
    Answer (updated n inserted).answer where
  shape := by
    refine ⟨_, ⟨90, [73]⟩, rfl, ?_, rfl, rfl⟩
    rw [updated, List.dropLast_concat] at hletters
    rw [hletters]
    exact .completes .noRows
  fits := hfits

/-- The first call stops at the notification, and the second one returns what the first was
answered. -/
theorem notification_shifts_answers :
    (∀ c ∈ [updated 7 [notification], updated 2 []], Answer c.answer) ∧
    session [] [updated 7 [notification], updated 2 []] =
      [some (.error (.text "unexpected backend message `65`"),
        wires [⟨67, [85, 80, 68, 65, 84, 69, 32, 55, 0]⟩, ⟨90, [73]⟩]),
       some (.ok (.count 7), wires (updated 2 []).answer)] := by
  refine ⟨?_, ?_⟩
  · simp only [List.forall_mem_cons]
    exact ⟨updated_answer (by decide) (by decide), updated_answer (by decide) (by decide), by simp⟩
  · decide

theorem session_paired_updates :
    (session [] [updated 7 [], updated 2 []]).Forall fun r => ∃ o, r = some (o, []) := by
  refine List.forall_iff_forall_mem.mpr ((session_paired_iff _ ?_).1.mpr (by decide))
  simp only [List.forall_mem_cons]
  exact ⟨updated_answer (by decide) (by decide), updated_answer (by decide) (by decide), by simp⟩

end ZzLang.Db
