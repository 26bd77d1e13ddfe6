import Mathlib.Logic.Function.Basic
import Mathlib.Data.List.Basic

/-!
# Nested database transactions

`sqlz.transaction` runs a closure between `BEGIN` and `COMMIT`, and nested calls on one handle are
counted in a table beside the connection: only the outermost call is meant to talk to the server.
A call whose closure fails rolls the whole transaction back and drops the entry, whatever its depth,
and then tells the enclosing closure about it by an ordinary value. An enclosing closure that passes
the failure on makes the outermost call fail as well, and nothing is wrong. One that carries on runs
its statements outside of any transaction, under a frame that still means to commit.

So whether calls are all or nothing is a matter of what closures do with the failures of nested
calls (`Closure.steadfast`). It is read off from what the closure does when every statement joins
one transaction (`Closure.play`), without the table and without the connection.
-/

namespace ZzLang.Db

variable {σ ρ α : Type}

/-! ### Connections -/

/-- A connection: the statements that have taken effect, and those of an open transaction. -/
structure Conn (σ : Type) where
  committed : List σ
  pending : Option (List σ)
deriving DecidableEq

/-- The statements that the next one can see. -/
def Conn.seen (c : Conn σ) : List σ := c.committed ++ c.pending.getD []

/-- What differs between the servers. -/
structure Backend (σ ρ : Type) where
  /-- The answer to a statement. A statement that fails has no effect. -/
  reply : List σ → σ → Except String ρ
  beginFails : List σ → Option String
  commitFails : List σ → List σ → Option String
  /-- A `COMMIT` that fails leaves the transaction open. -/
  staysOpen : Bool
  /-- What ending a transaction says when there is none: an error of sqlite, a mere warning of the
  others. -/
  idleEnd : Option String

/-- The statements that `tx_stmt` is used for. -/
inductive TxCmd
  | begin
  | commit
  | rollback
deriving DecidableEq

namespace Backend

variable (B : Backend σ ρ)

/-- A statement takes effect at once unless a transaction is open. -/
def exec (c : Conn σ) (s : σ) : Except String ρ × Conn σ :=
  match B.reply c.seen s with
  | .error m => (.error m, c)
  | .ok r =>
    (.ok r,
      match c.pending with
      | none => { c with committed := c.committed ++ [s] }
      | some p => { c with pending := some (p ++ [s]) })

/-- `tx_stmt`: the error, and the connection after it. -/
def txStmt (c : Conn σ) : TxCmd → Option String × Conn σ
  | .begin =>
    match c.pending with
    | some _ => (some "cannot start a transaction within a transaction", c)
    | none =>
      match B.beginFails c.committed with
      | some m => (some m, c)
      | none => (none, { c with pending := some [] })
  | .commit =>
    match c.pending with
    | none => (B.idleEnd, c)
    | some p =>
      match B.commitFails c.committed p with
      | some m => (some m, if B.staysOpen then c else { c with pending := none })
      | none => (none, { committed := c.committed ++ p, pending := none })
  | .rollback =>
    match c.pending with
    | none => (B.idleEnd, c)
    | some _ => (none, { c with pending := none })

end Backend

/-! ### The frames of a transaction -/

/-- The table of depths, by the address of the handle, and the connection of the handle. -/
structure World (σ : Type) where
  depths : ℕ → Option ℕ
  conn : Conn σ

/-- `tx_begin`: the error, if any. -/
def txBegin (B : Backend σ ρ) (key : ℕ) (w : World σ) : Option String × World σ :=
  let depth := (w.depths key).getD 0
  if depth = 0 then
    match B.txStmt w.conn .begin with
    | (some m, conn) => (some m, { w with conn })
    | (none, conn) => (none, { depths := Function.update w.depths key (some 1), conn })
  else
    (none, { w with depths := Function.update w.depths key (some (depth + 1)) })

/-- `tx_commit`. A commit that fails is followed by a rollback whose own error is dropped. -/
def txCommit (B : Backend σ ρ) (key : ℕ) (w : World σ) : Option String × World σ :=
  let depth := (w.depths key).getD 0
  if depth ≤ 1 then
    let depths := Function.update w.depths key none
    match B.txStmt w.conn .commit with
    | (some m, conn) => (some m, { depths, conn := (B.txStmt conn .rollback).2 })
    | (none, conn) => (none, { depths, conn })
  else
    (none, { w with depths := Function.update w.depths key (some (depth - 1)) })

/-- `tx_rollback`: nothing where a nested call has already ended the transaction. -/
def txRollback (B : Backend σ ρ) (key : ℕ) (w : World σ) : Option String × World σ :=
  let present := (w.depths key).isSome
  let depths := Function.update w.depths key none
  if present then
    let (e, conn) := B.txStmt w.conn .rollback
    (e, { depths, conn })
  else
    (none, { w with depths })

/-- How a closure ends. -/
inductive Outcome (α : Type)
  | returned (v : α)
  | raised (msg : String)
  | panicked
deriving DecidableEq

/-- What a call of the native gives to its caller, unless it panics. -/
inductive Reply (α : Type)
  | ok (v : α)
  | err (msg : String)
  | raised (msg : String)
deriving DecidableEq

/-- A run of a closure: the statements that were carried out, in order. -/
structure Run (σ α : Type) where
  world : World σ
  executed : List σ
  outcome : Outcome α

/-- A call of the native. There is no reply if it panics. -/
structure Call (σ α : Type) where
  world : World σ
  executed : List σ
  reply : Option (Reply α)

/-- `db_transaction` on a closure that runs as `call` does. -/
def dbTransaction (B : Backend σ ρ) (key : ℕ) (call : World σ → Run σ α) (w : World σ) :
    Call σ α :=
  match txBegin B key w with
  | (some m, w) => { world := w, executed := [], reply := some (.raised m) }
  | (none, w) =>
    let r := call w
    match r.outcome with
    | .returned v =>
      match txCommit B key r.world with
      | (none, w) => { world := w, executed := r.executed, reply := some (.ok v) }
      | (some m, w) => { world := w, executed := r.executed, reply := some (.raised m) }
    | .raised e =>
      match txRollback B key r.world with
      | (none, w) => { world := w, executed := r.executed, reply := some (.err e) }
      | (some rb, w) =>
        { world := w, executed := r.executed
          reply := some (.err (e ++ "; rollback failed: " ++ rb)) }
    | .panicked =>
      { world := (txRollback B key r.world).2, executed := r.executed, reply := none }

/-! ### Closures -/

/-- What a closure does with its handle: statements and nested calls, and it goes on depending on
what they answer. -/
inductive Closure (σ ρ α : Type)
  | ret (v : α)
  | raise (msg : String)
  | panic
  | stmt (s : σ) (k : Except String ρ → Closure σ ρ α)
  | transaction (body : Closure σ ρ α) (k : Reply α → Closure σ ρ α)

namespace Closure

/-- Running a closure. A panic of a nested call goes through. -/
def run (B : Backend σ ρ) (key : ℕ) : Closure σ ρ α → World σ → Run σ α
  | .ret v, w => { world := w, executed := [], outcome := .returned v }
  | .raise m, w => { world := w, executed := [], outcome := .raised m }
  | .panic, w => { world := w, executed := [], outcome := .panicked }
  | .stmt s k, w =>
    match B.exec w.conn s with
    | (.error m, conn) => run B key (k (.error m)) { w with conn }
    | (.ok r, conn) =>
      let rest := run B key (k (.ok r)) { w with conn }
      { rest with executed := s :: rest.executed }
  | .transaction body k, w =>
    let t := dbTransaction B key (fun w => run B key body w) w
    match t.reply with
    | none => { world := t.world, executed := t.executed, outcome := .panicked }
    | some reply =>
      let rest := run B key (k reply) t.world
      { rest with executed := t.executed ++ rest.executed }

/-- An outermost call in the course of a run. -/
structure Outer (σ ρ α : Type) where
  before : World σ
  body : Closure σ ρ α
  call : Call σ α

/-- The calls that a task makes while no transaction of its own is open. -/
def outerCalls (B : Backend σ ρ) (key : ℕ) : Closure σ ρ α → World σ → List (Outer σ ρ α)
  | .stmt s k, w =>
    match B.exec w.conn s with
    | (reply, conn) => outerCalls B key (k reply) { w with conn }
  | .transaction body k, w =>
    let t := dbTransaction B key (body.run B key) w
    { before := w, body, call := t } ::
      match t.reply with
      | none => []
      | some reply => outerCalls B key (k reply) t.world
  | _, _ => []

/-- **A call is all or nothing**: after `.ok` what it executed has taken effect, otherwise nothing
of it has, and no entry of the table is left. -/
structure Atomic (key : ℕ) (w : World σ) (t : Call σ α) : Prop where
  ok : ∀ v, t.reply = some (.ok v) →
    t.world.conn.committed = w.conn.committed ++ t.executed
  failed : (∀ v, t.reply ≠ some (.ok v)) → t.world.conn.committed = w.conn.committed
  absent : t.world.depths key = none

/-! ### Closures that pass failures on -/

/-- The run of a closure whose statements, and those of its nested calls, all join one transaction:
what is executed, and how it ends. -/
def play (B : Backend σ ρ) : Closure σ ρ α → List σ → List σ × Outcome α
  | .ret v, _ => ([], .returned v)
  | .raise m, _ => ([], .raised m)
  | .panic, _ => ([], .panicked)
  | .stmt s k, seen =>
    match B.reply seen s with
    | .error m => play B (k (.error m)) seen
    | .ok r =>
      let rest := play B (k (.ok r)) (seen ++ [s])
      (s :: rest.1, rest.2)
  | .transaction body k, seen =>
    let inner := play B body seen
    match inner.2 with
    | .returned v =>
      let rest := play B (k (.ok v)) (seen ++ inner.1)
      (inner.1 ++ rest.1, rest.2)
    | .raised m =>
      let rest := play B (k (.err m)) (seen ++ inner.1)
      (inner.1 ++ rest.1, rest.2)
    | .panicked => (inner.1, .panicked)

/-- Nothing is left to do but to fail. -/
def givesUp : Closure σ ρ α → Bool
  | .raise _ => true
  | .panic => true
  | _ => false

/-- Whenever a nested call fails, the closure that made it fails at once. -/
def steadfast (B : Backend σ ρ) : Closure σ ρ α → List σ → Bool
  | .stmt s k, seen =>
    match B.reply seen s with
    | .error m => steadfast B (k (.error m)) seen
    | .ok r => steadfast B (k (.ok r)) (seen ++ [s])
  | .transaction body k, seen =>
    let inner := play B body seen
    steadfast B body seen &&
      match inner.2 with
      | .returned v => steadfast B (k (.ok v)) (seen ++ inner.1)
      | .raised m => (k (.err m)).givesUp
      | .panicked => true
  | _, _ => true

end Closure

/-! ### Where the frames stand -/

variable {B : Backend σ ρ} {key : ℕ}

/-- Between outermost calls: no entry in the table, and no transaction open. -/
structure World.Idle (key : ℕ) (w : World σ) : Prop where
  absent : w.depths key = none
  closed : w.conn.pending = none

/-- Inside of an outermost call made in `w`, `d` frames deep, with `p` executed so far. -/
def World.within (key : ℕ) (w : World σ) (d : ℕ) (p : List σ) : World σ where
  depths := Function.update w.depths key (some d)
  conn := { committed := w.conn.committed, pending := some p }

section Frames

variable {w : World σ} {d : ℕ} {p : List σ}

@[simp] theorem World.within_depth : (w.within key d p).depths key = some d := by
  simp [World.within]

@[simp] theorem World.within_seen : (w.within key d p).conn.seen = w.conn.committed ++ p := rfl

theorem World.Idle.update_absent (hidle : w.Idle key) :
    Function.update w.depths key none = w.depths := by
  rw [← hidle.absent, Function.update_eq_self]

theorem txBegin_within (hd : 0 < d) :
    txBegin B key (w.within key d p) = (none, w.within key (d + 1) p) := by
  simp [txBegin, World.within, Nat.ne_of_gt hd]

theorem txCommit_within (hd : 0 < d) :
    txCommit B key (w.within key (d + 1) p) = (none, w.within key d p) := by
  simp [txCommit, World.within, Nat.ne_of_gt hd]

theorem txRollback_within (hidle : w.Idle key) :
    txRollback B key (w.within key d p) = (none, w) := by
  obtain ⟨depths, committed, pending⟩ := w
  obtain rfl : pending = none := hidle.closed
  simpa [txRollback, World.within, Backend.txStmt] using hidle.update_absent

/-- The no-op: a nested call has ended the transaction before. -/
theorem txRollback_idle (hidle : w.Idle key) : txRollback B key w = (none, w) := by
  simp [txRollback, hidle.absent, hidle.update_absent]

theorem exec_within (s : σ) :
    B.exec (w.within key d p).conn s =
      match B.reply (w.conn.committed ++ p) s with
      | .error m => (.error m, (w.within key d p).conn)
      | .ok r => (.ok r, (w.within key d (p ++ [s])).conn) := by
  rw [Backend.exec, World.within_seen]
  rcases B.reply (w.conn.committed ++ p) s with m | r <;> rfl

end Frames

/-! ### Runs inside of a transaction -/

namespace Closure

/-- A closure that gives up does so on the spot. -/
theorem run_of_givesUp (key : ℕ) {c : Closure σ ρ α} (hgives : c.givesUp = true) (w : World σ) :
    (c.run B key w).world = w ∧ (c.run B key w).executed = [] ∧
      ∀ seen, play B c seen = ([], (c.run B key w).outcome) ∧
        ∀ v, (c.run B key w).outcome ≠ .returned v := by
  cases c with
  | raise m => simp [run, play]
  | panic => simp [run, play]
  | ret v => simp [givesUp] at hgives
  | stmt s k => simp [givesUp] at hgives
  | transaction body k => simp [givesUp] at hgives

/-- A run inside of a transaction does what the closure does by itself. Either the transaction is
still open after it, or the closure has failed and everything is undone. -/
structure Follows (key : ℕ) (w : World σ) (d : ℕ) (p : List σ) (r : Run σ α)
    (played : List σ × Outcome α) : Prop where
  executed : r.executed = played.1
  outcome : r.outcome = played.2
  world : r.world = w.within key d (p ++ played.1) ∨
    r.world = w ∧ ∀ v, played.2 ≠ .returned v

variable {w : World σ} {d : ℕ} {p : List σ}

/-- What a nested call comes to, given what its closure does. -/
theorem dbTransaction_within {call : World σ → Run σ α} {played : List σ × Outcome α}
    (hidle : w.Idle key) (hd : 0 < d)
    (hbody : Follows key w (d + 1) p (call (w.within key (d + 1) p)) played) :
    let t := dbTransaction B key call (w.within key d p)
    t.executed = played.1 ∧
      match played.2 with
      | .returned v => t.reply = some (.ok v) ∧ t.world = w.within key d (p ++ played.1)
      | .raised m => t.reply = some (.err m) ∧ t.world = w
      | .panicked => t.reply = none ∧ t.world = w := by
  obtain ⟨executed, outcome⟩ := played
  obtain ⟨hexec, hout, hworld⟩ := hbody
  have hundone : txRollback B key (call (w.within key (d + 1) p)).world = (none, w) := by
    rcases hworld with hopen | ⟨hopen, -⟩
    · rw [hopen, txRollback_within hidle]
    · rw [hopen, txRollback_idle hidle]
  simp only [dbTransaction, txBegin_within hd, hout]
  rcases outcome with v | m | _
  · rcases hworld with hopen | ⟨-, hfails⟩
    · simp [hopen, txCommit_within hd, hexec]
    · exact absurd rfl (hfails v)
  · simp [hundone, hexec]
  · simp [hundone, hexec]

/-- **Inside of a transaction the frames make no difference** to a closure that passes failures
on. The induction is on the closure, for all depths at once. -/
theorem run_within (hidle : w.Idle key) (c : Closure σ ρ α) (hd : 0 < d)
    (hsteady : c.steadfast B (w.conn.committed ++ p) = true) :
    Follows key w d p (c.run B key (w.within key d p)) (c.play B (w.conn.committed ++ p)) := by
  induction c generalizing d p with
  | ret v => exact ⟨rfl, rfl, .inl (by simp [run, play])⟩
  | raise m => exact ⟨rfl, rfl, .inl (by simp [run, play])⟩
  | panic => exact ⟨rfl, rfl, .inl (by simp [run, play])⟩
  | stmt s k ih =>
    rw [steadfast] at hsteady
    rw [run, play, exec_within]
    rcases hreply : B.reply (w.conn.committed ++ p) s with m | r
    · simp only [hreply] at hsteady ⊢
      exact ih (.error m) hd hsteady
    · simp only [hreply] at hsteady ⊢
      rw [List.append_assoc] at hsteady ⊢
      obtain ⟨hexec, hout, hworld⟩ := ih (.ok r) (p := p ++ [s]) hd hsteady
      refine ⟨congrArg (s :: ·) hexec, hout, ?_⟩
      rw [List.append_assoc] at hworld
      exact hworld
  | transaction body k ihBody ihK =>
    rw [steadfast, Bool.and_eq_true] at hsteady
    obtain ⟨hbody, hrest⟩ := hsteady
    have hcall := dbTransaction_within (B := B) hidle hd (ihBody (d := d + 1) (by omega) hbody)
    rw [run, play]
    revert hcall hrest
    generalize body.play B (w.conn.committed ++ p) = played
    obtain ⟨executed, outcome⟩ := played
    rcases outcome with v | m | _
    · -- the nested call has returned: the transaction goes on, one frame up
      rintro hrest ⟨hexec, hreply, hworld⟩
      simp only [hreply, hworld, hexec]
      dsimp only at hrest
      rw [List.append_assoc] at hrest ⊢
      obtain ⟨hexec', hout', hworld'⟩ := ihK (.ok v) hd hrest
      refine ⟨congrArg (executed ++ ·) hexec', hout', ?_⟩
      rw [List.append_assoc] at hworld'
      exact hworld'
    · -- it has failed: everything is undone, and the closure gives up
      rintro hrest ⟨hexec, hreply, hworld⟩
      simp only [hreply, hworld, hexec]
      obtain ⟨hsame, hnone, hgives⟩ := run_of_givesUp (B := B) key hrest w
      obtain ⟨hplay, hfails⟩ := hgives (w.conn.committed ++ p ++ executed)
      simp only [hplay, hnone, hsame]
      exact ⟨rfl, rfl, .inr ⟨rfl, hfails⟩⟩
    · rintro - ⟨hexec, hreply, hworld⟩
      simp only [hreply, hworld, hexec]
      exact ⟨rfl, rfl, .inr ⟨rfl, by simp⟩⟩

/-! ### Outermost calls -/

theorem txBegin_idle (hidle : w.Idle key) :
    (∃ m, txBegin B key w = (some m, w)) ∨ txBegin B key w = (none, w.within key 1 []) := by
  obtain ⟨depths, committed, pending⟩ := w
  obtain rfl : pending = none := hidle.closed
  have habsent : depths key = none := hidle.absent
  rcases hbegin : B.beginFails committed with _ | m
  · exact .inr (by simp [txBegin, Backend.txStmt, habsent, hbegin, World.within])
  · exact .inl ⟨m, by simp [txBegin, Backend.txStmt, habsent, hbegin]⟩

/-- The commit of the outermost call: all of it, or an error and nothing. -/
theorem txCommit_outermost (hidle : w.Idle key) :
    (∃ m, txCommit B key (w.within key 1 p) = (some m, w)) ∨
      txCommit B key (w.within key 1 p) =
        (none, { w with conn := { w.conn with committed := w.conn.committed ++ p } }) := by
  obtain ⟨depths, committed, pending⟩ := w
  obtain rfl : pending = none := hidle.closed
  have hsame := hidle.update_absent
  rcases hcommit : B.commitFails committed p with _ | m
  · exact .inr (by simpa [txCommit, World.within, Backend.txStmt, hcommit] using hsame)
  · refine .inl ⟨m, ?_⟩
    rcases hstays : B.staysOpen with _ | _ <;>
      simpa [txCommit, World.within, Backend.txStmt, hcommit, hstays] using hsame

/-- An outermost call whose closure passes failures on is all or nothing, and leaves the handle as
it was between calls. -/
theorem dbTransaction_atomic (hidle : w.Idle key) (body : Closure σ ρ α)
    (hsteady : body.steadfast B w.conn.committed = true) :
    Atomic key w (dbTransaction B key (body.run B key) w) ∧
      (dbTransaction B key (body.run B key) w).world.Idle key := by
  rw [dbTransaction]
  rcases txBegin_idle (B := B) hidle with ⟨m, hbegin⟩ | hbegin
  · simp only [hbegin]
    exact ⟨⟨by simp, fun _ => rfl, hidle.absent⟩, hidle⟩
  · simp only [hbegin]
    have hrun := run_within hidle body Nat.one_pos (p := []) (by simpa using hsteady)
    revert hrun
    generalize body.run B key (w.within key 1 []) = r
    generalize body.play B (w.conn.committed ++ []) = played
    rintro ⟨hexec, hout, hworld⟩
    rw [List.nil_append] at hworld
    have hundone : txRollback B key r.world = (none, w) := by
      rcases hworld with hopen | ⟨hopen, -⟩
      · rw [hopen, txRollback_within hidle]
      · rw [hopen, txRollback_idle hidle]
    rcases houtcome : r.outcome with v | m | _
    · rcases hworld with hopen | ⟨-, hfails⟩
      · rcases txCommit_outermost (B := B) (p := played.1) hidle with ⟨m, hcommit⟩ | hcommit
        · simp only [hopen, hcommit]
          exact ⟨⟨by simp, fun _ => rfl, hidle.absent⟩, hidle⟩
        · simp only [hopen, hcommit, hexec]
          exact ⟨⟨fun _ _ => rfl, fun hne => absurd rfl (hne v), hidle.absent⟩,
            ⟨hidle.absent, hidle.closed⟩⟩
      · exact absurd (hout.symm.trans houtcome) (hfails v)
    · simp only [hundone]
      exact ⟨⟨by simp, fun _ => rfl, hidle.absent⟩, hidle⟩
    · simp only [hundone]
      exact ⟨⟨by simp, fun _ => rfl, hidle.absent⟩, hidle⟩

/-- Outside of calls a statement leaves the handle as it was between calls. -/
theorem exec_idle (hidle : w.Idle key) (s : σ) :
    World.Idle key { w with conn := (B.exec w.conn s).2 } := by
  refine ⟨hidle.absent, ?_⟩
  rw [Backend.exec]
  rcases B.reply w.conn.seen s with m | r
  · exact hidle.closed
  · simp [hidle.closed]

/-- **Every outermost call of a run is all or nothing** if in each of them the closures pass the
failures of their nested calls on. -/
theorem outerCalls_atomic (c : Closure σ ρ α) (w : World σ) (hidle : w.Idle key)
    (hsteady : ∀ o ∈ c.outerCalls B key w,
      o.body.steadfast B o.before.conn.committed = true) :
    ∀ o ∈ c.outerCalls B key w, Atomic key o.before o.call := by
  induction c generalizing w with
  | ret v => simp [outerCalls]
  | raise m => simp [outerCalls]
  | panic => simp [outerCalls]
  | stmt s k ih => exact ih _ _ (exec_idle hidle s) hsteady
  | transaction body k ihBody ihK =>
    rw [outerCalls] at hsteady ⊢
    obtain ⟨hhere, hrest⟩ := List.forall_mem_cons.mp hsteady
    obtain ⟨hatomic, hidle'⟩ := dbTransaction_atomic hidle body hhere
    refine List.forall_mem_cons.mpr ⟨hatomic, ?_⟩
    rcases hreply : (dbTransaction B key (body.run B key) w).reply with _ | reply
    · simp
    · simp only [hreply] at hrest ⊢
      exact ihK reply _ hidle' hrest

/-! ### A closure that carries on -/

/-- A server that never refuses anything; `idleEnd` is what it says to an idle `COMMIT`. -/
def plainServer (idleEnd : Option String) : Backend String Unit where
  reply _ _ := .ok ()
  beginFails _ := none
  commitFails _ _ := none
  staysOpen := false
  idleEnd

/-- A handle that has just been opened. -/
def fresh : World String where
  depths _ := none
  conn := { committed := [], pending := none }

/-- The nested call fails, and the outer closure ignores that. -/
def ignoring : Closure String Unit Unit :=
  .stmt "insert a" fun _ =>
    .transaction (.raise "inner") fun _ => .stmt "insert b" fun _ => .ret ()

/-- The nested call returns. -/
def nesting : Closure String Unit Unit :=
  .stmt "insert a" fun _ =>
    .transaction (.stmt "insert b" fun _ => .ret ()) fun _ => .stmt "insert c" fun _ => .ret ()

/-- The outermost call of `ignoring` on a fresh handle. -/
def ignored (idleEnd : Option String) : Call String Unit :=
  dbTransaction (plainServer idleEnd) 0 (ignoring.run (plainServer idleEnd) 0) fresh

/-- Where an idle `COMMIT` is accepted, the call returns `.ok` although a statement is lost. Where
it is an error, the call raises although a statement has taken effect. -/
theorem ignoring_not_atomic :
    ((ignored none).reply = some (.ok ()) ∧
      (ignored none).executed = ["insert a", "insert b"] ∧
      (ignored none).world.conn.committed = ["insert b"]) ∧
    (ignored (some "no transaction is active")).reply =
        some (.raised "no transaction is active") ∧
      (ignored (some "no transaction is active")).world.conn.committed = ["insert b"] := by
  refine ⟨⟨?_, ?_, ?_⟩, ?_, ?_⟩ <;> decide +kernel

theorem outerCalls_atomic_nesting :
    ((Closure.transaction nesting fun _ => .ret ()).outerCalls (plainServer none) 0 fresh).Forall
      fun o => Atomic 0 o.before o.call := by
  refine List.forall_iff_forall_mem.mpr (outerCalls_atomic _ _ ⟨rfl, rfl⟩ fun o ho => ?_)
  rw [outerCalls] at ho
  rcases List.mem_cons.mp ho with rfl | ho
  · decide +kernel
  · split at ho <;> simp [outerCalls] at ho

end Closure

end ZzLang.Db
