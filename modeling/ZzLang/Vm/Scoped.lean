import ZzLang.Vm.Frames

/-!
# Frames that own their deferred closures

What `defer` is for, as a machine of its own. Here every activation of a function owns the
closures it has recorded. An activation that is being left stays where it is until they have
run, the last recorded first, each as an activation above it whose value nobody sees; only
then does its value go to the caller, just as it would go there without any deferred closure.
How a value reaches the caller is taken from the virtual machine, with the marks of pending
error conversions by depth: an activation that has fallen off its end no longer counts.

A log records which activation has recorded, run and finished what.
-/

namespace ZzLang.Vm

open ZzLang.Runtime (Value)

open Lockstep

/-- The ways to leave an activation. -/
inductive Exit
  | fellOff
  | returned
  | tried
  deriving DecidableEq

/-- An activation of a function. -/
structure Activation (O Env : Type) where
  id : ℕ
  chunk : Chunk O
  ip : ℕ
  prevEnv : Env
  stackBase : ℕ
  /-- The closures recorded and not run yet, the last one first. -/
  defers : List Value
  /-- How, and with which value, the activation is being left. -/
  exiting : Option (Exit × Value)
  /-- Is this a deferred closure of the activation below? -/
  deferred : Bool

/-- What happens to the deferred closures of the activations. -/
inductive Event
  | recorded (id : ℕ) (closure : Value)
  | ran (id : ℕ) (closure : Value)
  | left (id : ℕ)

/-- The machine with scoped closures. -/
structure Scoped (O Env Interp : Type) extends Core Env Interp where
  acts : List (Activation O Env)
  log : List Event
  nextId : ℕ

section

variable {O Env Interp Error : Type}

/-- Has the activation fallen off its end? -/
def Activation.fell (a : Activation O Env) : Bool :=
  match a.exiting with
  | some (.fellOff, _) => true
  | _ => false

/-- The number of activations, apart from those that have fallen off their end. -/
def depth (acts : List (Activation O Env)) : ℕ :=
  acts.countP fun a => !a.fell

/-- What the next instruction does, or the end of the code. -/
inductive Action (O Env Interp Error : Type)
  | next (s : Core Env Interp) (savedIp : ℕ)
  | enter (stackBase : ℕ) (chunk : Chunk O) (env : Env) (s : Core Env Interp) (savedIp : ℕ)
  /-- Call a function that converts an error. -/
  | convert (args : List Value) (chunk : Chunk O) (env : Env) (s : Core Env Interp)
  | record (closure : Value) (s : Core Env Interp)
  | exit (how : Exit) (v : Value) (s : Core Env Interp)
  | stop (r : Result Error) (s : Core Env Interp)

/-- The action of the top activation. -/
def action (host : Host O Env Interp Error) (a : Activation O Env) (depth : ℕ)
    (s : Core Env Interp) : Action O Env Interp Error :=
  match a.chunk.code[s.ip]? with
  | none =>
    let (v, s) := popResult a.stackBase (syncToplevel host a.chunk a.stackBase s)
    .exit .fellOff v { s with stack := truncate a.stackBase s.stack, env := a.prevEnv }
  | some op =>
    let s := { s with ip := s.ip + 1 }
    match op with
    | .ret =>
      match s.stack with
      | [] => .stop .panic s
      | v :: stack => .exit .returned v { s with stack }
    | .tryOp =>
      match attempt host s with
      | .go s => .next s a.ip
      | .unwind v s => .exit .tried v s
      | .convert args chunk env s => .convert args chunk env s
      | .stop r s => .stop r s
    | .deferRecord =>
      match s.stack with
      | [] => .stop .panic s
      | closure :: stack => .record closure { s with stack }
    | .other o =>
      match host.exec a.chunk a.stackBase depth o (s.reach a.ip) with
      | .next l => .next (s.put l) l.savedIp
      | .enter stackBase chunk env l => .enter stackBase chunk env (s.put l) l.savedIp
      | .fail e interp => .stop (.fail e) { s with interp }

namespace Scoped

/-- End the run. -/
def finish (s : Scoped O Env Interp) (r : Result Error) :
    Progress (Scoped O Env Interp) (Outcome Env Interp Error × List Event) :=
  .stop (s.toCore.finish r, s.log)

/-- Push an activation. -/
def enter (stackBase : ℕ) (chunk : Chunk O) (env : Env) (deferred : Bool)
    (s : Scoped O Env Interp) : Scoped O Env Interp :=
  { s with
    ip := 0
    env
    acts := { id := s.nextId, chunk, ip := 0, prevEnv := s.env, stackBase, defers := [],
              exiting := none, deferred } :: s.acts
    nextId := s.nextId + 1 }

/-- The top activation is gone for good. -/
def drop (a : Activation O Env) (how : Exit) (rest : List (Activation O Env))
    (s : Scoped O Env Interp) : Scoped O Env Interp :=
  let s := { s with acts := rest, log := s.log ++ [Event.left a.id] }
  match how with
  -- an activation that fell off its end has left the stack before
  | .fellOff => s
  | _ =>
    { s with
      loops := s.loops.filter fun li => li.frameIdx < depth rest
      stack := truncate a.stackBase s.stack
      env := a.prevEnv }

/-- Leave activations until one can go on: run what is deferred by those being left. The first
argument, if any, is how the top one is left. -/
def settle (host : Host O Env Interp Error) (exit : Option (Exit × Value)) :
    List (Activation O Env) → Scoped O Env Interp →
      Progress (Scoped O Env Interp) (Outcome Env Interp Error × List Event)
  | [], s => s.finish .panic
  | a :: rest, s =>
    match exit <|> a.exiting with
    | none => .go { s with ip := a.ip, acts := a :: rest }
    | some (how, v) =>
      match a.defers with
      | closure :: defers =>
        let s := { s with
          acts := { a with exiting := some (how, v), defers } :: rest
          log := s.log ++ [Event.ran a.id closure] }
        match host.closure closure with
        | some (chunk, env) => .go (s.enter s.stack.length chunk env true)
        | none => s.finish .panic
      | [] =>
        let s := s.drop a how rest
        -- the activation below is the one whose closure this was
        if a.deferred then settle host none rest s
        else
          let converts : Bool := s.tryConvertDepths.head? = some (depth rest + 1)
          let popped := { s with tryConvertDepths := s.tryConvertDepths.tail }
          match how, converts with
          | .fellOff, true => settle host (some (.tried, .err v)) rest popped
          | .fellOff, false =>
            match rest with
            | [] => s.finish (.value v)
            | _ :: _ => settle host none rest { s with stack := v :: s.stack }
          | .returned, true =>
            match rest with
            | [] => popped.finish (.returned (.err v))
            | _ :: _ => settle host none rest { popped with stack := .err v :: s.stack }
          | .returned, false | .tried, _ =>
            match rest with
            | [] => s.finish (.returned v)
            | _ :: _ => settle host none rest { s with stack := v :: s.stack }

/-- One step of the top activation. -/
def step (host : Host O Env Interp Error) (s : Scoped O Env Interp) :
    Progress (Scoped O Env Interp) (Outcome Env Interp Error × List Event) :=
  match s.acts with
  | [] => s.finish .panic
  | a :: rest =>
    match action host a (depth s.acts) s.toCore with
    | .next core ip => .go { s with toCore := core, acts := { a with ip } :: rest }
    | .enter stackBase chunk env core ip =>
      .go ({ s with toCore := core, acts := { a with ip } :: rest }.enter stackBase chunk env false)
    | .convert args chunk env core =>
      let s := { s with
        toCore := { core with
          stack := args.reverse ++ core.stack
          tryConvertDepths := (depth s.acts + 1) :: core.tryConvertDepths }
        acts := { a with ip := core.ip } :: rest }
      .go (s.enter core.stack.length chunk env false)
    | .record closure core =>
      .go { s with
        toCore := core
        acts := { a with defers := closure :: a.defers } :: rest
        log := s.log ++ [Event.recorded a.id closure] }
    | .exit how v core => settle host (some (how, v)) s.acts { s with toCore := core }
    | .stop r core => { s with toCore := core }.finish r

/-- A machine that is about to run a chunk. -/
def start (core : Core Env Interp) (chunk : Chunk O) (stackBase : ℕ) : Scoped O Env Interp where
  toCore := { core with ip := 0 }
  acts := [{ id := 0, chunk, ip := 0, prevEnv := core.env, stackBase, defers := [],
             exiting := none, deferred := false }]
  log := []
  nextId := 1

end Scoped

/-! ### Every closure runs once -/

/-- The activation an event is about. -/
def Event.id : Event → ℕ
  | recorded id _ => id
  | ran id _ => id
  | left id => id

/-- The closures an activation has recorded, in order. -/
def recordedBy (id : ℕ) (log : List Event) : List Value :=
  log.filterMap fun
    | .recorded id' closure => if id' = id then some closure else none
    | _ => none

/-- The closures that have run for an activation, in order. -/
def ranBy (id : ℕ) (log : List Event) : List Value :=
  log.filterMap fun
    | .ran id' closure => if id' = id then some closure else none
    | _ => none

/-- When an activation is left, the closures it has recorded have run, the last one first, and
nothing happens for it any more. -/
def Orderly (log : List Event) : Prop :=
  ∀ (id : ℕ) (before after : List Event), log = before ++ Event.left id :: after →
    ranBy id before = (recordedBy id before).reverse ∧ ∀ e ∈ after, e.id ≠ id

/-- The log of a run up to these activations. -/
structure Logged (acts : List (Activation O Env)) (log : List Event) (nextId : ℕ) : Prop where
  orderly : Orderly log
  distinct : (acts.map (·.id)).Nodup
  fresh : ∀ a ∈ acts, a.id < nextId
  past : ∀ e ∈ log, e.id < nextId
  /-- Who has been heard of and is not active any more has been left. -/
  accounted : ∀ e ∈ log, (∃ a ∈ acts, a.id = e.id) ∨ .left e.id ∈ log
  active : ∀ a ∈ acts, .left a.id ∉ log
  /-- The closures of an active function have run or are waiting. -/
  waiting : ∀ a ∈ acts, (recordedBy a.id log).reverse = ranBy a.id log ++ a.defers
  /-- Nothing has run for an activation that is not being left. -/
  running : ∀ a ∈ acts, a.exiting = none → ranBy a.id log = []

/-- An event of an activation that has not been left. -/
theorem Orderly.append {log : List Event} (h : Orderly log) {e : Event}
    (hlive : .left e.id ∉ log)
    (hleft : ∀ id, e = .left id → ranBy id log = (recordedBy id log).reverse) :
    Orderly (log ++ [e]) := by
  intro id before after heq
  rcases List.eq_nil_or_concat after with rfl | ⟨after', e', rfl⟩
  · obtain ⟨rfl, he⟩ := List.append_inj' heq rfl
    exact ⟨hleft id (by simpa using he), by simp⟩
  · have heq' : log ++ [e] = (before ++ .left id :: after') ++ [e'] := by simpa using heq
    obtain ⟨rfl, he⟩ := List.append_inj' heq' rfl
    obtain rfl : e = e' := by simpa using he
    obtain ⟨hran, hafter⟩ := h id before after' rfl
    refine ⟨hran, fun e' he' => ?_⟩
    have hmem : e' ∈ after' ∨ e' = e := by simpa using he'
    rcases hmem with he' | rfl
    · exact hafter e' he'
    · rintro rfl
      simp at hlive

theorem recordedBy_append {id : ℕ} {e : Event} (h : e.id ≠ id) (log : List Event) :
    recordedBy id (log ++ [e]) = recordedBy id log := by
  cases e <;> simp_all [recordedBy, Event.id]

theorem ranBy_append {id : ℕ} {e : Event} (h : e.id ≠ id) (log : List Event) :
    ranBy id (log ++ [e]) = ranBy id log := by
  cases e <;> simp_all [ranBy, Event.id]

theorem recordedBy_of_fresh {id : ℕ} {log : List Event} (h : ∀ e ∈ log, e.id < id) :
    recordedBy id log = [] := by
  refine List.filterMap_eq_nil_iff.mpr fun e he => ?_
  have hlt := h e he
  cases e <;> simp_all [Event.id]
  omega

theorem ranBy_of_fresh {id : ℕ} {log : List Event} (h : ∀ e ∈ log, e.id < id) :
    ranBy id log = [] := by
  refine List.filterMap_eq_nil_iff.mpr fun e he => ?_
  have hlt := h e he
  cases e <;> simp_all [Event.id]
  omega

namespace Logged

variable {a a' : Activation O Env} {rest acts : List (Activation O Env)} {log : List Event}
  {nextId : ℕ}

/-- The callers of an activation are others. -/
theorem ne_of_mem (h : Logged (a :: rest) log nextId) {b : Activation O Env} (hb : b ∈ rest) :
    a.id ≠ b.id := by
  intro heq
  have hnodup := (List.nodup_cons.mp h.distinct).1
  exact hnodup (List.mem_map.mpr ⟨b, hb, heq.symm⟩)

/-- The top activation records or runs a closure. -/
theorem event (h : Logged (a :: rest) log nextId) {e : Event} (he : e.id = a.id)
    (hnot : ∀ id, e ≠ .left id) (ha : a'.id = a.id)
    (hwaiting : (recordedBy a.id (log ++ [e])).reverse = ranBy a.id (log ++ [e]) ++ a'.defers)
    (hrunning : a'.exiting = none → ranBy a.id (log ++ [e]) = []) :
    Logged (a' :: rest) (log ++ [e]) nextId where
  orderly := h.orderly.append (he ▸ h.active a (by simp)) fun id heq => absurd heq (hnot id)
  distinct := by simpa [ha] using h.distinct
  fresh b hb := by
    rcases List.mem_cons.mp hb with rfl | hb
    · rw [ha]
      exact h.fresh a (by simp)
    · exact h.fresh b (by simp [hb])
  past e' he' := by
    rcases List.mem_append.mp he' with he' | he'
    · exact h.past e' he'
    · obtain rfl : e' = e := by simpa using he'
      rw [he]
      exact h.fresh a (by simp)
  accounted e' he' := by
    rcases List.mem_append.mp he' with he' | he'
    · rcases h.accounted e' he' with ⟨b, hb, hid⟩ | hleft
      · rcases List.mem_cons.mp hb with rfl | hb
        · exact Or.inl ⟨a', by simp, ha.trans hid⟩
        · exact Or.inl ⟨b, by simp [hb], hid⟩
      · exact Or.inr (by simp [hleft])
    · obtain rfl : e' = e := by simpa using he'
      exact Or.inl ⟨a', by simp, ha.trans he.symm⟩
  active b hb hleft := by
    have hleft : Event.left b.id ∈ log := by
      rcases List.mem_append.mp hleft with hleft | hleft
      · exact hleft
      · exact absurd (List.mem_singleton.mp hleft).symm (hnot _)
    rcases List.mem_cons.mp hb with rfl | hb
    · rw [ha] at hleft
      exact h.active a (by simp) hleft
    · exact h.active b (by simp [hb]) hleft
  waiting b hb := by
    rcases List.mem_cons.mp hb with rfl | hb
    · rw [ha]
      exact hwaiting
    · have hne : e.id ≠ b.id := he ▸ h.ne_of_mem hb
      rw [recordedBy_append hne, ranBy_append hne]
      exact h.waiting b (by simp [hb])
  running b hb hexiting := by
    rcases List.mem_cons.mp hb with rfl | hb
    · rw [ha]
      exact hrunning hexiting
    · rw [ranBy_append (he ▸ h.ne_of_mem hb)]
      exact h.running b (by simp [hb]) hexiting

/-- The top activation changes in what the log does not speak of. -/
theorem replace (h : Logged (a :: rest) log nextId) (ha : a'.id = a.id)
    (hdefers : a'.defers = a.defers) (hexiting : a'.exiting = none → a.exiting = none) :
    Logged (a' :: rest) log nextId where
  orderly := h.orderly
  distinct := by simpa [ha] using h.distinct
  fresh := by simpa [ha] using h.fresh
  past := h.past
  accounted := by simpa [ha] using h.accounted
  active := by simpa [ha] using h.active
  waiting := by simpa [ha, hdefers] using h.waiting
  running b hb hb' := by
    rcases List.mem_cons.mp hb with rfl | hb
    · rw [ha]
      exact h.running a (by simp) (hexiting hb')
    · exact h.running b (by simp [hb]) hb'

/-- A new activation. -/
theorem enter (h : Logged acts log nextId) (ha : a.id = nextId) (hdefers : a.defers = [])
    (hexiting : a.exiting = none) : Logged (a :: acts) log (nextId + 1) where
  orderly := h.orderly
  distinct := by
    refine List.nodup_cons.mpr ⟨fun hmem => ?_, h.distinct⟩
    obtain ⟨b, hb, hid⟩ := List.mem_map.mp hmem
    have hid : b.id = a.id := hid
    have := h.fresh b hb
    omega
  fresh b hb := by
    rcases List.mem_cons.mp hb with rfl | hb
    · omega
    · have := h.fresh b hb
      omega
  past e he := by
    have := h.past e he
    omega
  accounted e he := by
    rcases h.accounted e he with ⟨b, hb, hid⟩ | hleft
    · exact Or.inl ⟨b, by simp [hb], hid⟩
    · exact Or.inr hleft
  active b hb hleft := by
    rcases List.mem_cons.mp hb with rfl | hb
    · have hlt : b.id < nextId := h.past _ hleft
      omega
    · exact h.active b hb hleft
  waiting b hb := by
    rcases List.mem_cons.mp hb with rfl | hb
    · rw [ha, recordedBy_of_fresh h.past, ranBy_of_fresh h.past, hdefers]
      rfl
    · exact h.waiting b hb
  running b hb hb' := by
    rcases List.mem_cons.mp hb with rfl | hb
    · rw [ha, ranBy_of_fresh h.past]
    · exact h.running b hb hb'

/-- The top activation is left, with nothing to run any more. -/
theorem drop (h : Logged (a :: rest) log nextId) (hdefers : a.defers = []) :
    Logged rest (log ++ [Event.left a.id]) nextId where
  orderly := by
    refine h.orderly.append (h.active a (by simp)) fun id hid => ?_
    obtain rfl : a.id = id := by simpa using hid
    simpa [hdefers] using (h.waiting a (by simp)).symm
  distinct := (List.nodup_cons.mp h.distinct).2
  fresh b hb := h.fresh b (by simp [hb])
  past e he := by
    rcases List.mem_append.mp he with he | he
    · exact h.past e he
    · obtain rfl : e = .left a.id := by simpa using he
      exact h.fresh a (by simp)
  accounted e he := by
    rcases List.mem_append.mp he with he | he
    · rcases h.accounted e he with ⟨b, hb, hid⟩ | hleft
      · rcases List.mem_cons.mp hb with rfl | hb
        · exact Or.inr (by simp [hid])
        · exact Or.inl ⟨b, hb, hid⟩
      · exact Or.inr (by simp [hleft])
    · obtain rfl : e = .left a.id := by simpa using he
      exact Or.inr (by simp [Event.id])
  active b hb hleft := by
    rcases List.mem_append.mp hleft with hleft | hleft
    · exact h.active b (by simp [hb]) hleft
    · have hid : b.id = a.id := by simpa using hleft
      exact h.ne_of_mem hb hid.symm
  waiting b hb := by
    have hne : (Event.left a.id).id ≠ b.id := h.ne_of_mem hb
    rw [recordedBy_append hne, ranBy_append hne]
    exact h.waiting b (by simp [hb])
  running b hb hb' := by
    rw [ranBy_append (e := .left a.id) (h.ne_of_mem hb)]
    exact h.running b (by simp [hb]) hb'

end Logged

/-- The run has come to its end, not to an error. -/
def Result.Finishes : Result Error → Prop
  | value _ => True
  | returned _ => True
  | _ => False

/-- The log at the end of a run: in order, and if the run finishes then every closure that any
activation has recorded has run once, the last one first. -/
def LoggedAtEnd (r : Outcome Env Interp Error × List Event) : Prop :=
  Orderly r.2 ∧ (r.1.result.Finishes → ∀ id, ranBy id r.2 = (recordedBy id r.2).reverse)

/-- Nobody is active any more. -/
theorem Logged.ran_of_nil {log : List Event} {nextId : ℕ}
    (h : Logged ([] : List (Activation O Env)) log nextId) (id : ℕ) :
    ranBy id log = (recordedBy id log).reverse := by
  by_cases hmem : ∃ e ∈ log, e.id = id
  · obtain ⟨e, he, rfl⟩ := hmem
    have hleft : Event.left e.id ∈ log := by simpa using h.accounted e he
    obtain ⟨before, after, rfl⟩ := List.append_of_mem hleft
    obtain ⟨hran, hafter⟩ := h.orderly e.id before after rfl
    have hnone : ranBy e.id (Event.left e.id :: after) = [] ∧
        recordedBy e.id (Event.left e.id :: after) = [] := by
      constructor <;> refine List.filterMap_eq_nil_iff.mpr fun e' he' => ?_
      all_goals
        rcases List.mem_cons.mp he' with rfl | he'
        · rfl
        · have hne := hafter e' he'
          cases e' <;> simp_all [Event.id]
    rw [ranBy, recordedBy] at *
    rw [List.filterMap_append, List.filterMap_append, hran, hnone.1, hnone.2]
    simp
  · have hnone : ranBy id log = [] ∧ recordedBy id log = [] := by
      constructor <;> refine List.filterMap_eq_nil_iff.mpr fun e he => ?_
      all_goals
        have hne : e.id ≠ id := fun heq => hmem ⟨e, he, heq⟩
        cases e <;> simp_all [Event.id]
    simp [hnone]

theorem not_finishes_of_attempt {host : Host O Env Interp Error} {s s' : Core Env Interp}
    {r : Result Error} (h : attempt host s = .stop r s') : ¬ r.Finishes := by
  rcases hstack : s.stack with _ | ⟨v, stack⟩
  · simp only [attempt, hstack, Attempt.stop.injEq] at h
    simp [← h.1, Result.Finishes]
  · cases v <;> simp only [attempt, hstack, Attempt.stop.injEq, reduceCtorEq] at h
    case err e =>
      rcases hconv : host.convert e s.env s.interp <;> simp [hconv] at h
      simp [← h.1, Result.Finishes]
    all_goals simp [← h.1, Result.Finishes]

/-- An instruction that stops the machine does so by an error. -/
theorem not_finishes_of_action {host : Host O Env Interp Error} {a : Activation O Env} {n : ℕ}
    {s s' : Core Env Interp} {r : Result Error} (h : action host a n s = .stop r s') :
    ¬ r.Finishes := by
  rw [action] at h
  rcases hop : a.chunk.code[s.ip]? with _ | op
  · simp [hop] at h
  · cases op with
    | ret =>
      rcases hstack : s.stack with _ | ⟨v, stack⟩ <;> simp [hop, hstack] at h
      simp [← h.1, Result.Finishes]
    | tryOp =>
      simp only [hop] at h
      split at h
      all_goals try simp at h
      next htry =>
        obtain ⟨rfl, rfl⟩ := h
        exact not_finishes_of_attempt htry
    | deferRecord =>
      rcases hstack : s.stack with _ | ⟨v, stack⟩ <;> simp [hop, hstack] at h
      simp [← h.1, Result.Finishes]
    | other o =>
      simp only [hop] at h
      split at h
      all_goals try simp at h
      simp [← h.1, Result.Finishes]

namespace Scoped

variable {host : Host O Env Interp Error}

/-- The log of a state between two steps: the top activation runs. -/
def LoggedNow (s : Scoped O Env Interp) : Prop :=
  Logged s.acts s.log s.nextId ∧ ∀ a ∈ s.acts.head?, a.exiting = none

/-- The log is kept while activations are left. -/
theorem logged_settle {exit : Option (Exit × Value)} {acts : List (Activation O Env)}
    {s : Scoped O Env Interp} (h : Logged acts s.log s.nextId) :
    (settle host exit acts s).All LoggedNow LoggedAtEnd := by
  induction acts generalizing exit s with
  | nil => exact ⟨h.orderly, False.elim⟩
  | cons a rest ih =>
    rw [settle]
    split
    · next hexit =>
      refine ⟨h, fun b hb => ?_⟩
      obtain rfl : a = b := by simpa using hb
      simp_all
    · next how v _ =>
      rcases hdefers : a.defers with _ | ⟨closure, defers⟩
      · have hlog : (s.drop a how rest).log = s.log ++ [Event.left a.id] := by cases how <;> rfl
        have hnext : (s.drop a how rest).nextId = s.nextId := by cases how <;> rfl
        have hdrop := h.drop hdefers
        rw [← hlog, ← hnext] at hdrop
        generalize s.drop a how rest = s' at hdrop ⊢
        simp only
        -- whatever value the callers get, they go on with this log or the run is over
        split
        · exact ih hdrop
        · split
          · exact ih hdrop
          all_goals
            cases rest with
            | nil => exact ⟨hdrop.orderly, fun _ => hdrop.ran_of_nil⟩
            | cons b rest => exact ih hdrop
      · have hran : Logged ({ a with exiting := some (how, v), defers } :: rest)
            (s.log ++ [Event.ran a.id closure]) s.nextId := by
          refine h.event rfl (by simp) rfl ?_ (by simp)
          have hwaiting := h.waiting a (by simp)
          rw [hdefers] at hwaiting
          simpa [recordedBy, ranBy] using hwaiting
        simp only
        rcases host.closure closure with _ | ⟨chunk, env⟩
        · exact ⟨hran.orderly, False.elim⟩
        · exact ⟨hran.enter rfl rfl rfl, by simp [enter]⟩

/-- The log is kept by every step. -/
theorem logged_step (s : Scoped O Env Interp) (h : s.LoggedNow) :
    (step host s).All LoggedNow LoggedAtEnd := by
  obtain ⟨core, acts, log, nextId⟩ := s
  obtain ⟨h, hrun⟩ := h
  cases acts with
  | nil => exact ⟨h.orderly, False.elim⟩
  | cons a rest =>
    have hrun : a.exiting = none := hrun a rfl
    rw [step]
    rcases haction : action host a (depth (a :: rest)) core with ⟨core', ip⟩ |
      ⟨stackBase, chunk, env, core', ip⟩ | ⟨args, chunk, env, core'⟩ | ⟨closure, core'⟩ |
      ⟨how, v, core'⟩ | ⟨r, core'⟩ <;> simp only [haction]
    · exact ⟨h.replace rfl rfl id, by simpa using hrun⟩
    · have hmoved : Logged ({ a with ip } :: rest) log nextId := h.replace rfl rfl id
      exact ⟨hmoved.enter rfl rfl rfl, by simp [enter]⟩
    · have hmoved : Logged ({ a with ip := core'.ip } :: rest) log nextId := h.replace rfl rfl id
      exact ⟨hmoved.enter rfl rfl rfl, by simp [enter]⟩
    · have hnone := h.running a (by simp) hrun
      refine ⟨h.event rfl (by simp) rfl ?_ ?_, by simpa using hrun⟩
      · have hwaiting := h.waiting a (by simp)
        simp_all [recordedBy, ranBy]
      · intro _
        simpa [ranBy] using hnone
    · exact logged_settle h
    · exact ⟨h.orderly, fun hr => absurd hr (not_finishes_of_action haction)⟩

/-- The log of every run is in order. -/
theorem logged_run (core : Core Env Interp) (chunk : Chunk O) (stackBase n : ℕ) :
    (run (step host) n (start core chunk stackBase)).All LoggedNow LoggedAtEnd := by
  refine run_all logged_step ⟨?_, by simp [start]⟩ n
  constructor <;> simp [start, recordedBy, ranBy, Orderly]

end Scoped

end

end ZzLang.Vm
