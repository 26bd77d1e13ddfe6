import ZzLang.Vm.Scoped
import Mathlib.Tactic.IntervalCases

/-!
# When the virtual machine runs deferred closures as it should

The virtual machine keeps the closures of the current frame in one place, those of its caller
in the frame, and those of a frame being left in a single slot. `Scoped.toMachine` lays the
activations of the scoped machine out in this way, and `deferred_closures_run_once` says that
the virtual machine steps from one such layout to the next as long as no step loses closures:
`Meets`. The steps that do are the ones where a frame is left by `unwind_frame`, which does not
hand the caller its closures back, and the ones that use the slot while it is taken.
-/

namespace ZzLang.Vm

open ZzLang.Runtime (Value)

open Lockstep

variable {O Env Interp Error : Type}

/-! ### The layout of activations as frames -/

/-- The closures deferred by the activation on top. -/
def topDefers : List (Activation O Env) → List Value
  | [] => []
  | a :: _ => a.defers

theorem topDefers_cons (a : Activation O Env) (rest : List (Activation O Env)) :
    topDefers (a :: rest) = a.defers :=
  rfl

/-- The frame of an activation above others. -/
def Activation.frame (a : Activation O Env) (rest : List (Activation O Env)) : Frame O Env where
  chunk := a.chunk
  ip := a.ip
  prevEnv := a.prevEnv
  stackBase := a.stackBase
  deferStack := if a.deferred then [] else topDefers rest

/-- The frames of the activations: those that fell off their end have none. -/
def frames : List (Activation O Env) → List (Frame O Env)
  | [] => []
  | a :: rest => if a.fell then frames rest else a.frame rest :: frames rest

/-- The slot for the activation that is being left. -/
def pendingReturn : List (Activation O Env) → Option DeferReturn
  | [] => none
  | a :: rest =>
    match a.exiting with
    | none => pendingReturn rest
    | some (how, v) => some {
        returnValue := v
        remaining := a.defers
        parentDefers := topDefers rest
        fromReturn := how ≠ .fellOff }

/-- The scoped machine laid out as the virtual machine. -/
def Scoped.toMachine (s : Scoped O Env Interp) : Machine O Env Interp where
  toCore := s.toCore
  frames := frames s.acts
  deferStack := topDefers s.acts
  deferReturn := pendingReturn s.acts

theorem fell_of_running {a : Activation O Env} (h : a.exiting = none) : a.fell = false := by
  simp [Activation.fell, h]

theorem frames_cons {a : Activation O Env} (rest : List (Activation O Env))
    (h : a.fell = false) : frames (a :: rest) = a.frame rest :: frames rest := by
  simp [frames, h]

theorem pendingReturn_cons {a : Activation O Env} (rest : List (Activation O Env))
    (h : a.exiting = none) : pendingReturn (a :: rest) = pendingReturn rest := by
  simp [pendingReturn, h]

theorem length_frames (acts : List (Activation O Env)) : (frames acts).length = depth acts := by
  induction acts with
  | nil => rfl
  | cons a rest ih =>
    rcases h : a.fell with _ | _ <;> simp_all [frames, depth]

theorem depth_cons {a : Activation O Env} (rest : List (Activation O Env))
    (h : a.fell = false) : depth (a :: rest) = depth rest + 1 := by
  simp [depth, h]

/-! ### Where the closures of one activation run at most -/

/-- The activation runs, and not as a deferred closure. -/
def Activation.Ordinary (a : Activation O Env) : Prop :=
  a.exiting = none ∧ a.deferred = false

theorem pendingReturn_of_ordinary {acts : List (Activation O Env)}
    (h : ∀ a ∈ acts, a.Ordinary) : pendingReturn acts = none := by
  induction acts with
  | nil => rfl
  | cons a acts ih =>
    rw [pendingReturn_cons acts (h a (by simp)).1]
    exact ih fun b hb => h b (by simp [hb])

/-- At most one activation is being left, and right above it runs one of its closures. -/
inductive Shape : List (Activation O Env) → Prop
  | quiet {acts : List (Activation O Env)} (h : ∀ a ∈ acts, a.Ordinary) : Shape acts
  | busy {d x : Activation O Env} {below : List (Activation O Env)} {how : Exit} {v : Value}
      (hd : d.exiting = none) (hdeferred : d.deferred = true) (hx : x.exiting = some (how, v))
      (hxd : x.deferred = false) (hhow : how ≠ .tried) (hbelow : ∀ a ∈ below, a.Ordinary) :
      Shape (d :: x :: below)
  | cons {a : Activation O Env} {acts : List (Activation O Env)} (ha : a.Ordinary)
      (h : Shape acts) : Shape (a :: acts)

namespace Shape

variable {a : Activation O Env} {rest : List (Activation O Env)}

/-- The top activation runs. -/
theorem running (h : Shape (a :: rest)) : a.exiting = none := by
  cases h with
  | quiet h => exact (h a (by simp)).1
  | busy hd => exact hd
  | cons ha => exact ha.1

/-- What is below an activation that is not a deferred closure. -/
theorem callers (h : Shape (a :: rest)) (ha : a.deferred = false) : Shape rest := by
  cases h with
  | quiet h => exact .quiet fun b hb => h b (by simp [hb])
  | busy _ hdeferred => simp [ha] at hdeferred
  | cons _ h => exact h

/-- The top activation may change as long as it runs as it did. -/
theorem replace {b : Activation O Env} (h : Shape (a :: rest)) (hexiting : b.exiting = none)
    (hdeferred : b.deferred = a.deferred) : Shape (b :: rest) := by
  rcases ha : a.deferred with _ | _
  · exact .cons ⟨hexiting, hdeferred.trans ha⟩ (h.callers ha)
  · cases h with
    | quiet h => simp [(h a (by simp)).2] at ha
    | busy _ _ hx hxd hhow hbelow => exact .busy hexiting (hdeferred.trans ha) hx hxd hhow hbelow
    | cons h => simp [h.2] at ha

end Shape

variable (host : Host O Env Interp Error)

/-- The activations a run goes through: one is left at a time, and only compiled closures are
recorded. -/
structure Sound (acts : List (Activation O Env)) : Prop where
  shape : Shape acts
  compiled : ∀ a ∈ acts, ∀ c ∈ a.defers, (host.closure c).isSome = true

/-! ### The steps that lose no closure -/

/-- The top activation can be left at once: neither it nor its caller has closures to run, and
it is not itself one. -/
def Unwinds : List (Activation O Env) → Prop
  | [] => True
  | a :: rest => a.deferred = false ∧ a.defers = [] ∧ topDefers rest = []

/-- No deferred closure is running. -/
def Idle (acts : List (Activation O Env)) : Prop :=
  ∀ a ∈ acts, a.exiting = none

/-- When the last deferred closure of an activation that fell off its end is done, no pending
error conversion is marked at the depth of that activation or of its caller. -/
def Unmarked (depths : List ℕ) : List (Activation O Env) → Prop
  | [] => True
  | x :: below => x.fell = true → x.defers = [] →
      depths.head? ≠ some (depth below) ∧ depths.head? ≠ some (depth below + 1)

/-- The next step of the virtual machine loses no closure. -/
def Meets (s : Scoped O Env Interp) : Prop :=
  match s.acts with
  | [] => True
  | a :: rest =>
    match action host a (depth s.acts) s.toCore with
    | .record closure _ => (host.closure closure).isSome = true
    | .exit .fellOff _ core =>
      Idle (a :: rest) ∧
          (a.defers = [] → core.tryConvertDepths.head? = some (depth rest + 1) → Unwinds rest) ∨
        a.deferred = true ∧ a.defers = [] ∧ Unmarked core.tryConvertDepths rest
    | .exit .returned _ _ =>
      a.defers = [] ∧ Unwinds (a :: rest) ∨ a.defers ≠ [] ∧ Idle (a :: rest)
    | .exit .tried _ _ => Unwinds (a :: rest)
    | _ => True

/-! ### Single steps -/

/-- The result of a step of the virtual machine is the layout of the result of the scoped
machine, and that is sound again. -/
def Follows (p : Progress (Machine O Env Interp) (Outcome Env Interp Error))
    (q : Progress (Scoped O Env Interp) (Outcome Env Interp Error × List Event)) : Prop :=
  p = q.map Scoped.toMachine Prod.fst ∧ q.All (fun s => Sound host s.acts) fun _ => True

variable {host}

theorem Sound.callers {a : Activation O Env} {rest : List (Activation O Env)}
    (h : Sound host (a :: rest)) (ha : a.deferred = false) : Sound host rest where
  shape := h.shape.callers ha
  compiled b hb := h.compiled b (by simp [hb])

theorem Sound.replace {a b : Activation O Env} {rest : List (Activation O Env)}
    (h : Sound host (a :: rest)) (hexiting : b.exiting = none)
    (hdeferred : b.deferred = a.deferred)
    (hdefers : ∀ c ∈ b.defers, (host.closure c).isSome = true) : Sound host (b :: rest) where
  shape := h.shape.replace hexiting hdeferred
  compiled b' hb' := by
    rcases List.mem_cons.mp hb' with rfl | hb'
    · exact hdefers
    · exact h.compiled b' (by simp [hb'])

/-- A call is a call. -/
theorem Sound.enter {s : Scoped O Env Interp} (h : Sound host s.acts) (stackBase : ℕ)
    (chunk : Chunk O) (env : Env) : Sound host (s.enter stackBase chunk env false).acts where
  shape := .cons ⟨rfl, rfl⟩ h.shape
  compiled b hb := by
    rcases List.mem_cons.mp hb with rfl | hb
    · simp
    · exact h.compiled b hb

theorem settle_running {a : Activation O Env} {rest : List (Activation O Env)}
    (h : a.exiting = none) (s : Scoped O Env Interp) :
    Scoped.settle host none (a :: rest) s = .go { s with ip := a.ip, acts := a :: rest } := by
  simp [Scoped.settle, h]

/-- Giving control back to running activations. -/
theorem follows_reCache {acts : List (Activation O Env)} (hne : acts ≠ []) (h : Sound host acts)
    (s : Scoped O Env Interp) :
    Follows host (Machine.reCache { s with acts }.toMachine) (Scoped.settle host none acts s) := by
  cases acts with
  | nil => exact absurd rfl hne
  | cons a rest =>
    have hrun := h.shape.running
    rw [settle_running hrun]
    refine ⟨?_, h⟩
    simp [Machine.reCache, Scoped.toMachine, frames_cons rest (fell_of_running hrun),
      Activation.frame]

/-- `unwind_frame` on an activation without closures, when the closures of its caller are back
already. -/
theorem follows_unwindFrame {a : Activation O Env} {rest : List (Activation O Env)}
    (hfell : a.fell = false) (hdeferred : a.deferred = false) (hdefers : a.defers = [])
    (hrest : Sound host rest) (v : Value) (s : Scoped O Env Interp) :
    Follows host
      (Machine.unwindFrame v {
        toCore := s.toCore
        frames := frames (a :: rest)
        deferStack := topDefers rest
        deferReturn := pendingReturn rest })
      (Scoped.settle host (some (.tried, v)) (a :: rest) s) := by
  rw [frames_cons rest hfell]
  simp only [Machine.unwindFrame, Scoped.settle, hdefers, hdeferred]
  cases rest with
  | nil => exact ⟨rfl, trivial⟩
  | cons b rest =>
    have hb := fell_of_running hrest.shape.running
    have h := follows_reCache (by simp) hrest
      { s.drop a .tried (b :: rest) with stack := v :: (s.drop a .tried (b :: rest)).stack }
    rw [frames_cons rest hb]
    simpa [Scoped.drop, Scoped.toMachine, frames_cons rest hb, Activation.frame, length_frames,
      depth_cons rest hb] using h

/-- A `return` is an early exit with its value, wrapped if the activation converts an error. -/
theorem settle_returned {a : Activation O Env} (hdeferred : a.deferred = false)
    (hdefers : a.defers = []) (rest : List (Activation O Env)) (v : Value)
    (s : Scoped O Env Interp) :
    Scoped.settle host (some (.returned, v)) (a :: rest) s =
      if s.tryConvertDepths.head? = some (depth rest + 1) then
        Scoped.settle host (some (.tried, .err v)) (a :: rest)
          { s with tryConvertDepths := s.tryConvertDepths.tail }
      else Scoped.settle host (some (.tried, v)) (a :: rest) s := by
  have hflags : (s.drop a .returned rest).tryConvertDepths = s.tryConvertDepths := rfl
  by_cases h : s.tryConvertDepths.head? = some (depth rest + 1)
  · simp [Scoped.settle, hdeferred, hdefers, hflags, h]
    cases rest <;> rfl
  · simp [Scoped.settle, hdeferred, hdefers, hflags, h]
    cases rest <;> rfl

/-- The end of the code hands the value over, or leaves the caller too if the activation
converts an error. -/
theorem settle_fellOff {a : Activation O Env} (hdeferred : a.deferred = false)
    (hdefers : a.defers = []) (rest : List (Activation O Env)) (v : Value)
    (s : Scoped O Env Interp) :
    Scoped.settle host (some (.fellOff, v)) (a :: rest) s =
      if s.tryConvertDepths.head? = some (depth rest + 1) then
        Scoped.settle host (some (.tried, .err v)) rest
          { s.drop a .fellOff rest with tryConvertDepths := s.tryConvertDepths.tail }
      else
        match rest with
        | [] => (s.drop a .fellOff rest).finish (.value v)
        | _ :: _ => Scoped.settle host none rest
            { s.drop a .fellOff rest with stack := v :: s.stack } := by
  have hflags : (s.drop a .fellOff rest).tryConvertDepths = s.tryConvertDepths := rfl
  by_cases h : s.tryConvertDepths.head? = some (depth rest + 1)
  · simp [Scoped.settle, hdeferred, hdefers, hflags, h]
  · simp [Scoped.settle, hdeferred, hdefers, hflags, h]
    cases rest <;> rfl

/-- The frames when an activation is being left: it has none if it fell off its end. -/
theorem frames_leaving (a : Activation O Env) (rest : List (Activation O Env)) (how : Exit)
    (v : Value) (defers : List Value) :
    frames ({ a with exiting := some (how, v), defers } :: rest) =
      if how = .fellOff then frames rest else a.frame rest :: frames rest := by
  cases how <;> simp [frames, Activation.fell, Activation.frame]

/-- Running the next deferred closure of an activation that is being left. -/
theorem follows_pushDeferFrame {a : Activation O Env} {rest : List (Activation O Env)}
    (hdeferred : a.deferred = false) (hrest : ∀ b ∈ rest, b.Ordinary)
    (hcompiled : ∀ b ∈ a :: rest, ∀ c ∈ b.defers, (host.closure c).isSome = true)
    {closure : Value} {defers : List Value} (hdefers : a.defers = closure :: defers)
    {how : Exit} (hhow : how ≠ .tried) (v : Value) (s : Scoped O Env Interp) :
    Follows host
      (Machine.reCache (Machine.pushDeferFrame host {
        toCore := s.toCore
        frames := if how = .fellOff then frames rest else a.frame rest :: frames rest
        deferStack := []
        deferReturn := some {
          returnValue := v
          remaining := closure :: defers
          parentDefers := topDefers rest
          fromReturn := how ≠ .fellOff } }))
      (Scoped.settle host (some (how, v)) (a :: rest) s) := by
  obtain ⟨⟨chunk, env⟩, hclosure⟩ := Option.isSome_iff_exists.mp
    (hcompiled a (by simp) closure (by simp [hdefers]))
  simp only [Machine.pushDeferFrame, Scoped.settle, hdefers, hclosure]
  refine ⟨?_, .busy rfl rfl rfl hdeferred hhow hrest, ?_⟩
  · simp [Machine.reCache, Machine.openFrame, Scoped.toMachine, Scoped.enter, frames_cons,
      fell_of_running, frames_leaving, Activation.frame, topDefers, pendingReturn]
  · intro b hb c hc
    simp only [Scoped.enter, List.mem_cons] at hb
    rcases hb with rfl | rfl | hb
    · simp at hc
    · exact hcompiled a (by simp) c (by simp [hdefers, hc])
    · exact hcompiled b (by simp [hb]) c hc

section Exits

variable {a : Activation O Env} {rest : List (Activation O Env)}

/-- Leaving by `?`. -/
theorem follows_tried (h : Sound host (a :: rest)) (hunwinds : Unwinds (a :: rest)) (v : Value)
    (s : Scoped O Env Interp) :
    Follows host (Machine.unwindFrame v { s with acts := a :: rest }.toMachine)
      (Scoped.settle host (some (.tried, v)) (a :: rest) s) := by
  obtain ⟨hdeferred, hdefers, hcaller⟩ := hunwinds
  have hfollows := follows_unwindFrame (fell_of_running h.shape.running) hdeferred hdefers
    (h.callers hdeferred) v s
  rw [hcaller] at hfollows
  simpa [Scoped.toMachine, topDefers, hdefers, pendingReturn_cons rest h.shape.running] using
    hfollows

/-- Activations none of which is being left are all ordinary. -/
theorem ordinary_of_idle {acts : List (Activation O Env)} (h : Shape acts) (hidle : Idle acts) :
    ∀ b ∈ acts, b.Ordinary := by
  induction h with
  | quiet h => exact h
  | @busy d x _ _ _ _ _ hx =>
    have hidle : x.exiting = none := hidle x (by simp)
    simp [hidle] at hx
  | cons ha _ ih =>
    intro b hb
    rcases List.mem_cons.mp hb with rfl | hb
    · exact ha
    · exact ih (fun c hc => hidle c (by simp [hc])) b hb

/-- Leaving by `return`. -/
theorem follows_ret (h : Sound host (a :: rest))
    (hmeets : a.defers = [] ∧ Unwinds (a :: rest) ∨ a.defers ≠ [] ∧ Idle (a :: rest))
    {v : Value} {stack : List Value} (s : Scoped O Env Interp) (hstack : s.stack = v :: stack) :
    Follows host (Machine.ret host (a.frame rest) { s with acts := a :: rest }.toMachine)
      (Scoped.settle host (some (.returned, v)) (a :: rest) { s with stack }) := by
  have hrun := h.shape.running
  have hframes := frames_cons rest (fell_of_running hrun)
  rcases hmeets with ⟨hdefers, hunwinds⟩ | ⟨hdefers, hidle⟩
  · rw [settle_returned hunwinds.1 hdefers]
    by_cases hflag : s.tryConvertDepths.head? = some (depth rest + 1)
    · have hfollows := follows_tried h hunwinds (.err v)
        { s with stack, tryConvertDepths := s.tryConvertDepths.tail }
      simpa [Machine.ret, Scoped.toMachine, hstack, topDefers, hdefers, hframes, length_frames,
        hflag] using hfollows
    · have hfollows := follows_tried h hunwinds v { s with stack }
      simpa [Machine.ret, Scoped.toMachine, hstack, topDefers, hdefers, hframes, length_frames,
        hflag] using hfollows
  · obtain ⟨closure, defers, hdefers⟩ := List.exists_cons_of_ne_nil hdefers
    have hordinary := ordinary_of_idle h.shape hidle
    have hdeferred : a.deferred = false := (hordinary a (by simp)).2
    have hfollows := follows_pushDeferFrame hdeferred (fun b hb => hordinary b (by simp [hb]))
      h.compiled hdefers (show Exit.returned ≠ .tried by simp) v { s with stack }
    simpa [Machine.ret, Scoped.toMachine, hstack, topDefers, hdefers, hframes, Activation.frame,
      hdeferred] using hfollows

/-- The end of the code, without closures to run. -/
theorem follows_chunkEnd_idle (h : Sound host (a :: rest)) (hidle : Idle (a :: rest))
    (hdefers : a.defers = []) (v : Value) (s : Scoped O Env Interp)
    (hmeets : s.tryConvertDepths.head? = some (depth rest + 1) → Unwinds rest) :
    Follows host
      (let m : Machine O Env Interp := {
        toCore := s.toCore
        frames := frames rest
        deferStack := topDefers rest
        deferReturn := pendingReturn rest }
      if m.tryConvertDepths.head? = some ((frames rest).length + 1) then
        Machine.unwindFrame (.err v) { m with tryConvertDepths := m.tryConvertDepths.tail }
      else
        match frames rest with
        | [] => .stop (m.finish (.value v))
        | _ :: _ => Machine.reCache { m with stack := v :: m.stack })
      (Scoped.settle host (some (.fellOff, v)) (a :: rest) s) := by
  have hordinary := ordinary_of_idle h.shape hidle
  have hdeferred : a.deferred = false := (hordinary a (by simp)).2
  have hrest := h.callers hdeferred
  rw [settle_fellOff hdeferred hdefers]
  by_cases hflag : s.tryConvertDepths.head? = some (depth rest + 1)
  · simp only [hflag, length_frames, if_true]
    cases rest with
    | nil => exact ⟨rfl, trivial⟩
    | cons b rest =>
      exact follows_tried hrest (hmeets hflag) (.err v)
        { s.drop a .fellOff (b :: rest) with tryConvertDepths := s.tryConvertDepths.tail }
  · simp only [hflag, length_frames, if_false]
    cases rest with
    | nil => exact ⟨rfl, trivial⟩
    | cons b rest =>
      have hfollows := follows_reCache (by simp) hrest
        { s.drop a .fellOff (b :: rest) with stack := v :: s.stack }
      simpa [Scoped.toMachine, Scoped.drop, frames_cons rest (fell_of_running hrest.shape.running)]
        using hfollows

/-- The end of a deferred closure: the next one runs, or its activation is left for good. -/
theorem follows_chunkEnd_deferred {d x : Activation O Env} {below : List (Activation O Env)}
    {how : Exit} {v₀ : Value} (h : Sound host (d :: x :: below)) (hdeferred : d.deferred = true)
    (hdefers : d.defers = []) (hx : x.exiting = some (how, v₀)) (hxd : x.deferred = false)
    (hhow : how ≠ .tried) (hbelow : ∀ b ∈ below, b.Ordinary) (v : Value)
    (s : Scoped O Env Interp) (hmarks : Unmarked s.tryConvertDepths (x :: below)) :
    Follows host
      (let m : Machine O Env Interp := {
        toCore := s.toCore
        frames := frames (x :: below)
        deferStack := []
        deferReturn := none }
      match x.defers with
      | _ :: _ => Machine.reCache (Machine.pushDeferFrame host
          { m with deferReturn := pendingReturn (x :: below) })
      | [] =>
        let m := { m with deferStack := topDefers below }
        if m.tryConvertDepths.head? = some m.frames.length ∧ m.frames ≠ [] then
          Machine.unwindFrame (.err v₀) { m with tryConvertDepths := m.tryConvertDepths.tail }
        else if how ≠ .fellOff then Machine.unwindFrame v₀ m
        else
          match m.frames with
          | [] => .stop (m.finish (.value v₀))
          | _ :: _ => Machine.reCache { m with stack := v₀ :: m.stack })
      (Scoped.settle host (some (.fellOff, v)) (d :: x :: below) s) := by
  have hcompiled : ∀ b ∈ x :: below, ∀ c ∈ b.defers, (host.closure c).isSome = true :=
    fun b hb => h.compiled b (by simp [hb])
  have hsound : Sound host below := ⟨.quiet hbelow, fun b hb => hcompiled b (by simp [hb])⟩
  have hpending := pendingReturn_of_ordinary hbelow
  -- the closure itself has nothing to run, so the scoped machine goes on with `x`
  have hsettle : Scoped.settle host (some (.fellOff, v)) (d :: x :: below) s =
      Scoped.settle host (some (how, v₀)) (x :: below) (s.drop d .fellOff (x :: below)) := by
    simp [Scoped.settle, hdeferred, hdefers, hx]
  rw [hsettle]
  rcases hxdefers : x.defers with _ | ⟨closure, defers⟩
  · cases how with
    | fellOff =>
      have hfell : x.fell = true := by simp [Activation.fell, hx]
      have hframes : frames (x :: below) = frames below := by simp [frames, hfell]
      obtain ⟨hcaller, hself⟩ := hmarks hfell hxdefers
      have hflags : (s.drop d .fellOff (x :: below)).tryConvertDepths = s.tryConvertDepths := rfl
      simp only [settle_fellOff hxd hxdefers, hflags, hself, if_false, hframes, length_frames,
        hcaller, false_and, ne_eq, not_true_eq_false]
      cases below with
      | nil => exact ⟨rfl, trivial⟩
      | cons b below =>
        have hfollows := follows_reCache (by simp) hsound
          { (s.drop d .fellOff (x :: b :: below)).drop x .fellOff (b :: below) with
            stack := v₀ :: s.stack }
        simpa [Scoped.toMachine, Scoped.drop, hpending,
          frames_cons below (fell_of_running hsound.shape.running)] using hfollows
    | returned =>
      have hfell : x.fell = false := by simp [Activation.fell, hx]
      have hunwind := follows_unwindFrame hfell hxd hxdefers hsound
      rw [settle_returned hxd hxdefers]
      by_cases hflag : s.tryConvertDepths.head? = some (depth below + 1)
      · have hfollows := hunwind (.err v₀) { s.drop d .fellOff (x :: below) with
          tryConvertDepths := s.tryConvertDepths.tail }
        simpa [Scoped.drop, hpending, length_frames, depth_cons below hfell, hflag,
          frames_cons below hfell] using hfollows
      · have hfollows := hunwind v₀ (s.drop d .fellOff (x :: below))
        simpa [Scoped.drop, hpending, length_frames, depth_cons below hfell, hflag,
          frames_cons below hfell] using hfollows
    | tried => exact absurd rfl hhow
  · have hfollows := follows_pushDeferFrame hxd hbelow hcompiled hxdefers hhow v₀
      (s.drop d .fellOff (x :: below))
    have hself : { x with exiting := some (how, v₀), defers := closure :: defers } = x := by
      rw [← hx, ← hxdefers]
    have hframes := frames_leaving x below how v₀ (closure :: defers)
    rw [hself] at hframes
    simpa [hframes, pendingReturn, hx, hxdefers, Scoped.drop] using hfollows

/-- Leaving at the end of the code. -/
theorem follows_chunkEnd (h : Sound host (a :: rest)) (s : Scoped O Env Interp)
    {v : Value} {core : Core Env Interp}
    (hpop : popResult a.stackBase (syncToplevel host a.chunk a.stackBase s.toCore) = (v, core))
    (hmeets : Idle (a :: rest) ∧
        (a.defers = [] → core.tryConvertDepths.head? = some (depth rest + 1) → Unwinds rest) ∨
      a.deferred = true ∧ a.defers = [] ∧ Unmarked core.tryConvertDepths rest) :
    Follows host
      (Machine.chunkEnd host (a.frame rest) (frames rest) { s with acts := a :: rest }.toMachine)
      (Scoped.settle host (some (.fellOff, v)) (a :: rest) { s with
        toCore := { core with stack := truncate a.stackBase core.stack, env := a.prevEnv } }) := by
  have hrun := h.shape.running
  have hpending := pendingReturn_cons rest hrun
  rcases hmeets with ⟨hidle, hmeets⟩ | ⟨hdeferred, hdefers, hmarks⟩
  · have hordinary := ordinary_of_idle h.shape hidle
    have hdeferred : a.deferred = false := (hordinary a (by simp)).2
    have hnone : pendingReturn rest = none := pendingReturn_of_ordinary
      fun b hb => hordinary b (by simp [hb])
    rcases hdefers : a.defers with _ | ⟨closure, defers⟩
    · have hfollows := follows_chunkEnd_idle h hidle hdefers v { s with
        toCore := { core with stack := truncate a.stackBase core.stack, env := a.prevEnv } }
        (hmeets hdefers)
      rcases hframes : frames rest with _ | ⟨f, fs⟩ <;>
        simpa [Machine.chunkEnd, Scoped.toMachine, hpop, hpending, hnone, topDefers_cons, hdefers,
          Activation.frame, hdeferred, hframes] using hfollows
    · have hfollows := follows_pushDeferFrame hdeferred (fun b hb => hordinary b (by simp [hb]))
        h.compiled hdefers (show Exit.fellOff ≠ .tried by simp) v { s with
          toCore := { core with stack := truncate a.stackBase core.stack, env := a.prevEnv } }
      simpa [Machine.chunkEnd, Scoped.toMachine, hpop, hpending, hnone, topDefers_cons, hdefers,
        Activation.frame, hdeferred] using hfollows
  · cases hshape : h.shape with
    | quiet hordinary => simp [(hordinary a (by simp)).2] at hdeferred
    | cons ha => simp [ha.2] at hdeferred
    | @busy _ x below how v₀ _ _ hx hxd hhow hbelow =>
      have hfollows := follows_chunkEnd_deferred h hdeferred hdefers hx hxd hhow hbelow v { s with
        toCore := { core with stack := truncate a.stackBase core.stack, env := a.prevEnv } } hmarks
      rcases hxdefers : x.defers with _ | ⟨closure, defers⟩ <;>
        rcases hframes : frames (x :: below) with _ | ⟨f, fs⟩ <;>
        simpa [Machine.chunkEnd, Scoped.toMachine, hpop, hpending, topDefers_cons, hdefers,
          Activation.frame, pendingReturn, hrun, hx, hxdefers, hframes] using hfollows

end Exits

/-- The frames after an instruction that has stayed in its activation. -/
theorem toMachine_saveIp {a : Activation O Env} {rest : List (Activation O Env)}
    (hrun : a.exiting = none) (core : Core Env Interp) (ip : ℕ) (s : Scoped O Env Interp) :
    Machine.saveIp ip { s with toCore := core, acts := a :: rest }.toMachine =
      { s with toCore := core, acts := { a with ip } :: rest }.toMachine := by
  have hframes := frames_cons rest (fell_of_running hrun)
  have hframes' := frames_cons rest (fell_of_running (a := { a with ip }) hrun)
  have hpending := pendingReturn_cons rest hrun
  have hpending' := pendingReturn_cons rest (a := { a with ip }) hrun
  simp [Machine.saveIp, Scoped.toMachine, hframes, hframes', Activation.frame, topDefers_cons,
    hpending, hpending']

/-- Opening a frame for a callee. -/
theorem toMachine_enter (s : Scoped O Env Interp) (stackBase : ℕ) (chunk : Chunk O) (env : Env) :
    Machine.reCache (Machine.openFrame stackBase chunk env s.toMachine) =
      (Progress.go (s.enter stackBase chunk env false).toMachine :
        Progress (Machine O Env Interp) (Outcome Env Interp Error)) := by
  simp [Machine.reCache, Machine.openFrame, Scoped.toMachine, Scoped.enter, frames_cons,
    fell_of_running, Activation.frame, topDefers_cons, pendingReturn_cons]

theorem ip_of_attempt_convert {s s' : Core Env Interp} {args : List Value} {chunk : Chunk O}
    {env : Env} (h : attempt host s = .convert args chunk env s') : s'.ip = s.ip := by
  rcases hstack : s.stack with _ | ⟨v, stack⟩
  · simp [attempt, hstack] at h
  · cases v <;> simp [attempt, hstack] at h
    case err e =>
      rcases hconv : host.convert e s.env s.interp <;> simp [hconv] at h
      obtain ⟨rfl, rfl, rfl, rfl⟩ := h
      rfl

/-- Opening a frame for a function that converts an error. -/
theorem toMachine_convert {a : Activation O Env} (rest : List (Activation O Env))
    (hrun : a.exiting = none) (args : List Value) (chunk : Chunk O) (env : Env)
    (s : Scoped O Env Interp) :
    (let m := Machine.saveIp s.ip { s with acts := a :: rest }.toMachine
     let m := { m with stack := args.reverse ++ m.stack }.openFrame m.stack.length chunk env
     Machine.reCache { m with tryConvertDepths := m.frames.length :: m.tryConvertDepths }) =
      (Progress.go (({ s with
        stack := args.reverse ++ s.stack
        tryConvertDepths := (depth (a :: rest) + 1) :: s.tryConvertDepths
        acts := { a with ip := s.ip } :: rest } : Scoped O Env Interp).enter
          s.stack.length chunk env false).toMachine :
        Progress (Machine O Env Interp) (Outcome Env Interp Error)) := by
  have hdepth : (frames ({ a with ip := s.ip } :: rest)).length = depth (a :: rest) :=
    length_frames _
  rw [toMachine_saveIp hrun s.toCore s.ip s]
  simp [Machine.reCache, Machine.openFrame, Scoped.toMachine, Scoped.enter, frames_cons,
    fell_of_running, Activation.frame, topDefers_cons, pendingReturn_cons, hdepth]

/-- One step of the virtual machine is one step of the scoped machine. -/
theorem follows_step {s : Scoped O Env Interp} (h : Sound host s.acts) (hmeets : Meets host s) :
    Follows host (Machine.step host s.toMachine) (Scoped.step host s) := by
  obtain ⟨core, acts, log, nextId⟩ := s
  cases acts with
  | nil => exact ⟨rfl, trivial⟩
  | cons a rest =>
    have hrun := h.shape.running
    have hframes := frames_cons rest (fell_of_running hrun)
    have hdepth : (frames (a :: rest)).length = depth (a :: rest) := length_frames _
    rcases hop : a.chunk.code[core.ip]? with _ | op
    · rcases hpop : popResult a.stackBase (syncToplevel host a.chunk a.stackBase core) with
        ⟨v, core'⟩
      have hstep : Machine.step host (Scoped.mk core (a :: rest) log nextId).toMachine =
          Machine.chunkEnd host (a.frame rest) (frames rest)
            (Scoped.mk core (a :: rest) log nextId).toMachine := by
        simp [Machine.step, Scoped.toMachine, hframes, Activation.frame, hop]
      simp only [Meets, action, hop, hpop] at hmeets
      rw [hstep]
      simp only [Scoped.step, action, hop, hpop]
      exact follows_chunkEnd h (Scoped.mk core (a :: rest) log nextId) hpop hmeets
    · -- the instruction runs with the `ip` moved past it
      let s₁ : Scoped O Env Interp := ⟨{ core with ip := core.ip + 1 }, a :: rest, log, nextId⟩
      cases op with
      | ret =>
        have hstep : Machine.step host (Scoped.mk core (a :: rest) log nextId).toMachine =
            Machine.ret host (a.frame rest) s₁.toMachine := by
          simp [Machine.step, Scoped.toMachine, hframes, Activation.frame, hop, s₁]
        rw [hstep]
        rcases hstack : core.stack with _ | ⟨v, stack⟩
        · simp only [Scoped.step, action, hop, hstack]
          simp only [Machine.ret, Scoped.toMachine, s₁, hstack]
          exact ⟨rfl, trivial⟩
        · simp only [Meets, action, hop, hstack] at hmeets
          simp only [Scoped.step, action, hop, hstack]
          exact follows_ret h hmeets s₁ hstack
      | tryOp =>
        have hstep : Machine.step host (Scoped.mk core (a :: rest) log nextId).toMachine =
            Machine.tryOp host s₁.toMachine := by
          simp [Machine.step, Scoped.toMachine, hframes, Activation.frame, hop, s₁]
        rw [hstep]
        rcases htry : attempt host s₁.toCore with core' | ⟨v, core'⟩ | ⟨args, chunk, env, core'⟩ |
          ⟨r, core'⟩
        · simp only [Scoped.step, action, hop, htry, s₁]
          simp only [Machine.tryOp, Scoped.toMachine, htry, s₁]
          exact ⟨rfl, h⟩
        · simp only [Meets, action, hop, htry, s₁] at hmeets
          simp only [Scoped.step, action, hop, htry, s₁]
          simp only [Machine.tryOp, Scoped.toMachine, htry, s₁]
          exact follows_tried h hmeets v { s₁ with toCore := core' }
        · simp only [Scoped.step, action, hop, htry, s₁]
          simp only [Machine.tryOp, Scoped.toMachine, htry, s₁]
          have hip : core'.ip = core.ip + 1 := ip_of_attempt_convert htry
          refine ⟨?_, ?_⟩
          · rw [← hip]
            exact toMachine_convert rest hrun args chunk env { s₁ with toCore := core' }
          · refine Sound.enter (h.replace ?_ ?_ ?_) _ _ _
            · exact hrun
            · rfl
            · exact h.compiled a (by simp)
        · simp only [Scoped.step, action, hop, htry, s₁]
          simp only [Machine.tryOp, Scoped.toMachine, htry, s₁]
          exact ⟨rfl, trivial⟩
      | deferRecord =>
        rcases hstack : core.stack with _ | ⟨closure, stack⟩
        · simp only [Machine.step, Scoped.step, Scoped.toMachine, hframes, action, hop, hstack,
            Activation.frame, Machine.deferRecord]
          exact ⟨rfl, trivial⟩
        · simp only [Meets, action, hop, hstack] at hmeets
          simp only [Machine.step, Scoped.step, Scoped.toMachine, hframes, action, hop, hstack,
            Activation.frame, Machine.deferRecord]
          refine ⟨?_, h.replace ?_ ?_ ?_⟩
          · have hframes' := frames_cons rest
              (fell_of_running (a := { a with defers := closure :: a.defers }) hrun)
            have hpending' := pendingReturn_cons rest
              (a := { a with defers := closure :: a.defers }) hrun
            simp [Scoped.toMachine, hframes', Activation.frame, topDefers_cons, hpending',
              pendingReturn_cons rest hrun]
          · exact hrun
          · rfl
          · intro c hc
            rcases List.mem_cons.mp hc with rfl | hc
            · exact hmeets
            · exact h.compiled a (by simp) c hc
      | other o =>
        have hlength : (frames rest).length + 1 = depth (a :: rest) := by
          rw [← hdepth, hframes, List.length_cons]
        rcases hexec : host.exec a.chunk a.stackBase (depth (a :: rest)) o (s₁.reach a.ip) with
          l | ⟨stackBase, chunk, env, l⟩ | ⟨e, interp⟩
        · have hstep : Machine.step host (Scoped.mk core (a :: rest) log nextId).toMachine =
              .go (Machine.saveIp l.savedIp { s₁ with toCore := s₁.put l }.toMachine) := by
            simp only [s₁] at hexec
            simp [Machine.step, Scoped.toMachine, hframes, Activation.frame, hop, s₁, hlength,
              hexec]
          rw [hstep, toMachine_saveIp hrun]
          simp only [Scoped.step, action, hop, hexec, s₁]
          exact ⟨rfl, h.replace hrun rfl (h.compiled a (by simp))⟩
        · have hstep : Machine.step host (Scoped.mk core (a :: rest) log nextId).toMachine =
              Machine.reCache (Machine.openFrame stackBase chunk env
                (Machine.saveIp l.savedIp { s₁ with toCore := s₁.put l }.toMachine)) := by
            simp only [s₁] at hexec
            simp [Machine.step, Scoped.toMachine, hframes, Activation.frame, hop, s₁, hlength,
              hexec]
          rw [hstep, toMachine_saveIp hrun, toMachine_enter]
          simp only [Scoped.step, action, hop, hexec, s₁]
          refine ⟨rfl, Sound.enter (h.replace ?_ ?_ ?_) _ _ _⟩
          · exact hrun
          · rfl
          · exact h.compiled a (by simp)
        · simp only [s₁] at hexec
          simp only [Scoped.step, action, hop, hexec]
          simp only [Machine.step, Scoped.toMachine, hframes, Activation.frame, hop,
            List.length_cons, hlength, hexec]
          exact ⟨rfl, trivial⟩

/-! ### Whole runs -/

theorem toMachine_start (core : Core Env Interp) (chunk : Chunk O) (stackBase : ℕ) :
    (Scoped.start core chunk stackBase).toMachine = Machine.start core chunk stackBase := by
  simp [Scoped.toMachine, Scoped.start, Machine.start, frames, fell_of_running, Activation.frame,
    topDefers, pendingReturn]

theorem sound_start (core : Core Env Interp) (chunk : Chunk O) (stackBase : ℕ) :
    Sound host (Scoped.start core chunk stackBase).acts where
  shape := .cons ⟨rfl, rfl⟩ (.quiet (by simp))
  compiled := by simp [Scoped.start]

/-- In a run whose steps lose no closure the virtual machine is at every step where the scoped
machine is: in the same instruction of the same function, with the same stack, environment and
interpreter, and at the end with the same result. There every function that has been left has
run the closures it recorded, each once and the last one first, before anything else happened
in its caller; no closure of a function has run before it is left; and once the program has
finished all of them have run. -/
theorem deferred_closures_run_once (host : Host O Env Interp Error) (core : Core Env Interp)
    (chunk : Chunk O) (stackBase n : ℕ)
    (hmeets : ∀ i < n, ∀ s, run (Scoped.step host) i (Scoped.start core chunk stackBase) = .go s →
      Meets host s) :
    run (Machine.step host) n (Machine.start core chunk stackBase) =
        (run (Scoped.step host) n (Scoped.start core chunk stackBase)).map
          Scoped.toMachine Prod.fst ∧
      (run (Scoped.step host) n (Scoped.start core chunk stackBase)).All
        Scoped.LoggedNow LoggedAtEnd := by
  refine ⟨?_, Scoped.logged_run core chunk stackBase n⟩
  rw [← toMachine_start]
  have hsound : ∀ s : Scoped O Env Interp, Sound host s.acts → Meets host s →
      (Scoped.step host s).All (fun s => Sound host s.acts) fun _ => True :=
    fun _ h hs => (follows_step h hs).2
  exact (run_map (fun _ h hs => (follows_step h hs).1) hsound
    (sound_start core chunk stackBase) hmeets).1

/-! ### A closure that never runs -/

/-- A few instructions. -/
inductive Sample
  | push (v : Value)
  | call (f : ℕ)
  | println (line : String)

/-- The functions of a program: the second defers a line and calls the third, which returns
one; the fifth defers the same line and calls nothing. -/
def sampleChunk : ℕ → Chunk Sample
  | 0 => ⟨[.other (.call 1)], []⟩
  | 1 => ⟨[.other (.push (.handle .func 3)), .deferRecord, .other (.call 2)], []⟩
  | 2 => ⟨[.other (.push (.int 1)), .ret], []⟩
  | 4 => ⟨[.other (.push (.handle .func 3)), .deferRecord, .other (.push (.int 1))], []⟩
  | _ => ⟨[.other (.println "dd")], []⟩

/-- An interpreter that keeps the lines it has printed. -/
def sampleHost : Host Sample Unit (List String) String where
  define _ _ _ lines := lines
  closure
    | .handle .func f => some (sampleChunk f, ())
    | _ => none
  exec _ _ _ op l :=
    match op with
    | .push v => .next { l with stack := v :: l.stack }
    | .call f => .enter l.stack.length (sampleChunk f) () { l with savedIp := l.ip }
    | .println line =>
      .next { l with stack := .unit :: l.stack, interp := l.interp ++ [line] }
  convert _ _ _ := .keep
  notTryable _ := "cannot use `?`"

def sampleCore : Core Unit (List String) where
  stack := []
  loops := []
  tryConvertDepths := []
  ip := 0
  env := ()
  interp := []

/-- The explicit return of its callee costs a function its deferred closure: nothing is
printed. -/
theorem deferred_closure_lost :
    run (Machine.step sampleHost) 9 (Machine.start sampleCore (sampleChunk 0) 0) =
        .stop ⟨.value (.int 1), (), []⟩ ∧
      (run (Scoped.step sampleHost) 10 (Scoped.start sampleCore (sampleChunk 0) 0)).map
          Scoped.toMachine Prod.fst = .stop ⟨.value (.int 1), (), ["dd"]⟩ ∧
      ¬ ∀ n, run (Machine.step sampleHost) n (Machine.start sampleCore (sampleChunk 0) 0) =
        (run (Scoped.step sampleHost) n (Scoped.start sampleCore (sampleChunk 0) 0)).map
          Scoped.toMachine Prod.fst := by
  have hmachine : run (Machine.step sampleHost) 10 (Machine.start sampleCore (sampleChunk 0) 0) =
      .stop ⟨.value (.int 1), (), []⟩ := rfl
  have hscoped : (run (Scoped.step sampleHost) 10
      (Scoped.start sampleCore (sampleChunk 0) 0)).map Scoped.toMachine Prod.fst =
      .stop ⟨.value (.int 1), (), ["dd"]⟩ := rfl
  refine ⟨rfl, hscoped, fun h => ?_⟩
  have h := h 10
  rw [hmachine, hscoped] at h
  simp at h

/-- Without the call nothing is lost. -/
theorem deferred_closures_run_once_sample :
    run (Machine.step sampleHost) 6 (Machine.start sampleCore (sampleChunk 4) 0) =
        .stop ⟨.value (.int 1), (), ["dd"]⟩ ∧
      (run (Scoped.step sampleHost) 6 (Scoped.start sampleCore (sampleChunk 4) 0)).All
        Scoped.LoggedNow LoggedAtEnd := by
  refine deferred_closures_run_once sampleHost sampleCore (sampleChunk 4) 0 6 ?_
  intro i hi s hs
  interval_cases i
  · cases hs
    exact trivial
  · cases hs
    exact rfl
  · cases hs
    exact trivial
  · cases hs
    exact Or.inl ⟨by simp [Idle], fun h => by simp at h⟩
  · cases hs
    exact trivial
  · cases hs
    exact Or.inr ⟨rfl, rfl, fun _ _ => ⟨nofun, nofun⟩⟩

end ZzLang.Vm
