import Mathlib.Algebra.GroupWithZero.Nat
import Mathlib.Data.Int.Notation
import Mathlib.Algebra.BigOperators.Group.List.Basic

/-!
# Code over an operand stack

A piece of code takes a state and a stack to a state and a stack, or stops. Two things are said
about it without looking inside:

* `StackCode.Leaves c s s' vs` – from `s` the code ends in `s'` and has pushed exactly `vs`,
  whatever was on the stack before;
* `StackCode.Grows μ c δ w` – on every stack that is deep enough the code comes through, changes the
  height of the stack by `δ` and adds `w` to its weight, the sum of the weights `μ` of the values.
  The bound is left open, so that code which takes more than it has pushed is covered as well.

Both compose along a sequence. `StackCode.Drift` compares two versions of a code by their weights.
-/

namespace StackCode

/-- What a piece of code does to a state and an operand stack, the top first. -/
abbrev Code (σ V : Type) : Type := σ × List V → Option (σ × List V)

variable {σ V : Type}

/-- One piece of code after the other. -/
def seq : List (Code σ V) → Code σ V
  | [] => some
  | c :: cs => fun p => (c p).bind (seq cs)

/-- Pushes one value. -/
def push (f : σ → Option (σ × V)) : Code σ V := fun p =>
  (f p.1).map fun r => (r.1, r.2 :: p.2)

/-- Takes `n` values off the stack and pushes what is made of them, in the order in which they were
pushed. -/
def apply (n : ℕ) (f : List V → σ → Option (σ × V)) : Code σ V := fun p =>
  if n ≤ p.2.length then
    (f (p.2.take n).reverse p.1).map fun r => (r.1, r.2 :: p.2.drop n)
  else none

@[simp] theorem seq_nil (p : σ × List V) : seq [] p = some p := rfl

@[simp] theorem seq_cons (c : Code σ V) (cs : List (Code σ V)) (p : σ × List V) :
    seq (c :: cs) p = (c p).bind (seq cs) := rfl

theorem seq_append (cs ds : List (Code σ V)) (p : σ × List V) :
    seq (cs ++ ds) p = (seq cs p).bind (seq ds) := by
  induction cs generalizing p with
  | nil => rfl
  | cons c cs ih =>
    rw [List.cons_append, seq_cons, seq_cons, Option.bind_assoc]
    exact Option.bind_congr fun q _ => ih q

theorem seq_singleton (c : Code σ V) : seq [c] = c := by
  funext p
  exact Option.bind_fun_some (c p)

/-- A sequence may be grouped. -/
theorem seq_map_seq (css : List (List (Code σ V))) : seq (css.map seq) = seq css.flatten := by
  induction css with
  | nil => rfl
  | cons cs css ih =>
    funext p
    rw [List.map_cons, seq_cons, ih, List.flatten_cons, seq_append]

/-! ### Values left on the stack -/

/-- From `s` the code ends in `s'` and pushes exactly `vs`. -/
def Leaves (c : Code σ V) (s s' : σ) (vs : List V) : Prop :=
  ∀ stack, c (s, stack) = some (s', vs.reverse ++ stack)

theorem Leaves.append {cs ds : List (Code σ V)} {s s' s'' : σ} {vs ws : List V}
    (hc : Leaves (seq cs) s s' vs) (hd : Leaves (seq ds) s' s'' ws) :
    Leaves (seq (cs ++ ds)) s s'' (vs ++ ws) := by
  intro stack
  rw [seq_append, hc stack, Option.bind_some, hd, List.reverse_append, List.append_assoc]

/-- An operation takes exactly what was pushed for it. -/
theorem Leaves.apply {cs : List (Code σ V)} {s s' s'' : σ} {vs : List V} {v : V} {n : ℕ}
    {f : List V → σ → Option (σ × V)} (hc : Leaves (seq cs) s s' vs) (hn : vs.length = n)
    (hf : f vs s' = some (s'', v)) : Leaves (seq (cs ++ [StackCode.apply n f])) s s'' [v] := by
  intro stack
  have hlength : vs.reverse.length = n := by rw [List.length_reverse, hn]
  rw [seq_append, hc stack, Option.bind_some, seq_singleton, StackCode.apply,
    if_pos (by rw [List.length_append]; omega), List.take_left' hlength, List.drop_left' hlength,
    List.reverse_reverse, hf]
  rfl

/-! ### Heights and weights -/

section Grows

variable {μ : V → ℕ}

/-- The weight of a stack. -/
def weight (μ : V → ℕ) (stack : List V) : ℕ := (stack.map μ).sum

/-- On every stack that is deep enough the code changes the height by `δ` and adds `w` to the
weight. -/
def Grows (μ : V → ℕ) (c : Code σ V) (δ : ℤ) (w : ℕ) : Prop :=
  ∃ depth : ℕ, ∀ (s : σ) (stack : List V), depth ≤ stack.length →
    ∃ s' stack', c (s, stack) = some (s', stack') ∧ (stack'.length : ℤ) = stack.length + δ ∧
      weight μ stack' = weight μ stack + w

theorem Grows.nil : Grows μ (seq ([] : List (Code σ V))) 0 0 :=
  ⟨0, fun s stack _ => ⟨s, stack, rfl, by omega, rfl⟩⟩

theorem Grows.append {cs ds : List (Code σ V)} {δ δ' : ℤ} {w w' : ℕ} (hc : Grows μ (seq cs) δ w)
    (hd : Grows μ (seq ds) δ' w') : Grows μ (seq (cs ++ ds)) (δ + δ') (w + w') := by
  obtain ⟨depth, hc⟩ := hc
  obtain ⟨depth', hd⟩ := hd
  refine ⟨max depth (depth' - δ).toNat, fun s stack hstack => ?_⟩
  obtain ⟨s', stack', hrun, hlength, hweight⟩ := hc s stack (by omega)
  obtain ⟨s'', stack'', hrun', hlength', hweight'⟩ := hd s' stack' (by omega)
  exact ⟨s'', stack'', by rw [seq_append, hrun, Option.bind_some, hrun'], by omega, by omega⟩

theorem Grows.push {f : σ → Option (σ × V)} {w : ℕ}
    (hf : ∀ s, ∃ s' v, f s = some (s', v) ∧ μ v = w) : Grows μ (push f) 1 w := by
  refine ⟨0, fun s stack _ => ?_⟩
  obtain ⟨s', v, hr, hv⟩ := hf s
  refine ⟨s', v :: stack, by rw [StackCode.push, hr]; rfl, by simp, ?_⟩
  rw [weight, List.map_cons, List.sum_cons, hv, weight, Nat.add_comm]

/-- An operation whose value weighs what it has taken, and `w` more. -/
theorem Grows.apply {n w : ℕ} {f : List V → σ → Option (σ × V)}
    (hf : ∀ vs s, vs.length = n → ∃ s' v, f vs s = some (s', v) ∧ μ v = weight μ vs + w) :
    Grows μ (apply n f) (1 - n) w := by
  refine ⟨n, fun s stack hstack => ?_⟩
  have hlength : (stack.take n).reverse.length = n := by
    rw [List.length_reverse, List.length_take]
    omega
  obtain ⟨s', v, hr, hv⟩ := hf _ s hlength
  have htaken : weight μ (stack.take n).reverse + weight μ (stack.drop n) = weight μ stack := by
    rw [weight, weight, weight, List.map_reverse, List.sum_reverse, ← List.sum_append,
      ← List.map_append, List.take_append_drop]
  refine ⟨s', v :: stack.drop n, by rw [StackCode.apply, if_pos hstack, hr]; rfl, ?_, ?_⟩
  · rw [List.length_cons, List.length_drop]
    omega
  · rw [weight, List.map_cons, List.sum_cons, hv, ← weight]
    omega

/-- Both changes are determined by the code. -/
theorem Grows.unique [Inhabited σ] [Inhabited V] {c : Code σ V} {δ δ' : ℤ} {w w' : ℕ}
    (h : Grows μ c δ w) (h' : Grows μ c δ' w') : δ = δ' ∧ w = w' := by
  obtain ⟨depth, h⟩ := h
  obtain ⟨depth', h'⟩ := h'
  obtain ⟨s, stack, hrun, hlength, hweight⟩ :=
    h default (List.replicate (max depth depth') default) (by rw [List.length_replicate]; omega)
  obtain ⟨s', stack', hrun', hlength', hweight'⟩ :=
    h' default (List.replicate (max depth depth') default) (by rw [List.length_replicate]; omega)
  rw [hrun] at hrun'
  obtain ⟨-, rfl⟩ : s = s' ∧ stack = stack' := Prod.ext_iff.mp (Option.some.inj hrun')
  omega

/-! ### Two versions of a code -/

/-- The second version adds no more weight than the first, and less when it is `marked`. -/
def Drift (μ : V → ℕ) (c c' : Code σ V) (marked : Bool) : Prop :=
  ∃ (δ δ' : ℤ) (w k : ℕ), Grows μ c δ (w + k) ∧ Grows μ c' δ' w ∧ (marked = true → 0 < k)

theorem Grows.drift {c : Code σ V} {δ : ℤ} {w : ℕ} (h : Grows μ c δ w) : Drift μ c c false :=
  ⟨δ, δ, w, 0, h, h, by simp⟩

theorem Drift.append {cs ds cs' ds' : List (Code σ V)} {marked marked' : Bool}
    (hc : Drift μ (seq cs) (seq cs') marked) (hd : Drift μ (seq ds) (seq ds') marked') :
    Drift μ (seq (cs ++ ds)) (seq (cs' ++ ds')) (marked || marked') := by
  obtain ⟨δ, δ', w, k, hc, hc', hk⟩ := hc
  obtain ⟨ε, ε', x, l, hd, hd', hl⟩ := hd
  refine ⟨δ + ε, δ' + ε', w + x, k + l, ?_, hc'.append hd', fun h => ?_⟩
  · rw [Nat.add_add_add_comm]
    exact hc.append hd
  · rcases Bool.or_eq_true_iff.mp h with h | h
    · have := hk h
      omega
    · have := hl h
      omega

end Grows

end StackCode
