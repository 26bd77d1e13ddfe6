import Mathlib.Algebra.BigOperators.Group.Multiset.Basic
import Mathlib.Algebra.Order.Group.Nat
import Mathlib.Data.Multiset.OrderedMonoid
import Mathlib.Logic.Relation

/-!
# Threads over a shared state

A pool is a shared state with a multiset of threads, each of them given by where it stands in
its code. A step of the pool is one step of one thread, which may end it, or something that
happens from outside and may start a thread. Nothing is said about the order of steps, so what
holds after every step holds under every schedule.

What the threads hold between them is the sum of what each one holds (`total`), and a step
changes one summand (`total_cons`, `total_with?`).
-/

namespace ThreadPool

/-- A shared state and the threads that run over it. -/
structure Pool (σ π : Type*) where
  shared : σ
  threads : Multiset π

variable {σ π : Type*}

/-- Add a thread, if there is one. -/
def with? (next : Option π) (rest : Multiset π) : Multiset π :=
  next.elim rest fun p => p ::ₘ rest

@[simp] theorem with?_none (rest : Multiset π) : with? none rest = rest := rfl

@[simp] theorem with?_some (p : π) (rest : Multiset π) : with? (some p) rest = p ::ₘ rest := rfl

theorem mem_with? {next : Option π} {rest : Multiset π} {p : π} :
    p ∈ with? next rest ↔ next = some p ∨ p ∈ rest := by
  rcases next with _ | q
  · simp
  · simp [eq_comm]

/-- One step: a thread moves, or something happens from outside. -/
inductive Step (moves : π → σ → σ → Option π → Prop) (outside : σ → σ → Option π → Prop) :
    Pool σ π → Pool σ π → Prop
  | move {p : π} {s s' : σ} {next : Option π} {rest : Multiset π} (h : moves p s s' next) :
      Step moves outside ⟨s, p ::ₘ rest⟩ ⟨s', with? next rest⟩
  | outside {s s' : σ} {next : Option π} {threads : Multiset π} (h : outside s s' next) :
      Step moves outside ⟨s, threads⟩ ⟨s', with? next threads⟩

/-! ### Sums over the threads -/

section Total

variable {M : Type*} [AddCommMonoid M] (f : π → M)

/-- What all threads hold together. -/
def total (threads : Multiset π) : M :=
  (threads.map f).sum

@[simp] theorem total_zero : total f 0 = 0 := rfl

@[simp] theorem total_cons (p : π) (rest : Multiset π) :
    total f (p ::ₘ rest) = f p + total f rest := by
  simp [total]

theorem total_with? (next : Option π) (rest : Multiset π) :
    total f (with? next rest) = next.elim 0 f + total f rest := by
  rcases next with _ | p <;> simp

theorem total_le {M : Type*} [AddCommMonoid M] [PartialOrder M] [IsOrderedAddMonoid M] {f g : π → M}
    (h : ∀ p, f p ≤ g p) (threads : Multiset π) : total f threads ≤ total g threads := by
  induction threads using Multiset.induction_on with
  | empty => exact le_rfl
  | cons p rest ih =>
    rw [total_cons, total_cons]
    exact add_le_add (h p) ih

theorem total_add (g : π → M) (threads : Multiset π) :
    total (fun p => f p + g p) threads = total f threads + total g threads := by
  simp [total]

end Total

theorem card_total {α : Type*} (f : π → Multiset α) (threads : Multiset π) :
    (total f threads).card = total (fun p => (f p).card) threads := by
  induction threads using Multiset.induction_on with
  | empty => rfl
  | cons p rest ih => rw [total_cons, total_cons, Multiset.card_add, ih]

theorem mem_total {α : Type*} {f : π → Multiset α} {threads : Multiset π} {a : α} :
    a ∈ total f threads ↔ ∃ p ∈ threads, a ∈ f p := by
  induction threads using Multiset.induction_on with
  | empty => simp
  | cons p rest ih => simp [ih]

end ThreadPool
