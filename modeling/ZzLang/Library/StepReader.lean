import Mathlib.Data.List.Basic
import Mathlib.Tactic.Ring

/-!
# Step readers over a byte stream

A *step reader* consumes a prefix of a byte stream and hands back the rest, or
fails. The file is about readers in general and names no file format: what a
format adds is its own writers, and the two facts about a reader that a format
needs.

* `StepReader.Reads p b x` – reading is **exact**: whatever follows the bytes `b`
  in the stream, `p` returns `x` and leaves precisely what follows. It is stated
  with an arbitrary continuation because that is the form that composes
  (`StepReader.Reads.bind`).
* `StepReader.Yields p P` – reading is **guarded**: every value `p` ever returns
  satisfies `P`, on any stream at all.

A round trip is the first fact along a whole format; that a decoder only returns
well-formed values is the second one.

The third thing a format with nested values needs is a bound on the recursion.
`StepReader.Shrinks p` says that `p` never returns more bytes than it was given,
and `StepReader.Eats p` that it returns strictly fewer, so that the length of the
stream is fuel enough for a recursive reader.
-/

namespace StepReader

/-- A byte stream, or a stretch of one. -/
abbrev Bytes : Type := List UInt8

/-- A step reader: consumes a prefix of the stream and returns the rest. -/
abbrev Reader (ε α : Type) : Type := StateT Bytes (Except ε) α

variable {ε α β : Type}

/-! ### Running a reader -/

@[simp] theorem run_pure (x : α) (bs : Bytes) :
    (pure x : Reader ε α) bs = .ok (x, bs) := rfl

@[simp] theorem run_throw (e : ε) (bs : Bytes) :
    (throw e : Reader ε α) bs = .error e := rfl

theorem run_bind (p : Reader ε α) (f : α → Reader ε β) (bs : Bytes) :
    (p >>= f) bs = match p bs with
      | .ok (x, r) => f x r
      | .error e => .error e := by
  change (do let (x, r) ← p bs; f x r : Except ε (β × Bytes)) = _
  cases p bs <;> rfl

theorem run_bind_ok {p : Reader ε α} {bs r : Bytes} {x : α} (h : p bs = .ok (x, r))
    (f : α → Reader ε β) : (p >>= f) bs = f x r := by
  rw [run_bind, h]

/-- What a sequence of two readers returned, the second one returned on what the
first one left. -/
theorem of_run_bind_ok {p : Reader ε α} {f : α → Reader ε β} {bs r : Bytes} {y : β}
    (h : (p >>= f) bs = .ok (y, r)) : ∃ x s, p bs = .ok (x, s) ∧ f x s = .ok (y, r) := by
  rw [run_bind] at h
  cases hp : p bs with
  | ok q => exact ⟨q.1, q.2, rfl, by simpa [hp] using h⟩
  | error e => simp [hp] at h

/-- Reading the same item `n` times, the loop `for _ in 0..n`. -/
def times (p : Reader ε α) : ℕ → Reader ε (List α)
  | 0 => pure []
  | n + 1 => do
    let x ← p
    let xs ← times p n
    return x :: xs

/-- The next `n` bytes of the stream, or the error `e` when it is too short. -/
def takeBytes (e : ε) (n : ℕ) : Reader ε Bytes := fun bs =>
  if n ≤ bs.length then .ok (bs.take n, bs.drop n) else .error e

/-! ### Exact reading -/

/-- Exact reading: on any stream that opens with `b`, the reader returns `x` and
leaves the rest of the stream. -/
def Reads (p : Reader ε α) (b : Bytes) (x : α) : Prop :=
  ∀ rest, p (b ++ rest) = .ok (x, rest)

theorem Reads.pure (x : α) : Reads (Pure.pure x : Reader ε α) [] x := fun _ => rfl

theorem Reads.bind {p : Reader ε α} {f : α → Reader ε β} {b c : Bytes} {x : α} {y : β}
    (hp : Reads p b x) (hf : Reads (f x) c y) : Reads (p >>= f) (b ++ c) y := by
  intro rest
  rw [List.append_assoc, run_bind_ok (hp (c ++ rest))]
  exact hf rest

/-- The second reader may read nothing. -/
theorem Reads.bind_nil {p : Reader ε α} {f : α → Reader ε β} {b : Bytes} {x : α} {y : β}
    (hp : Reads p b x) (hf : Reads (f x) [] y) : Reads (p >>= f) b y := by
  have h := hp.bind hf
  rwa [List.append_nil] at h

theorem Reads.bind_pure {p : Reader ε α} {b : Bytes} {x : α} (hp : Reads p b x) (f : α → β) :
    Reads (p >>= fun y => Pure.pure (f y)) b (f x) :=
  hp.bind_nil (Reads.pure (f x))

/-- A reader that reads the whole of a stream leaves nothing of it. -/
theorem Reads.run {p : Reader ε α} {b : Bytes} {x : α} (h : Reads p b x) : p b = .ok (x, []) := by
  simpa using h []

theorem Reads.takeBytes (e : ε) (b : Bytes) : Reads (takeBytes e b.length) b b := by
  intro rest
  simp [StepReader.takeBytes]

/-- Reading a list item by item. -/
theorem Reads.times {p : Reader ε α} {w : α → Bytes} :
    ∀ {xs : List α}, (∀ x ∈ xs, Reads p (w x) x) → Reads (times p xs.length) (xs.flatMap w) xs
  | [], _ => Reads.pure []
  | x :: xs, h => by
    have hx : Reads p (w x) x := h x (by simp)
    have hxs : Reads (StepReader.times p xs.length) (xs.flatMap w) xs :=
      Reads.times fun y hy => h y (by simp [hy])
    exact hx.bind (hxs.bind_pure _)

/-! ### Guarded reading -/

/-- Guarded reading: every value the reader ever returns satisfies `P`. -/
def Yields (p : Reader ε α) (P : α → Prop) : Prop :=
  ∀ bs x r, p bs = .ok (x, r) → P x

theorem Yields.pure {P : α → Prop} {x : α} (h : P x) : Yields (Pure.pure x : Reader ε α) P := by
  intro bs y r hy
  obtain ⟨rfl, -⟩ : x = y ∧ bs = r := by simpa using hy
  exact h

theorem Yields.throw {P : α → Prop} (e : ε) : Yields (MonadExcept.throw e : Reader ε α) P := by
  intro bs y r hy
  simp at hy

theorem Yields.bind {P : α → Prop} {Q : β → Prop} {p : Reader ε α} {f : α → Reader ε β}
    (hp : Yields p P) (hf : ∀ x, P x → Yields (f x) Q) : Yields (p >>= f) Q := by
  intro bs y r hy
  obtain ⟨x, s, hx, hfx⟩ := of_run_bind_ok hy
  exact hf x (hp bs x s hx) s y r hfx

/-- Nothing need be known of what the first reader returns. -/
theorem Yields.bind_any {Q : β → Prop} {p : Reader ε α} {f : α → Reader ε β}
    (hf : ∀ x, Yields (f x) Q) : Yields (p >>= f) Q :=
  Yields.bind (P := fun _ => True) (fun _ _ _ _ => trivial) fun x _ => hf x

theorem Yields.mono {P Q : α → Prop} {p : Reader ε α} (hp : Yields p P) (h : ∀ x, P x → Q x) :
    Yields p Q := fun bs x r hx => h x (hp bs x r hx)

theorem Yields.trivial (p : Reader ε α) : Yields p fun _ => True := fun _ _ _ _ => True.intro

/-- What a counted loop returns: as many items as asked, each guarded. -/
theorem Yields.times {P : α → Prop} {p : Reader ε α} (hp : Yields p P) :
    ∀ n, Yields (times p n) fun xs => xs.length = n ∧ ∀ x ∈ xs, P x
  | 0 => Yields.pure (by simp)
  | n + 1 => by
    refine Yields.bind hp fun x hx => Yields.bind (Yields.times hp n) fun xs hxs => ?_
    refine Yields.pure ⟨by simp [hxs.1], fun y hy => ?_⟩
    rcases List.mem_cons.mp hy with rfl | hy
    · exact hx
    · exact hxs.2 y hy

/-- A reader behind a check returns only when the check let it through. -/
theorem Yields.guard {P : α → Prop} {c : Prop} [Decidable c] {p : Reader ε α} {e : ε}
    (hp : ¬c → Yields p P) : Yields (if c then MonadExcept.throw e else p) P := by
  by_cases h : c
  · rw [if_pos h]
    exact Yields.throw e
  · rw [if_neg h]
    exact hp h

/-! ### Consumption -/

/-- The reader never returns more bytes than it was given. -/
def Shrinks (p : Reader ε α) : Prop :=
  ∀ bs x r, p bs = .ok (x, r) → r.length ≤ bs.length

/-- The reader consumes at least one byte. -/
def Eats (p : Reader ε α) : Prop :=
  ∀ bs x r, p bs = .ok (x, r) → r.length < bs.length

theorem Eats.shrinks {p : Reader ε α} (h : Eats p) : Shrinks p :=
  fun bs x r hx => (h bs x r hx).le

theorem Shrinks.takeBytes (e : ε) (n : ℕ) : Shrinks (takeBytes e n) := by
  intro bs x r h
  unfold StepReader.takeBytes at h
  split at h
  · obtain ⟨-, rfl⟩ : bs.take n = x ∧ bs.drop n = r := by simpa using h
    simp
  · simp at h

theorem Shrinks.pure (x : α) : Shrinks (Pure.pure x : Reader ε α) := by
  intro bs y r h
  obtain ⟨-, rfl⟩ : x = y ∧ bs = r := by simpa using h
  exact le_rfl

theorem Shrinks.throw (e : ε) : Shrinks (MonadExcept.throw e : Reader ε α) := by
  intro bs y r h
  simp at h

theorem Shrinks.bind {p : Reader ε α} {f : α → Reader ε β} (hp : Shrinks p)
    (hf : ∀ x, Shrinks (f x)) : Shrinks (p >>= f) := by
  intro bs y r h
  obtain ⟨x, s, hx, hfx⟩ := of_run_bind_ok h
  exact (hf x s y r hfx).trans (hp bs x s hx)

theorem Shrinks.times {p : Reader ε α} (hp : Shrinks p) : ∀ n, Shrinks (times p n)
  | 0 => Shrinks.pure []
  | n + 1 => hp.bind fun x => (Shrinks.times hp n).bind fun xs => Shrinks.pure (x :: xs)

theorem Shrinks.guard {c : Prop} [Decidable c] {p : Reader ε α} {e : ε} (hp : Shrinks p) :
    Shrinks (if c then MonadExcept.throw e else p) := by
  by_cases h : c
  · rw [if_pos h]
    exact Shrinks.throw e
  · rw [if_neg h]
    exact hp

/-! ### Recursive readers

A reader that calls itself is a fixed point of a functional. It is run with as
much fuel as the stream has bytes, and one more; that is enough as soon as the
functional calls its argument only after a byte has been consumed. -/

/-- Two readers agree on every stream shorter than `n`. -/
def AgreeBelow (n : ℕ) (p q : Reader ε α) : Prop :=
  ∀ bs, bs.length < n → p bs = q bs

theorem AgreeBelow.refl (n : ℕ) (p : Reader ε α) : AgreeBelow n p p := fun _ _ => rfl

/-- Sequencing keeps agreement, since the first reader hands on no more than it
was given. -/
theorem AgreeBelow.bind {n : ℕ} {p q : Reader ε α} {f g : α → Reader ε β} (hs : Shrinks p)
    (hpq : AgreeBelow n p q) (hfg : ∀ x, AgreeBelow n (f x) (g x)) :
    AgreeBelow n (p >>= f) (q >>= g) := by
  intro bs hbs
  rw [run_bind, run_bind, ← hpq bs hbs]
  cases hp : p bs with
  | error e => rfl
  | ok xr => exact hfg xr.1 xr.2 ((hs bs xr.1 xr.2 hp).trans_lt hbs)

/-- After a reader that consumes, agreement is only needed one byte further
down. -/
theorem AgreeBelow.bind_eats {n : ℕ} {p : Reader ε α} {f g : α → Reader ε β} (he : Eats p)
    (hfg : ∀ x, AgreeBelow n (f x) (g x)) : AgreeBelow (n + 1) (p >>= f) (p >>= g) := by
  intro bs hbs
  rw [run_bind, run_bind]
  cases hp : p bs with
  | error e => rfl
  | ok xr =>
    have hlt := he bs xr.1 xr.2 hp
    exact hfg xr.1 xr.2 (by omega)

theorem AgreeBelow.times {n : ℕ} {p q : Reader ε α} (hs : Shrinks p) (hpq : AgreeBelow n p q) :
    ∀ k, AgreeBelow n (times p k) (times q k)
  | 0 => AgreeBelow.refl n _
  | k + 1 => hpq.bind hs fun _ => (AgreeBelow.times hs hpq k).bind (hs.times k)
      fun _ => AgreeBelow.refl n _

/-- A functional that calls its argument only on what is left after at least one
byte: it keeps readers from growing the stream, and what it does on streams of a
length depends on its argument on shorter ones only. -/
structure Guarded (F : Reader ε α → Reader ε α) : Prop where
  shrinks : ∀ p, Shrinks p → Shrinks (F p)
  agree : ∀ n p q, Shrinks p → Shrinks q → AgreeBelow n p q → AgreeBelow (n + 1) (F p) (F q)

/-- The approximations of a recursive reader, by the depth of recursion they
allow. -/
def fixFuel (e : ε) (F : Reader ε α → Reader ε α) : ℕ → Reader ε α
  | 0 => throw e
  | n + 1 => F (fixFuel e F n)

/-- The recursive reader of a functional. The error `e` is only ever reached when
the functional is not guarded. -/
def fix (e : ε) (F : Reader ε α → Reader ε α) : Reader ε α := fun bs =>
  fixFuel e F (bs.length + 1) bs

section Fix

variable {e : ε} {F : Reader ε α → Reader ε α}

theorem shrinks_fixFuel (hF : Guarded F) : ∀ n, Shrinks (fixFuel e F n)
  | 0 => Shrinks.throw e
  | n + 1 => hF.shrinks _ (shrinks_fixFuel hF n)

theorem shrinks_fix (hF : Guarded F) : Shrinks (fix e F) :=
  fun bs x r h => shrinks_fixFuel hF _ bs x r h

/-- With as much fuel as the stream is long, more fuel changes nothing. -/
theorem agreeBelow_fixFuel (hF : Guarded F) :
    ∀ n m, n ≤ m → AgreeBelow n (fixFuel e F n) (fixFuel e F m)
  | 0, _, _ => fun _ h => absurd h (by omega)
  | n + 1, 0, h => absurd h (by omega)
  | n + 1, m + 1, h => hF.agree n _ _ (shrinks_fixFuel hF n) (shrinks_fixFuel hF m)
      (agreeBelow_fixFuel hF n m (by omega))

/-- The recursion equation: a recursive reader is the fixed point of its
functional. -/
theorem fix_eq (hF : Guarded F) : fix e F = F (fix e F) := by
  funext bs
  have h : AgreeBelow bs.length (fixFuel e F bs.length) (fix e F) := by
    intro cs hcs
    have h1 := agreeBelow_fixFuel (e := e) hF (cs.length + 1) bs.length (by omega) cs (by omega)
    exact h1.symm
  exact hF.agree bs.length _ _ (shrinks_fixFuel hF _) (shrinks_fix hF) h bs (by omega)

/-- A property every call keeps holds of everything the recursive reader
returns. -/
theorem Yields.fix {P : α → Prop} (h : ∀ p : Reader ε α, Yields p P → Yields (F p) P) :
    Yields (fix e F) P := by
  have hfuel : ∀ n, Yields (fixFuel e F n) P := by
    intro n
    induction n with
    | zero => exact Yields.throw e
    | succ n ih => exact h _ ih
  exact fun bs x r hx => hfuel _ bs x r hx

end Fix

/-! ### Little-endian numbers -/

/-- The `k` lowest base-256 digits of a number, lowest first. -/
def leBytes : ℕ → ℕ → Bytes
  | 0, _ => []
  | k + 1, n => UInt8.ofNat n :: leBytes k (n / 256)

/-- The number a stretch of bytes spells, lowest byte first. -/
def ofLeBytes : Bytes → ℕ
  | [] => 0
  | b :: bs => b.toNat + 256 * ofLeBytes bs

@[simp] theorem length_leBytes : ∀ k n, (leBytes k n).length = k
  | 0, _ => rfl
  | k + 1, n => by simp [leBytes, length_leBytes k]

/-- Spelling a number and reading it back keeps its `k` lowest digits. -/
theorem ofLeBytes_leBytes : ∀ k n, ofLeBytes (leBytes k n) = n % 256 ^ k
  | 0, n => by simp [leBytes, ofLeBytes, Nat.mod_one]
  | k + 1, n => by
    have h : (UInt8.ofNat n).toNat = n % 256 := by simp
    rw [leBytes, ofLeBytes, ofLeBytes_leBytes k, h, Nat.pow_succ', Nat.mod_mul]

theorem ofLeBytes_leBytes_of_lt {k n : ℕ} (h : n < 256 ^ k) : ofLeBytes (leBytes k n) = n := by
  rw [ofLeBytes_leBytes, Nat.mod_eq_of_lt h]

end StepReader
