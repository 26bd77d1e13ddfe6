import Mathlib.Algebra.BigOperators.Group.Finset.Piecewise
import Mathlib.Algebra.Order.Group.Multiset
import Mathlib.Tactic.Abel

/-!
# A bounded queue for several producers and consumers

The ring buffer of `cap` cells in which every cell carries a sequence number. Positions grow
without bound and position `p` uses cell `p % cap`. A producer reads the tail `p`, checks that
the cell's number is `p`, claims the position by moving the tail on, and later publishes its
value by setting the number to `p + 1`. A consumer reads the head `p`, checks that the number
is `p + 1`, claims the position by moving the head on and takes the value out, and later
releases the cell for the next lap by setting the number to `p + cap`.

Between the check and the claim other threads may do anything. What makes the check worth
something is that numbers only grow, so that a number that was at least `p` still is
(`le_seq_publish`, `le_seq_release`), and that a cell whose number is at least `p` is exactly
in the state the check saw as long as the tail, or the head, is still `p`: `Ok.free_of_seen` and
`Ok.full_of_seen`.

`Ok` describes the cells when the positions in `E` are claimed by producers that have not
published and those in `D` by consumers that have not released.
-/

namespace MpmcRing

/-- The counters and the cells. -/
structure Buffer (V : Type*) where
  head : ℕ
  tail : ℕ
  seq : ℕ → ℕ
  val : ℕ → Option V

variable {V : Type*} {cap : ℕ} {r : Buffer V} {E D : Multiset ℕ} {p : ℕ} {v : V}

namespace Buffer

/-- Cell `i` starts with number `i`. -/
def new : Buffer V :=
  ⟨0, 0, fun i => i, fun _ => none⟩

/-- A producer claims the tail. -/
def claimTail (r : Buffer V) : Buffer V :=
  { r with tail := r.tail + 1 }

/-- A producer writes its value and publishes it. -/
def publish (cap : ℕ) (r : Buffer V) (p : ℕ) (v : V) : Buffer V :=
  { r with
    seq := Function.update r.seq (p % cap) (p + 1)
    val := Function.update r.val (p % cap) (some v) }

/-- A consumer claims the head and takes the value out. -/
def claimHead (cap : ℕ) (r : Buffer V) : Buffer V :=
  { r with head := r.head + 1, val := Function.update r.val (r.head % cap) none }

/-- A consumer frees the cell for the next lap. -/
def release (cap : ℕ) (r : Buffer V) (p : ℕ) : Buffer V :=
  { r with seq := Function.update r.seq (p % cap) (p + cap) }

/-- The values in the cells. -/
def contents (cap : ℕ) (r : Buffer V) : Multiset V :=
  ∑ i ∈ Finset.range cap, (r.val i).elim 0 fun v => {v}

end Buffer

open Buffer

/-! ### The states of a cell -/

/-- Cell `i` serves position `q`. -/
inductive Serves (r : Buffer V) (E D : Multiset ℕ) (i q : ℕ) : Prop
  | free (hq : r.tail ≤ q) (hseq : r.seq i = q) (hval : r.val i = none)
  | claimed (hE : q ∈ E) (hseq : r.seq i = q) (hval : r.val i = none)
  | full (hhead : r.head ≤ q) (htail : q < r.tail) (hseq : r.seq i = q + 1)
      (hval : (r.val i).isSome)
  | draining (hD : q ∈ D) (hseq : r.seq i = q + 1) (hval : r.val i = none)

/-- The ring when the positions in `E` are being written and those in `D` being released. -/
structure Ok (cap : ℕ) (r : Buffer V) (E D : Multiset ℕ) : Prop where
  head_le : r.head ≤ r.tail
  serves : ∀ i < cap, ∃ q, q % cap = i ∧ q < r.head + cap ∧ r.tail ≤ q + cap ∧ Serves r E D i q
  nodupE : E.Nodup
  nodupD : D.Nodup
  writing : ∀ q ∈ E, r.head ≤ q ∧ q < r.tail ∧ r.seq (q % cap) = q
  releasing : ∀ q ∈ D, q < r.head ∧ r.seq (q % cap) = q + 1

theorem ok_new (cap : ℕ) : Ok cap (new : Buffer V) 0 0 where
  head_le := le_rfl
  serves i hi := ⟨i, Nat.mod_eq_of_lt hi, by simpa [new] using hi, by simp [new],
    .free (by simp [new]) rfl rfl⟩
  nodupE := Multiset.nodup_zero
  nodupD := Multiset.nodup_zero
  writing := by simp
  releasing := by simp

/-- Positions of one cell that are less than a lap apart are equal. -/
theorem eq_of_mod_eq {a b : ℕ} (h : a % cap = b % cap) (hab : a < b + cap) (hba : b < a + cap) :
    a = b := by
  have key : ∀ {a b : ℕ}, a % cap = b % cap → a < b + cap → a ≤ b := by
    intro a b h hab
    have ha := Nat.div_add_mod a cap
    have hb := Nat.div_add_mod b cap
    by_contra hlt
    have hdiv : a / cap < b / cap + 1 := by
      by_contra hge
      have := Nat.mul_le_mul_left cap (not_lt.mp hge)
      rw [Nat.mul_add] at this
      omega
    have := Nat.mul_le_mul_left cap (Nat.lt_succ_iff.mp hdiv)
    omega
  exact le_antisymm (key h hab) (key h.symm hba)

theorem mod_ne_succ (hcap : 2 ≤ cap) (a : ℕ) : (a + 1) % cap ≠ a % cap := by
  intro h
  have := eq_of_mod_eq h (by omega) (by omega)
  omega

namespace Ok

/-- The position a cell serves, read off its number. -/
theorem serves_cases (h : Ok cap r E D) (hcap : 2 ≤ cap) (p : ℕ) :
    ∃ q, q % cap = p % cap ∧ q < r.head + cap ∧ r.tail ≤ q + cap ∧ Serves r E D (p % cap) q :=
  h.serves (p % cap) (Nat.mod_lt p (by omega))

/-- A cell whose number was seen to be the tail is free as long as the tail has not moved. -/
theorem free_of_seen (h : Ok cap r E D) (hcap : 2 ≤ cap) (hseen : r.tail ≤ r.seq (r.tail % cap)) :
    r.seq (r.tail % cap) = r.tail ∧ r.val (r.tail % cap) = none ∧ r.tail < r.head + cap := by
  obtain ⟨q, hmod, hlt, -, hserves⟩ := h.serves_cases hcap r.tail
  have hle := h.head_le
  have hne := mod_ne_succ hcap q
  have hq : r.tail ≤ q + 1 → q = r.tail := by
    intro hge
    rcases Nat.lt_or_ge q r.tail with hlt' | hge'
    · exact absurd (by rw [show q + 1 = r.tail by omega, hmod]) hne
    · exact eq_of_mod_eq hmod (by omega) (by omega)
  rcases hserves with ⟨_, hseq, hval⟩ | ⟨hE, hseq, hval⟩ | ⟨_, htail, hseq, _⟩ | ⟨hD, hseq, _⟩
  · rw [hseq] at hseen
    have hqt := hq (by omega)
    exact ⟨by rw [hseq, hqt], hval, by omega⟩
  · have hw := h.writing q hE
    have := hq (by omega)
    omega
  · have := hq (by omega)
    omega
  · have hd := h.releasing q hD
    have := hq (by omega)
    omega

/-- A cell whose number was seen to be past the head is full as long as the head has not
moved. -/
theorem full_of_seen (h : Ok cap r E D) (hcap : 2 ≤ cap)
    (hseen : r.head + 1 ≤ r.seq (r.head % cap)) :
    r.head < r.tail ∧ r.seq (r.head % cap) = r.head + 1 ∧ (r.val (r.head % cap)).isSome := by
  obtain ⟨q, hmod, hlt, -, hserves⟩ := h.serves_cases hcap r.head
  have hle := h.head_le
  have hq : r.head ≤ q → q = r.head := fun hge => eq_of_mod_eq hmod (by omega) (by omega)
  rcases hserves with ⟨_, hseq, _⟩ | ⟨hE, hseq, _⟩ | ⟨_, htail, hseq, hval⟩ | ⟨hD, hseq, _⟩
  · have := hq (by omega)
    omega
  · have := hq (by omega)
    omega
  · have := hq (by omega)
    exact ⟨by omega, by omega, hval⟩
  · have hd := h.releasing q hD
    have := hq (by omega)
    omega

/-- A consumer that reads too small a number for a position it took from the head has found the
ring empty, or a producer that has yet to publish. -/
theorem empty_of_miss (h : Ok cap r E D) (hcap : 2 ≤ cap) (hp : p ≤ r.head)
    (hmiss : r.seq (p % cap) < p + 1) : r.head = r.tail ∨ ∃ q, q ∈ E := by
  obtain ⟨q, hmod, hlt, hge, hserves⟩ := h.serves_cases hcap p
  have hle := h.head_le
  rcases hserves with ⟨hq, hseq, _⟩ | ⟨hE, _, _⟩ | ⟨hhead, _, hseq, _⟩ | ⟨_, hseq, _⟩
  · exact .inl (by omega)
  · exact .inr ⟨q, hE⟩
  · omega
  · refine .inl (le_antisymm hle ?_)
    by_contra hcon
    have := eq_of_mod_eq hmod (by omega) (by omega)
    omega

/-! ### The four steps -/

/-- Claiming the tail, after its cell was seen free. -/
protected theorem claimTail (h : Ok cap r E D) (hcap : 2 ≤ cap)
    (hseen : r.tail ≤ r.seq (r.tail % cap)) : Ok cap r.claimTail (r.tail ::ₘ E) D where
  head_le := h.head_le.trans (Nat.le_succ _)
  serves i hi := by
    obtain ⟨hseq, hval, hlt⟩ := h.free_of_seen hcap hseen
    rcases eq_or_ne i (r.tail % cap) with rfl | hne
    · exact ⟨r.tail, rfl, hlt, show r.tail + 1 ≤ r.tail + cap by omega,
        .claimed (by simp) hseq hval⟩
    · obtain ⟨q, hmod, hlt, hle, hserves⟩ := h.serves i hi
      have hlap : r.tail ≠ q + cap := by
        rintro heq
        exact hne (by rw [← hmod, heq, Nat.add_mod_right])
      have hqt : q ≠ r.tail := by
        rintro rfl
        exact hne hmod.symm
      refine ⟨q, hmod, hlt, show r.tail + 1 ≤ q + cap by omega, ?_⟩
      rcases hserves with ⟨hq, hs, hv⟩ | ⟨hE, hs, hv⟩ | ⟨hh, ht, hs, hv⟩ | ⟨hD, hs, hv⟩
      · exact .free (show r.tail + 1 ≤ q by omega) hs hv
      · exact .claimed (Multiset.mem_cons_of_mem hE) hs hv
      · exact .full hh (show q < r.tail + 1 by omega) hs hv
      · exact .draining hD hs hv
  nodupE := Multiset.nodup_cons.mpr ⟨fun hmem => lt_irrefl _ (h.writing _ hmem).2.1, h.nodupE⟩
  nodupD := h.nodupD
  writing q hq := by
    rcases Multiset.mem_cons.mp hq with rfl | hq
    · exact ⟨h.head_le, Nat.lt_succ_self _, (h.free_of_seen hcap hseen).1⟩
    · obtain ⟨h₁, h₂, h₃⟩ := h.writing q hq
      exact ⟨h₁, Nat.lt_succ_of_lt h₂, h₃⟩
  releasing := h.releasing

/-- A cell being written or released serves that position. -/
theorem serves_of_seq (h : Ok cap r E D) (hcap : 2 ≤ cap) (p : ℕ) :
    (r.seq (p % cap) = p ∨ r.seq (p % cap) = p + 1) →
      p < r.head + cap ∧ r.tail ≤ p + cap ∧ Serves r E D (p % cap) p := by
  intro hseqp
  obtain ⟨q, hmod, hlt, hle, hserves⟩ := h.serves_cases hcap p
  have hqp : q = p := by
    have hne := mod_ne_succ hcap q
    have hne' := mod_ne_succ hcap p
    have hseq : r.seq (p % cap) = q ∨ r.seq (p % cap) = q + 1 := by
      rcases hserves with ⟨_, hs, _⟩ | ⟨_, hs, _⟩ | ⟨_, _, hs, _⟩ | ⟨_, hs, _⟩ <;> simp [hs]
    rcases hseq with hseq | hseq <;> rcases hseqp with hseqp | hseqp
    · omega
    · exact absurd (by rw [← hmod, ← hseq, hseqp]) hne'
    · exact absurd (by rw [hmod, ← hseq, hseqp]) hne
    · omega
  rw [← hqp] at *
  exact ⟨hlt, hle, hmod ▸ hserves⟩

/-- The cell of a claimed position is empty. -/
theorem val_eq_none_of_writing (h : Ok cap r E D) (hcap : 2 ≤ cap) (hp : p ∈ E) :
    r.val (p % cap) = none := by
  obtain ⟨hhead, htail, hseqp⟩ := h.writing p hp
  obtain ⟨-, -, hserves⟩ := h.serves_of_seq hcap p (.inl hseqp)
  rcases hserves with ⟨_, _, hval⟩ | ⟨_, _, hval⟩ | ⟨_, _, hseq, _⟩ | ⟨_, hseq, _⟩
  · exact hval
  · exact hval
  · omega
  · omega

/-- A cell other than the one that changes. -/
theorem serves_of_ne {r' : Buffer V} {E' D' : Multiset ℕ} {i q : ℕ} (h : Serves r E D i q)
    (hhead : r'.head = r.head) (htail : r'.tail = r.tail) (hseq : r'.seq i = r.seq i)
    (hval : r'.val i = r.val i) (hE : q ∈ E → q ∈ E') (hD : q ∈ D → q ∈ D') :
    Serves r' E' D' i q := by
  rcases h with ⟨hq, hs, hv⟩ | ⟨hq, hs, hv⟩ | ⟨hh, ht, hs, hv⟩ | ⟨hq, hs, hv⟩
  · exact .free (by omega) (by omega) (by rw [hval, hv])
  · exact .claimed (hE hq) (by omega) (by rw [hval, hv])
  · exact .full (by omega) (by omega) (by omega) (by rw [hval, hv])
  · exact .draining (hD hq) (by omega) (by rw [hval, hv])

/-- Publishing a value. -/
protected theorem publish (h : Ok cap r (p ::ₘ E) D) (hcap : 2 ≤ cap) (v : V) :
    Ok cap (r.publish cap p v) E D where
  head_le := h.head_le
  serves i hi := by
    obtain ⟨hhead, htail, hseq⟩ := h.writing p (by simp)
    rcases eq_or_ne i (p % cap) with rfl | hne
    · obtain ⟨hlt, hle, -⟩ := h.serves_of_seq hcap p (.inl hseq)
      exact ⟨p, rfl, hlt, hle, .full hhead htail (by simp [Buffer.publish]) (by simp [Buffer.publish])⟩
    · obtain ⟨q, hmod, hlt, hle, hserves⟩ := h.serves i hi
      have hqp : q ≠ p := by
        rintro rfl
        exact hne hmod.symm
      exact ⟨q, hmod, hlt, hle, serves_of_ne hserves rfl rfl (Function.update_of_ne hne ..)
        (Function.update_of_ne hne ..) (fun hE => (Multiset.mem_cons.mp hE).resolve_left hqp) id⟩
  nodupE := (Multiset.nodup_cons.mp h.nodupE).2
  nodupD := h.nodupD
  writing q hq := by
    obtain ⟨h₁, h₂, h₃⟩ := h.writing q (Multiset.mem_cons_of_mem hq)
    have hne : q % cap ≠ p % cap := by
      intro heq
      have hp := (h.writing p (by simp)).2.2
      rw [← heq, h₃] at hp
      exact (Multiset.nodup_cons.mp h.nodupE).1 (hp ▸ hq)
    exact ⟨h₁, h₂, by simpa [Buffer.publish, Function.update_of_ne hne] using h₃⟩
  releasing q hq := by
    obtain ⟨h₁, h₂⟩ := h.releasing q hq
    have hne : q % cap ≠ p % cap := by
      intro heq
      have hp := (h.writing p (by simp)).2.2
      rw [← heq, h₂] at hp
      exact mod_ne_succ hcap q (by rw [hp, heq])
    exact ⟨h₁, by simpa [Buffer.publish, Function.update_of_ne hne] using h₂⟩

/-- Claiming the head, after its cell was seen full. -/
protected theorem claimHead (h : Ok cap r E D) (hcap : 2 ≤ cap)
    (hseen : r.head + 1 ≤ r.seq (r.head % cap)) : Ok cap (r.claimHead cap) E (r.head ::ₘ D) where
  head_le := (h.full_of_seen hcap hseen).1
  serves i hi := by
    obtain ⟨hlt, hseq, -⟩ := h.full_of_seen hcap hseen
    rcases eq_or_ne i (r.head % cap) with rfl | hne
    · obtain ⟨hlt, hle, -⟩ := h.serves_of_seq hcap r.head (.inr hseq)
      exact ⟨r.head, rfl, show r.head < r.head + 1 + cap by omega, hle,
        .draining (by simp) hseq (by simp [Buffer.claimHead])⟩
    · obtain ⟨q, hmod, hlt, hle, hserves⟩ := h.serves i hi
      have hval : (r.claimHead cap).val i = r.val i := Function.update_of_ne hne ..
      have hqh : q ≠ r.head := by
        rintro rfl
        exact hne hmod.symm
      refine ⟨q, hmod, show q < r.head + 1 + cap by omega, hle, ?_⟩
      rcases hserves with ⟨hq, hs, hv⟩ | ⟨hE, hs, hv⟩ | ⟨hh, ht, hs, hv⟩ | ⟨hD, hs, hv⟩
      · exact .free hq hs (hval.trans hv)
      · exact .claimed hE hs (hval.trans hv)
      · exact .full (show r.head + 1 ≤ q by omega) ht hs (hval ▸ hv)
      · exact .draining (Multiset.mem_cons_of_mem hD) hs (hval.trans hv)
  nodupE := h.nodupE
  nodupD := Multiset.nodup_cons.mpr
    ⟨fun hmem => lt_irrefl _ (h.releasing _ hmem).1, h.nodupD⟩
  writing q hq := by
    obtain ⟨h₁, h₂, h₃⟩ := h.writing q hq
    have hseq := (h.full_of_seen hcap hseen).2.1
    have hne : q ≠ r.head := by
      rintro rfl
      omega
    exact ⟨show r.head + 1 ≤ q by omega, h₂, h₃⟩
  releasing q hq := by
    rcases Multiset.mem_cons.mp hq with rfl | hq
    · exact ⟨Nat.lt_succ_self _, (h.full_of_seen hcap hseen).2.1⟩
    · obtain ⟨h₁, h₂⟩ := h.releasing q hq
      exact ⟨Nat.lt_succ_of_lt h₁, h₂⟩

/-- Releasing a cell. -/
protected theorem release (h : Ok cap r E (p ::ₘ D)) (hcap : 2 ≤ cap) :
    Ok cap (r.release cap p) E D where
  head_le := h.head_le
  serves i hi := by
    obtain ⟨hhead, hseq⟩ := h.releasing p (by simp)
    rcases eq_or_ne i (p % cap) with rfl | hne
    · obtain ⟨hlt, hle, hserves⟩ := h.serves_of_seq hcap p (.inr hseq)
      have hval : r.val (p % cap) = none := by
        rcases hserves with ⟨_, _, hv⟩ | ⟨_, _, hv⟩ | ⟨hh, _, _, _⟩ | ⟨_, _, hv⟩
        · exact hv
        · exact hv
        · omega
        · exact hv
      exact ⟨p + cap, Nat.add_mod_right p cap, show p + cap < r.head + cap by omega,
        show r.tail ≤ p + cap + cap by omega, .free hle (by simp [Buffer.release]) hval⟩
    · obtain ⟨q, hmod, hlt, hle, hserves⟩ := h.serves i hi
      have hqp : q ≠ p := by
        rintro rfl
        exact hne hmod.symm
      exact ⟨q, hmod, hlt, hle, serves_of_ne hserves rfl rfl (Function.update_of_ne hne ..) rfl id
        fun hD => (Multiset.mem_cons.mp hD).resolve_left hqp⟩
  nodupE := h.nodupE
  nodupD := (Multiset.nodup_cons.mp h.nodupD).2
  writing q hq := by
    obtain ⟨h₁, h₂, h₃⟩ := h.writing q hq
    have hne : q % cap ≠ p % cap := by
      intro heq
      have hp := (h.releasing p (by simp)).2
      rw [← heq, h₃] at hp
      exact mod_ne_succ hcap p (by rw [← hp, heq])
    exact ⟨h₁, h₂, by simpa [Buffer.release, Function.update_of_ne hne] using h₃⟩
  releasing q hq := by
    obtain ⟨h₁, h₂⟩ := h.releasing q (Multiset.mem_cons_of_mem hq)
    have hne : q % cap ≠ p % cap := by
      intro heq
      have hp := (h.releasing p (by simp)).2
      rw [← heq, h₂] at hp
      exact (Multiset.nodup_cons.mp h.nodupD).1 (Nat.succ.inj hp ▸ hq)
    exact ⟨h₁, by simpa [Buffer.release, Function.update_of_ne hne] using h₂⟩

end Ok

/-! ### Numbers only grow -/

theorem Ok.le_seq_publish (h : Ok cap r (p ::ₘ E) D) (v : V) (i : ℕ) :
    r.seq i ≤ (r.publish cap p v).seq i := by
  rcases eq_or_ne i (p % cap) with rfl | hne
  · have hseq := (h.writing p (by simp)).2.2
    simp [Buffer.publish, hseq]
  · simp [Buffer.publish, Function.update_of_ne hne]

theorem Ok.le_seq_release (h : Ok cap r E (p ::ₘ D)) (hcap : 2 ≤ cap) (i : ℕ) :
    r.seq i ≤ (r.release cap p).seq i := by
  rcases eq_or_ne i (p % cap) with rfl | hne
  · have hseq := (h.releasing p (by simp)).2
    simp only [Buffer.release, Function.update_self, hseq]
    omega
  · simp [Buffer.release, Function.update_of_ne hne]

/-! ### Contents -/

/-- Changing one of finitely many places that hold a value or nothing. -/
theorem sum_elim_update {ι : Type*} [DecidableEq ι] {S : Finset ι} (f : ι → Option V) {i : ι}
    (hi : i ∈ S) (o : Option V) :
    (∑ j ∈ S, (Function.update f i o j).elim 0 fun v => ({v} : Multiset V)) +
        (f i).elim 0 (fun v => {v}) =
      (∑ j ∈ S, (f j).elim 0 fun v => ({v} : Multiset V)) + o.elim 0 fun v => {v} := by
  have hupdate : ∀ j, (Function.update f i o j).elim 0 (fun v => ({v} : Multiset V)) =
      Function.update (fun j => (f j).elim 0 fun v => ({v} : Multiset V)) i
        (o.elim 0 fun v => {v}) j := by
    intro j
    rcases eq_or_ne j i with rfl | hne
    · simp
    · simp [Function.update_of_ne hne]
  simp only [hupdate]
  rw [Finset.sum_update_of_mem hi, ← Finset.sum_erase_add _ _ hi, Finset.sdiff_singleton_eq_erase]
  abel

/-- Publishing into an empty cell adds the value. -/
theorem contents_publish (hcap : 2 ≤ cap) (hval : r.val (p % cap) = none) (v : V) :
    contents cap (r.publish cap p v) = contents cap r + {v} := by
  have hupdate := sum_elim_update r.val
    (Finset.mem_range.mpr (Nat.mod_lt p (show cap > 0 by omega))) (some v)
  simpa [hval, Buffer.publish, contents] using hupdate

/-- Claiming the head takes its value out. -/
theorem contents_claimHead (hcap : 2 ≤ cap) (r : Buffer V) :
    contents cap (r.claimHead cap) + (r.val (r.head % cap)).elim 0 (fun v => {v}) =
      contents cap r := by
  have hupdate := sum_elim_update r.val
    (Finset.mem_range.mpr (Nat.mod_lt r.head (show cap > 0 by omega))) none
  simpa [Buffer.claimHead, contents] using hupdate

/-- A ring whose head has caught up with its tail is empty. -/
theorem Ok.contents_eq_zero (h : Ok cap r E D) (heq : r.head = r.tail) : contents cap r = 0 := by
  refine Finset.sum_eq_zero fun i hi => ?_
  obtain ⟨q, -, -, -, hserves⟩ := h.serves i (Finset.mem_range.mp hi)
  have hval : r.val i = none := by
    rcases hserves with ⟨_, _, hv⟩ | ⟨_, _, hv⟩ | ⟨hhead, htail, _, _⟩ | ⟨_, _, hv⟩
    · exact hv
    · exact hv
    · omega
    · exact hv
  rw [hval]
  rfl

theorem mem_contents {v : V} {i : ℕ} (hi : i < cap) (hval : r.val i = some v) :
    v ∈ contents cap r := by
  rw [contents, ← Finset.sum_erase_add _ _ (Finset.mem_range.mpr hi), hval]
  exact Multiset.mem_add.mpr (.inr (Multiset.mem_singleton_self v))

theorem contents_new : contents cap (new : Buffer V) = 0 := by
  simp [contents, new]

/-! ### Contents in order -/

/-- The values between the head and the tail, oldest first. -/
def Buffer.items (cap : ℕ) (r : Buffer V) : List V :=
  (List.range (r.tail - r.head)).filterMap fun i => r.val ((r.head + i) % cap)

theorem items_eq_nil (heq : r.head = r.tail) : items cap r = [] := by
  simp [items, heq]

/-- The positions in the ring fit into one lap. -/
theorem Ok.tail_le (h : Ok cap r E D) (hcap : 2 ≤ cap) : r.tail ≤ r.head + cap := by
  obtain ⟨q, hmod, hlt, hge, -⟩ := h.serves_cases hcap r.head
  by_contra hcon
  have := eq_of_mod_eq hmod (by omega) (by omega)
  omega

/-- No cell is owned twice. -/
theorem Ok.nodup_cells (h : Ok cap r E D) (hcap : 2 ≤ cap) : ((E + D).map (· % cap)).Nodup := by
  have hdisj : Disjoint E D := Multiset.disjoint_left.mpr fun hE hD => by
    have hge := (h.writing _ hE).1
    have hlt := (h.releasing _ hD).1
    omega
  have hsucc : ∀ a ∈ E, ∀ b ∈ D, a % cap ≠ b % cap := by
    intro a ha b hb heq
    have hE := (h.writing a ha).2.2
    have hD := (h.releasing b hb).2
    rw [heq] at hE
    have hab : a = b + 1 := by omega
    exact mod_ne_succ hcap b (hab ▸ heq)
  refine (Multiset.nodup_map_iff_of_inj_on fun a ha b hb heq => ?_).mpr
    (Multiset.nodup_add.mpr ⟨h.nodupE, h.nodupD, hdisj⟩)
  -- the number of a cell tells the position it is owned for
  rcases Multiset.mem_add.mp ha with ha | ha <;> rcases Multiset.mem_add.mp hb with hb | hb
  · have hE := (h.writing a ha).2.2
    have hE' := (h.writing b hb).2.2
    rw [heq] at hE
    omega
  · exact absurd heq (hsucc a ha b hb)
  · exact absurd heq.symm (hsucc b hb a ha)
  · have hD := (h.releasing a ha).2
    have hD' := (h.releasing b hb).2
    rw [heq] at hD
    omega

/-- Claiming a free cell adds no value yet. -/
theorem items_claimTail (hle : r.head ≤ r.tail) (hval : r.val (r.tail % cap) = none) :
    items cap r.claimTail = items cap r := by
  have hsub : r.tail + 1 - r.head = r.tail - r.head + 1 := by omega
  have hlast : r.head + (r.tail - r.head) = r.tail := by omega
  simp [items, Buffer.claimTail, hsub, List.range_succ, hlast, hval]

/-- Publishing the newest position puts the value at the end. -/
theorem items_publish (hp : p + 1 = r.tail) (hle : r.head ≤ p) (htail : r.tail ≤ r.head + cap)
    (hval : r.val (p % cap) = none) (v : V) :
    items cap (r.publish cap p v) = items cap r ++ [v] := by
  have hsub : r.tail - r.head = p - r.head + 1 := by omega
  have hlast : r.head + (p - r.head) = p := by omega
  have hold : ∀ i ∈ List.range (p - r.head),
      Function.update r.val (p % cap) (some v) ((r.head + i) % cap) =
        r.val ((r.head + i) % cap) := by
    intro i hi
    have hlt := List.mem_range.mp hi
    refine Function.update_of_ne (fun heq => ?_) ..
    have := eq_of_mod_eq heq (by omega) (by omega)
    omega
  simp [items, Buffer.publish, hsub, List.range_succ, hlast, hval, List.filterMap_congr hold]

/-- Claiming the head takes the oldest value. -/
theorem items_claimHead {v : V} (hlt : r.head < r.tail) (htail : r.tail ≤ r.head + cap)
    (hval : r.val (r.head % cap) = some v) :
    items cap r = v :: items cap (r.claimHead cap) := by
  have hsub : r.tail - r.head = r.tail - (r.head + 1) + 1 := by omega
  have hold : ∀ i ∈ List.range (r.tail - (r.head + 1)), r.val ((r.head + (i + 1)) % cap) =
      Function.update r.val (r.head % cap) none ((r.head + 1 + i) % cap) := by
    intro i hi
    have hi := List.mem_range.mp hi
    rw [show r.head + (i + 1) = r.head + 1 + i by omega]
    refine (Function.update_of_ne (fun heq => ?_) ..).symm
    have := eq_of_mod_eq heq (by omega) (by omega)
    omega
  simp [items, Buffer.claimHead, hsub, List.range_succ_eq_map, hval, List.filterMap_map,
    List.filterMap_congr hold]

end MpmcRing
