import ZzLang.Ir.Machine
import Mathlib.Data.List.ReduceOption

/-!
# The swaps of a rotated loop

A rotated `for` loop is entered by a jump to its test, which stands behind the body. The pass
that undoes the rotation lets the two change places and rewrites all positions by a table. What
it does to a piece of code is said here once, position by position (`Derotated`): the test is
at the entry, a jump back is at the test, and everything else is where it was. Where a position
goes is a map that moves the tests and nothing else (`newPc`).

The table of the loops is sorted by the new positions, so each loop keeps its entry
(`Derotated.zip_perm`).
-/

namespace ZzLang

open OpaquePc

/-! ### The swaps of a function -/

/-- Where a position goes: the test of a rotated loop to its entry. -/
def newPc (swaps : List (ℕ × ℕ)) (pc : ℕ) : ℕ :=
  ((swaps.find? fun p => p.2 = pc).map Prod.fst).getD pc

/-- The entries and the tests of the rotated loops of a piece of code. -/
structure Swaps (code : List Op) (swaps : List (ℕ × ℕ)) : Prop where
  nodup : (swaps.map Prod.snd).Nodup
  test : ∀ {e c}, (e, c) ∈ swaps → ∃ vars exit body inEnv,
    code[c]? = some (.forNext vars exit body inEnv) ∧ body.toNat = e + 1
  entry : ∀ {e c}, (e, c) ∈ swaps → ∃ t : UInt32, code[e]? = some (.jump t) ∧ t.toNat = c
  lt : ∀ {e c}, (e, c) ∈ swaps → e < c

/-- No position belongs to two swaps. -/
def Apart (p q : ℕ × ℕ) : Prop := p.1 ≠ q.1 ∧ p.1 ≠ q.2 ∧ p.2 ≠ q.1 ∧ p.2 ≠ q.2

/-- A position that no swap moves. -/
def Untouched (swaps : List (ℕ × ℕ)) (pc : ℕ) : Prop := ∀ p ∈ swaps, pc ≠ p.1 ∧ pc ≠ p.2

namespace Swaps

variable {code : List Op} {swaps : List (ℕ × ℕ)} {e e' c c' : ℕ}

theorem nil : Swaps code [] where
  nodup := .nil
  test h := by cases h
  entry h := by cases h
  lt h := by cases h

theorem entry_ne_test (h : Swaps code swaps) (hp : (e, c) ∈ swaps) (hq : (e', c') ∈ swaps) :
    e ≠ c' := by
  rintro rfl
  obtain ⟨t, hjump, -⟩ := h.entry hp
  obtain ⟨vars, exit, body, inEnv, htest, -⟩ := h.test hq
  rw [hjump] at htest
  cases htest

theorem entry_unique (h : Swaps code swaps) (hp : (e, c) ∈ swaps) (hq : (e', c) ∈ swaps) :
    e = e' := by
  obtain ⟨vars, exit, body, inEnv, htest, hbody⟩ := h.test hp
  obtain ⟨vars', exit', body', inEnv', htest', hbody'⟩ := h.test hq
  rw [htest] at htest'
  cases htest'
  omega

theorem test_unique (h : Swaps code swaps) (hp : (e, c) ∈ swaps) (hq : (e, c') ∈ swaps) :
    c = c' := by
  obtain ⟨t, hjump, rfl⟩ := h.entry hp
  obtain ⟨t', hjump', rfl⟩ := h.entry hq
  rw [hjump] at hjump'
  cases hjump'
  rfl

theorem entry_lt_length (h : Swaps code swaps) (hp : (e, c) ∈ swaps) : e < code.length := by
  obtain ⟨t, hjump, -⟩ := h.entry hp
  exact (List.getElem?_eq_some_iff.mp hjump).1

/-- Positions are 32 bits wide, so those of a swap are. -/
theorem entry_small (h : Swaps code swaps) (hp : (e, c) ∈ swaps) : e + 1 < 2 ^ 32 := by
  obtain ⟨vars, exit, body, inEnv, -, hbody⟩ := h.test hp
  rw [← hbody]
  exact body.toNat_lt

theorem apart (h : Swaps code swaps) : swaps.Pairwise Apart := by
  have hpairs : swaps.Pairwise fun p q => p.2 ≠ q.2 := List.pairwise_map.mp h.nodup
  refine hpairs.imp_of_mem ?_
  rintro ⟨e, c⟩ ⟨e', c'⟩ hp hq hne
  refine ⟨?_, h.entry_ne_test hp hq, (h.entry_ne_test hq hp).symm, hne⟩
  rintro rfl
  exact hne (h.test_unique hp hq)

/-- A test goes to its entry. -/
theorem newPc_test (h : Swaps code swaps) (hp : (e, c) ∈ swaps) : newPc swaps c = e := by
  rcases hfind : swaps.find? (fun p => p.2 = c) with _ | ⟨e', c'⟩
  · simpa using List.find?_eq_none.mp hfind _ hp
  · have hmem := List.mem_of_find?_eq_some hfind
    obtain rfl : c' = c := by simpa using List.find?_some hfind
    rw [newPc, hfind]
    exact h.entry_unique hmem hp

/-- An entry stays where it is. -/
theorem newPc_entry (h : Swaps code swaps) (hp : (e, c) ∈ swaps) : newPc swaps e = e := by
  have hnone : swaps.find? (fun p => p.2 = e) = none := by
    rw [List.find?_eq_none]
    rintro ⟨e', c'⟩ hq
    simpa using (h.entry_ne_test hp hq).symm
  rw [newPc, hnone]
  rfl

end Swaps

theorem newPc_of_untouched {swaps : List (ℕ × ℕ)} {pc : ℕ} (h : ∀ p ∈ swaps, pc ≠ p.2) :
    newPc swaps pc = pc := by
  have hnone : swaps.find? (fun p => p.2 = pc) = none := by
    rw [List.find?_eq_none]
    intro p hp
    simpa using (h p hp).symm
  rw [newPc, hnone]
  rfl

/-- A position is one of a swap, or untouched. -/
theorem touched_cases (swaps : List (ℕ × ℕ)) (pc : ℕ) :
    (∃ c, (pc, c) ∈ swaps) ∨ (∃ e, (e, pc) ∈ swaps) ∨ Untouched swaps pc := by
  by_cases he : ∃ c, (pc, c) ∈ swaps
  · exact .inl he
  by_cases hc : ∃ e, (e, pc) ∈ swaps
  · exact .inr (.inl hc)
  refine .inr (.inr ?_)
  rintro ⟨e, c⟩ hp
  refine ⟨?_, ?_⟩
  · rintro rfl
    exact he ⟨c, hp⟩
  · rintro rfl
    exact hc ⟨e, hp⟩

/-! ### Finding the swaps -/

/-- What is looked for in one op. -/
theorem findSwap_spec {code : List Op} {pc : ℕ} {op : Op} {found : Option (ℕ × ℕ)}
    (h : findSwap code pc op = .ok found) :
    match found with
    | none => ∀ vars exit body inEnv, op = .forNext vars exit body inEnv → body.toNat = pc + 1
    | some (e, c) => c = pc ∧ e < c ∧
        (∃ vars exit body inEnv, op = .forNext vars exit body inEnv ∧ body.toNat = e + 1) ∧
        ∃ t : UInt32, code[e]? = some (.jump t) ∧ t.toNat = c := by
  rcases op
  case forNext vars exit body inEnv =>
    simp only [findSwap] at h
    split_ifs at h with hnext hforward
    · obtain rfl := Except.ok.inj h
      rintro vars' exit' body' inEnv' ⟨⟩
      exact hnext
    · split at h
      · cases h
      · next entry hentry =>
        split at h
        · next t hjump =>
          split_ifs at h with ht
          obtain rfl := Except.ok.inj h
          exact ⟨rfl, by omega, ⟨vars, exit, body, inEnv, rfl, hentry⟩, t, hjump, ht⟩
        · cases h
  all_goals
    obtain rfl := Except.ok.inj h
    rintro vars' exit' body' inEnv' ⟨⟩

/-- Positions that are found in their order differ. -/
theorem reduceOption_sublist {l : List (Op × ℕ)} {found : List (Option (ℕ × ℕ))}
    (h : List.Forall₂ (fun x y => ∀ p ∈ y, p.2 = x.2) l found) :
    (found.reduceOption.map Prod.snd).Sublist (l.map Prod.snd) := by
  induction h with
  | nil => exact .slnil
  | @cons x y l found hxy _ ih =>
    rcases y with _ | p
    · simpa using ih.cons x.2
    · have hp : p.2 = x.2 := hxy p rfl
      simpa [hp] using ih.cons_cons x.2

theorem swaps_of_findSwaps {code : List Op} {swaps : List (ℕ × ℕ)}
    (h : findSwaps code = .ok swaps) : Swaps code swaps := by
  obtain ⟨found, hfound, h⟩ := of_bind_ok h
  obtain rfl := Except.ok.inj h
  have hall := forall₂_of_mapM hfound
  have hspec : ∀ {e c}, (e, c) ∈ found.reduceOption → ∃ op, code[c]? = some op ∧
      findSwap code c op = .ok (some (e, c)) := by
    intro e c hp
    obtain ⟨i, hi⟩ := List.mem_iff_getElem?.mp (List.reduceOption_mem_iff.mp hp)
    have hrel := forall₂_getElem? hall i
    rw [hi, List.getElem?_zipIdx] at hrel
    generalize hop : code[i]? = x at hrel
    rcases x with _ | op
    · cases hrel
    · have hfind : findSwap code (0 + i) op = .ok (some (e, c)) := by
        rcases hrel with ⟨hrel⟩
        exact hrel
      obtain ⟨rfl, -⟩ := findSwap_spec hfind
      exact ⟨op, by rwa [Nat.zero_add], by rwa [Nat.zero_add] at hfind ⊢⟩
  constructor
  · have hsub := reduceOption_sublist (hall.imp ?_)
    · rw [List.zipIdx_map_snd] at hsub
      exact (List.nodup_range' 1).sublist hsub
    · rintro ⟨op, pc⟩ y hy ⟨e, c⟩ rfl
      exact (findSwap_spec hy).1
  · intro e c hp
    obtain ⟨op, hop, hfind⟩ := hspec hp
    obtain ⟨-, -, ⟨vars, exit, body, inEnv, rfl, hbody⟩, -⟩ := findSwap_spec hfind
    exact ⟨vars, exit, body, inEnv, hop, hbody⟩
  · intro e c hp
    obtain ⟨op, -, hfind⟩ := hspec hp
    exact (findSwap_spec hfind).2.2.2
  · intro e c hp
    obtain ⟨op, -, hfind⟩ := hspec hp
    exact (findSwap_spec hfind).2.1

/-- A loop that is not swapped falls through. -/
theorem mem_or_fallsThrough {code : List Op} {swaps : List (ℕ × ℕ)}
    (h : findSwaps code = .ok swaps) {pc : ℕ} {vars : List StrId} {exit body : UInt32}
    {inEnv : Bool} (hop : code[pc]? = some (.forNext vars exit body inEnv)) :
    (∃ e, (e, pc) ∈ swaps) ∨ body.toNat = pc + 1 := by
  obtain ⟨found, hfound, h⟩ := of_bind_ok h
  obtain rfl := Except.ok.inj h
  have hrel := forall₂_getElem? (forall₂_of_mapM hfound) pc
  rw [List.getElem?_zipIdx, hop] at hrel
  generalize hy : found[pc]? = y at hrel
  rcases y with _ | (_ | ⟨e, c⟩)
  · cases hrel
  · rcases hrel with ⟨hrel⟩
    exact .inr (by simpa using findSwap_spec hrel vars exit body inEnv rfl)
  · rcases hrel with ⟨hrel⟩
    obtain ⟨rfl, -⟩ := findSwap_spec hrel
    refine .inl ⟨e, List.reduceOption_mem_iff.mpr (List.mem_iff_getElem?.mpr ⟨pc, ?_⟩)⟩
    simpa using hy

/-- A loop that falls through is not swapped. -/
theorem Swaps.untouched_of_fallsThrough {code : List Op} {swaps : List (ℕ × ℕ)}
    (h : Swaps code swaps) {pc : ℕ} {vars : List StrId} {exit body : UInt32} {inEnv : Bool}
    (hop : code[pc]? = some (.forNext vars exit body inEnv)) (hbody : body.toNat = pc + 1) :
    Untouched swaps pc := by
  rintro ⟨e, c⟩ hp
  constructor
  · rintro rfl
    obtain ⟨t, hjump, -⟩ := h.entry hp
    rw [hop] at hjump
    cases hjump
  · rintro rfl
    obtain ⟨vars', exit', body', inEnv', htest, hbody'⟩ := h.test hp
    have hlt := h.lt hp
    rw [hop] at htest
    cases htest
    omega

/-! ### The swapped code -/

theorem swapOps_of_untouched {swaps : List (ℕ × ℕ)} {pc : ℕ} (h : Untouched swaps pc)
    (code : List Op) : (swapOps code swaps)[pc]? = code[pc]? := by
  induction swaps generalizing code with
  | nil => rfl
  | cons p swaps ih =>
    obtain ⟨e, c⟩ := p
    have hp := h (e, c) (by simp)
    have ih := ih fun q hq => h q (by simp [hq])
    rw [swapOps, List.foldl_cons]
    rcases htest : code[c]? with _ | test
    · simp only [htest]
      exact ih code
    · simp only [htest]
      refine (ih _).trans ?_
      rw [List.getElem?_set_ne hp.1.symm, List.getElem?_set_ne hp.2.symm]

/-- What stands at the two ends of a swap. -/
theorem swapOps_of_mem {swaps : List (ℕ × ℕ)} (hapart : swaps.Pairwise Apart) {e c : ℕ}
    (hp : (e, c) ∈ swaps) (hne : e ≠ c) {code : List Op} (he : e < code.length) {test : Op}
    (htest : code[c]? = some test) :
    (swapOps code swaps)[e]? = some test ∧
      (swapOps code swaps)[c]? = some (.jump (UInt32.ofNat e)) := by
  induction swaps generalizing code with
  | nil => cases hp
  | cons p swaps ih =>
    obtain ⟨e', c'⟩ := p
    obtain ⟨hfirst, hapart⟩ := List.pairwise_cons.mp hapart
    rcases List.mem_cons.mp hp with heq | hp
    · obtain ⟨rfl, rfl⟩ := Prod.mk.inj heq
      have hc := (List.getElem?_eq_some_iff.mp htest).1
      rw [swapOps, List.foldl_cons]
      simp only [htest]
      constructor
      · refine (swapOps_of_untouched (fun q hq => ?_) _).trans ?_
        · exact ⟨(hfirst q hq).1, (hfirst q hq).2.1⟩
        · rw [List.getElem?_set_self (by simpa using he)]
      · refine (swapOps_of_untouched (fun q hq => ?_) _).trans ?_
        · exact ⟨(hfirst q hq).2.2.1, (hfirst q hq).2.2.2⟩
        · rw [List.getElem?_set_ne hne, List.getElem?_set_self (by simpa using hc)]
    · obtain ⟨hee, hec, hce, hcc⟩ := hfirst _ hp
      rw [swapOps, List.foldl_cons]
      rcases htest' : code[c']? with _ | test'
      · simp only [htest']
        exact ih hapart hp he htest
      · simp only [htest']
        refine ih hapart hp (by simpa using he) ?_
        rw [List.getElem?_set_ne hec, List.getElem?_set_ne hcc, htest]

/-! ### The table of positions -/

theorem foldl_set_length (swaps : List (ℕ × ℕ)) (map : List UInt32) :
    (swaps.foldl (fun map p => map.set p.2 (UInt32.ofNat p.1)) map).length = map.length := by
  induction swaps generalizing map with
  | nil => rfl
  | cons p swaps ih => rw [List.foldl_cons, ih, List.length_set]

theorem foldl_set_of_untouched {swaps : List (ℕ × ℕ)} {pc : ℕ} (h : ∀ p ∈ swaps, pc ≠ p.2)
    (map : List UInt32) :
    (swaps.foldl (fun map p => map.set p.2 (UInt32.ofNat p.1)) map)[pc]? = map[pc]? := by
  induction swaps generalizing map with
  | nil => rfl
  | cons p swaps ih =>
    rw [List.foldl_cons, ih fun q hq => h q (by simp [hq]),
      List.getElem?_set_ne (h p (by simp)).symm]

theorem foldl_set_of_mem {swaps : List (ℕ × ℕ)} (hnodup : (swaps.map Prod.snd).Nodup) {e c : ℕ}
    (hp : (e, c) ∈ swaps) (map : List UInt32) (hc : c < map.length) :
    (swaps.foldl (fun map p => map.set p.2 (UInt32.ofNat p.1)) map)[c]? =
      some (UInt32.ofNat e) := by
  induction swaps generalizing map with
  | nil => cases hp
  | cons p swaps ih =>
    obtain ⟨hfirst, hnodup⟩ := List.nodup_cons.mp hnodup
    rw [List.foldl_cons]
    rcases List.mem_cons.mp hp with rfl | hp
    · rw [foldl_set_of_untouched, List.getElem?_set_self hc]
      rintro q hq rfl
      exact hfirst (List.mem_map.mpr ⟨q, hq, rfl⟩)
    · exact ih hnodup hp _ (by simpa using hc)

/-- The table holds the new positions. -/
theorem Swaps.swapMap_getElem? {code : List Op} {swaps : List (ℕ × ℕ)} (h : Swaps code swaps)
    {n i : ℕ} {t : UInt32} (ht : (swapMap n swaps)[i]? = some t) : t.toNat = newPc swaps i := by
  have hlt : i < n % 2 ^ 32 + 1 := by
    simpa [swapMap, foldl_set_length] using (List.getElem?_eq_some_iff.mp ht).1
  by_cases htest : ∃ e, (e, i) ∈ swaps
  · obtain ⟨e, hp⟩ := htest
    have hmem := foldl_set_of_mem h.nodup hp ((List.range (n % 2 ^ 32 + 1)).map UInt32.ofNat)
      (by simpa using hlt)
    obtain rfl : UInt32.ofNat e = t := Option.some.inj (hmem.symm.trans ht)
    have hsmall := h.entry_small hp
    rw [h.newPc_test hp, UInt32.toNat_ofNat_of_lt' (by simp [UInt32.size]; omega)]
  · have hne : ∀ p ∈ swaps, i ≠ p.2 := by
      rintro ⟨e, c⟩ hp rfl
      exact htest ⟨e, hp⟩
    have hsame := foldl_set_of_untouched hne ((List.range (n % 2 ^ 32 + 1)).map UInt32.ofNat)
    rw [List.getElem?_map, List.getElem?_range hlt] at hsame
    obtain rfl : UInt32.ofNat i = t := Option.some.inj (hsame.symm.trans ht)
    rw [newPc_of_untouched hne, UInt32.toNat_ofNat_of_lt' (by simp [UInt32.size]; omega)]

/-! ### The rewritten code -/

theorem fixBody_of_ne {e pc : ℕ} (h : pc ≠ e) (code : List Op) :
    (fixBody code e)[pc]? = code[pc]? := by
  rw [fixBody]
  split
  · rw [List.getElem?_set_ne h.symm]
  · rfl

theorem fixBody_self {e : ℕ} {code : List Op} {vars : List StrId} {exit body : UInt32}
    {inEnv : Bool} (h : code[e]? = some (.forNext vars exit body inEnv)) :
    (fixBody code e)[e]? = some (.forNext vars exit (UInt32.ofNat (e + 1)) inEnv) := by
  have he := (List.getElem?_eq_some_iff.mp h).1
  rw [fixBody, h]
  exact List.getElem?_set_self he

theorem foldl_fixBody_of_not_mem {entries : List ℕ} {pc : ℕ} (h : pc ∉ entries)
    (code : List Op) : (entries.foldl fixBody code)[pc]? = code[pc]? := by
  induction entries generalizing code with
  | nil => rfl
  | cons e entries ih =>
    rw [List.mem_cons, not_or] at h
    obtain ⟨hne, hnot⟩ := h
    rw [List.foldl_cons, ih hnot, fixBody_of_ne hne]

theorem foldl_fixBody_of_mem {entries : List ℕ} {e : ℕ} (h : e ∈ entries) {code : List Op}
    {vars : List StrId} {exit body : UInt32} {inEnv : Bool}
    (hop : code[e]? = some (.forNext vars exit body inEnv)) :
    (entries.foldl fixBody code)[e]? =
      some (.forNext vars exit (UInt32.ofNat (e + 1)) inEnv) := by
  induction entries generalizing code body with
  | nil => cases h
  | cons e' entries ih =>
    rw [List.foldl_cons]
    by_cases hrest : e ∈ entries
    · by_cases heq : e = e'
      · subst heq
        exact ih hrest (fixBody_self hop)
      · exact ih hrest ((fixBody_of_ne heq code).trans hop)
    · obtain rfl : e = e' := (List.mem_cons.mp h).resolve_right hrest
      rw [foldl_fixBody_of_not_mem hrest, fixBody_self hop]

/-- The same op with its positions moved. -/
def Op.Renewed (swaps : List (ℕ × ℕ)) : Op → Op → Prop :=
  Op.Rewired fun t t' => t' = newPc swaps t

/-- A piece of code with its tests and entries swapped. -/
structure Derotated (code code' : List Op) (swaps : List (ℕ × ℕ)) : Prop where
  paired : Swaps code swaps
  entry : ∀ {e c vars exit body inEnv}, (e, c) ∈ swaps →
    code[c]? = some (.forNext vars exit body inEnv) → ∃ exit' : UInt32,
      exit'.toNat = newPc swaps exit.toNat ∧
        code'[e]? = some (.forNext vars exit' (UInt32.ofNat (e + 1)) inEnv)
  test : ∀ {e c}, (e, c) ∈ swaps → code'[c]? = some (.jump (UInt32.ofNat e))
  other : ∀ {pc}, Untouched swaps pc →
    Option.Rel (Op.Renewed swaps) code[pc]? code'[pc]?

theorem Derotated.refl (code : List Op) : Derotated code code [] where
  paired := .nil
  entry h := by cases h
  test h := by cases h
  other {pc} _ := by
    rcases code[pc]? with _ | op
    · exact .none
    · exact .some (Op.rewired_refl (P := fun t t' => t' = newPc [] t) (fun _ => rfl) op)

theorem Swaps.derotated {code moved : List Op} {swaps : List (ℕ × ℕ)} (h : Swaps code swaps)
    {n : ℕ}
    (hmoved : (swapOps code swaps).mapM (Op.retargetInPlace (swapMap n swaps)) = .ok moved) :
    Derotated code ((swaps.map Prod.fst).foldl fixBody moved) swaps := by
  have hlookup : ∀ t t',
      lookupPc (swapMap n swaps) "derotate: jump target out of range" t = .ok t' →
        t'.toNat = newPc swaps t.toNat := by
    intro t t' ht
    rw [lookupPc] at ht
    split at ht
    · next u hu =>
      obtain rfl := Except.ok.inj ht
      exact h.swapMap_getElem? hu
    · cases ht
  have hall := fun i => forall₂_getElem? (forall₂_of_mapM hmoved) i
  have hat : ∀ {pc : ℕ} {op : Op}, (swapOps code swaps)[pc]? = some op →
      ∃ op' : Op, moved[pc]? = some op' ∧ Op.retargetInPlace (swapMap n swaps) op = .ok op' := by
    intro pc op hop
    have hrel := hall pc
    rw [hop] at hrel
    generalize moved[pc]? = x at hrel
    rcases hrel with ⟨hrel⟩
    exact ⟨_, rfl, hrel⟩
  have hends : ∀ {e c vars exit body inEnv}, (e, c) ∈ swaps →
      code[c]? = some (.forNext vars exit body inEnv) →
      (swapOps code swaps)[e]? = some (.forNext vars exit body inEnv) ∧
        (swapOps code swaps)[c]? = some (.jump (UInt32.ofNat e)) := fun hp htest =>
    swapOps_of_mem h.apart hp (h.lt hp).ne (h.entry_lt_length hp) htest
  refine ⟨h, ?_, ?_, ?_⟩
  · intro e c vars exit body inEnv hp htest
    obtain ⟨op', hop', hret⟩ := hat (hends hp htest).1
    obtain ⟨exit', hexit, hret⟩ := of_bind_ok hret
    obtain ⟨body', -, hret⟩ := of_bind_ok hret
    obtain rfl := Except.ok.inj hret
    exact ⟨exit', hlookup _ _ hexit, foldl_fixBody_of_mem (List.mem_map_of_mem hp) hop'⟩
  · intro e c hp
    obtain ⟨vars, exit, body, inEnv, htest, -⟩ := h.test hp
    obtain ⟨op', hop', hret⟩ := hat (hends hp htest).2
    obtain ⟨t, ht, hret⟩ := of_bind_ok hret
    obtain rfl := Except.ok.inj hret
    have hsmall := h.entry_small hp
    have hsame : (UInt32.ofNat e).toNat = e :=
      UInt32.toNat_ofNat_of_lt' (by simp [UInt32.size]; omega)
    have ht := hlookup _ _ ht
    rw [hsame, h.newPc_entry hp] at ht
    have hnot : c ∉ swaps.map Prod.fst := by
      intro hmem
      obtain ⟨⟨c', d⟩, hq, rfl⟩ := List.mem_map.mp hmem
      exact h.entry_ne_test hq hp rfl
    rw [foldl_fixBody_of_not_mem hnot, hop']
    exact congrArg (some ∘ Op.jump) (UInt32.toNat_inj.mp (ht.trans hsame.symm))
  · intro pc hpc
    have hnot : pc ∉ swaps.map Prod.fst := by
      intro hmem
      obtain ⟨p, hp, rfl⟩ := List.mem_map.mp hmem
      exact (hpc p hp).1 rfl
    have hrel := hall pc
    rw [swapOps_of_untouched hpc] at hrel
    rw [foldl_fixBody_of_not_mem hnot]
    generalize code[pc]? = x, moved[pc]? = y at hrel
    rcases hrel with ⟨hrel⟩ | _
    · exact .some (Op.rewired_of_retarget hlookup hlookup hrel)
    · exact .none

/-! ### The loops and their table -/

theorem mem_forNextPcs {code : List Op} {pc : ℕ} :
    pc ∈ forNextPcs code ↔ ∃ op, code[pc]? = some op ∧ op.isForNext = true := by
  simp [forNextPcs, List.mem_zipIdx_iff_getElem?]

/-- The loops come in the order of their positions. -/
theorem forNextPcs_pairwise (code : List Op) : (forNextPcs code).Pairwise (· < ·) := by
  have hsub : (forNextPcs code).Sublist (code.zipIdx.map Prod.snd) := List.filter_sublist.map _
  rw [List.zipIdx_map_snd] at hsub
  exact (List.pairwise_lt_range' 1).sublist hsub

theorem Op.isForNext_of_shape {op op' : Op} (h : op'.shape = op.shape) :
    op'.isForNext = op.isForNext := by
  have hshape : ∀ op : Op, op.shape.isForNext = op.isForNext := by
    rintro ⟨⟩ <;> rfl
  rw [← hshape op', h, hshape]

namespace Derotated

variable {code code' : List Op} {swaps : List (ℕ × ℕ)}

/-- The loops of the result are those of the source. -/
theorem mem_forNextPcs (h : Derotated code code' swaps) {pc : ℕ} :
    pc ∈ forNextPcs code' ↔ pc ∈ (forNextPcs code).map (newPc swaps) := by
  rw [List.mem_map, ZzLang.mem_forNextPcs]
  constructor
  · rintro ⟨op', hop', hfor⟩
    rcases touched_cases swaps pc with ⟨c, hp⟩ | ⟨e, hp⟩ | hpc
    · obtain ⟨vars, exit, body, inEnv, htest, -⟩ := h.paired.test hp
      exact ⟨c, ZzLang.mem_forNextPcs.mpr ⟨_, htest, rfl⟩, h.paired.newPc_test hp⟩
    · rw [h.test hp] at hop'
      obtain rfl := Option.some.inj hop'
      cases hfor
    · have hrel := h.other hpc
      rw [hop'] at hrel
      generalize hop : code[pc]? = x at hrel
      rcases hrel with ⟨hrel⟩
      refine ⟨pc, ZzLang.mem_forNextPcs.mpr ⟨_, hop, ?_⟩, ?_⟩
      on_goal 2 => exact newPc_of_untouched fun p hp => (hpc p hp).2
      rwa [← Op.isForNext_of_shape hrel.1]
  · rintro ⟨pc, hpc, rfl⟩
    obtain ⟨op, hop, hfor⟩ := ZzLang.mem_forNextPcs.mp hpc
    rcases touched_cases swaps pc with ⟨c, hp⟩ | ⟨e, hp⟩ | hpc
    · obtain ⟨t, hjump, -⟩ := h.paired.entry hp
      rw [hjump] at hop
      obtain rfl := Option.some.inj hop
      cases hfor
    · obtain ⟨vars, exit, body, inEnv, htest, -⟩ := h.paired.test hp
      obtain ⟨exit', -, hentry⟩ := h.entry hp htest
      rw [h.paired.newPc_test hp]
      exact ⟨_, hentry, rfl⟩
    · have hrel := h.other hpc
      rw [hop] at hrel
      rw [newPc_of_untouched fun p hp => (hpc p hp).2]
      generalize code'[pc]? = x at hrel
      rcases hrel with ⟨hrel⟩
      exact ⟨_, rfl, by rw [Op.isForNext_of_shape hrel.1, hfor]⟩

/-- Two loops do not go to the same place. -/
theorem newPc_injOn (h : Derotated code code' swaps) :
    ∀ pc ∈ forNextPcs code, ∀ pc₁ ∈ forNextPcs code,
      newPc swaps pc = newPc swaps pc₁ → pc = pc₁ := by
  have hcases : ∀ pc ∈ forNextPcs code, (∃ e, (e, pc) ∈ swaps) ∨ Untouched swaps pc := by
    intro pc hpc
    rcases touched_cases swaps pc with ⟨c, hp⟩ | hpc
    · obtain ⟨op, hop, hfor⟩ := ZzLang.mem_forNextPcs.mp hpc
      obtain ⟨t, hjump, -⟩ := h.paired.entry hp
      rw [hjump] at hop
      obtain rfl := Option.some.inj hop
      cases hfor
    · exact hpc
  have hsame : ∀ {pc}, Untouched swaps pc → newPc swaps pc = pc := fun hpc =>
    newPc_of_untouched fun p hp => (hpc p hp).2
  intro pc hpc pc₁ hpc₁ heq
  rcases hcases pc hpc with ⟨e, hp⟩ | hpc <;> rcases hcases pc₁ hpc₁ with ⟨e₁, hp₁⟩ | hpc₁
  · rw [h.paired.newPc_test hp, h.paired.newPc_test hp₁] at heq
    subst heq
    exact h.paired.test_unique hp hp₁
  · rw [h.paired.newPc_test hp, hsame hpc₁] at heq
    exact absurd heq.symm (hpc₁ _ hp).1
  · rw [h.paired.newPc_test hp₁, hsame hpc] at heq
    exact absurd heq (hpc _ hp₁).1
  · rwa [hsame hpc, hsame hpc₁] at heq

theorem forNextPcs_perm (h : Derotated code code' swaps) :
    (forNextPcs code').Perm ((forNextPcs code).map (newPc swaps)) := by
  have hnodup : ∀ code, (forNextPcs code).Nodup := fun code =>
    (forNextPcs_pairwise code).imp fun hlt => hlt.ne
  rw [List.perm_ext_iff_of_nodup (hnodup code') ((hnodup code).map_on h.newPc_injOn)]
  exact fun pc => h.mem_forNextPcs

/-- The entries of the table follow the loops. -/
theorem zip_perm {α : Type} (h : Derotated code code' swaps) {map : List UInt32} {vartab : List α}
    (hkeys : ∀ pc ∈ forNextPcs code, (map.getD pc 0).toNat = newPc swaps pc)
    (hlen : vartab.length = (forNextPcs code).length) :
    ((forNextPcs code').zip (reorderVartab map (forNextPcs code) vartab)).Perm
      (((forNextPcs code).map (newPc swaps)).zip vartab) := by
  rw [reorderVartab, List.map_congr_left hkeys]
  have hkeysPerm : (forNextPcs code').Perm ((forNextPcs code).map (newPc swaps)) :=
    h.forNextPcs_perm
  have hlen' : ((forNextPcs code).map (newPc swaps)).length ≤ vartab.length := by simp [hlen]
  generalize (forNextPcs code).map (newPc swaps) = keys at hkeysPerm hlen' ⊢
  have hperm := List.perm_insertionSort (fun a b : ℕ × α => a.1 ≤ b.1) (keys.zip vartab)
  have hsorted := List.pairwise_insertionSort (fun a b : ℕ × α => a.1 ≤ b.1) (keys.zip vartab)
  generalize List.insertionSort (fun a b : ℕ × α => a.1 ≤ b.1) (keys.zip vartab) = sorted
    at hperm hsorted ⊢
  -- both lists of positions are sorted
  have hfst : forNextPcs code' = sorted.map Prod.fst := by
    refine List.Perm.eq_of_pairwise' (r := (· ≤ ·)) ((forNextPcs_pairwise code').imp le_of_lt)
      (List.pairwise_map.mpr hsorted) ?_
    refine hkeysPerm.trans ?_
    rw [← List.map_fst_zip hlen']
    exact (hperm.map Prod.fst).symm
  have hzip : sorted = (sorted.map Prod.fst).zip (sorted.map Prod.snd) := List.zip_of_prod rfl rfl
  rw [hfst, ← hzip]
  exact hperm

end Derotated

/-! ### The pass on functions and modules -/

/-- The rotated loops of a function; none if the pass refuses it. -/
def FuncDef.swaps (f : FuncDef) : List (ℕ × ℕ) :=
  match findSwaps f.code with
  | .ok swaps => swaps
  | .error _ => []

/-- A function with its loops undone: the code, and the table of the loops. -/
structure FuncDef.DerotatesTo (f f' : FuncDef) : Prop where
  code : Derotated f.code f'.code f.swaps
  table : ((forNextPcs f'.code).zip f'.vartab).Perm
    (((forNextPcs f.code).map (newPc f.swaps)).zip f.vartab)

theorem newPc_nil : newPc [] = id := rfl

theorem FuncDef.derotatesTo_self {f : FuncDef} (h : f.swaps = []) : f.DerotatesTo f where
  code := by
    rw [h]
    exact .refl f.code
  table := by rw [h, newPc_nil, List.map_id]

theorem length_swapMap (n : ℕ) (swaps : List (ℕ × ℕ)) :
    (swapMap n swaps).length = n % 2 ^ 32 + 1 := by
  simp [swapMap, foldl_set_length]

/-- The table of positions knows all loops of a function that is rewritten. -/
theorem Swaps.swapMap_forNext {code moved : List Op} {swaps : List (ℕ × ℕ)}
    (h : findSwaps code = .ok swaps) {n : ℕ}
    (hmoved : (swapOps code swaps).mapM (Op.retargetInPlace (swapMap n swaps)) = .ok moved)
    (htests : ∀ p ∈ swaps, p.2 ≤ n % 2 ^ 32) {pc : ℕ} (hpc : pc ∈ forNextPcs code) :
    ((swapMap n swaps).getD pc 0).toNat = newPc swaps pc := by
  have hpaired := swaps_of_findSwaps h
  have hlt : pc < (swapMap n swaps).length := by
    obtain ⟨op, hop, hfor⟩ := mem_forNextPcs.mp hpc
    rcases op
    case forNext vars exit body inEnv =>
      rcases mem_or_fallsThrough h hop with ⟨e, hp⟩ | hbody
      · rw [length_swapMap]
        have := htests _ hp
        omega
      · -- the body of the loop has been looked up
        have huntouched := hpaired.untouched_of_fallsThrough hop hbody
        have hrel := forall₂_getElem? (forall₂_of_mapM hmoved) pc
        rw [swapOps_of_untouched huntouched, hop] at hrel
        generalize moved[pc]? = x at hrel
        rcases hrel with ⟨hret⟩
        obtain ⟨exit', -, hret⟩ := of_bind_ok hret
        obtain ⟨body', hlookup, -⟩ := of_bind_ok hret
        rw [lookupPc, hbody] at hlookup
        split at hlookup
        · next u hu => exact Nat.lt_of_succ_lt (List.getElem?_eq_some_iff.mp hu).1
        · cases hlookup
    all_goals cases hfor
  obtain ⟨t, ht⟩ : ∃ t, (swapMap n swaps)[pc]? = some t := ⟨_, List.getElem?_eq_getElem hlt⟩
  rw [List.getD_eq_getElem?_getD, ht]
  exact hpaired.swapMap_getElem? ht

theorem derotateFunc_spec {f f' : FuncDef} (h : derotateFunc f = .ok f') :
    findSwaps f.code = .ok f.swaps ∧ f.DerotatesTo f' := by
  obtain ⟨swaps, hswaps, h⟩ := of_bind_ok h
  have hself : f.swaps = swaps := by rw [FuncDef.swaps, hswaps]
  subst hself
  refine ⟨hswaps, ?_⟩
  by_cases hempty : f.swaps.isEmpty
  · rw [if_pos hempty] at h
    obtain rfl := Except.ok.inj h
    exact f.derotatesTo_self (List.isEmpty_iff.mp hempty)
  · rw [if_neg hempty] at h
    dsimp only at h
    by_cases hlen : f.vartab.length = (forNextPcs f.code).length
    · rw [if_neg (not_not.mpr hlen)] at h
      split at h
      · cases h
      · next hpanic =>
        obtain ⟨moved, hmoved, h⟩ := of_bind_ok h
        obtain rfl := Except.ok.inj h
        have hcode := (swaps_of_findSwaps hswaps).derotated hmoved
        have htests : ∀ p ∈ f.swaps, p.2 ≤ f.code.length % 2 ^ 32 := by
          intro p hp
          by_contra hlt
          exact hpanic (List.any_eq_true.mpr ⟨p, hp, by simpa using hlt⟩)
        exact ⟨hcode, hcode.zip_perm
          (fun pc hpc => Swaps.swapMap_forNext hswaps hmoved htests hpc) hlen⟩
    · rw [if_pos hlen] at h
      cases h

theorem Op.isRotatedAt_of_swap {f : FuncDef} {e c : ℕ} (h : Swaps f.code f.swaps)
    (hp : (e, c) ∈ f.swaps) : ∃ op, f.code[c]? = some op ∧ op.isRotatedAt c = true := by
  obtain ⟨vars, exit, body, inEnv, htest, hbody⟩ := h.test hp
  have hlt := h.lt hp
  exact ⟨_, htest, by simp [Op.isRotatedAt, hbody]; omega⟩

/-- A function without rotated loops has no swaps. -/
theorem FuncDef.swaps_eq_nil {f : FuncDef}
    (h : f.code.zipIdx.any (fun p => p.1.isRotatedAt p.2) = false) : f.swaps = [] := by
  rw [FuncDef.swaps]
  rcases hfind : findSwaps f.code with e | swaps
  · rfl
  · have hself : f.swaps = swaps := by rw [FuncDef.swaps, hfind]
    have hpaired : Swaps f.code f.swaps := hself ▸ swaps_of_findSwaps hfind
    rw [List.eq_nil_iff_forall_not_mem]
    rintro ⟨e, c⟩ hp
    obtain ⟨op, hop, hrotated⟩ := Op.isRotatedAt_of_swap hpaired (hself ▸ hp)
    have hmem : (op, c) ∈ f.code.zipIdx := List.mem_zipIdx_iff_getElem?.mpr hop
    exact absurd hrotated (List.any_eq_false.mp h _ hmem)

/-- What the pass does with a module. -/
theorem derotateLoops_spec {m m' : Module} (h : derotateLoops m = .ok m') :
    m' = { m with funcs := m'.funcs } ∧ List.Forall₂ FuncDef.DerotatesTo m.funcs m'.funcs := by
  rw [derotateLoops] at h
  split_ifs at h with hrotated
  · obtain ⟨funcs, hfuncs, h⟩ := of_bind_ok h
    obtain rfl := Except.ok.inj h
    exact ⟨rfl, (forall₂_of_mapM hfuncs).imp fun f f' hf => (derotateFunc_spec hf).2⟩
  · obtain rfl := Except.ok.inj h
    refine ⟨rfl, List.forall₂_same.mpr fun f hf => FuncDef.derotatesTo_self ?_⟩
    exact FuncDef.swaps_eq_nil (Bool.eq_false_iff.mpr fun hany =>
      hrotated (List.any_eq_true.mpr ⟨f, hf, hany⟩))

end ZzLang
