import Mathlib.Data.List.Count
import Mathlib.Data.List.GetD
import Mathlib.Data.Nat.Find

/-!
# Linear probing

A table of slots finds an item by its hash: the search starts at the slot the hash names, and goes
from slot to slot around the table until it meets the item or an empty slot. A slot holds zero when
it is empty, and otherwise one more than the number of an item. Items are numbered in the order in
which they came, and not all of them need be in the table: `home` gives the hash of those that are.

What makes the search right is that no empty slot lies between the home of an item and the slot it
is in (`Linked.reached`), and what makes it end is that there is an empty slot at all. The first is
kept by `Linked.place`, which puts a new item into the empty slot its own search ends at; the second
is a matter of counting (`Linked.zero_mem`).
-/

namespace LinearProbing

/-! ### The search -/

/-- The search goes no further than this slot: it is empty, or it holds what is looked for. -/
def stops (slots : List ℕ) (hit : ℕ → Bool) (p : ℕ) : Bool :=
  match slots.getD p 0 with
  | 0 => true
  | v + 1 => hit v

/-- The slot at which a search from `p` stops, if it does so within the given number of slots. -/
def probe (next : ℕ → ℕ) (slots : List ℕ) (hit : ℕ → Bool) : ℕ → ℕ → Option ℕ
  | 0, _ => none
  | n + 1, p => if stops slots hit p then some p else probe next slots hit n (next p)

variable {slots : List ℕ} {hit : ℕ → Bool} {h n : ℕ}

/-- The slot some steps after the home of a hash, around the table. -/
def place (slots : List ℕ) (h i : ℕ) : ℕ :=
  (h + i) % slots.length

theorem place_lt (hpos : 0 < slots.length) (h i : ℕ) : place slots h i < slots.length :=
  Nat.mod_lt _ hpos

theorem place_succ (h i : ℕ) : (place slots h i + 1) % slots.length = place slots h (i + 1) := by
  rw [place, place, Nat.mod_add_mod, Nat.add_assoc]

/-- Every slot is on the way around the table. -/
theorem exists_place {p : ℕ} (hp : p < slots.length) (h : ℕ) :
    ∃ i < slots.length, place slots h i = p := by
  have hpos : 0 < slots.length := Nat.zero_lt_of_lt hp
  have hmod := Nat.mod_lt h hpos
  refine ⟨(p + (slots.length - h % slots.length)) % slots.length, Nat.mod_lt _ hpos, ?_⟩
  rw [place, Nat.add_mod_mod, ← Nat.mod_add_mod,
    show h % slots.length + (p + (slots.length - h % slots.length)) = p + slots.length by omega,
    Nat.add_mod_right, Nat.mod_eq_of_lt hp]

/-- A search that meets a slot to stop at stops at the first. -/
theorem probe_of_first {i k fuel : ℕ} (hki : k ≤ i) (hfuel : i - k < fuel)
    (hstop : stops slots hit (place slots h i) = true)
    (hfirst : ∀ j, k ≤ j → j < i → stops slots hit (place slots h j) = false) :
    probe (fun p => (p + 1) % slots.length) slots hit fuel (place slots h k) =
      some (place slots h i) := by
  induction fuel generalizing k with
  | zero => exact absurd hfuel (Nat.not_lt_zero _)
  | succ fuel ih =>
    rw [probe]
    obtain rfl | hlt := Nat.eq_or_lt_of_le hki
    · rw [if_pos hstop]
    · rw [hfirst k le_rfl hlt, if_neg Bool.false_ne_true, place_succ]
      exact ih hlt (by omega) fun j hj => hfirst j (Nat.le_of_succ_le hj)

/-! ### Tables -/

/-- **A table of the first `n` items**: its slots name items that have a home, each such item is in
a slot with no empty slot between it and its home, and as many slots are filled as there are such
items. -/
structure Linked (home : ℕ → Option ℕ) (slots : List ℕ) (n : ℕ) : Prop where
  entry : ∀ v, v + 1 ∈ slots → v < n ∧ (home v).isSome = true
  reached : ∀ v < n, ∀ h, home v = some h → ∃ i < slots.length,
    slots.getD (place slots h i) 0 = v + 1 ∧ ∀ j < i, slots.getD (place slots h j) 0 ≠ 0
  filled : slots.countP (· ≠ 0) = (List.range n).countP fun v => (home v).isSome

variable {home home' : ℕ → Option ℕ}

theorem mem_of_getD {p v : ℕ} (h : slots.getD p 0 = v + 1) : v + 1 ∈ slots := by
  rw [List.getD_eq_getElem?_getD] at h
  rcases hp : slots[p]? with _ | w
  · rw [hp] at h
    cases h
  · rw [hp] at h
    obtain rfl : w = v + 1 := h
    exact List.mem_of_getElem? hp

/-- A table with fewer items than slots has an empty slot. -/
theorem Linked.zero_mem (L : Linked home slots n)
    (hroom : ((List.range n).countP fun v => (home v).isSome) < slots.length) : 0 ∈ slots := by
  rw [← L.filled] at hroom
  obtain ⟨w, hw, hzero⟩ := List.countP_lt_length_iff.mp hroom
  have : w = 0 := by simpa using hzero
  exact this ▸ hw

/-- Homes matter for the items of the table only. -/
theorem Linked.congr (L : Linked home slots n) (hhome : ∀ v < n, home' v = home v) :
    Linked home' slots n where
  entry v hv := by
    obtain ⟨hlt, hsome⟩ := L.entry v hv
    exact ⟨hlt, hhome v hlt ▸ hsome⟩
  reached v hv h hh := L.reached v hv h (hhome v hv ▸ hh)
  filled := by
    rw [L.filled]
    refine List.countP_congr fun v hv => ?_
    rw [hhome v (List.mem_range.mp hv)]

/-- The empty table. -/
theorem linked_empty (home : ℕ → Option ℕ) (cap : ℕ) : Linked home (List.replicate cap 0) 0 where
  entry v hv := absurd (List.eq_of_mem_replicate hv) (Nat.succ_ne_zero v)
  reached v hv := absurd hv (Nat.not_lt_zero v)
  filled := by simp

/-- An item without a home leaves the table alone. -/
theorem Linked.skip (L : Linked home slots n) (hnone : home n = none) :
    Linked home slots (n + 1) where
  entry v hv := ⟨Nat.lt_succ_of_lt (L.entry v hv).1, (L.entry v hv).2⟩
  reached v hv h hh := by
    obtain rfl | hlt := Nat.eq_or_lt_of_le (Nat.le_of_lt_succ hv)
    · rw [hnone] at hh
      cases hh
    · exact L.reached v hlt h hh
  filled := by
    rw [L.filled, List.range_succ, List.countP_append]
    simp [hnone]

/-- **The search in a table**: it ends at an empty slot that can be reached from the home of the
hash, and then no item of the table is hit; or at a slot that holds an item that is hit. -/
theorem Linked.search (L : Linked home slots n) (hzero : 0 ∈ slots)
    (hhit : ∀ v < n, hit v = true → home v = some h) :
    ∃ i < slots.length,
      probe (fun p => (p + 1) % slots.length) slots hit slots.length (place slots h 0) =
        some (place slots h i) ∧
      (∀ j < i, slots.getD (place slots h j) 0 ≠ 0) ∧
      (slots.getD (place slots h i) 0 = 0 ∧ (∀ v < n, hit v = false) ∨
        ∃ v < n, slots.getD (place slots h i) 0 = v + 1 ∧ hit v = true) := by
  obtain ⟨p, hp, hempty⟩ := List.getElem_of_mem hzero
  have hstop : ∃ i, stops slots hit (place slots h i) = true := by
    obtain ⟨i, -, hi⟩ := exists_place hp h
    exact ⟨i, by rw [hi, stops, List.getD_eq_getElem _ _ hp, hempty]⟩
  have hlast : Nat.find hstop < slots.length := by
    obtain ⟨i, hlt, hi⟩ := exists_place hp h
    refine Nat.lt_of_le_of_lt (Nat.find_min' hstop ?_) hlt
    rw [hi, stops, List.getD_eq_getElem _ _ hp, hempty]
  have hfirst : ∀ j < Nat.find hstop, stops slots hit (place slots h j) = false :=
    fun j hj => Bool.eq_false_iff.mpr (Nat.find_min hstop hj)
  have hstops := Nat.find_spec hstop
  refine ⟨Nat.find hstop, hlast, ?_, fun j hj hz => ?_, ?_⟩
  · exact probe_of_first (Nat.zero_le _) (by omega) hstops fun j _ hj => hfirst j hj
  · have := hfirst j hj
    rw [stops, hz] at this
    cases this
  rcases hslot : slots.getD (place slots h (Nat.find hstop)) 0 with _ | v
  · -- an item that is hit would be on the way to the empty slot, and the search would stop there
    refine .inl ⟨rfl, fun v hv => Bool.eq_false_iff.mpr fun hv' => ?_⟩
    obtain ⟨i, -, hi, hbefore⟩ := L.reached v hv h (hhit v hv hv')
    have hle : Nat.find hstop ≤ i := Nat.find_min' hstop (by rw [stops, hi]; exact hv')
    obtain heq | hlt := Nat.eq_or_lt_of_le hle
    · rw [heq, hi] at hslot
      cases hslot
    · exact hbefore _ hlt hslot
  · rw [stops, hslot] at hstops
    exact .inr ⟨v, (L.entry v (mem_of_getD hslot)).1, rfl, hstops⟩

/-- **A new item** goes into an empty slot that can be reached from its home. -/
theorem Linked.place {h i : ℕ} (L : Linked home slots n) (hhome : home n = some h)
    (hi : i < slots.length) (hempty : slots.getD (place slots h i) 0 = 0)
    (hbefore : ∀ j < i, slots.getD (LinearProbing.place slots h j) 0 ≠ 0) :
    Linked home (slots.set (LinearProbing.place slots h i) (n + 1)) (n + 1) := by
  have hp : LinearProbing.place slots h i < slots.length :=
    place_lt (Nat.zero_lt_of_lt hi) h i
  have hplace (h' j : ℕ) : LinearProbing.place (slots.set (LinearProbing.place slots h i) (n + 1))
      h' j = LinearProbing.place slots h' j := by
    rw [LinearProbing.place, List.length_set]
    rfl
  have hget (q : ℕ) : (slots.set (LinearProbing.place slots h i) (n + 1)).getD q 0 =
      if q = LinearProbing.place slots h i then n + 1 else slots.getD q 0 := by
    simp only [List.getD_eq_getElem?_getD, List.getElem?_set]
    by_cases hq : q = LinearProbing.place slots h i
    · subst hq
      simp [hp]
    · rw [if_neg (Ne.symm hq), if_neg hq]
  -- the slots that were filled still are
  have hstill (q : ℕ) (hq : slots.getD q 0 ≠ 0) :
      (slots.set (LinearProbing.place slots h i) (n + 1)).getD q 0 = slots.getD q 0 := by
    rw [hget, if_neg]
    rintro rfl
    exact hq hempty
  refine ⟨fun v hv => ?_, fun v hv h' hh => ?_, ?_⟩
  · obtain hold | hnew := List.mem_or_eq_of_mem_set hv
    · exact ⟨Nat.lt_succ_of_lt (L.entry v hold).1, (L.entry v hold).2⟩
    · obtain rfl : v = n := Nat.succ.inj hnew
      exact ⟨Nat.lt_succ_self v, by rw [hhome]; rfl⟩
  · simp only [hplace, List.length_set]
    obtain rfl | hlt := Nat.eq_or_lt_of_le (Nat.le_of_lt_succ hv)
    · obtain rfl : h = h' := Option.some.inj (hhome.symm.trans hh)
      refine ⟨i, hi, by rw [hget, if_pos rfl], fun j hj => ?_⟩
      rw [hstill _ (hbefore j hj)]
      exact hbefore j hj
    · obtain ⟨j, hj, hslot, hway⟩ := L.reached v hlt h' hh
      refine ⟨j, hj, ?_, fun k hk => ?_⟩
      · rw [hstill _ (by rw [hslot]; exact Nat.succ_ne_zero v), hslot]
      · rw [hstill _ (hway k hk)]
        exact hway k hk
  · have hslot : slots[LinearProbing.place slots h i] = 0 := by
      rw [← List.getD_eq_getElem _ 0 hp, hempty]
    rw [List.countP_set hp, hslot, L.filled, List.range_succ, List.countP_append]
    simp [hhome]

end LinearProbing
