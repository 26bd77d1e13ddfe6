import Mathlib.Data.Finmap
import Mathlib.Algebra.GroupWithZero.Nat
import Mathlib.Data.List.Nodup
import Mathlib.Data.List.Perm.Subperm
import Mathlib.Algebra.BigOperators.Group.List.Basic
import ZzLang.Fs.ContentCache

/-!
# A shard of the cache

The count of a shard is the sum over its entries, its slots have different numbers, and each entry
has a slot with its number (`Sound`). Each critical section keeps this, and an insertion ends within
the bounds (`Bounded`): the eviction goes on as long as it is outside of them, and without slots
left there are no entries either; the queue is cleaned to one slot for each entry when it is too
long.
-/

namespace ZzLang.Fs.Cache

abbrev EntryMap := AList fun _ : Path => CachedFile

/-- The bytes of all entries. -/
def total (map : EntryMap) : ℕ := (map.entries.map (·.2.bytes.length)).sum

/-- The invariant of a shard. -/
structure Sound (shard : Shard) : Prop where
  counter : shard.bytes = total shard.map
  nodup : (shard.order.map (·.seq)).Nodup
  slot : ∀ path e, shard.map.lookup path = some e → ⟨path, e.seq⟩ ∈ shard.order

/-- What holds after an insertion. -/
structure Bounded (cfg : Config) (shard : Shard) : Prop where
  bytes : shard.bytes ≤ cfg.shardBudget
  entries : shard.map.keys.length ≤ maxEntriesPerShard
  slots : shard.order.length ≤ shard.map.keys.length * 2 + 64

/-! ### Maps -/

section Maps

variable {map : EntryMap} {path : Path} {e : CachedFile}

/-- Where the entry of a path is. -/
theorem entries_split (h : map.lookup path = some e) :
    ∃ l₁ l₂, map.entries = l₁ ++ ⟨path, e⟩ :: l₂ ∧ (map.erase path).entries = l₁ ++ l₂ := by
  have hmem : path ∈ map.entries.keys := by
    have : (map.lookup path).isSome = true := by rw [h]; rfl
    exact AList.lookup_isSome.mp this
  obtain ⟨e', l₁, l₂, -, hl, herase⟩ := List.exists_of_kerase hmem
  have he : e' = e := by
    have hin : (⟨path, e'⟩ : Sigma fun _ : Path => CachedFile) ∈ map.entries := by
      rw [hl]
      simp
    have : e' ∈ map.lookup path := (List.mem_dlookup_iff map.nodupKeys).mpr hin
    rw [h] at this
    exact (Option.mem_some_iff.mp this).symm
  subst he
  exact ⟨l₁, l₂, hl, herase⟩

theorem total_erase (h : map.lookup path = some e) :
    total map = e.bytes.length + total (map.erase path) := by
  obtain ⟨l₁, l₂, hl, herase⟩ := entries_split h
  rw [total, total, hl, herase]
  simp only [List.map_append, List.map_cons, List.sum_append, List.sum_cons]
  omega

theorem total_insert : total (map.insert path e) = e.bytes.length + total (map.erase path) := by
  rw [total, total, AList.entries_insert]
  simp [AList.erase]

theorem erase_of_lookup_eq_none (h : map.lookup path = none) : map.erase path = map := by
  refine AList.ext ?_
  exact List.kerase_of_notMem_keys (AList.lookup_eq_none.mp h)

theorem lookup_of_erase {path' : Path} (h : (map.erase path).lookup path' = some e) :
    path' ≠ path ∧ map.lookup path' = some e := by
  by_cases hp : path' = path
  · rw [hp, AList.lookup_erase] at h
    exact absurd h nofun
  · exact ⟨hp, by rwa [AList.lookup_erase_ne hp] at h⟩

/-- A map that finds nothing is empty. -/
theorem entries_eq_nil (h : ∀ path e, map.lookup path ≠ some e) : map.entries = [] := by
  rw [List.eq_nil_iff_forall_not_mem]
  rintro ⟨path, e⟩ hm
  exact h path e ((List.mem_dlookup_iff map.nodupKeys).mpr hm)

theorem mem_liveSeqs (h : map.lookup path = some e) : e.seq ∈ liveSeqs map := by
  obtain ⟨l₁, l₂, hl, -⟩ := entries_split h
  rw [liveSeqs, hl]
  simp

end Maps

/-! ### Dropping -/

section Drop

variable {shard : Shard} {path : Path}

theorem dropEntry_order : (dropEntry shard path).order = shard.order := by
  rw [dropEntry]
  split <;> rfl

/-- What is dropped is not found any more, and all else is as before. -/
theorem lookup_dropEntry {path' : Path} {e : CachedFile}
    (h : (dropEntry shard path).map.lookup path' = some e) : shard.map.lookup path' = some e := by
  rw [dropEntry] at h
  split at h
  · exact h
  · exact (lookup_of_erase h).2

theorem sound_dropEntry (h : Sound shard) : Sound (dropEntry shard path) := by
  refine ⟨?_, by rw [dropEntry_order]; exact h.nodup, fun path' e he => ?_⟩
  · rw [dropEntry]
    split
    · exact h.counter
    · rename_i removed hl
      rw [h.counter, total_erase hl, Nat.add_sub_cancel_left]
  · rw [dropEntry_order]
    exact h.slot path' e (lookup_dropEntry he)

theorem foldl_dropEntry (paths : List Path) {P : Shard → Prop}
    (hstep : ∀ shard path, P shard → P (dropEntry shard path)) (h : P shard) :
    P (paths.foldl dropEntry shard) := by
  induction paths generalizing shard with
  | nil => exact h
  | cons path paths ih => exact ih (hstep shard path h)

theorem sound_dropPrefix {pre : Path} (h : Sound shard) : Sound (dropPrefix shard pre) :=
  foldl_dropEntry _ (fun _ _ => sound_dropEntry) h

theorem dropPrefix_order {pre : Path} : (dropPrefix shard pre).order = shard.order :=
  foldl_dropEntry _ (P := fun s => s.order = shard.order)
    (fun _ _ hs => dropEntry_order.trans hs) rfl

theorem lookup_dropPrefix {pre path' : Path} {e : CachedFile}
    (h : (dropPrefix shard pre).map.lookup path' = some e) : shard.map.lookup path' = some e :=
  foldl_dropEntry _
    (P := fun s => s.map.lookup path' = some e → shard.map.lookup path' = some e)
    (fun _ _ hs h => hs (lookup_dropEntry h)) id h

end Drop

/-! ### Evicting -/

section Evict

variable {cfg : Config} {map : EntryMap} {bytes : ℕ} {order : List Slot}

/-- **The eviction** keeps the invariant and ends within the bounds. -/
theorem sound_evict (h : Sound ⟨map, order, bytes⟩) :
    Sound (evict cfg map bytes order) ∧ (evict cfg map bytes order).bytes ≤ cfg.shardBudget ∧
      (evict cfg map bytes order).map.keys.length ≤ maxEntriesPerShard := by
  induction order generalizing map bytes with
  | nil =>
    -- Each entry would have a slot.
    have hnil : map.entries = [] := entries_eq_nil fun path e he => by
      simpa using h.slot path e he
    have hbytes : bytes = 0 := h.counter.trans (by rw [total, hnil]; rfl)
    refine ⟨h, ?_, ?_⟩
    · rw [evict, hbytes]
      exact Nat.zero_le _
    · rw [evict]
      simp [AList.keys, hnil, List.keys]
  | cons slot order ih =>
    have hnodup : (order.map (·.seq)).Nodup := (List.nodup_cons.mp h.nodup).2
    rw [evict]
    split
    · split
      · rename_i hl
        refine ih ⟨h.counter, hnodup, fun path e he => ?_⟩
        rcases List.mem_cons.mp (h.slot path e he) with heq | hm
        · rw [← heq] at hl
          exact absurd (hl.symm.trans he) nofun
        · exact hm
      · rename_i current hl
        split
        · rename_i hseq
          refine ih ⟨h.counter, hnodup, fun path e he => ?_⟩
          rcases List.mem_cons.mp (h.slot path e he) with heq | hm
          · rw [← heq] at hl hseq
            rw [Option.some.inj (hl.symm.trans he)] at hseq
            exact absurd rfl hseq
          · exact hm
        · refine ih ⟨?_, hnodup, fun path e he => ?_⟩
          · show bytes - current.bytes.length = _
            rw [show bytes = total map from h.counter, total_erase hl, Nat.add_sub_cancel_left]
          · obtain ⟨hne, he⟩ := lookup_of_erase he
            rcases List.mem_cons.mp (h.slot path e he) with heq | hm
            · exact absurd (congrArg Slot.key heq) hne
            · exact hm
    · rename_i hb
      rw [not_or, not_lt, not_lt] at hb
      exact ⟨h, hb⟩

theorem mem_evict_order {slot : Slot} (h : slot ∈ (evict cfg map bytes order).order) :
    slot ∈ order := by
  induction order generalizing map bytes with
  | nil => exact h
  | cons first order ih =>
    rw [evict] at h
    split at h
    · split at h
      · exact List.mem_cons_of_mem _ (ih h)
      · split at h
        · exact List.mem_cons_of_mem _ (ih h)
        · exact List.mem_cons_of_mem _ (ih h)
    · exact h

theorem lookup_evict {path : Path} {e : CachedFile}
    (h : (evict cfg map bytes order).map.lookup path = some e) : map.lookup path = some e := by
  induction order generalizing map bytes with
  | nil => exact h
  | cons first order ih =>
    rw [evict] at h
    split at h
    · split at h
      · exact ih h
      · split at h
        · exact ih h
        · exact (lookup_of_erase (ih h)).2
    · exact h

end Evict

/-! ### Inserting -/

section Insert

variable {cfg : Config} {shard : Shard} {path : Path} {entry : CachedFile}

theorem compact_map : (compact shard).map = shard.map ∧ (compact shard).bytes = shard.bytes := by
  rw [compact]
  split <;> exact ⟨rfl, rfl⟩

theorem mem_compact_order {slot : Slot} (h : slot ∈ (compact shard).order) : slot ∈ shard.order := by
  rw [compact] at h
  split at h
  · exact (List.mem_filter.mp h).1
  · exact h

/-- **The cleaning** keeps the invariant, and a queue in its bounds. -/
theorem sound_compact (h : Sound shard) :
    Sound (compact shard) ∧
      (compact shard).order.length ≤ (compact shard).map.keys.length * 2 + 64 := by
  rw [compact]
  split
  · have hnodup : ((shard.order.filter fun slot => slot.seq ∈ liveSeqs shard.map).map
        (·.seq)).Nodup := h.nodup.sublist (List.filter_sublist.map _)
    refine ⟨⟨h.counter, hnodup, fun path e he => ?_⟩, ?_⟩
    · exact List.mem_filter.mpr ⟨h.slot path e he, decide_eq_true (mem_liveSeqs he)⟩
    · -- The numbers left are different, and all of them are numbers of entries.
      have hsub : ((shard.order.filter fun slot => slot.seq ∈ liveSeqs shard.map).map (·.seq)) ⊆
          liveSeqs shard.map := by
        intro seq hseq
        obtain ⟨slot, hslot, rfl⟩ := List.mem_map.mp hseq
        exact of_decide_eq_true (List.mem_filter.mp hslot).2
      have hle := (hnodup.subperm hsub).length_le
      have hlive : (liveSeqs shard.map).length = shard.map.keys.length := by
        simp [liveSeqs, AList.keys, List.keys]
      rw [List.length_map, hlive] at hle
      show (List.filter _ shard.order).length ≤ shard.map.keys.length * 2 + 64
      omega
  · exact ⟨h, by omega⟩

/-- **An insertion** with a new number keeps the invariant and ends within the bounds. -/
theorem sound_insertEntry (h : Sound shard) (hnew : entry.seq ∉ shard.order.map (·.seq)) :
    Sound (insertEntry cfg shard path entry) ∧
      Bounded cfg (insertEntry cfg shard path entry) := by
  have hrest : bytesWithout shard path = total (shard.map.erase path) := by
    rw [bytesWithout]
    split
    · rename_i old hl
      rw [h.counter, total_erase hl, Nat.add_sub_cancel_left]
    · rename_i hl
      rw [h.counter, erase_of_lookup_eq_none hl]
  have hstart : Sound ⟨shard.map.insert path entry, shard.order ++ [⟨path, entry.seq⟩],
      bytesWithout shard path + entry.bytes.length⟩ := by
    refine ⟨?_, ?_, fun path' e he => ?_⟩
    · show bytesWithout shard path + entry.bytes.length = total (shard.map.insert path entry)
      rw [total_insert, hrest, Nat.add_comm]
    · rw [List.map_append, List.nodup_append]
      refine ⟨h.nodup, by simp, fun seq hseq seq' hseq' heq => ?_⟩
      obtain rfl : seq' = entry.seq := by simpa using hseq'
      exact hnew (heq ▸ hseq)
    · by_cases hp : path' = path
      · subst hp
        rw [show (shard.map.insert path' entry).lookup path' = some entry from
          AList.lookup_insert _] at he
        rw [Option.some.inj he]
        exact List.mem_append_right _ List.mem_cons_self
      · rw [show (shard.map.insert path entry).lookup path' = shard.map.lookup path' from
          AList.lookup_insert_ne hp] at he
        exact List.mem_append_left _ (h.slot path' e he)
  obtain ⟨hevict, hb, he⟩ := @sound_evict cfg _ _ _ hstart
  obtain ⟨hcompact, ho⟩ := sound_compact hevict
  refine ⟨hcompact, ?_, ?_, ho⟩
  · rwa [insertEntry, compact_map.2]
  · rwa [insertEntry, compact_map.1]

theorem mem_insertEntry_order {slot : Slot} (h : slot ∈ (insertEntry cfg shard path entry).order) :
    slot ∈ shard.order ∨ slot = ⟨path, entry.seq⟩ := by
  have := mem_evict_order (mem_compact_order h)
  rcases List.mem_append.mp this with hm | hm
  · exact .inl hm
  · exact .inr (List.mem_singleton.mp hm)

theorem lookup_insertEntry {path' : Path} {e : CachedFile}
    (h : (insertEntry cfg shard path entry).map.lookup path' = some e) :
    shard.map.lookup path' = some e ∨ e = entry := by
  rw [insertEntry, compact_map.1] at h
  have h := lookup_evict h
  by_cases hp : path' = path
  · subst hp
    rw [AList.lookup_insert] at h
    exact .inr (Option.some.inj h).symm
  · rw [AList.lookup_insert_ne hp] at h
    exact .inl h

end Insert

end ZzLang.Fs.Cache
