import ZzLang.Arena.Bump

/-!
# Where the arena places a request

A request is refused, or placed in one of three ways: behind what is filled of the last block, in a
new block, or in a spill (`Placed`). The three limits, the growth and the spill threshold only
decide which way it is; each way leaves the arena well kept (`Kept`): its backings are apart, no
block is filled beyond its end, and the ranges that were handed out lie in the filled parts of the
blocks and in the spills, apart from one another.

Each way also only adds to the arena. `Grown` says what that means for a checkpoint: rewinding to a
checkpoint of the arena as it was gives the arena as it was (`Grown.rewind`).
-/

namespace ZzLang.Arena

open Memory

/-! ### Handed out -/

/-- A range that was handed out, with the time when it was. -/
structure Range where
  born : ℕ
  align : ℕ
  extent : Extent

/-- Memory that the allocator may give to the arena: in the space of addresses, and none that the
arena has. -/
def Fresh (a : Bump) (e : Extent) : Prop := e.stop ≤ 2 ^ 62 ∧ ∀ f ∈ a.backing, e.Apart f

/-- **A well-kept arena**, for the ranges that are handed out. -/
structure Kept (cfg : Config) (a : Bump) (live : List Range) : Prop where
  used : ∀ b ∈ a.blocks, b.used ≤ b.capacity
  backing : a.backing.Pairwise Extent.Apart
  bounded : ∀ e ∈ a.backing, e.stop ≤ 2 ^ 62
  total : a.accounted ≤ cfg.maxBytes
  placed : ∀ r ∈ live, (∃ b ∈ a.blocks, r.extent.Inside b.filled) ∨
    ∃ s ∈ a.spills, r.extent.Inside s
  aligned : ∀ r ∈ live, r.align ∣ r.extent.base
  apart : live.Pairwise fun r s => r.extent.Apart s.extent

variable {cfg : Config} {a a' a'' : Bump} {live : List Range} {req : Request}

theorem filled_inside {b : Block} (h : b.used ≤ b.capacity) : b.filled.Inside b.extent :=
  Extent.inside_of_le h

theorem extent_mem_backing {b : Block} (h : b ∈ a.blocks) : b.extent ∈ a.backing :=
  List.mem_append_left _ (List.mem_map_of_mem h)

theorem spill_mem_backing {s : Extent} (h : s ∈ a.spills) : s ∈ a.backing :=
  List.mem_append_right _ h

/-- A range that is handed out lies in some backing. -/
theorem Kept.inside (h : Kept cfg a live) {r : Range} (hr : r ∈ live) :
    ∃ e ∈ a.backing, r.extent.Inside e := by
  rcases h.placed r hr with ⟨b, hb, hin⟩ | ⟨s, hs, hin⟩
  · exact ⟨b.extent, extent_mem_backing hb, hin.trans (filled_inside (h.used b hb))⟩
  · exact ⟨s, spill_mem_backing hs, hin⟩

/-- What is apart from all backings is apart from the ranges. -/
theorem Kept.apart_of_fresh (h : Kept cfg a live) {e f : Extent} (hfresh : Fresh a e)
    (hf : f.Inside e) {r : Range} (hr : r ∈ live) : f.Apart r.extent := by
  obtain ⟨g, hg, hin⟩ := h.inside hr
  exact (hfresh.2 g hg).mono hf hin

/-- The arena owns no more than the space of addresses. -/
theorem Kept.accounted_le (h : Kept cfg a live) : a.accounted ≤ 2 ^ 62 :=
  total_le h.backing h.bounded

/-! ### The three ways to place a request -/

/-- What a request can come to, and the arena behind it. -/
inductive Placed (cfg : Config) (a : Bump) (req : Request) : Outcome → Bump → Prop where
  /-- The request is refused, and the arena is as it was. -/
  | refused {o : Outcome} (h : ∀ ptr, o ≠ .ok ptr) : Placed cfg a req o a
  /-- Behind what is filled of the last block. -/
  | bumped (b : Block) (bs : List Block) (ptr : ℕ) (hblocks : a.blocks = b :: bs)
      (halign : req.align ∣ ptr) (hbase : b.base + b.used ≤ ptr)
      (hend : ptr + req.size ≤ b.base + b.capacity) :
      Placed cfg a req (.ok ptr)
        { a with
          blocks := { b with used := ptr + req.size - b.base } :: bs
          bytesUsed := a.bytesUsed + req.size }
  /-- In a new block. -/
  | grown (e : Extent) (ptr : ℕ) (hfresh : Fresh a e) (halign : req.align ∣ ptr)
      (hbase : e.base ≤ ptr) (hend : ptr + req.size ≤ e.stop)
      (htotal : a.accounted + e.len ≤ cfg.maxBytes) :
      Placed cfg a req (.ok ptr)
        { a with
          blocks := ⟨e.base, e.len, ptr + req.size - e.base⟩ :: a.blocks
          bytesUsed := a.bytesUsed + req.size }
  /-- In a spill. -/
  | spilled (e : Extent) (ptr : ℕ) (hfresh : Fresh a e) (halign : req.align ∣ ptr)
      (hbase : e.base ≤ ptr) (hend : ptr + req.size ≤ e.stop)
      (htotal : a.accounted + e.len ≤ cfg.maxBytes) :
      Placed cfg a req (.ok ptr)
        { a with spills := e :: a.spills, bytesUsed := a.bytesUsed + req.size }

/-- What is not placed leaves the arena as it was. -/
theorem Placed.eq_of_ne_ok {o : Outcome} (h : Placed cfg a req o a') (ho : ∀ ptr, o ≠ .ok ptr) :
    a' = a := by
  cases h with
  | refused => rfl
  | bumped _ _ ptr => exact absurd rfl (ho ptr)
  | grown _ ptr => exact absurd rfl (ho ptr)
  | spilled _ ptr => exact absurd rfl (ho ptr)

/-- The alignment of a request is a power of two that leaves room in the machine word. -/
theorem Request.align_spec (req : Request) :
    ∃ k < 63, req.align = 2 ^ k ∧ req.align ≤ req.size ∧ req.align ≤ 2 ^ 62 := by
  obtain ⟨k, hk⟩ := req.power
  have hle : req.align ≤ req.size := Nat.le_of_dvd req.positive req.multiple
  have hlt : 2 ^ k < 2 ^ 63 := by
    have := req.fits
    omega
  have hk63 : k < 63 := (Nat.pow_lt_pow_iff_right (by omega)).mp hlt
  exact ⟨k, hk63, hk, hle, by rw [hk]; exact Nat.pow_le_pow_right (by omega) (by omega)⟩

/-- Alignment finds its address. -/
theorem Request.alignUp_spec (req : Request) {addr : ℕ} (haddr : addr ≤ 2 ^ 62) :
    req.align ∣ alignUp addr req.align ∧ addr ≤ alignUp addr req.align ∧
      alignUp addr req.align < addr + req.align := by
  obtain ⟨k, hk, hpow, -, hle⟩ := req.align_spec
  rw [hpow] at hle ⊢
  exact Memory.alignUp_spec (by omega) (by omega)

theorem spillRaw_placed (hkept : Kept cfg a live) {malloc : ℕ → Option ℕ}
    (hmalloc : ∀ n base, malloc n = some base → Fresh a ⟨base, n⟩) :
    Placed cfg a req (a.spillRaw cfg malloc req.size req.align).1
      (a.spillRaw cfg malloc req.size req.align).2 := by
  rw [Bump.spillRaw]
  split_ifs with hsingle htotal
  · exact .refused nofun
  · exact .refused nofun
  · cases hm : malloc (req.size + req.align) with
    | none => exact .refused nofun
    | some base =>
      have hfresh := hmalloc _ _ hm
      have hstop : base + (req.size + req.align) ≤ 2 ^ 62 := hfresh.1
      have hsum : a.accounted + req.size + req.align < 2 ^ 64 := by
        have := hkept.accounted_le
        omega
      rw [Nat.mod_eq_of_lt hsum] at htotal
      obtain ⟨hdvd, hle, hlt⟩ := req.alignUp_spec (show base ≤ 2 ^ 62 by omega)
      exact .spilled ⟨base, req.size + req.align⟩ _ hfresh hdvd hle
        (by rw [Extent.stop]; dsimp only; omega) (by dsimp only; omega)

/-- The next block has room for the request behind any padding. -/
theorem le_nextCapacity (h : ¬ cfg.maxBlock / spillFraction ≤ req.size) :
    req.size + req.align ≤ a.nextCapacity cfg req.size req.align := by
  obtain ⟨-, -, -, hle, -⟩ := req.align_spec
  have hmax : req.size + req.align ≤ cfg.maxBlock := by
    rw [spillFraction] at h
    omega
  rw [Bump.nextCapacity]
  split
  · exact le_min (le_max_right _ _) hmax
  · exact le_min (le_max_right _ _) hmax

theorem slowAllocRaw_placed (hkept : Kept cfg a live) {malloc : ℕ → Option ℕ}
    (hmalloc : ∀ n base, malloc n = some base → Fresh a ⟨base, n⟩) :
    Placed cfg a req (a.slowAllocRaw cfg malloc req.size req.align).1
      (a.slowAllocRaw cfg malloc req.size req.align).2 := by
  rw [Bump.slowAllocRaw]
  split_ifs with hspill hfirst hblocks htotal
  · exact spillRaw_placed hkept hmalloc
  · exact spillRaw_placed hkept hmalloc
  · exact .refused nofun
  · exact .refused nofun
  · have hroom := le_nextCapacity (a := a) hspill
    cases hm : malloc (a.nextCapacity cfg req.size req.align) with
    | none => exact .refused nofun
    | some base =>
      have hfresh := hmalloc _ _ hm
      have hstop : base + a.nextCapacity cfg req.size req.align ≤ 2 ^ 62 := hfresh.1
      have hsum : a.accounted + a.nextCapacity cfg req.size req.align < 2 ^ 64 := by
        have := hkept.accounted_le
        omega
      rw [Nat.mod_eq_of_lt hsum] at htotal
      obtain ⟨hdvd, hle, hlt⟩ := req.alignUp_spec (show base ≤ 2 ^ 62 by omega)
      exact .grown ⟨base, a.nextCapacity cfg req.size req.align⟩ _ hfresh hdvd hle
        (by rw [Extent.stop]; dsimp only; omega) (by dsimp only; omega)

/-- **A request is refused or placed** in one of the three ways. -/
theorem tryAllocRaw_placed (hkept : Kept cfg a live) {malloc : ℕ → Option ℕ}
    (hmalloc : ∀ n base, malloc n = some base → Fresh a ⟨base, n⟩) :
    Placed cfg a req (a.tryAllocRaw cfg malloc req.size req.align).1
      (a.tryAllocRaw cfg malloc req.size req.align).2 := by
  rw [Bump.tryAllocRaw]
  split
  · exact slowAllocRaw_placed hkept hmalloc
  · rename_i b bs hblocks
    dsimp only
    split_ifs with hend
    · have hb : b ∈ a.blocks := by
        rw [hblocks]
        exact List.mem_cons_self
      have hstop : b.base + b.capacity ≤ 2 ^ 62 := hkept.bounded _ (extent_mem_backing hb)
      have hused := hkept.used b hb
      obtain ⟨hdvd, hle, -⟩ := req.alignUp_spec (show b.base + b.used ≤ 2 ^ 62 by omega)
      exact .bumped b bs _ hblocks hdvd hle hend
    · exact slowAllocRaw_placed hkept hmalloc

/-! ### What is placed is kept -/

/-- More backing keeps the arena, when it is fresh and the limit allows it. -/
theorem backing_cons {e : Extent} (hkept : Kept cfg a live) (hfresh : Fresh a e)
    {es : List Extent} (hperm : es.Perm (e :: a.backing)) :
    es.Pairwise Extent.Apart ∧ (∀ f ∈ es, f.stop ≤ 2 ^ 62) := by
  constructor
  · rw [hperm.pairwise_iff Extent.Apart.symm, List.pairwise_cons]
    exact ⟨hfresh.2, hkept.backing⟩
  · intro f hf
    rcases List.mem_cons.mp (hperm.mem_iff.mp hf) with rfl | hf
    · exact hfresh.1
    · exact hkept.bounded f hf

/-- The arena that a request leaves behind is well kept, for one range more. -/
theorem Kept.of_placed (hkept : Kept cfg a live) {ptr : ℕ} (h : Placed cfg a req (.ok ptr) a')
    (born : ℕ) : Kept cfg a' (⟨born, req.align, ⟨ptr, req.size⟩⟩ :: live) := by
  cases h with
  | refused h => exact absurd rfl (h ptr)
  | bumped b bs _ hblocks halign hbase hend =>
    have hb : b ∈ a.blocks := by
      rw [hblocks]
      exact List.mem_cons_self
    have hbacking : a.backing = b.extent :: (bs.map Block.extent ++ a.spills) := by
      rw [Bump.backing, hblocks]
      rfl
    obtain ⟨hfirst, -⟩ := List.pairwise_cons.mp (hbacking ▸ hkept.backing)
    have hnew : (⟨ptr, req.size⟩ : Extent).Inside b.extent := by
      refine ⟨?_, hend⟩
      change b.base ≤ ptr
      omega
    -- The other ranges lie in front of the new one, or in another backing.
    have hother : ∀ r ∈ live, (⟨ptr, req.size⟩ : Extent).Apart r.extent := by
      intro r hr
      rcases hkept.placed r hr with ⟨c, hc, hin⟩ | ⟨s, hs, hin⟩
      · rw [hblocks] at hc
        rcases List.mem_cons.mp hc with rfl | hc'
        · exact .inr (hin.2.trans hbase)
        · have hcused := hkept.used c (by rw [hblocks]; exact hc)
          exact (hfirst c.extent (List.mem_append_left _ (List.mem_map_of_mem hc'))).mono hnew
            (hin.trans (filled_inside hcused))
      · exact (hfirst s (List.mem_append_right _ hs)).mono hnew hin
    exact
      { used := by
          intro c hc
          rcases List.mem_cons.mp hc with rfl | hc
          · dsimp only
            omega
          · exact hkept.used c (by rw [hblocks]; exact List.mem_cons_of_mem b hc)
        backing := by
          have := hkept.backing
          rwa [hbacking] at this
        bounded := fun e he => hkept.bounded e (by rw [hbacking]; exact he)
        total := by
          have := hkept.total
          rw [Bump.accounted, hbacking] at this
          exact this
        placed := by
          intro r hr
          rcases List.mem_cons.mp hr with rfl | hr
          · refine .inl ⟨_, List.mem_cons_self, ?_, ?_⟩
            · change b.base ≤ ptr
              omega
            · change ptr + req.size ≤ b.base + (ptr + req.size - b.base)
              omega
          · rcases hkept.placed r hr with ⟨c, hc, hin⟩ | hspill
            · rw [hblocks] at hc
              rcases List.mem_cons.mp hc with rfl | hc
              · refine .inl ⟨_, List.mem_cons_self, hin.trans (Extent.inside_of_le ?_)⟩
                dsimp only
                omega
              · exact .inl ⟨c, List.mem_cons_of_mem _ hc, hin⟩
            · exact .inr hspill
        aligned := List.forall_mem_cons.mpr ⟨halign, hkept.aligned⟩
        apart := List.pairwise_cons.mpr ⟨hother, hkept.apart⟩ }
  | grown e _ hfresh halign hbase hend htotal =>
    have hnew : (⟨ptr, req.size⟩ : Extent).Inside e := ⟨hbase, hend⟩
    obtain ⟨hpair, hbound⟩ := backing_cons hkept hfresh (List.Perm.refl _)
    exact
      { used := by
          intro c hc
          rcases List.mem_cons.mp hc with rfl | hc
          · rw [Extent.stop] at hend
            dsimp only
            omega
          · exact hkept.used c hc
        backing := hpair
        bounded := hbound
        total := by
          rw [Bump.accounted, Nat.add_comm] at htotal
          exact htotal
        placed := by
          intro r hr
          rcases List.mem_cons.mp hr with rfl | hr
          · refine .inl ⟨_, List.mem_cons_self, hbase, ?_⟩
            change ptr + req.size ≤ e.base + (ptr + req.size - e.base)
            omega
          · rcases hkept.placed r hr with ⟨c, hc, hin⟩ | hspill
            · exact .inl ⟨c, List.mem_cons_of_mem _ hc, hin⟩
            · exact .inr hspill
        aligned := List.forall_mem_cons.mpr ⟨halign, hkept.aligned⟩
        apart := List.pairwise_cons.mpr
          ⟨fun r hr => hkept.apart_of_fresh hfresh hnew hr, hkept.apart⟩ }
  | spilled e _ hfresh halign hbase hend htotal =>
    have hnew : (⟨ptr, req.size⟩ : Extent).Inside e := ⟨hbase, hend⟩
    have hperm : (a.blocks.map Block.extent ++ e :: a.spills).Perm (e :: a.backing) :=
      List.perm_middle
    obtain ⟨hpair, hbound⟩ := backing_cons hkept hfresh hperm
    exact
      { used := hkept.used
        backing := hpair
        bounded := hbound
        total := by
          rw [Bump.accounted, Bump.backing, total_append] at htotal
          rw [Bump.accounted, Bump.backing]
          dsimp only
          rw [total_append, total_cons]
          omega
        placed := by
          intro r hr
          rcases List.mem_cons.mp hr with rfl | hr
          · exact .inr ⟨e, List.mem_cons_self, hnew⟩
          · rcases hkept.placed r hr with hblock | ⟨s, hs, hin⟩
            · exact .inl hblock
            · exact .inr ⟨s, List.mem_cons_of_mem e hs, hin⟩
        aligned := List.forall_mem_cons.mpr ⟨halign, hkept.aligned⟩
        apart := List.pairwise_cons.mpr
          ⟨fun r hr => hkept.apart_of_fresh hfresh hnew hr, hkept.apart⟩ }

/-- A reset keeps the arena, with nothing handed out. -/
theorem Kept.reset (hkept : Kept cfg a live) : Kept cfg (a.reset cfg) [] := by
  have hsub : (a.reset cfg).backing.Sublist a.backing := by
    have hmap : (a.reset cfg).backing =
        (a.blocks.take (min cfg.retainBlocks a.blocks.length)).map Block.extent := by
      rw [Bump.backing, Bump.reset, List.append_nil, List.map_map]
      rfl
    rw [hmap]
    exact ((List.take_sublist _ _).map _).trans (List.sublist_append_left _ _)
  exact
    { used := by
        intro b hb
        obtain ⟨c, -, rfl⟩ := List.mem_map.mp hb
        exact Nat.zero_le _
      backing := hkept.backing.sublist hsub
      bounded := fun e he => hkept.bounded e (hsub.subset he)
      total := (total_le_of_sublist hsub).trans hkept.total
      placed := nofun
      aligned := nofun
      apart := .nil }

/-- So is an arena without memory. -/
theorem Kept.empty (bytesUsed : ℕ) : Kept cfg ⟨[], [], bytesUsed⟩ [] where
  used := nofun
  backing := .nil
  bounded := nofun
  total := Nat.zero_le _
  placed := nofun
  aligned := nofun
  apart := .nil

/-! ### What is placed is added -/

/-- The second arena is the first one with more in it: spills and blocks are added, and the block
that was the last is filled further. -/
structure Grown (a a' : Bump) : Prop where
  blocks : ∃ added, (a.blocks = [] ∧ a'.blocks = added) ∨
    ∃ b bs used, a.blocks = b :: bs ∧ b.used ≤ used ∧
      a'.blocks = added ++ { b with used := used } :: bs
  spills : ∃ added, a'.spills = added ++ a.spills

protected theorem Grown.refl (a : Bump) : Grown a a := by
  refine ⟨⟨[], ?_⟩, [], rfl⟩
  cases h : a.blocks with
  | nil => exact .inl ⟨rfl, rfl⟩
  | cons b bs => exact .inr ⟨b, bs, b.used, rfl, le_rfl, rfl⟩

protected theorem Grown.trans (h : Grown a a') (h' : Grown a' a'') : Grown a a'' := by
  obtain ⟨⟨added, hblocks⟩, spills, hspills⟩ := h
  obtain ⟨⟨added', hblocks'⟩, spills', hspills'⟩ := h'
  refine ⟨?_, spills' ++ spills, by rw [hspills', hspills, List.append_assoc]⟩
  rcases hblocks with ⟨hnil, -⟩ | ⟨b, bs, used, hb, hused, hadded⟩
  · exact ⟨a''.blocks, .inl ⟨hnil, rfl⟩⟩
  · rcases hblocks' with ⟨hnil', -⟩ | ⟨c, cs, used', hc, hused', hadded'⟩
    · rw [hadded] at hnil'
      exact absurd hnil' (by simp)
    · rw [hadded] at hc
      cases added with
      | nil =>
        -- The last block is still the same one.
        cases hc
        exact ⟨added', .inr ⟨b, bs, used', hb, hused.trans hused', hadded'⟩⟩
      | cons d ds =>
        cases hc
        refine ⟨added' ++ { c with used := used' } :: ds, .inr ⟨b, bs, used, hb, hused, ?_⟩⟩
        rw [hadded']
        simp

/-- **Rewinding undoes growth**: it gives the arena as it was at the checkpoint. -/
theorem Grown.rewind (h : Grown a a') : a'.rewind a.checkpoint = a := by
  obtain ⟨⟨added, hblocks⟩, spills, hspills⟩ := h
  obtain ⟨blocks, aspills, bytesUsed⟩ := a
  have hdrop : a'.spills.drop (a'.spills.length - aspills.length) = aspills := by
    dsimp only at hspills
    rw [hspills, List.length_append, Nat.add_sub_cancel, List.drop_left]
  rcases hblocks with ⟨hnil, -⟩ | ⟨b, bs, used, hb, -, hadded⟩
  · dsimp only at hnil
    subst hnil
    simp only [Bump.rewind, Bump.checkpoint, hdrop, List.length_nil, Nat.sub_zero, List.drop_length]
  · dsimp only at hb
    subst hb
    have hlast : a'.blocks.drop (a'.blocks.length - (b :: bs).length) =
        { b with used := used } :: bs := by
      rw [hadded, List.length_append]
      simp
    simp only [Bump.rewind, Bump.checkpoint, hdrop, hlast]

theorem Grown.of_placed {o : Outcome} (h : Placed cfg a req o a') : Grown a a' := by
  cases h with
  | refused h => exact .refl a
  | bumped b bs ptr hblocks _ hbase _ =>
    exact ⟨⟨[], .inr ⟨b, bs, _, hblocks, by omega, rfl⟩⟩, [], rfl⟩
  | grown e ptr _ _ _ _ _ =>
    refine ⟨⟨[⟨e.base, e.len, ptr + req.size - e.base⟩], ?_⟩, [], rfl⟩
    cases hblocks : a.blocks with
    | nil => exact .inl ⟨rfl, rfl⟩
    | cons b bs => exact .inr ⟨b, bs, b.used, rfl, le_rfl, rfl⟩
  | spilled e ptr _ _ _ _ _ =>
    refine ⟨⟨[], ?_⟩, [e], rfl⟩
    cases hblocks : a.blocks with
    | nil => exact .inl ⟨rfl, rfl⟩
    | cons b bs => exact .inr ⟨b, bs, b.used, rfl, le_rfl, rfl⟩

end ZzLang.Arena
