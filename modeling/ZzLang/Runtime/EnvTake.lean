import ZzLang.Runtime.EnvLaws

/-!
# Taking a value out and putting it back

`take` leaves `Unit` in the place of the value, and the value goes back with `tryAssign`. In between
nothing else is bound or unbound, so the second write finds the binding that the first one left: an
owned scope, since a frozen one has been replaced by an owned copy (`rebuildRec_hit`). The second
write replaces no scope, so all that can be lost has been lost by the first: the bindings are what
they were exactly if the update was safe (`sameBindings_iff`).
-/

namespace ZzLang.Runtime

open ScopeChain

variable {h h' : Heap} {link link' : EnvLink} {as as' : List ℕ} {name : String}
  {frozen frozen' : List (String → Option Value)} {old : Value}

/-! ### The scope that is written to -/

/-- Does the cell bind the name? -/
def Heap.binds (h : Heap) (name : String) (a : ℕ) : Bool :=
  ((h.cells a).vars.lookup name).isSome

theorem Heap.setParent_self {h : Heap} {a : ℕ} {parent : Option EnvLink}
    (hparent : (h.cells a).parent = parent) : h.setParent a parent = h := by
  have hcell : { h.cells a with parent := parent } = h.cells a := by rw [← hparent]
  rw [Heap.setParent, Heap.set, hcell, Function.update_eq_self]

theorem look_scopes_eq_none_iff :
    look (h.scopes as) name = none ↔ ∀ a ∈ as, h.binds name a = false := by
  simp [look_eq_none_iff, Binds, Heap.scopes, Heap.binds, Vars.map]

/-- A write to a name that an owned scope of the chain binds replaces no scope. -/
theorem rebuildRec_owned (hchain : Chain h link as frozen) {a : ℕ}
    (hfind : as.find? (h.binds name) = some a) (v : Value) (counts : Bool) :
    link.rebuildRec h name v counts =
      some ((h.cells a).vars.lookup name, link, EnvLink.replaceIn h a name v counts) := by
  induction hchain with
  | frozen f => cases hfind
  | @root b hb hparent =>
    obtain ⟨hbinds, rfl⟩ : h.binds name b = true ∧ b = a := by
      simpa [Option.guard_eq_some_iff, and_comm] using hfind
    obtain ⟨old, hold⟩ := Option.isSome_iff_exists.mp hbinds
    rw [EnvLink.rebuildRec_of_bound hold, hold]
  | @child b parent as frozen hb hparent hchain ih =>
    rcases hold : (h.cells b).vars.lookup name with _ | old
    · have hrest : as.find? (h.binds name) = some a := by
        simpa [Heap.binds, hold] using hfind
      have hne : b ≠ a := by
        rintro rfl
        exact (List.nodup_cons.mp (Chain.child hb hparent hchain).nodup).1
          (List.mem_of_find?_eq_some hrest)
      have hbinds : h.binds name a = true := List.find?_some hrest
      have hsome : ((h.cells a).vars.lookup name).isSome = true := hbinds
      -- the slot of the parent is written with the parent that it has
      rw [EnvLink.rebuildRec_of_parent hold hparent (ih hrest), if_pos hsome,
        Heap.setParent_self (by simp [Function.update_of_ne hne, hparent])]
    · obtain rfl : b = a := by simpa [Heap.binds, hold] using hfind
      rw [EnvLink.rebuildRec_of_bound hold, hold]

/-- The state after a frozen scope with the binding has been replaced: the owned copy ends the
chain of owned scopes, and no old cell has another binding. -/
structure Detached (h : Heap) (as : List ℕ) (name : String) (v : Value) (link' : EnvLink)
    (h' : Heap) : Prop where
  chain : ∃ frozen', Chain h' link' (as ++ [h.next]) frozen'
  bound : (h'.cells h.next).vars.lookup name = some v
  frame : ∀ b < h.next, (h'.cells b).vars = (h.cells b).vars

theorem detached_frozen (f : FrozenScope) (v : Value) (counts : Bool)
    (hold : look f.scopes name = some old) :
    ∃ link' h', EnvLink.rebuildRec h (.frozen f) name v counts = some (some old, link', h') ∧
      Detached h [] name v link' h' := by
  have hhit : ∀ f : FrozenScope, f.vars.val.lookup name = some old →
      ∃ link' h', EnvLink.rebuildRec h (.frozen f) name v counts = some (some old, link', h') ∧
        Detached h [] name v link' h' := by
    intro f hw
    refine ⟨.owned h.next, EnvLink.replaceIn (EnvLink.detachedOwned h f).2 h.next name v counts,
      ?_, ⟨⟨f.behind, chain_detached h f name v counts⟩, ?_, fun b hb => ?_⟩⟩
    · rw [EnvLink.rebuildRec]
      simp only [hw]
      rfl
    · simp [Env.insert, Env.bump, AList.lookup_insert]
    · simp [EnvLink.detachedOwned, Heap.alloc, Function.update_of_ne (ne_of_lt hb)]
  induction f with
  | root vars =>
    refine hhit _ ?_
    rcases hw : vars.val.lookup name with _ | w
    · rw [FrozenScope.scopes, look_cons_none (show Vars.map vars.val name = none from hw)] at hold
      cases hold
    · rw [FrozenScope.scopes, look_cons_some (show Vars.map vars.val name = some w from hw)] at hold
      rw [← hold]
      exact hw
  | child vars parent ih =>
    rcases hw : vars.val.lookup name with _ | w
    · rw [FrozenScope.scopes, look_cons_none (show Vars.map vars.val name = none from hw)] at hold
      obtain ⟨link', h', hrec, hdetached⟩ := ih hold
      refine ⟨link', h', ?_, hdetached⟩
      rw [EnvLink.rebuildRec]
      simp [FrozenScope.vars, FrozenScope.parent, hw, hrec]
    · rw [FrozenScope.scopes, look_cons_some (show Vars.map vars.val name = some w from hw)] at hold
      refine hhit _ ?_
      rw [← hold]
      exact hw

/-- A write to a name that only a frozen scope binds. -/
theorem rebuildRec_behind (hchain : Chain h link as frozen) (v : Value) (counts : Bool)
    (howned : ∀ a ∈ as, h.binds name a = false) (hold : look frozen name = some old) :
    ∃ link' h', link.rebuildRec h name v counts = some (some old, link', h') ∧
      Detached h as name v link' h' := by
  induction hchain with
  | frozen f => exact detached_frozen f v counts hold
  | root => cases hold
  | @child b parent as frozen hb hparent hchain ih =>
    obtain ⟨link', h', hrec, ⟨⟨frozen', hchain'⟩, hbound, hframe⟩⟩ :=
      ih (fun a ha => howned a (by simp [ha])) hold
    have hnone : (h.cells b).vars.lookup name = none := by
      simpa [Heap.binds] using howned b (by simp)
    have hnotMem : b ∉ as := (List.nodup_cons.mp (Chain.child hb hparent hchain).nodup).1
    have hnext : b < h'.next := lt_trans hb (hchain'.lt_next (by simp))
    refine ⟨.owned b, h'.setParent b (some link'), ?_, ⟨⟨frozen', ?_⟩, ?_, fun c hc => ?_⟩⟩
    · rw [EnvLink.rebuildRec_of_parent hnone hparent hrec, Option.isSome_some, if_pos rfl]
    · refine .child hnext (by simp [Heap.setParent, Heap.set])
        (hchain'.congr le_rfl fun c hc => ?_)
      have hne : c ≠ b := by
        rintro rfl
        rcases List.mem_append.mp hc with hc | hc
        · exact hnotMem hc
        · exact ne_of_lt hb (by simpa using hc)
      simp [Heap.setParent, Heap.set, Function.update_of_ne hne]
    · simpa [Heap.setParent, Heap.set, Function.update_of_ne (ne_of_gt hb)] using hbound
    · rcases eq_or_ne c b with rfl | hne
      · simpa [Heap.setParent, Heap.set] using hframe c hc
      · simpa [Heap.setParent, Heap.set, Function.update_of_ne hne] using hframe c hc

/-! ### A write that hits -/

/-- No name reads differently, and no scope has another binding. -/
structure SameBindings (h : Heap) (link : EnvLink) (h' : Heap) (link' : EnvLink) : Prop where
  reads : ∀ y, link'.get h' y = link.get h y
  cells : ∀ a < h.next, (h'.cells a).vars.map = (h.cells a).vars.map

theorem SameBindings.refl (h : Heap) (link : EnvLink) : SameBindings h link h link :=
  ⟨fun _ => rfl, fun _ _ => rfl⟩

/-- The state after writing `v` in the place of `old`: an owned scope binds the name now, and of the
old cells no other one has changed its bindings. -/
structure Hit (h : Heap) (as : List ℕ) (frozen : List (String → Option Value)) (name : String)
    (old v : Value) (link' : EnvLink) (h' : Heap) : Prop where
  bound : look (h.scopes as ++ frozen) name = some old
  chain : ∃ as' frozen', Chain h' link' as' frozen' ∧
    h'.scopes as' ++ frozen' = rebuilt name v (h.scopes as) frozen ∧
    ∃ a, as'.find? (h'.binds name) = some a ∧ (h'.cells a).vars.lookup name = some v ∧
      ∀ b < h.next, (b ≠ a ∧ (h'.cells b).vars.map = (h.cells b).vars.map) ∨
        (b = a ∧ (h.cells b).vars.map name = some old ∧
          (h'.cells b).vars.map = Function.update (h.cells b).vars.map name (some v))

/-- A write to an owned scope leaves the chain, and the scope that holds the name. -/
theorem replaceIn_owned (hchain : Chain h link as frozen) {a : ℕ}
    (hfind : as.find? (h.binds name) = some a) (v : Value) (counts : Bool) :
    Chain (EnvLink.replaceIn h a name v counts) link as frozen ∧
      as.find? ((EnvLink.replaceIn h a name v counts).binds name) = some a ∧
      (EnvLink.replaceIn h a name v counts).scopes as ++ frozen =
        rebuilt name v (h.scopes as) frozen := by
  have hcongr : Chain (EnvLink.replaceIn h a name v counts) link as frozen := by
    refine hchain.congr (by simp) fun b _ => ?_
    rcases eq_or_ne b a with rfl | hne
    · simp [Env.insert, Env.bump]
    · simp [Function.update_of_ne hne]
  refine ⟨hcongr, ?_, ?_⟩
  · have hbinds : ((h.cells a).vars.lookup name).isSome = true :=
      List.find?_some (p := h.binds name) hfind
    rw [← hfind]
    congr 1
    funext b
    rcases eq_or_ne b a with rfl | hne
    · simp [Heap.binds, Env.insert, Env.bump, AList.lookup_insert, hbinds]
    · simp [Heap.binds, Function.update_of_ne hne]
  · obtain ⟨link', h', hrec, ⟨⟨as', frozen', hchain', hscopes, -⟩, -, -⟩, -⟩ :=
      rebuildRec_chain hchain name v counts
    rw [rebuildRec_owned hchain hfind, Option.some.injEq, Prod.mk.injEq, Prod.mk.injEq] at hrec
    obtain ⟨-, rfl, rfl⟩ := hrec
    obtain ⟨rfl, rfl⟩ := hchain'.unique hcongr
    exact hscopes

theorem rebuildRec_hit (hchain : Chain h link as frozen) (v : Value) (counts : Bool)
    (hold : look (h.scopes as ++ frozen) name = some old) :
    ∃ link' h', link.rebuildRec h name v counts = some (some old, link', h') ∧
      Hit h as frozen name old v link' h' := by
  rcases hfind : as.find? (h.binds name) with _ | a
  · -- the holder is frozen; its copy ends the owned scopes
    have howned : ∀ a ∈ as, h.binds name a = false := by simpa using hfind
    have hbehind : look frozen name = some old := by
      rwa [look_append_none (look_scopes_eq_none_iff.mpr howned)] at hold
    obtain ⟨link', h', hrec, ⟨⟨frozen', hchain'⟩, hbound, hframe⟩⟩ :=
      rebuildRec_behind hchain v counts howned hbehind
    obtain ⟨link'', h'', hrec', ⟨⟨as'', frozen'', hchain'', hscopes, -⟩, -, -⟩, -⟩ :=
      rebuildRec_chain hchain name v counts
    obtain ⟨-, rfl, rfl⟩ : _ ∧ link' = link'' ∧ h' = h'' := by simpa [hrec] using hrec'
    obtain ⟨rfl, rfl⟩ := hchain'.unique hchain''
    refine ⟨link', h', hrec, hold, _, _, hchain', hscopes, h.next, ?_, hbound,
      fun b hb => .inl ⟨ne_of_lt hb, by rw [hframe b hb]⟩⟩
    have hnone : as.find? (h'.binds name) = none := by
      simp only [List.find?_eq_none, Bool.not_eq_true]
      intro a ha
      rw [Heap.binds, hframe a (hchain.lt_next ha)]
      exact howned a ha
    rw [List.find?_append, hnone]
    simp [Heap.binds, hbound]
  · obtain ⟨hchain', hfind', hscopes⟩ := replaceIn_owned hchain hfind v counts
    have hrec := rebuildRec_owned hchain hfind v counts
    have hlookup : (h.cells a).vars.lookup name = some old := by
      obtain ⟨link', h', hrec', -, -⟩ := rebuildRec_chain hchain name v counts
      rw [hrec, hold, Option.some.injEq, Prod.mk.injEq] at hrec'
      exact hrec'.1
    rw [hlookup] at hrec
    refine ⟨link, _, hrec, hold, as, frozen, hchain', hscopes, a, hfind', ?_, fun b _ => ?_⟩
    · simp [Env.insert, Env.bump, AList.lookup_insert]
    · rcases eq_or_ne b a with rfl | hne
      · exact .inr ⟨rfl, hlookup, by simp [Env.insert, Env.bump, Vars.map_insert]⟩
      · exact .inl ⟨hne, by simp [Function.update_of_ne hne]⟩

theorem write_rebuilt {owned : List (String → Option Value)} {v : Value}
    (hbound : Binds (owned ++ frozen) name) (w : Value) :
    write name w (rebuilt name v owned frozen) = rebuilt name w owned frozen := by
  rcases ho : look owned name with _ | u
  · have howned : ¬ Binds owned name := look_eq_none_iff.mp ho
    have hfrozen : Binds frozen name := (binds_append.mp hbound).resolve_left howned
    obtain ⟨u, hu⟩ := Option.isSome_iff_exists.mp (look_isSome_iff.mpr hfrozen)
    simp only [rebuilt, ho, hu]
    rw [write_append_of_not_binds howned, write_write]
  · have howned : Binds owned name := look_isSome_iff.mp (by simp [ho])
    simp only [rebuilt, ho]
    rw [← write_append_of_binds howned, write_write, write_append_of_binds howned]

/-- A write over what was written goes to the same scope: it is as if it were the first. -/
theorem Hit.again {v w : Value} (hhit : Hit h as frozen name old v link' h') (counts : Bool) :
    ∃ link'' h'', link'.rebuildRec h' name w counts = some (some v, link'', h'') ∧
      Hit h as frozen name old w link'' h'' := by
  obtain ⟨hold, as₁, frozen₁, hchain, hscopes, a, hfind, hbound, hcells⟩ := hhit
  obtain ⟨hchain', hfind', hscopes'⟩ := replaceIn_owned hchain hfind w counts
  have hrec := rebuildRec_owned hchain hfind w counts
  rw [hbound] at hrec
  refine ⟨link', _, hrec, hold, as₁, frozen₁, hchain', ?_, a, hfind', ?_, fun b hb => ?_⟩
  · -- the second write finds the name in an owned scope
    have hbinds : Binds (h'.scopes as₁) name :=
      ⟨_, List.mem_map_of_mem (List.mem_of_find?_eq_some hfind), by simp [Vars.map, hbound]⟩
    obtain ⟨u, hu⟩ := Option.isSome_iff_exists.mp (look_isSome_iff.mpr hbinds)
    simp only [rebuilt, hu] at hscopes'
    rw [hscopes', ← write_append_of_binds hbinds, hscopes,
      write_rebuilt (look_isSome_iff.mp (by simp [hold]))]
  · simp [Env.insert, Env.bump, AList.lookup_insert]
  · rcases hcells b hb with ⟨hne, hsame⟩ | ⟨rfl, hlookup, hupdate⟩
    · exact .inl ⟨hne, by simp [Function.update_of_ne hne, hsame]⟩
    · refine .inr ⟨rfl, hlookup, ?_⟩
      rw [EnvLink.replaceIn_cells, Function.update_self, Env.insert, Env.bump, Vars.map_insert,
        hupdate, Function.update_idem]

/-- What the name reads afterwards. -/
theorem Hit.get_self {v : Value} (hhit : Hit h as frozen name old v link' h') :
    link'.get h' name = some (some v) := by
  obtain ⟨hold, as', frozen', hchain, hscopes, -⟩ := hhit
  rw [hchain.get_eq, hscopes, look_rebuilt_self (look_isSome_iff.mp (by simp [hold]))]

/-- Nothing has changed exactly if the value is the old one and no binding was lost with the frozen
scopes in front of the holder. -/
theorem Hit.sameBindings_iff {v : Value} (hchain : Chain h link as frozen)
    (hhit : Hit h as frozen name old v link' h') :
    SameBindings h link h' link' ↔ v = old ∧ SpliceSafe (h.scopes as) frozen name := by
  have hself := hhit.get_self
  obtain ⟨hold, as', frozen', hchain', hscopes, a, -, -, hcells⟩ := hhit
  rw [← look_rebuilt_of_ne_iff (v := v), ← hscopes]
  refine ⟨fun hsame => ⟨?_, fun y hne => ?_⟩, fun ⟨hv, hothers⟩ => ⟨fun y => ?_, fun b hb => ?_⟩⟩
  · have hread := hsame.reads name
    rw [hself, hchain.get_eq, hold] at hread
    simpa using hread
  · have hread := hsame.reads y
    rw [hchain.get_eq, hchain'.get_eq] at hread
    simpa using hread
  · rcases eq_or_ne y name with rfl | hne
    · rw [hself, hchain.get_eq, hold, hv]
    · rw [hchain.get_eq, hchain'.get_eq, hothers y hne]
  · rcases hcells b hb with ⟨-, hsame⟩ | ⟨-, hlookup, hupdate⟩
    · exact hsame
    · rw [hupdate, hv, ← hlookup, Function.update_eq_self]

/-! ### Taking and putting back -/

/-- `take` returns what the name reads. Where it reads nothing, nothing happens. -/
theorem take_cases (hchain : Chain h link as frozen) (name : String) :
    (link.take h name = some (none, link, h) ∧ ¬ Binds (h.scopes as ++ frozen) name) ∨
      ∃ old link₁ h₁, link.take h name = some (some old, link₁, h₁) ∧
        Hit h as frozen name old .unit link₁ h₁ := by
  rcases hlook : look (h.scopes as ++ frozen) name with _ | old
  · left
    obtain ⟨link', h', hrec, -, hmiss⟩ := rebuildRec_chain hchain name .unit false
    obtain ⟨rfl, rfl⟩ := hmiss hlook
    refine ⟨?_, look_eq_none_iff.mp hlook⟩
    rw [EnvLink.take, hrec, hlook]
    rfl
  · right
    obtain ⟨link₁, h₁, hrec, hhit⟩ := rebuildRec_hit hchain .unit false hlook
    refine ⟨old, link₁, h₁, ?_, hhit⟩
    rw [EnvLink.take, hrec]
    rfl

/-- Putting back goes to the scope that the value was taken from. -/
theorem Hit.tryAssign {v : Value} (hhit : Hit h as frozen name old v link' h') (w : Value) :
    ∃ link'' h'', link'.tryAssign h' name w = some (.ok (), link'', h'') ∧
      Hit h as frozen name old w link'' h'' := by
  obtain ⟨link'', h'', hrec, hhit'⟩ := hhit.again (w := w) true
  refine ⟨link'', h'', ?_, hhit'⟩
  rw [EnvLink.tryAssign, hrec]
  rfl

end ZzLang.Runtime
