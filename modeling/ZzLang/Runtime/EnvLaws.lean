import ZzLang.Library.ScopeChain
import ZzLang.Runtime.Env

/-!
# Updates of scope chains

A chain of finitely many links is a list of owned cells, which may go over into frozen scopes
(`Chain`); reading a name through it is looking it up in the list of its scopes (`get_eq`).
Writing to the scope that binds a name ought to be `ScopeChain.write` on that list. It is when
the holder is owned, and when it is the first frozen scope. Behind another frozen scope the
holder is replaced by an owned copy, but the frozen scopes in front of it are not put back: the
copy takes the place of the first of them, and their bindings are gone (`rebuildRec_chain`).

So the laws of an update hold exactly when nothing is lost with the scopes in front of the
holder (`SpliceSafe`): every name they bind is bound by an owned scope too, or reads the same
behind them.
-/

namespace ZzLang.Runtime

open ScopeChain

/-! ### The scopes of a chain -/

/-- The bindings of a scope, as a partial map. -/
def Vars.map (vars : Vars) (name : String) : Option Value :=
  vars.lookup name

theorem Vars.map_insert (vars : Vars) (name : String) (v : Value) :
    Vars.map (vars.insert name v) = Function.update vars.map name (some v) := by
  funext y
  rcases eq_or_ne y name with rfl | hne
  · simp [Vars.map, AList.lookup_insert]
  · simp [Vars.map, AList.lookup_insert_ne hne, Function.update_of_ne hne]

/-- A frozen scope and its ancestors. -/
def FrozenScope.scopes : FrozenScope → List (String → Option Value)
  | .root vars => [Vars.map vars.val]
  | .child vars parent => Vars.map vars.val :: parent.scopes

/-- The owned scopes at some addresses. -/
def Heap.scopes (h : Heap) (as : List ℕ) : List (String → Option Value) :=
  as.map fun a => (h.cells a).vars.map

@[simp] theorem Heap.scopes_cons (h : Heap) (a : ℕ) (as : List ℕ) :
    h.scopes (a :: as) = (h.cells a).vars.map :: h.scopes as := rfl

theorem Heap.scopes_congr {h h' : Heap} {as : List ℕ}
    (hvars : ∀ a ∈ as, (h'.cells a).vars = (h.cells a).vars) : h'.scopes as = h.scopes as :=
  List.map_congr_left fun a ha => by rw [hvars a ha]

/-- The link starts a chain of finitely many scopes: the owned ones at the addresses `as`, then
frozen ones. -/
inductive Chain (h : Heap) : EnvLink → List ℕ → List (String → Option Value) → Prop
  | frozen (f : FrozenScope) : Chain h (.frozen f) [] f.scopes
  | root {a : ℕ} (ha : a < h.next) (hparent : (h.cells a).parent = none) :
      Chain h (.owned a) [a] []
  | child {a : ℕ} {parent : EnvLink} {as : List ℕ} {frozen : List (String → Option Value)}
      (ha : a < h.next) (hparent : (h.cells a).parent = some parent)
      (hchain : Chain h parent as frozen) : Chain h (.owned a) (a :: as) frozen

variable {h h' : Heap} {link link' : EnvLink} {as as' : List ℕ} {name : String}
  {frozen frozen' : List (String → Option Value)}

theorem Chain.unique (hchain : Chain h link as frozen) (hchain' : Chain h link as' frozen') :
    as = as' ∧ frozen = frozen' := by
  induction hchain generalizing as' frozen' with
  | frozen f =>
    cases hchain'
    exact ⟨rfl, rfl⟩
  | root ha hparent =>
    cases hchain' with
    | root => exact ⟨rfl, rfl⟩
    | child _ hparent' => simp [hparent] at hparent'
  | child ha hparent hchain ih =>
    cases hchain' with
    | root _ hparent' => simp [hparent] at hparent'
    | child _ hparent' hchain' =>
      obtain rfl : _ = _ := Option.some.inj (hparent.symm.trans hparent')
      obtain ⟨rfl, rfl⟩ := ih hchain'
      exact ⟨rfl, rfl⟩

/-- From every owned scope of a chain a chain goes on. -/
theorem Chain.of_mem (hchain : Chain h link as frozen) {a : ℕ} (ha : a ∈ as) :
    ∃ as', Chain h (.owned a) as' frozen ∧ as'.length ≤ as.length := by
  induction hchain with
  | frozen f => simp at ha
  | root hlt hparent =>
    obtain rfl : a = _ := by simpa using ha
    exact ⟨_, .root hlt hparent, le_rfl⟩
  | child hlt hparent hchain ih =>
    rcases List.mem_cons.mp ha with rfl | ha
    · exact ⟨_, .child hlt hparent hchain, le_rfl⟩
    · obtain ⟨as', hchain', hlen⟩ := ih ha
      exact ⟨as', hchain', by simp; omega⟩

/-- The scopes of a chain are distinct cells. -/
theorem Chain.nodup (hchain : Chain h link as frozen) : as.Nodup := by
  induction hchain with
  | frozen f => exact List.nodup_nil
  | root => simp
  | @child a parent as frozen ha hparent hchain ih =>
    refine List.nodup_cons.mpr ⟨fun hmem => ?_, ih⟩
    -- the chain from `a` would be its own proper part
    obtain ⟨as', hchain', hlen⟩ := hchain.of_mem hmem
    obtain ⟨rfl, -⟩ := hchain'.unique (.child ha hparent hchain)
    exact absurd hlen (by simp)

theorem Chain.lt_next (hchain : Chain h link as frozen) {a : ℕ} (ha : a ∈ as) : a < h.next := by
  obtain ⟨as', hchain', -⟩ := hchain.of_mem ha
  cases hchain' <;> assumption

/-- A chain only depends on the parents of its scopes. -/
theorem Chain.congr (hchain : Chain h link as frozen) (hnext : h.next ≤ h'.next)
    (hparent : ∀ a ∈ as, (h'.cells a).parent = (h.cells a).parent) : Chain h' link as frozen := by
  induction hchain with
  | frozen f => exact .frozen f
  | root ha hp => exact .root (by omega) (by rw [hparent _ (by simp), hp])
  | child ha hp hchain ih =>
    exact .child (by omega) (by rw [hparent _ (by simp), hp])
      (ih fun a ha => hparent a (by simp [ha]))

theorem FrozenScope.get_eq (f : FrozenScope) (name : String) : f.get name = look f.scopes name := by
  induction f with
  | root vars =>
    rcases hv : vars.val.lookup name with _ | v <;> simp [get, scopes, look, Vars.map, hv]
  | child vars parent ih =>
    rcases hv : vars.val.lookup name with _ | v
    · rw [scopes, look_cons_none (show Vars.map vars.val name = none from hv), ← ih, get]
      simp only [hv]
    · rw [scopes, look_cons_some (show Vars.map vars.val name = some v from hv), get]
      simp only [hv]

/-- Reading through a chain is looking up in its scopes. -/
theorem Chain.get_eq (hchain : Chain h link as frozen) (name : String) :
    link.get h name = some (look (h.scopes as ++ frozen) name) := by
  induction hchain with
  | frozen f =>
    rw [EnvLink.get, f.get_eq]
    rfl
  | @root a ha hparent =>
    rw [EnvLink.get]
    rcases hv : (h.cells a).vars.lookup name with _ | v <;>
      simp [Heap.scopes, look, Vars.map, hv, hparent]
  | @child a parent as frozen ha hparent hchain ih =>
    rw [EnvLink.get, Heap.scopes_cons, List.cons_append]
    rcases hv : (h.cells a).vars.lookup name with _ | v
    · rw [look_cons_none (show (h.cells a).vars.map name = none from hv), ← ih]
      simp only [hparent]
    · rw [look_cons_some (show (h.cells a).vars.map name = some v from hv)]

/-! ### What the update of a binding does to the scopes -/

/-- The scopes after a write. An owned holder is written to. A frozen one is replaced by a copy
with the write, and the frozen scopes in front of it are left out. -/
def rebuilt (name : String) (v : Value) (owned frozen : List (String → Option Value)) :
    List (String → Option Value) :=
  match look owned name, look frozen name with
  | some _, _ => write name v owned ++ frozen
  | none, some _ => owned ++ write name v (holder name frozen)
  | none, none => owned ++ frozen

theorem rebuilt_nil_some {w : Value} (hlook : look frozen name = some w) (v : Value) :
    rebuilt name v [] frozen = write name v (holder name frozen) := by
  simp [rebuilt, hlook]

theorem rebuilt_cons_some {s : String → Option Value} {w : Value} (hs : s name = some w)
    (v : Value) (owned frozen : List (String → Option Value)) :
    rebuilt name v (s :: owned) frozen =
      Function.update s name (some v) :: (owned ++ frozen) := by
  simp only [rebuilt, look_cons_some hs]
  rw [write_cons_some (by simp [hs]), List.cons_append]

theorem rebuilt_cons_none {s : String → Option Value} (hs : s name = none) (v : Value)
    (owned frozen : List (String → Option Value)) :
    rebuilt name v (s :: owned) frozen = s :: rebuilt name v owned frozen := by
  simp only [rebuilt, look_cons_none hs]
  rcases look owned name with _ | w <;> rcases look frozen name with _ | w' <;>
    simp [write_cons_none hs]

namespace EnvLink

@[simp] theorem replaceIn_cells (h : Heap) (a : ℕ) (name : String) (v : Value) (counts : Bool) :
    (replaceIn h a name v counts).cells =
      Function.update h.cells a ((h.cells a).insert name v) := by
  rcases counts <;> rfl

@[simp] theorem replaceIn_next (h : Heap) (a : ℕ) (name : String) (v : Value) (counts : Bool) :
    (replaceIn h a name v counts).next = h.next := by
  rcases counts <;> rfl

end EnvLink

/-- The heap and the link after a write to a chain with these scopes. -/
structure Rebuilds (h : Heap) (as : List ℕ) (frozen : List (String → Option Value))
    (name : String) (v : Value) (link' : EnvLink) (h' : Heap) : Prop where
  /-- The link starts a chain again, with the rebuilt scopes, among the old cells and fresh
  ones. -/
  chain : ∃ as' frozen', Chain h' link' as' frozen' ∧
    h'.scopes as' ++ frozen' = rebuilt name v (h.scopes as) frozen ∧
    ∀ b ∈ as', b ∈ as ∨ h.next ≤ b
  /-- The other cells are untouched. -/
  frame : ∀ b ∉ as, b < h.next → h'.cells b = h.cells b
  next : h.next ≤ h'.next

/-- The scopes behind a frozen one. -/
def FrozenScope.behind (f : FrozenScope) : List (String → Option Value) :=
  match f.parent with
  | some parent => parent.scopes
  | none => []

theorem FrozenScope.scopes_eq (f : FrozenScope) : f.scopes = Vars.map f.vars.val :: f.behind := by
  rcases f with vars | ⟨vars, parent⟩ <;> rfl

/-- A fresh owned copy of a frozen scope, with a write. -/
theorem chain_detached (h : Heap) (f : FrozenScope) (name : String) (v : Value)
    (counts : Bool) :
    Chain (EnvLink.replaceIn (EnvLink.detachedOwned h f).2 h.next name v counts)
      (.owned h.next) [h.next] f.behind := by
  rcases f with vars | ⟨vars, parent⟩
  · refine .root ?_ ?_ <;>
      simp [EnvLink.detachedOwned, Heap.alloc, Env.insert, Env.bump, FrozenScope.parent]
  · have hparent : ((EnvLink.replaceIn (EnvLink.detachedOwned h (.child vars parent)).2 h.next
        name v counts).cells h.next).parent = some (.frozen parent) := by
      simp [EnvLink.detachedOwned, Heap.alloc, Env.insert, Env.bump, FrozenScope.parent]
    exact .child (by simp [EnvLink.detachedOwned, Heap.alloc]) hparent (.frozen parent)

/-- A write to a name that is not bound changes nothing. -/
theorem Rebuilds.of_unbound (hchain : Chain h link as frozen)
    (hnone : look (h.scopes as ++ frozen) name = none) (v : Value) :
    Rebuilds h as frozen name v link h := by
  obtain ⟨hno, hnf⟩ : look (h.scopes as) name = none ∧ look frozen name = none := by
    simpa [look_append] using hnone
  exact ⟨⟨as, frozen, hchain, by simp [rebuilt, hno, hnf], fun b hb => .inl hb⟩,
    fun _ _ _ => rfl, le_rfl⟩

/-- A write to a frozen scope. -/
theorem Rebuilds.detached {f : FrozenScope} {w : Value} (hw : Vars.map f.vars.val name = some w)
    (v : Value) (counts : Bool) :
    Rebuilds h [] f.scopes name v (.owned h.next)
      (EnvLink.replaceIn (EnvLink.detachedOwned h f).2 h.next name v counts) := by
  refine ⟨⟨[h.next], f.behind, chain_detached h f name v counts, ?_, by simp⟩, ?_, ?_⟩
  · rw [f.scopes_eq]
    show _ = rebuilt name v [] _
    rw [rebuilt_nil_some (look_cons_some hw), holder, List.dropWhile_cons_of_neg (by simp [hw]),
      write_cons_some (by simp [hw])]
    simp [Heap.scopes, EnvLink.detachedOwned, Heap.alloc, Env.insert, Env.bump, Vars.map_insert]
  · intro b _ hb
    have hne : b ≠ h.next := by omega
    simp [EnvLink.detachedOwned, Heap.alloc, Function.update_of_ne hne]
  · simp [EnvLink.detachedOwned, Heap.alloc]

/-- A write behind an owned scope that does not bind the name. -/
theorem Rebuilds.spliced {a : ℕ} {v : Value} (hrebuilds : Rebuilds h as frozen name v link' h')
    (hchain : Chain h (.owned a) (a :: as) frozen) (hw : (h.cells a).vars.map name = none) :
    Rebuilds h (a :: as) frozen name v (.owned a) (h'.setParent a (some link')) := by
  obtain ⟨⟨as', frozen', hchain', hscopes, hfresh⟩, hframe, hnext⟩ := hrebuilds
  have hlt : a < h.next := hchain.lt_next (by simp)
  have hnotMem : a ∉ as := (List.nodup_cons.mp hchain.nodup).1
  have hcell : h'.cells a = h.cells a := hframe a hnotMem hlt
  have hne : ∀ b ∈ as', b ≠ a := by
    rintro b hb rfl
    rcases hfresh b hb with hb | hb
    · exact hnotMem hb
    · omega
  refine ⟨⟨a :: as', frozen', .child (by simp [Heap.setParent, Heap.set]; omega)
    (by simp [Heap.setParent, Heap.set]) (hchain'.congr le_rfl fun b hb => ?_), ?_, ?_⟩, ?_, hnext⟩
  · simp [Heap.setParent, Heap.set, Function.update_of_ne (hne b hb)]
  · have htail : (h'.setParent a (some link')).scopes as' = h'.scopes as' :=
      Heap.scopes_congr fun b hb => by
        simp [Heap.setParent, Heap.set, Function.update_of_ne (hne b hb)]
    rw [Heap.scopes_cons, Heap.scopes_cons, htail, rebuilt_cons_none hw, List.cons_append, hscopes]
    simp [Heap.setParent, Heap.set, hcell]
  · intro b hb
    rcases List.mem_cons.mp hb with rfl | hb
    · simp
    · rcases hfresh b hb with hb | hb
      · simp [hb]
      · exact .inr hb
  · intro b hb hlt
    obtain ⟨hba, hbas⟩ : b ≠ a ∧ b ∉ as := by simpa using hb
    simp [Heap.setParent, Heap.set, Function.update_of_ne hba, hframe b hbas hlt]

/-- A write to a frozen chain. -/
theorem rebuildRec_frozen (h : Heap) (f : FrozenScope) (name : String) (v : Value)
    (counts : Bool) :
    ∃ link' h', EnvLink.rebuildRec h (.frozen f) name v counts =
        some (look f.scopes name, link', h') ∧
      Rebuilds h [] f.scopes name v link' h' ∧
      (look f.scopes name = none → link' = .frozen f ∧ h' = h) := by
  have hhit : ∀ (f : FrozenScope) (w : Value), Vars.map f.vars.val name = some w →
      ∃ link' h', EnvLink.rebuildRec h (.frozen f) name v counts =
          some (look f.scopes name, link', h') ∧
        Rebuilds h [] f.scopes name v link' h' ∧
        (look f.scopes name = none → link' = .frozen f ∧ h' = h) := by
    intro f w hw
    have hlook : look f.scopes name = some w := by rw [f.scopes_eq, look_cons_some hw]
    have hlookup : f.vars.val.lookup name = some w := hw
    refine ⟨_, _, ?_, .detached hw v counts, by simp [hlook]⟩
    rw [EnvLink.rebuildRec, hlook]
    simp only [hlookup]
    rfl
  induction f with
  | root vars =>
    rcases hw : Vars.map vars.val name with _ | w
    · have hlook : look (h.scopes [] ++ (FrozenScope.root vars).scopes) name = none :=
        look_cons_none hw
      refine ⟨_, h, ?_, .of_unbound (.frozen _) hlook v, by simp⟩
      have hlookup : vars.val.lookup name = none := hw
      rw [EnvLink.rebuildRec, show look (FrozenScope.root vars).scopes name = none from hlook]
      simp [FrozenScope.vars, FrozenScope.parent, hlookup]
    · exact hhit _ w hw
  | child vars parent ih =>
    rcases hw : Vars.map vars.val name with _ | w
    · obtain ⟨link', h', hrec, hrebuilds, hmiss⟩ := ih
      have hlook : look (FrozenScope.child vars parent).scopes name = look parent.scopes name :=
        look_cons_none hw
      have hlookup : vars.val.lookup name = none := hw
      refine ⟨if (look parent.scopes name).isSome then link' else .frozen (.child vars parent),
        h', ?_, ?_, ?_⟩
      · rw [EnvLink.rebuildRec, hlook]
        simp [FrozenScope.vars, FrozenScope.parent, hlookup, hrec]
      · rcases hparent : look parent.scopes name with _ | w
        · obtain ⟨-, rfl⟩ := hmiss hparent
          have hnone : look (h'.scopes [] ++ (FrozenScope.child vars parent).scopes) name = none :=
            hlook.trans hparent
          exact .of_unbound (.frozen _) hnone v
        · obtain ⟨⟨as', frozen', hchain, hscopes, hfresh⟩, hframe, hnext⟩ := hrebuilds
          refine ⟨⟨as', frozen', hchain, ?_, hfresh⟩, hframe, hnext⟩
          -- the scope in front of the holder is left out
          rw [hscopes]
          show rebuilt name v [] _ = rebuilt name v [] _
          rw [rebuilt_nil_some hparent, rebuilt_nil_some (hlook.trans hparent),
            FrozenScope.scopes, holder, holder, List.dropWhile_cons_of_pos (by simp [hw])]
      · intro hnone
        obtain ⟨-, rfl⟩ := hmiss (hlook ▸ hnone)
        simp [hlook ▸ hnone]
    · exact hhit _ w hw

/-- A write to a chain. -/
theorem rebuildRec_chain (hchain : Chain h link as frozen) (name : String) (v : Value)
    (counts : Bool) :
    ∃ link' h', EnvLink.rebuildRec h link name v counts =
        some (look (h.scopes as ++ frozen) name, link', h') ∧
      Rebuilds h as frozen name v link' h' ∧
      (look (h.scopes as ++ frozen) name = none → link' = link ∧ h' = h) := by
  have hhit : ∀ {a : ℕ} {as : List ℕ} {frozen : List (String → Option Value)} {w : Value},
      Chain h (.owned a) (a :: as) frozen → (h.cells a).vars.map name = some w →
      ∃ link' h', EnvLink.rebuildRec h (.owned a) name v counts =
          some (look (h.scopes (a :: as) ++ frozen) name, link', h') ∧
        Rebuilds h (a :: as) frozen name v link' h' ∧
        (look (h.scopes (a :: as) ++ frozen) name = none → link' = .owned a ∧ h' = h) := by
    intro a as frozen w hchain hw
    have hlook : look (h.scopes (a :: as) ++ frozen) name = some w := look_cons_some hw
    have hlookup : (h.cells a).vars.lookup name = some w := hw
    have hnotMem : a ∉ as := (List.nodup_cons.mp hchain.nodup).1
    refine ⟨.owned a, EnvLink.replaceIn h a name v counts, ?_, ⟨⟨a :: as, frozen, ?_, ?_, ?_⟩,
      ?_, ?_⟩, fun hnone => absurd (hlook.symm.trans hnone) (by simp)⟩
    · rw [EnvLink.rebuildRec, hlook]
      simp only [hlookup]
    · refine hchain.congr (by simp) fun b _ => ?_
      rcases eq_or_ne b a with rfl | hne
      · simp [Env.insert, Env.bump]
      · simp [Function.update_of_ne hne]
    · have htail : (EnvLink.replaceIn h a name v counts).scopes as = h.scopes as := by
        refine Heap.scopes_congr fun b hb => ?_
        have hne : b ≠ a := fun heq => hnotMem (heq ▸ hb)
        simp [Function.update_of_ne hne]
      rw [Heap.scopes_cons, Heap.scopes_cons, htail, rebuilt_cons_some hw]
      simp [Env.insert, Env.bump, Vars.map_insert]
    · exact fun b hb => .inl hb
    · intro b hb _
      have hne : b ≠ a := fun heq => hb (by simp [heq])
      simp [Function.update_of_ne hne]
    · simp
  induction hchain with
  | frozen f => exact rebuildRec_frozen h f name v counts
  | @root a ha hparent =>
    rcases hw : (h.cells a).vars.map name with _ | w
    · have hlook : look (h.scopes [a] ++ []) name = none := look_cons_none hw
      refine ⟨_, h, ?_, .of_unbound (.root ha hparent) hlook v, by simp⟩
      have hlookup : (h.cells a).vars.lookup name = none := hw
      rw [EnvLink.rebuildRec, hlook]
      simp [hlookup, hparent]
    · exact hhit (.root ha hparent) hw
  | @child a parent as frozen ha hparent hchain ih =>
    rcases hw : (h.cells a).vars.map name with _ | w
    · obtain ⟨link', h', hrec, hrebuilds, hmiss⟩ := ih
      have hlook : look (h.scopes (a :: as) ++ frozen) name = look (h.scopes as ++ frozen) name :=
        look_cons_none hw
      have hlookup : (h.cells a).vars.lookup name = none := hw
      refine ⟨.owned a, if (look (h.scopes as ++ frozen) name).isSome
        then h'.setParent a (some link') else h', ?_, ?_, ?_⟩
      · rw [EnvLink.rebuildRec, hlook]
        simp [hlookup, hparent, hrec]
      · rcases hparent' : look (h.scopes as ++ frozen) name with _ | w
        · obtain ⟨-, rfl⟩ := hmiss hparent'
          exact .of_unbound (.child ha hparent hchain) (hlook.trans hparent') v
        · exact hrebuilds.spliced (.child ha hparent hchain) hw
      · intro hnone
        obtain ⟨-, rfl⟩ := hmiss (hlook ▸ hnone)
        simp [hlook ▸ hnone]
    · exact hhit (.child ha hparent hchain) hw

/-! ### The laws -/

/-- What an update of `x` ought to do. It goes through when the chain binds `x`. Then `x` reads
`v` and the other names read as before; otherwise all names do. -/
def UpdateLaw (h : Heap) (link : EnvLink) (bound : Prop) (x : String) (v : Value)
    (through : Prop) (link' : EnvLink) (h' : Heap) : Prop :=
  (through ↔ bound) ∧
    (through → link'.get h' x = some (some v) ∧ ∀ y ≠ x, link'.get h' y = link.get h y) ∧
    (¬ through → ∀ y, link'.get h' y = link.get h y)

/-- The update laws of the three operations. Where it does not go through, `tryAssign` returns
the value; `take` returns what `x` was bound to and leaves `Unit`. -/
def UpdateLaws (h : Heap) (link : EnvLink) (bound : Prop) (x : String) (v : Value) : Prop :=
  (∃ ok link' h', link.assign h x v = some (ok, link', h') ∧
      UpdateLaw h link bound x v (ok = true) link' h') ∧
    (∃ res link' h', link.tryAssign h x v = some (res, link', h') ∧
      UpdateLaw h link bound x v (res = .ok ()) link' h' ∧ (¬ bound → res = .error v)) ∧
    ∃ old link' h', link.take h x = some (old, link', h') ∧
      UpdateLaw h link bound x .unit (old.isSome = true) link' h' ∧ link.get h x = some old

/-- When the first scope that binds `x` is frozen, nothing is lost with the frozen scopes in
front of it: every other name that no owned scope binds reads the same from the holder on. -/
def SpliceSafe (owned frozen : List (String → Option Value)) (x : String) : Prop :=
  ¬ Binds owned x → Binds frozen x →
    ∀ y ≠ x, ¬ Binds owned y → look frozen y = look (holder x frozen) y

variable {owned : List (String → Option Value)} {x : String} {v : Value}

theorem look_rebuilt_self (hbound : Binds (owned ++ frozen) x) :
    look (rebuilt x v owned frozen) x = some v := by
  rcases ho : look owned x with _ | w
  · have hfrozen : Binds frozen x := (binds_append.mp hbound).resolve_left (look_eq_none_iff.mp ho)
    obtain ⟨w, hw⟩ := Option.isSome_iff_exists.mp (look_isSome_iff.mpr hfrozen)
    simp only [rebuilt, ho, hw]
    rw [look_append_none ho, look_write_self (binds_holder.mpr hfrozen)]
  · have howned : Binds owned x := look_isSome_iff.mp (by simp [ho])
    simp only [rebuilt, ho]
    rw [← write_append_of_binds howned, look_write_self hbound]

theorem look_rebuilt_of_ne_iff :
    (∀ y ≠ x, look (rebuilt x v owned frozen) y = look (owned ++ frozen) y) ↔
      SpliceSafe owned frozen x := by
  rcases ho : look owned x with _ | w
  · have hno : ¬ Binds owned x := look_eq_none_iff.mp ho
    rcases hf : look frozen x with _ | w'
    · have hnf : ¬ Binds frozen x := look_eq_none_iff.mp hf
      simp [rebuilt, ho, hf, SpliceSafe, hnf]
    · have hfrozen : Binds frozen x := look_isSome_iff.mp (by simp [hf])
      simp only [rebuilt, ho, hf, SpliceSafe, hno, hfrozen, not_false_eq_true, true_imp_iff,
        ← look_eq_none_iff]
      refine forall₂_congr fun y hne => ?_
      rw [look_append, look_append, look_write_of_ne hne]
      rcases look owned y with _ | u
      · simp [eq_comm]
      · simp
  · have howned : Binds owned x := look_isSome_iff.mp (by simp [ho])
    refine iff_of_true (fun y hne => ?_) fun hno => absurd howned hno
    simp only [rebuilt, ho]
    rw [← write_append_of_binds howned, look_write_of_ne hne]

/-- The law of one update, for what the recursion returns. -/
theorem updateLaw_iff (hchain : Chain h link as frozen)
    (hrebuilds : Rebuilds h as frozen x v link' h')
    (hmiss : look (h.scopes as ++ frozen) x = none → link' = link ∧ h' = h) :
    UpdateLaw h link (Binds (h.scopes as ++ frozen) x) x v
        ((look (h.scopes as ++ frozen) x).isSome = true)
        (if (look (h.scopes as ++ frozen) x).isSome then link' else link) h' ↔
      SpliceSafe (h.scopes as) frozen x := by
  obtain ⟨⟨as', frozen', hchain', hscopes, -⟩, -, -⟩ := hrebuilds
  rcases hlook : look (h.scopes as ++ frozen) x with _ | w
  · obtain ⟨rfl, rfl⟩ := hmiss hlook
    have hunbound := look_eq_none_iff.mp hlook
    have hnf : ¬ Binds frozen x := fun hf => hunbound (binds_append.mpr (.inr hf))
    simp [UpdateLaw, hunbound, SpliceSafe, hnf]
  · have hbound : Binds (h.scopes as ++ frozen) x := look_isSome_iff.mp (by simp [hlook])
    have hself : link'.get h' x = some (some v) := by
      rw [hchain'.get_eq, hscopes, look_rebuilt_self hbound]
    simp only [UpdateLaw, hbound, hself, hchain.get_eq, hchain'.get_eq, hscopes,
      Option.some.injEq, ← look_rebuilt_of_ne_iff (v := v), Option.isSome_some, if_true,
      true_and, true_imp_iff, not_true_eq_false, false_imp_iff, and_true, iff_self]

theorem spliceSafe_of_updateLaws (hchain : Chain h link as frozen)
    (hlaws : UpdateLaws h link (Binds (h.scopes as ++ frozen) x) x v) :
    SpliceSafe (h.scopes as) frozen x := by
  obtain ⟨link₁, h₁, hassign, hrebuilds, hmiss⟩ := rebuildRec_chain hchain x v true
  obtain ⟨⟨ok, link', h', heq, hlaw⟩, -, -⟩ := hlaws
  simp only [EnvLink.assign, hassign, Option.bind_eq_bind, Option.bind_some, Option.pure_def,
    Option.some.injEq, Prod.mk.injEq] at heq
  obtain ⟨rfl, rfl, rfl⟩ := heq
  exact (updateLaw_iff hchain hrebuilds hmiss).mp hlaw

theorem updateLaws_of_spliceSafe (hchain : Chain h link as frozen)
    (hsafe : SpliceSafe (h.scopes as) frozen x) :
    UpdateLaws h link (Binds (h.scopes as ++ frozen) x) x v := by
  obtain ⟨link₁, h₁, hassign, hrebuilds₁, hmiss₁⟩ := rebuildRec_chain hchain x v true
  obtain ⟨link₂, h₂, htake, hrebuilds₂, hmiss₂⟩ := rebuildRec_chain hchain x .unit false
  have hlaw₁ := (updateLaw_iff hchain hrebuilds₁ hmiss₁).mpr hsafe
  have hlaw₂ := (updateLaw_iff hchain hrebuilds₂ hmiss₂).mpr hsafe
  refine ⟨⟨_, _, _, by rw [EnvLink.assign, hassign]; rfl, hlaw₁⟩,
    ⟨_, _, _, by rw [EnvLink.tryAssign, hassign]; rfl, ?_, ?_⟩,
    ⟨_, _, _, by rw [EnvLink.take, htake]; rfl, hlaw₂, hchain.get_eq x⟩⟩
  · rcases hlook : look (h.scopes as ++ frozen) x with _ | w <;> simpa [hlook] using hlaw₁
  · intro hunbound
    simp [look_eq_none_iff.mpr hunbound]

/-- `assign`, `tryAssign` and `take` obey the update laws on a chain exactly when no binding is
lost with the frozen scopes in front of the holder. -/
theorem update_laws_iff (hchain : Chain h link as frozen) (x : String) (v : Value) :
    UpdateLaws h link (Binds (h.scopes as ++ frozen) x) x v ↔
      SpliceSafe (h.scopes as) frozen x :=
  ⟨spliceSafe_of_updateLaws hchain, updateLaws_of_spliceSafe hchain⟩

/-! ### A binding that is lost -/

theorem Vars.map_singleton (name : String) (v : Value) :
    Vars.map (AList.singleton name v) = Function.update (fun _ => none) name (some v) := by
  rw [← AList.insert_empty, Vars.map_insert]
  rfl

/-- One binding of an integer. -/
def oneInt (name : String) (i : Int64) : DataVars :=
  ⟨AList.singleton name (.int i), fun y v hy => by
    have hmap : Function.update (fun _ => none) name (some (Value.int i)) y = some v := by
      rw [← Vars.map_singleton]
      exact hy
    rcases eq_or_ne y name with rfl | hne
    · rw [Function.update_self] at hmap
      obtain rfl := Option.some.inj hmap
      rfl
    · simp [Function.update_of_ne hne] at hmap⟩

theorem map_oneInt (name : String) (i : Int64) :
    Vars.map (oneInt name i).val = Function.update (fun _ => none) name (some (.int i)) :=
  Vars.map_singleton name (.int i)

/-- A frozen global `x`. -/
def globalX : FrozenScope :=
  .root (oneInt "x" 2)

/-- A frozen scope with a local `y` below the global. -/
def localY : FrozenScope :=
  .child (oneInt "y" 1) globalX

theorem scopes_localY : localY.scopes = [Function.update (fun _ => none) "y" (some (.int 1)),
    Function.update (fun _ => none) "x" (some (.int 2))] := by
  simp [localY, globalX, FrozenScope.scopes, map_oneInt]

/-- Assigning to the frozen global loses the frozen local. -/
theorem assign_loses_frozen_local :
    ¬ UpdateLaws {} (.frozen localY) (Binds (Heap.scopes {} [] ++ localY.scopes) "x") "x"
      (.int 3) := by
  intro hlaws
  have hsafe := spliceSafe_of_updateLaws (.frozen localY) hlaws
  have hbound : Binds localY.scopes "x" := by simp [scopes_localY, Binds]
  have hy := hsafe (by simp [Heap.scopes]) hbound "y" (by decide) (by simp [Heap.scopes])
  simp [scopes_localY, look, holder, List.dropWhile, Function.update] at hy

/-- An owned scope with a local `y` of its own in front of both. -/
def shadowed : Heap where
  cells := fun _ => { vars := (oneInt "y" 7).val, parent := some (.frozen localY) }
  next := 1

theorem shadowed_chain : Chain shadowed (.owned 0) [0] localY.scopes :=
  .child Nat.one_pos rfl (.frozen localY)

/-- The frozen local is lost here too, but nothing reads it. -/
theorem update_laws_of_shadowed :
    UpdateLaws shadowed (.owned 0) (Binds (shadowed.scopes [0] ++ localY.scopes) "x") "x"
      (.int 3) := by
  refine (update_laws_iff shadowed_chain "x" (.int 3)).mpr fun _ _ y _ hy => ?_
  have hne : y ≠ "y" := by
    rintro rfl
    simp [Binds, Heap.scopes, shadowed, map_oneInt] at hy
  simp [scopes_localY, look, holder, Function.update_of_ne hne]

end ZzLang.Runtime
