import Mathlib.Data.List.Shortlex
import Mathlib.Data.List.Lex
import Mathlib.Data.List.Pairwise
import Mathlib.Algebra.Order.BigOperators.Group.List
import Mathlib.Order.Basic

/-!
# Breadth-first search against depth-first search

A queue of nodes with a set of keys already seen: the front node leaves the queue, and its
successors with new keys join at the end. `search` stops at the first node that answers,
`walk` is the order in which the nodes leave when none does.

The nodes carry the path that led to them. A walk over a tree visits the paths in *shortlex*
order, by length and then lexicographically, whereas a depth-first traversal has them in
lexicographic order. `first_agrees_iff` says when the first node with a property is the same
in both: the lexicographically first must be visited by the walk, and no deeper than any
other.
-/

namespace BreadthFirst

/-! ### The search -/

section Search

variable {N K R : Type} [DecidableEq K] (next : N → List N) (key : N → K)

/-- The keys seen and the nodes with new keys, going through the successors in order. -/
def enqueue (seen : List K) : List N → List K × List N
  | [] => (seen, [])
  | n :: ns =>
    if key n ∈ seen then enqueue seen ns
    else
      let (seen, fresh) := enqueue (seen ++ [key n]) ns
      (seen, n :: fresh)

variable (answer : N → Option R) in
/-- The first answer of a node that leaves the queue. -/
def search (queue : List N) (seen : List K) : Option (Option R) :=
  match queue with
  | [] => some none
  | n :: rest =>
    match answer n with
    | some r => some (some r)
    | none =>
      let (seen, fresh) := enqueue key seen (next n)
      binop% search (rest ++ fresh) seen
partial_fixpoint

/-- The nodes in the order in which they leave the queue. -/
def walk (queue : List N) (seen : List K) : Option (List N) :=
  match queue with
  | [] => some []
  | n :: rest => do
    let (seen, fresh) := enqueue key seen (next n)
    let order ← binop% walk (rest ++ fresh) seen
    return n :: order
partial_fixpoint

variable {next key}

variable (key) in
theorem sublist_enqueue (seen : List K) (ns : List N) : (enqueue key seen ns).2.Sublist ns := by
  induction ns generalizing seen with
  | nil => exact .slnil
  | cons n ns ih =>
    by_cases h : key n ∈ seen
    · simpa [enqueue, h] using (ih seen).cons n
    · simpa [enqueue, h] using (ih (seen ++ [key n])).cons_cons n

theorem walk_nil (seen : List K) : walk next key [] seen = some [] := by
  rw [walk]

theorem walk_cons {n : N} {rest : List N} {seen : List K} :
    walk next key (n :: rest) seen =
      (walk next key (rest ++ (enqueue key seen (next n)).2) (enqueue key seen (next n)).1).map
        (n :: ·) := by
  rw [walk, Option.map_eq_bind]
  rfl

theorem search_cons_of_some {answer : N → Option R} {n : N} {rest : List N} {seen : List K}
    {r : R} (h : answer n = some r) :
    search next key answer (n :: rest) seen = some (some r) := by
  rw [search]
  simp [h]

theorem search_cons_of_none {answer : N → Option R} {n : N} {rest : List N} {seen : List K}
    (h : answer n = none) :
    search next key answer (n :: rest) seen =
      search next key answer (rest ++ (enqueue key seen (next n)).2)
        (enqueue key seen (next n)).1 := by
  rw [search]
  simp [h]

/-- The search finds the first answer along the walk. -/
theorem search_of_walk {answer : N → Option R} {queue order : List N} {seen : List K}
    (h : walk next key queue seen = some order) :
    search next key answer queue seen = some (order.findSome? answer) := by
  induction order generalizing queue seen with
  | nil =>
    cases queue with
    | nil => rw [search, List.findSome?_nil]
    | cons n rest => simp [walk_cons] at h
  | cons n order ih =>
    cases queue with
    | nil => simp [walk_nil] at h
    | cons n' rest =>
      rw [walk_cons] at h
      obtain ⟨order', hwalk, heq⟩ := Option.map_eq_some_iff.mp h
      obtain ⟨rfl, rfl⟩ := List.cons.inj heq
      rcases hans : answer n' with _ | r
      · rw [search_cons_of_none hans, ih hwalk, List.findSome?_cons_of_isNone (by simp [hans])]
      · rw [search_cons_of_some hans, List.findSome?_cons, hans]

/-- A walk over finitely many nodes ends, and keeps what holds of all successors. -/
theorem exists_walk {P : N → Prop} (size : N → ℕ) (hP : ∀ n, P n → ∀ c ∈ next n, P c)
    (hsize : ∀ n, P n → ((next n).map size).sum < size n) (queue : List N) (seen : List K)
    (hqueue : ∀ n ∈ queue, P n) :
    ∃ order, walk next key queue seen = some order ∧ ∀ n ∈ order, P n := by
  induction hm : (queue.map size).sum using Nat.strong_induction_on generalizing queue seen with
  | _ m ih =>
    cases queue with
    | nil => exact ⟨[], walk_nil seen, by simp⟩
    | cons n rest =>
      have hsub := sublist_enqueue key seen (next n)
      have hn : P n := hqueue n (by simp)
      have hle : ((enqueue key seen (next n)).2.map size).sum ≤ ((next n).map size).sum :=
        (hsub.map size).sum_le_sum fun _ _ => Nat.zero_le _
      have hlt := hsize n hn
      obtain ⟨order, hwalk, hord⟩ := ih _ (by simp at hm ⊢; omega)
        (rest ++ (enqueue key seen (next n)).2) (enqueue key seen (next n)).1 (by
          intro c hc
          rcases List.mem_append.mp hc with hc | hc
          · exact hqueue c (by simp [hc])
          · exact hP n hn c (hsub.subset hc)) rfl
      refine ⟨n :: order, by rw [walk_cons, hwalk]; rfl, ?_⟩
      intro c hc
      rcases List.mem_cons.mp hc with rfl | hc
      · exact hn
      · exact hord c hc

end Search

/-! ### Shortlex order of paths -/

/-- The order in which a breadth-first walk meets two paths. -/
abbrev Shortlex : List ℕ → List ℕ → Prop :=
  List.Shortlex (· < ·)

theorem shortlex_iff {p q : List ℕ} :
    Shortlex p q ↔ p.length < q.length ∨ p.length = q.length ∧ p < q :=
  List.shortlex_def

theorem Shortlex.length_le {p q : List ℕ} (h : Shortlex p q) : p.length ≤ q.length := by
  rcases shortlex_iff.mp h with h | h
  · exact h.le
  · exact h.1.le

theorem Shortlex.trans {p q r : List ℕ} (hpq : Shortlex p q) (hqr : Shortlex q r) :
    Shortlex p r := by
  rw [shortlex_iff] at *
  rcases hpq with hpq | ⟨hlen, hpq⟩ <;> rcases hqr with hqr | ⟨hlen', hqr⟩
  · exact Or.inl (hpq.trans hqr)
  · exact Or.inl (hlen' ▸ hpq)
  · exact Or.inl (hlen ▸ hqr)
  · exact Or.inr ⟨hlen.trans hlen', hpq.trans hqr⟩

theorem Shortlex.irrefl (p : List ℕ) : ¬ Shortlex p p := by
  simp [shortlex_iff]

theorem shortlex_append_singleton (p : List ℕ) (i : ℕ) : Shortlex p (p ++ [i]) :=
  .of_length_lt (by simp)

/-- The children of an earlier path come before those of a later one. -/
theorem Shortlex.children {p q : List ℕ} (h : Shortlex p q) (i j : ℕ) :
    Shortlex (p ++ [i]) (q ++ [j]) := by
  rcases List.shortlex_def.mp h with h | ⟨hlen, hlex⟩
  · exact .of_length_lt (by simpa using h)
  · refine .of_lex (by simp [hlen]) ?_
    clear h
    induction hlex with
    | nil => simp at hlen
    | rel h => exact .rel h
    | cons _ ih => exact .cons (ih (by simpa using hlen))

section Walk

variable {N K : Type} [DecidableEq K] {next : N → List N} {key : N → K} {path : N → List ℕ}

variable (path) in
/-- The queue is in order, and within one generation. -/
structure InOrder (queue : List N) : Prop where
  sorted : queue.Pairwise fun m n => Shortlex (path m) (path n)
  near : ∀ n ∈ queue.head?, ∀ m ∈ queue, ∀ i, Shortlex (path m) (path n ++ [i])

variable (next path) in
/-- Successors extend the path by one position, in increasing order. -/
structure Extends : Prop where
  sorted (n : N) : (next n).Pairwise fun c c' => Shortlex (path c) (path c')
  child (n : N) : ∀ c ∈ next n, ∃ i, path c = path n ++ [i]

/-- Moving the successors of the front to the end keeps the queue in order. -/
theorem InOrder.step (hnext : Extends next path) {n : N} {rest : List N}
    (h : InOrder path (n :: rest)) {fresh : List N} (hfresh : fresh.Sublist (next n)) :
    InOrder path (rest ++ fresh) := by
  obtain ⟨hn, hrest⟩ := List.pairwise_cons.mp h.sorted
  have hchild : ∀ c ∈ fresh, ∃ i, path c = path n ++ [i] := fun c hc =>
    hnext.child n c (hfresh.subset hc)
  -- everything left in the queue comes after `n`
  have hafter : ∀ m ∈ rest ++ fresh, Shortlex (path n) (path m) := by
    intro m hm
    rcases List.mem_append.mp hm with hm | hm
    · exact hn m hm
    · obtain ⟨i, hi⟩ := hchild m hm
      rw [hi]
      exact shortlex_append_singleton _ i
  refine ⟨List.pairwise_append.mpr ⟨hrest, (hnext.sorted n).sublist hfresh, ?_⟩, ?_⟩
  · intro m hm c hc
    obtain ⟨i, hi⟩ := hchild c hc
    rw [hi]
    exact h.near n rfl m (by simp [hm]) i
  · intro front hfront m hm i
    have hfront : Shortlex (path n) (path front) := hafter front (List.mem_of_head? hfront)
    have hparent := hfront.children i i
    rcases List.mem_append.mp hm with hm | hm
    · exact (h.near n rfl m (by simp [hm]) i).trans hparent
    · obtain ⟨j, hj⟩ := hchild m hm
      rw [hj]
      exact hfront.children j i

/-- A walk meets the nodes in shortlex order, none before the front of the queue. -/
theorem walk_sorted (hnext : Extends next path) {queue order : List N} {seen : List K}
    (hwalk : walk next key queue seen = some order) (hqueue : InOrder path queue) :
    (order.Pairwise fun m n => Shortlex (path m) (path n)) ∧
      ∀ front ∈ queue.head?, ∀ n ∈ order, n = front ∨ Shortlex (path front) (path n) := by
  induction order generalizing queue seen with
  | nil => simp
  | cons n order ih =>
    cases queue with
    | nil => simp [walk_nil] at hwalk
    | cons n' rest =>
      rw [walk_cons] at hwalk
      obtain ⟨order', hwalk', heq⟩ := Option.map_eq_some_iff.mp hwalk
      obtain ⟨rfl, rfl⟩ := List.cons.inj heq
      have hsub := sublist_enqueue key seen (next n')
      obtain ⟨hsorted, hfront⟩ := ih hwalk' (hqueue.step hnext hsub)
      have hlater : ∀ m ∈ order', Shortlex (path n') (path m) := by
        intro m hm
        rcases hq : rest ++ (enqueue key seen (next n')).2 with _ | ⟨front, queue⟩
        · rw [hq, walk_nil] at hwalk'
          cases hwalk'
          simp at hm
        · have hn' : Shortlex (path n') (path front) := by
            have hmem : front ∈ rest ++ (enqueue key seen (next n')).2 := by simp [hq]
            rcases List.mem_append.mp hmem with hmem | hmem
            · exact (List.pairwise_cons.mp hqueue.sorted).1 front hmem
            · obtain ⟨i, hi⟩ := hnext.child n' front (hsub.subset hmem)
              rw [hi]
              exact shortlex_append_singleton _ i
          rcases hfront front (by simp [hq]) m hm with rfl | h
          · exact hn'
          · exact hn'.trans h
      refine ⟨List.pairwise_cons.mpr ⟨hlater, hsorted⟩, ?_⟩
      rintro front hf m hm
      obtain rfl : n' = front := by simpa using hf
      rcases List.mem_cons.mp hm with rfl | hm
      · exact Or.inl rfl
      · exact Or.inr (hlater m hm)

end Walk

/-! ### Walks that end -/

section Finite

variable {N K : Type} [DecidableEq K] {next : N → List N} {key : N → K} {path : N → List ℕ}

/-- At most one of several children of a path leads to a given path, and none to itself. -/
theorem sum_isPrefix_le {p q : List ℕ} {cs : List (List ℕ)} (hcs : cs.Nodup)
    (hchild : ∀ c ∈ cs, ∃ i, c = p ++ [i]) :
    (cs.map fun c => if c <+: q then 1 else 0).sum ≤ if p <+: q ∧ q ≠ p then 1 else 0 := by
  induction cs with
  | nil => simp
  | cons c cs ih =>
    obtain ⟨hc, hcs⟩ := List.nodup_cons.mp hcs
    have hrest := ih hcs fun c hc => hchild c (by simp [hc])
    obtain ⟨i, rfl⟩ := hchild c (by simp)
    by_cases hq : p ++ [i] <+: q
    · -- the other children lead elsewhere
      have hzero : (cs.map fun c => if c <+: q then 1 else 0).sum = 0 := by
        refine List.sum_eq_zero fun x hx => ?_
        obtain ⟨c, hcmem, rfl⟩ := List.mem_map.mp hx
        obtain ⟨j, rfl⟩ := hchild c (by simp [hcmem])
        refine if_neg fun hextends => hc ?_
        have heq : p ++ [i] = p ++ [j] :=
          (List.prefix_of_prefix_length_le hq hextends (by simp)).eq_of_length (by simp)
        rwa [heq]
      have hp : p <+: q := (List.prefix_append p [i]).trans hq
      have hne : q ≠ p := by
        rintro rfl
        have := hq.length_le
        simp at this
      simp [hq, hp, hne, hzero]
    · simpa [hq] using hrest

/-- The number of paths below a node bounds the work that is left for it. -/
theorem sum_countP_lt (hnext : Extends next path) {paths : List (List ℕ)} {n : N}
    (hn : path n ∈ paths) :
    ((next n).map fun c => paths.countP fun q => path c <+: q).sum <
      paths.countP fun q => path n <+: q := by
  have hnodup : ((next n).map path).Nodup := by
    refine List.pairwise_map.mpr ((hnext.sorted n).imp fun h heq => ?_)
    exact Shortlex.irrefl _ (heq ▸ h)
  have hchild : ∀ c ∈ (next n).map path, ∃ i, c = path n ++ [i] := by
    rintro _ hc
    obtain ⟨c, hc', rfl⟩ := List.mem_map.mp hc
    exact hnext.child n c hc'
  have hle : ∀ l : List (List ℕ), ((next n).map fun c => l.countP fun q => path c <+: q).sum ≤
      l.countP fun q => path n <+: q ∧ q ≠ path n := by
    intro l
    induction l with
    | nil => simp
    | cons q l ih =>
      have hq := sum_isPrefix_le (q := q) hnodup hchild
      simp only [List.map_map, Function.comp_def] at hq
      simp only [List.countP_cons, List.sum_map_add, decide_eq_true_eq] at ih ⊢
      omega
  have hlt : (paths.countP fun q => path n <+: q ∧ q ≠ path n) <
      paths.countP fun q => path n <+: q := by
    obtain ⟨l, l', rfl⟩ := List.append_of_mem hn
    have hmono : ∀ l : List (List ℕ), (l.countP fun q => path n <+: q ∧ q ≠ path n) ≤
        l.countP fun q => path n <+: q := fun l =>
      List.countP_mono_left fun q _ hq => by simp at hq ⊢; exact hq.1
    have h := hmono l
    have h' := hmono l'
    have hself : decide (path n <+: path n ∧ path n ≠ path n) = false := by simp
    have hself' : decide (path n <+: path n) = true := by simp
    simp only [List.countP_append, List.countP_cons, hself, hself']
    simp only [Bool.false_eq_true, if_false, if_true]
    omega
  exact (hle paths).trans_lt hlt

/-- A walk along finitely many paths ends, and keeps what holds of all successors. -/
theorem exists_walk_of_paths (key : N → K) (paths : List (List ℕ)) {P : N → Prop}
    (hnext : Extends next path) (hP : ∀ n, P n → ∀ c ∈ next n, P c)
    (hpaths : ∀ n, P n → path n ∈ paths) (queue : List N) (seen : List K)
    (hqueue : ∀ n ∈ queue, P n) :
    ∃ order, walk next key queue seen = some order ∧ ∀ n ∈ order, P n :=
  exists_walk (fun n => paths.countP fun q => path n <+: q) hP
    (fun n hn => sum_countP_lt hnext (hpaths n hn)) queue seen hqueue

end Finite

/-! ### The first node with a property -/

/-- In a sorted list the first element with a property is the least one. -/
theorem find?_eq_some_iff_least {α : Type} {r : α → α → Prop} {l : List α} {p : α → Bool}
    {a : α} (hirr : ∀ a, ¬ r a a) (htrans : ∀ {a b c}, r a b → r b c → r a c)
    (hl : l.Pairwise r) :
    l.find? p = some a ↔ a ∈ l ∧ p a = true ∧ ∀ b ∈ l, p b = true → b = a ∨ r a b := by
  induction l with
  | nil => simp
  | cons x l ih =>
    obtain ⟨hx, hl⟩ := List.pairwise_cons.mp hl
    by_cases hp : p x = true
    · rw [List.find?_cons_of_pos hp, Option.some.injEq]
      constructor
      · rintro rfl
        refine ⟨by simp, hp, fun b hb _ => ?_⟩
        rcases List.mem_cons.mp hb with rfl | hb
        · exact Or.inl rfl
        · exact Or.inr (hx b hb)
      · rintro ⟨ha, -, hleast⟩
        rcases List.mem_cons.mp ha with rfl | ha
        · rfl
        · -- `x` would be both before and after `a`
          rcases hleast x (by simp) hp with rfl | h
          · rfl
          · exact absurd (htrans h (hx a ha)) (hirr a)
    · rw [List.find?_cons_of_neg hp, ih hl]
      constructor
      · rintro ⟨ha, hpa, hleast⟩
        refine ⟨by simp [ha], hpa, fun b hb hpb => ?_⟩
        rcases List.mem_cons.mp hb with rfl | hb
        · exact absurd hpb hp
        · exact hleast b hb hpb
      · rintro ⟨ha, hpa, hleast⟩
        refine ⟨?_, hpa, fun b hb => hleast b (by simp [hb])⟩
        rcases List.mem_cons.mp ha with rfl | ha
        · exact absurd hpa hp
        · exact ha

/-- The first node with a property along a walk. -/
theorem find?_eq_some_iff_shortlex {α : Type} {path : α → List ℕ} {l : List α}
    (hl : l.Pairwise fun x y => Shortlex (path x) (path y)) {p : α → Bool} {a : α} :
    l.find? p = some a ↔
      a ∈ l ∧ p a = true ∧ ∀ b ∈ l, p b = true → b = a ∨ Shortlex (path a) (path b) :=
  find?_eq_some_iff_least (r := fun x y => Shortlex (path x) (path y))
    (fun _ => Shortlex.irrefl _) (fun h h' => Shortlex.trans h h') hl

/-- The first node with a property in a depth-first traversal. -/
theorem find?_eq_some_iff_lex {α : Type} {path : α → List ℕ} {l : List α}
    (hl : l.Pairwise fun x y => path x < path y) {p : α → Bool} {a : α} :
    l.find? p = some a ↔ a ∈ l ∧ p a = true ∧ ∀ b ∈ l, p b = true → b = a ∨ path a < path b :=
  find?_eq_some_iff_least (r := fun x y => path x < path y) (fun _ => lt_irrefl _)
    (fun h h' => lt_trans h h') hl

/-- A traversal meets every path once. -/
theorem eq_of_path_eq {α : Type} {path : α → List ℕ} {l : List α}
    (hl : l.Pairwise fun x y => path x < path y) {x y : α} (hx : x ∈ l) (hy : y ∈ l)
    (h : path x = path y) : x = y := by
  have hdistinct : l.Pairwise fun x y => path x = path y → x = y :=
    hl.imp fun hlt heq => absurd heq hlt.ne
  have : Std.Symm fun x y => path x = path y → x = y := ⟨fun _ _ h heq => (h heq.symm).symm⟩
  exact hdistinct.forall_of_forall (fun _ _ _ => rfl) hx hy h

section Agree

variable {N M : Type} {path : N → List ℕ} {path' : M → List ℕ} {visited : List N}
  {traversal : List M} {p : N → Bool} {p' : M → Bool}

/-- **Breadth first and depth first agree on the first node with a property exactly when the
lexicographically first one is visited and is no deeper than any other.** The nodes visited
that have the property are among those traversed; `e` is anything else to be said of the
node found. -/
theorem first_agrees_iff {e : N → Prop}
    (hvisited : visited.Pairwise fun m n => Shortlex (path m) (path n))
    (htraversal : traversal.Pairwise fun x y => path' x < path' y)
    (hfound : ∀ n ∈ visited, p n = true → ∃ x ∈ traversal, path' x = path n ∧ p' x = true) :
    (∀ n, visited.find? p = some n →
      (∃ x, traversal.find? p' = some x ∧ path' x = path n) ∧ e n) ↔
      ∀ m ∈ visited, p m = true → ∃ n ∈ visited, p n = true ∧ e n ∧
        (path n).length ≤ (path m).length ∧ ∀ x ∈ traversal, p' x = true → path n ≤ path' x := by
  have hfirst {n : N} := find?_eq_some_iff_shortlex hvisited (p := p) (a := n)
  have hfirst' {x : M} := find?_eq_some_iff_lex htraversal (p := p') (a := x)
  constructor
  · intro h m hm hpm
    obtain ⟨n, hn⟩ := Option.isSome_iff_exists.mp (List.find?_isSome.mpr ⟨m, hm, hpm⟩)
    obtain ⟨⟨x, hx, hpath⟩, hen⟩ := h n hn
    obtain ⟨hmem, hpn, hleast⟩ := hfirst.mp hn
    refine ⟨n, hmem, hpn, hen, ?_, fun y hy hpy => ?_⟩
    · rcases hleast m hm hpm with rfl | h
      · exact le_rfl
      · exact h.length_le
    · rw [← hpath]
      rcases (hfirst'.mp hx).2.2 y hy hpy with rfl | h
      · exact le_rfl
      · exact h.le
  · intro h n hn
    obtain ⟨hmem, hpn, hleast⟩ := hfirst.mp hn
    obtain ⟨d, hd, hpd, hed, hlen, hlex⟩ := h n hmem hpn
    -- the depth-first first node `d` is the breadth-first first node `n`
    obtain rfl : d = n := by
      rcases hleast d hd hpd with h | h
      · exact h
      · obtain ⟨x, hx, hpath, hpx⟩ := hfound n hmem hpn
        have hle := hlex x hx hpx
        rcases shortlex_iff.mp h with h | ⟨-, h⟩
        · omega
        · rw [hpath] at hle
          exact absurd h hle.not_gt
    obtain ⟨x, hx, hpath, hpx⟩ := hfound d hd hpd
    refine ⟨⟨x, hfirst'.mpr ⟨hx, hpx, fun y hy hpy => ?_⟩, hpath⟩, hed⟩
    rcases (hlex y hy hpy).eq_or_lt with heq | hlt
    · exact Or.inl (eq_of_path_eq htraversal hy hx (heq.symm.trans hpath.symm))
    · exact Or.inr (hpath ▸ hlt)

end Agree

end BreadthFirst
