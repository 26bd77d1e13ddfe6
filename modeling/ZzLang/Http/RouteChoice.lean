import ZzLang.Http.Router

/-!
# Which route is chosen

A compiled pattern fits a list of segments in one way only, so a match is a derivation (`Fits`) and
the captures put back give the segments. The loop over the routes computes the first candidate of
greatest score (`bestFrom_eq`), and the two orders on scores pick the same one unless two candidates
agree in literals and parameters and differ in wildcards.

A pattern that is equal to the path skips this. It is the documented choice only if it has no
parameters and no earlier pattern compiles to the same segments.
-/

namespace ZzLang.Http

/-! ### Slashes -/

theorem joinSlash_cons {s : Text} {segs : List Text} (h : segs ≠ []) :
    joinSlash (s :: segs) = s ++ '/' :: joinSlash segs := by
  rw [joinSlash, List.intercalate_cons_of_ne_nil h, joinSlash]
  simp

theorem joinSlash_actualSegments (path : Text) :
    joinSlash (actualSegments path) = trimSlashes path := by
  rw [actualSegments]
  split
  · rename_i h
    rw [h]
    rfl
  · exact List.intercalate_splitOn '/'

theorem trimSlashes_append_slash (t : Text) : trimSlashes (t ++ ['/']) = trimSlashes t := by
  rw [trimSlashes, trimSlashes, List.dropWhile_append]
  split
  · rename_i h
    rw [List.isEmpty_iff.mp h]
    rfl
  · exact List.rdropWhile_concat_pos _ _ _ rfl

theorem trimSlashes_trimSlashes (t : Text) : trimSlashes (trimSlashes t) = trimSlashes t := by
  have hfront : (trimSlashes t).dropWhile (· == '/') = trimSlashes t := by
    obtain ⟨tail, htail⟩ := List.rdropWhile_prefix (· == '/') (t.dropWhile (· == '/'))
    rw [← trimSlashes] at htail
    cases htrim : trimSlashes t with
    | nil => rfl
    | cons c cs =>
      refine List.dropWhile_cons_of_neg fun hc => ?_
      have hidem := List.dropWhile_idempotent (p := (· == '/')) (l := t)
      rw [← htail, htrim, List.cons_append,
        List.dropWhile_cons_of_pos (p := (· == '/')) hc] at hidem
      have hlen := congrArg List.length hidem
      have hle := (List.dropWhile_sublist (· == '/') (l := cs ++ tail)).length_le
      rw [List.length_cons] at hlen
      omega
  rw [trimSlashes, hfront, trimSlashes, List.rdropWhile_idempotent]

/-! ### Fitting patterns -/

/-- Only the last segment is a wildcard, and it has a name. -/
def TailLast : List Segment → Prop
  | [] => True
  | .literal _ :: segs => TailLast segs
  | .param _ :: segs => TailLast segs
  | .wildcard name :: segs => name ≠ [] ∧ segs = []

/-- Segments of a pattern against segments of a path. -/
inductive Fits : List Segment → List Text → Captures → Prop
  | nil : Fits [] [] []
  | literal (s) {segs actual ps} : Fits segs actual ps → Fits (.literal s :: segs) (s :: actual) ps
  | param (name val) {segs actual ps} : Fits segs actual ps →
      Fits (.param name :: segs) (val :: actual) ((name, val) :: ps)
  | wildcard {name} (actual) : name ≠ [] →
      Fits [.wildcard name] actual [(name, joinSlash actual)]

/-- The test of the numbers of segments. -/
def arityOk (segs : List Segment) (actual : List Text) : Prop :=
  if hasWildcard segs then segs.length - 1 ≤ actual.length else actual.length = segs.length

instance (segs : List Segment) (actual : List Text) : Decidable (arityOk segs actual) := by
  unfold arityOk
  infer_instance

theorem matchPattern_eq (segs : List Segment) (path : Text) : matchPattern ⟨segs, false⟩ path =
    if arityOk segs (actualSegments path) then bindSegments segs (actualSegments path)
    else none := by
  rw [matchPattern, if_neg Bool.false_ne_true]
  by_cases harity : arityOk segs (actualSegments path)
  · rw [if_pos harity]
    rw [arityOk] at harity
    by_cases hwild : hasWildcard segs = true
    · rw [if_pos hwild] at harity
      exact (if_pos hwild).trans (if_neg (Nat.not_lt.mpr harity))
    · rw [if_neg hwild] at harity
      exact (if_neg hwild).trans (if_neg (not_not.mpr harity))
  · rw [if_neg harity]
    rw [arityOk] at harity
    by_cases hwild : hasWildcard segs = true
    · rw [if_pos hwild] at harity
      exact (if_pos hwild).trans (if_pos (Nat.not_le.mp harity))
    · rw [if_neg hwild] at harity
      exact (if_neg hwild).trans (if_pos harity)

theorem arityOk_cons {s : Segment} (hs : s.isWildcard = false) (segs : List Segment) (a : Text)
    (actual : List Text) : arityOk (s :: segs) (a :: actual) ↔ arityOk segs actual := by
  cases segs with
  | nil => simp [arityOk, hasWildcard, hs]
  | cons t segs =>
    have hlast : hasWildcard (s :: t :: segs) = hasWildcard (t :: segs) := by
      rw [hasWildcard, hasWildcard, List.getLast?_cons_cons]
    simp only [arityOk, hlast, List.length_cons]
    split <;> omega

theorem Fits.bind {segs : List Segment} {actual : List Text} {ps : Captures}
    (h : Fits segs actual ps) : arityOk segs actual ∧ bindSegments segs actual = some ps := by
  induction h with
  | nil => exact ⟨by simp [arityOk, hasWildcard], rfl⟩
  | literal s _ ih =>
    refine ⟨(arityOk_cons rfl _ _ _).mpr ih.1, ?_⟩
    rw [bindSegments, List.head?_cons, if_pos rfl, List.tail_cons, ih.2]
  | param name val _ ih =>
    refine ⟨(arityOk_cons rfl _ _ _).mpr ih.1, ?_⟩
    rw [bindSegments, List.head?_cons, List.tail_cons, ih.2]
    rfl
  | wildcard actual hname =>
    refine ⟨by simp [arityOk, hasWildcard, Segment.isWildcard], ?_⟩
    rw [bindSegments, if_pos hname]

theorem fits_of_bind {segs : List Segment} (htail : TailLast segs) {actual : List Text}
    {ps : Captures} (harity : arityOk segs actual) (hbind : bindSegments segs actual = some ps) :
    Fits segs actual ps := by
  induction segs generalizing actual ps with
  | nil =>
    have hlen : actual.length = 0 := by simpa [arityOk, hasWildcard] using harity
    obtain rfl := List.length_eq_zero_iff.mp hlen
    cases hbind
    exact .nil
  | cons s segs ih =>
    cases s with
    | literal lit =>
      rw [bindSegments] at hbind
      cases actual with
      | nil => simp at hbind
      | cons a actual =>
        rw [List.head?_cons, List.tail_cons] at hbind
        split at hbind
        · rename_i h
          cases h
          exact .literal _ (ih htail ((arityOk_cons rfl _ _ _).mp harity) hbind)
        · cases hbind
    | param name =>
      rw [bindSegments] at hbind
      cases actual with
      | nil => cases hbind
      | cons a actual =>
        rw [List.head?_cons, List.tail_cons] at hbind
        obtain ⟨qs, hqs, rfl⟩ := Option.map_eq_some_iff.mp hbind
        exact .param name a (ih htail ((arityOk_cons rfl _ _ _).mp harity) hqs)
    | wildcard name =>
      obtain ⟨hname, rfl⟩ := htail
      rw [bindSegments, if_pos hname] at hbind
      cases hbind
      exact .wildcard actual hname

/-- A match is a derivation. -/
theorem matchPattern_iff_fits {segs : List Segment} (htail : TailLast segs) {path : Text}
    {ps : Captures} :
    matchPattern ⟨segs, false⟩ path = some ps ↔ Fits segs (actualSegments path) ps := by
  rw [matchPattern_eq]
  constructor
  · intro h
    split at h
    · rename_i harity
      exact fits_of_bind htail harity h
    · cases h
  · intro h
    rw [if_pos h.bind.1, h.bind.2]

/-- The captures put back give the segments, up to a slash before an empty tail. -/
theorem Fits.joinSlash_substitute {segs : List Segment} {actual : List Text} {ps : Captures}
    (h : Fits segs actual ps) : joinSlash (substitute segs ps) = joinSlash actual ∨
      joinSlash (substitute segs ps) = joinSlash actual ++ ['/'] := by
  -- what holds for the rest still holds behind one more segment
  have step (s : Text) {segs : List Segment} {actual : List Text} {ps : Captures}
      (h : Fits segs actual ps) (ih : joinSlash (substitute segs ps) = joinSlash actual ∨
        joinSlash (substitute segs ps) = joinSlash actual ++ ['/']) :
      joinSlash (s :: substitute segs ps) = joinSlash (s :: actual) ∨
        joinSlash (s :: substitute segs ps) = joinSlash (s :: actual) ++ ['/'] := by
    have both (hsegs : substitute segs ps ≠ []) (hactual : actual ≠ []) :
        joinSlash (s :: substitute segs ps) = joinSlash (s :: actual) ∨
          joinSlash (s :: substitute segs ps) = joinSlash (s :: actual) ++ ['/'] := by
      rw [joinSlash_cons hsegs, joinSlash_cons hactual]
      refine ih.imp (fun h => by rw [h]) fun h => ?_
      rw [h, List.append_assoc, List.cons_append]
    cases h with
    | nil => exact .inl rfl
    | literal => exact both (by rw [substitute]; exact List.cons_ne_nil _ _) (List.cons_ne_nil _ _)
    | param => exact both (by rw [substitute]; exact List.cons_ne_nil _ _) (List.cons_ne_nil _ _)
    | @wildcard name actual hname =>
      cases actual with
      | nil =>
        right
        rw [substitute, if_neg hname, joinSlash_cons (List.cons_ne_nil _ _)]
        change s ++ '/' :: joinSlash [joinSlash []] = joinSlash [s] ++ ['/']
        simp [joinSlash]
      | cons a actual =>
        refine both ?_ (List.cons_ne_nil _ _)
        rw [substitute, if_neg hname]
        exact List.cons_ne_nil _ _
  induction h with
  | nil => exact .inl rfl
  | literal s h ih => exact step s h ih
  | param name val h ih => exact step val h ih
  | @wildcard name actual hname =>
    left
    rw [substitute, if_neg hname]
    exact List.intercalate_singleton

theorem Fits.restores {segs : List Segment} {path : Text} {ps : Captures}
    (h : Fits segs (actualSegments path) ps) :
    trimSlashes (joinSlash (substitute segs ps)) = trimSlashes path := by
  rcases h.joinSlash_substitute with h' | h'
  · rw [h', joinSlash_actualSegments, trimSlashes_trimSlashes]
  · rw [h', trimSlashes_append_slash, joinSlash_actualSegments, trimSlashes_trimSlashes]

theorem Fits.counts {segs : List Segment} {actual : List Text} {ps : Captures}
    (h : Fits segs actual ps) :
    segs.countP Segment.isLiteral + segs.countP Segment.isParam ≤ actual.length ∧
      segs.countP Segment.isWildcard ≤ 1 ∧
      segs.countP Segment.isLiteral + segs.countP Segment.isParam +
        segs.countP Segment.isWildcard = segs.length := by
  induction h with
  | nil => simp
  | literal | param =>
    simp only [List.countP_cons, Segment.isLiteral, Segment.isParam, Segment.isWildcard,
      List.length_cons, if_true, Bool.false_eq_true, if_false]
    omega
  | wildcard => simp [Segment.isLiteral, Segment.isParam, Segment.isWildcard]

/-- Only literals capture nothing. -/
theorem Fits.literal_of_nil {segs : List Segment} {actual : List Text}
    (h : Fits segs actual []) : ∀ s ∈ segs, s.isLiteral = true := by
  generalize hps : ([] : Captures) = ps at h
  induction h with
  | nil => simp
  | literal s _ ih => exact List.forall_mem_cons.mpr ⟨rfl, ih hps⟩
  | param | wildcard => cases hps

/-- A pattern of literals fits nothing but these, and captures nothing. -/
theorem Fits.of_literal {segs : List Segment} {actual : List Text} {ps : Captures}
    (h : Fits segs actual ps) (hlit : ∀ s ∈ segs, s.isLiteral = true) :
    segs = actual.map Segment.literal ∧ ps = [] := by
  induction h with
  | nil => exact ⟨rfl, rfl⟩
  | literal s _ ih =>
    obtain ⟨hsegs, hps⟩ := ih (List.forall_mem_cons.mp hlit).2
    exact ⟨by rw [List.map_cons, ← hsegs], hps⟩
  | param | wildcard => cases (List.forall_mem_cons.mp hlit).1

theorem fits_literals (actual : List Text) : Fits (actual.map Segment.literal) actual [] := by
  induction actual with
  | nil => exact .nil
  | cons a actual ih => exact .literal a ih

/-! ### Compiled patterns -/

theorem tailLast_of_compile {raw : List Text} {segs : List Segment}
    (h : compileSegments raw = some segs) : TailLast segs := by
  induction raw generalizing segs with
  | nil =>
    cases h
    trivial
  | cons seg rest ih =>
    rw [compileSegments] at h
    cases hparse : parseSegment seg with
    | literal s =>
      rw [hparse] at h
      obtain ⟨tail, htail, rfl⟩ := Option.map_eq_some_iff.mp h
      change TailLast tail
      exact ih htail
    | param name =>
      simp only [hparse] at h
      split at h
      · cases h
      · obtain ⟨tail, htail, rfl⟩ := Option.map_eq_some_iff.mp h
        change TailLast tail
        exact ih htail
    | wildcard name =>
      simp only [hparse] at h
      split at h
      · cases h
      · rename_i hok
        simp only [not_or, not_not] at hok
        obtain ⟨-, hrest, hname, -⟩ := hok
        rw [hrest, compileSegments] at h
        cases h
        exact ⟨hname, rfl⟩

theorem parseSegment_literal {seg s : Text} (h : parseSegment seg = .literal s) : s = seg := by
  unfold parseSegment at h
  split at h
  · split at h <;> cases h
  · split at h
    · cases h
    · exact (Segment.literal.inj h).symm

/-- A pattern that compiles to literals consists of these. -/
theorem compileSegments_literal {raw : List Text} {segs : List Segment}
    (h : compileSegments raw = some segs) (hlit : ∀ s ∈ segs, s.isLiteral = true) :
    segs = raw.map Segment.literal := by
  induction raw generalizing segs with
  | nil =>
    cases h
    rfl
  | cons seg rest ih =>
    rw [compileSegments] at h
    cases hparse : parseSegment seg with
    | literal s =>
      rw [hparse] at h
      obtain ⟨tail, htail, rfl⟩ := Option.map_eq_some_iff.mp h
      rw [List.map_cons, parseSegment_literal hparse, ih htail (List.forall_mem_cons.mp hlit).2]
    | param name =>
      simp only [hparse] at h
      split at h
      · cases h
      · obtain ⟨tail, htail, rfl⟩ := Option.map_eq_some_iff.mp h
        cases (List.forall_mem_cons.mp hlit).1
    | wildcard name =>
      simp only [hparse] at h
      split at h
      · cases h
      · obtain ⟨tail, htail, rfl⟩ := Option.map_eq_some_iff.mp h
        cases (List.forall_mem_cons.mp hlit).1

/-- What a pattern compiles to: the catch-all, or segments that can end in one named wildcard. -/
theorem compilePattern_cases {pattern : Text} {r : RoutePattern}
    (h : compilePattern pattern = some r) :
    (pattern = ['*'] ∧ r = ⟨[.wildcard []], true⟩) ∨
      (pattern ≠ ['*'] ∧ r.catchAll = false ∧ TailLast r.segments ∧
        ((∀ s ∈ r.segments, s.isLiteral = true) →
          r.segments = (actualSegments pattern).map Segment.literal)) := by
  rw [compilePattern] at h
  split at h
  · rename_i hstar
    exact .inl ⟨hstar, (Option.some.inj h).symm⟩
  · rename_i hstar
    refine .inr ⟨hstar, ?_⟩
    split at h
    · cases h
    · split at h
      · rename_i hempty
        cases h
        refine ⟨rfl, trivial, fun _ => ?_⟩
        rw [actualSegments, if_pos hempty]
        rfl
      · rename_i hne
        simp only at h
        split at h
        · cases h
        · obtain ⟨segs, hsegs, rfl⟩ := Option.map_eq_some_iff.mp h
          refine ⟨rfl, tailLast_of_compile hsegs, fun hlit => ?_⟩
          rw [actualSegments, if_neg hne, compileSegments_literal hsegs hlit]

/-! ### Candidates -/

section Candidates

variable {method : String} {path : Text}

theorem tryRoute_eq_some_iff {idx : ℕ} {route : Route} {c : Candidate} :
    tryRoute method path idx route = some c ↔ c.idx = idx ∧ route.1 = method ∧
      compilePattern route.2 = some c.pattern ∧ matchPattern c.pattern path = some c.params := by
  rw [tryRoute]
  split
  · rename_i h
    exact iff_of_false nofun fun h' => h h'.2.1
  · rename_i h
    rw [not_not] at h
    split
    · rename_i hnone
      rw [hnone]
      exact iff_of_false nofun fun h' => nomatch h'.2.2.1
    · rename_i compiled hsome
      split
      · rename_i hmatch
        refine iff_of_false nofun fun h' => ?_
        rw [hsome] at h'
        rw [← Option.some.inj h'.2.2.1, hmatch] at h'
        cases h'.2.2.2
      · rename_i params hmatch
        obtain ⟨i, r, ps⟩ := c
        rw [hsome, Option.some.injEq, Option.some.injEq, Candidate.mk.injEq]
        constructor
        · rintro ⟨rfl, rfl, rfl⟩
          exact ⟨rfl, h, rfl, hmatch⟩
        · rintro ⟨rfl, -, rfl, hps⟩
          exact ⟨rfl, rfl, Option.some.inj (hmatch.symm.trans hps)⟩

theorem mem_candidates {idx : ℕ} {routes : List Route} {c : Candidate} :
    c ∈ candidates method path idx routes ↔ ∃ k, ∃ route, routes[k]? = some route ∧
      tryRoute method path (idx + k) route = some c := by
  induction routes generalizing idx with
  | nil => simp [candidates]
  | cons route rest ih =>
    rw [candidates, List.mem_append, Option.mem_toList, ih]
    constructor
    · rintro (h | ⟨k, other, hk, h⟩)
      · exact ⟨0, route, rfl, h⟩
      · exact ⟨k + 1, other, hk, by rwa [show idx + (k + 1) = idx + 1 + k by omega]⟩
    · rintro ⟨_ | k, other, hk, h⟩
      · cases hk
        exact .inl h
      · exact .inr ⟨k, other, hk, by rwa [show idx + 1 + k = idx + (k + 1) by omega]⟩

/-- The candidates in terms of the table. -/
theorem mem_candidates_zero {routes : List Route} {c : Candidate} :
    c ∈ candidates method path 0 routes ↔ ∃ pattern, routes[c.idx]? = some (method, pattern) ∧
      compilePattern pattern = some c.pattern ∧ matchPattern c.pattern path = some c.params := by
  rw [mem_candidates]
  constructor
  · rintro ⟨k, ⟨m, pattern⟩, hk, h⟩
    obtain ⟨hidx, rfl, hcompile, hmatch⟩ := tryRoute_eq_some_iff.mp h
    refine ⟨pattern, ?_, hcompile, hmatch⟩
    rwa [hidx, Nat.zero_add]
  · rintro ⟨pattern, hk, hcompile, hmatch⟩
    exact ⟨c.idx, (method, pattern), hk,
      tryRoute_eq_some_iff.mpr ⟨(Nat.zero_add _).symm, rfl, hcompile, hmatch⟩⟩

theorem candidates_ascend (idx : ℕ) (routes : List Route) :
    (candidates method path idx routes).Pairwise fun c d => c.idx < d.idx := by
  induction routes generalizing idx with
  | nil => exact .nil
  | cons route rest ih =>
    rw [candidates, List.pairwise_append]
    refine ⟨by cases tryRoute method path idx route <;> simp, ih (idx + 1), ?_⟩
    intro c hc d hd
    obtain ⟨hidx, -⟩ := tryRoute_eq_some_iff.mp (Option.mem_toList.mp hc)
    obtain ⟨k, route', -, hk⟩ := mem_candidates.mp hd
    obtain ⟨hidx', -⟩ := tryRoute_eq_some_iff.mp hk
    omega

end Candidates

/-- What a candidate can be: the catch-all, or a pattern that fits. -/
theorem candidate_cases {method : String} {path : Text} {routes : List Route} {c : Candidate}
    (h : c ∈ candidates method path 0 routes) :
    (c.pattern = ⟨[.wildcard []], true⟩ ∧ c.params = []) ∨
      (c.pattern.catchAll = false ∧
        Fits c.pattern.segments (actualSegments path) c.params) := by
  obtain ⟨pattern, -, hcompile, hmatch⟩ := mem_candidates_zero.mp h
  rcases compilePattern_cases hcompile with ⟨-, hr⟩ | ⟨-, hcatch, htail, -⟩
  · refine .inl ⟨hr, ?_⟩
    rw [hr, matchPattern, if_pos rfl] at hmatch
    exact (Option.some.inj hmatch).symm
  · refine .inr ⟨hcatch, ?_⟩
    obtain ⟨idx, ⟨segs, catchAll⟩, params⟩ := c
    obtain rfl : catchAll = false := hcatch
    exact (matchPattern_iff_fits htail).mp hmatch

/-! ### The loop -/

/-- The first element of greatest value, with what is before and behind it. -/
theorem exists_split_of_mem_argmax {α β : Type} [LinearOrder β] {f : α → β} {l : List α} {m : α}
    (h : m ∈ l.argmax f) :
    ∃ pre post, l = pre ++ m :: post ∧ (∀ a ∈ pre, f a < f m) ∧ ∀ a ∈ post, f a ≤ f m := by
  induction l using List.reverseRecOn with
  | nil => cases h
  | append_singleton l a ih =>
    rw [List.argmax_concat] at h
    cases hl : l.argmax f with
    | none =>
      rw [hl] at h
      cases h
      rw [List.argmax_eq_none] at hl
      subst hl
      exact ⟨[], [], rfl, by simp, by simp⟩
    | some b =>
      simp only [hl] at h
      split at h
      · rename_i hlt
        cases h
        refine ⟨l, [], rfl, fun x hx => ?_, by simp⟩
        exact lt_of_le_of_lt (List.le_of_mem_argmax hx hl) hlt
      · rename_i hle
        cases h
        obtain ⟨pre, post, rfl, hpre, hpost⟩ := ih hl
        refine ⟨pre, post ++ [a], by simp, hpre, fun x hx => ?_⟩
        rcases List.mem_append.mp hx with hx | hx
        · exact hpost x hx
        · rw [List.mem_singleton.mp hx]
          exact not_lt.mp hle

/-- Without a pattern that is equal to the path, the loop keeps the first candidate of greatest
score. -/
theorem bestFrom_eq {method : String} {path : Text} {routes : List Route}
    (h : (method, path) ∉ routes) (idx : ℕ) (best : Option Candidate) :
    bestFrom method path idx best routes =
      ((candidates method path idx routes).foldl
        (List.argAux fun c b => b.score.coded < c.score.coded) best).map
          fun b => (b.idx, b.params) := by
  induction routes generalizing idx best with
  | nil => rfl
  | cons route rest ih =>
    rw [List.mem_cons, not_or] at h
    rw [bestFrom, if_neg fun heq => h.1 heq.symm, candidates]
    cases htry : tryRoute method path idx route with
    | none => exact ih h.2 (idx + 1) best
    | some c =>
      simp only [Option.toList_some, List.singleton_append, List.foldl_cons]
      cases best with
      | none => exact ih h.2 (idx + 1) (some c)
      | some b =>
        have hkeep : (if decide (b.score.coded < c.score.coded) = true then some c else some b) =
            List.argAux (fun c b => b.score.coded < c.score.coded) (some b) c := by
          simp [List.argAux]
        rw [← hkeep]
        exact ih h.2 (idx + 1) _

theorem bestMatch_eq {method : String} {path : Text} {routes : List Route}
    (h : (method, path) ∉ routes) : bestMatch routes method path =
      ((candidates method path 0 routes).argmax fun c => c.score.coded).map
        fun b => (b.idx, b.params) :=
  bestFrom_eq h 0 none

/-- A pattern that is equal to the path ends the loop. -/
theorem bestFrom_own {method : String} {path : Text} {pre : List Route}
    (h : (method, path) ∉ pre) (post : List Route) (idx : ℕ) (best : Option Candidate) :
    bestFrom method path idx best (pre ++ (method, path) :: post) =
      some (idx + pre.length, []) := by
  induction pre generalizing idx best with
  | nil => rw [List.nil_append, bestFrom, if_pos rfl]; rfl
  | cons route pre ih =>
    rw [List.mem_cons, not_or] at h
    rw [List.cons_append, bestFrom, if_neg fun heq => h.1 heq.symm, List.length_cons,
      show idx + (pre.length + 1) = idx + 1 + pre.length by omega]
    split
    · exact ih h.2 _ _
    · exact ih h.2 _ _

/-- The chosen route is one of the table. -/
theorem bestFrom_lt {method : String} {path : Text} {routes : List Route} {idx i : ℕ}
    {best : Option Candidate} {ps : Captures} (hbest : ∀ b ∈ best, b.idx < idx + routes.length)
    (h : bestFrom method path idx best routes = some (i, ps)) : i < idx + routes.length := by
  induction routes generalizing idx best with
  | nil =>
    obtain ⟨b, hb, hi⟩ := Option.map_eq_some_iff.mp h
    cases hi
    exact hbest b hb
  | cons route rest ih =>
    have hlen : idx + 1 + rest.length = idx + (route :: rest).length := by
      rw [List.length_cons]
      omega
    rw [bestFrom] at h
    split at h
    · cases h
      rw [List.length_cons]
      omega
    · rw [← hlen] at hbest ⊢
      cases htry : tryRoute method path idx route with
      | none =>
        rw [htry] at h
        exact ih hbest h
      | some c =>
        rw [htry] at h
        have hc := (tryRoute_eq_some_iff.mp htry).1
        have hkept (better : Bool) : ∀ b ∈ (if better = true then some c else best),
            b.idx < idx + 1 + rest.length := by
          cases better with
          | true =>
            intro b hb
            cases hb
            omega
          | false => exact hbest
        exact ih (hkept _) h

/-! ### The two orders -/

theorem Score.rank_le_iff (s t : Score) : s.rank ≤ t.rank ↔ s.literals < t.literals ∨
    s.literals = t.literals ∧ (s.params < t.params ∨
      s.params = t.params ∧ t.wildcards ≤ s.wildcards) := by
  simp [Score.rank, Prod.Lex.toLex_le_toLex]

theorem Score.coded_le_iff (s t : Score) : s.coded ≤ t.coded ↔ s.literals < t.literals ∨
    s.literals = t.literals ∧ (s.params < t.params ∨
      s.params = t.params ∧ s.wildcards ≤ t.wildcards) := by
  simp [Score.coded, Prod.Lex.toLex_le_toLex]

theorem Score.rank_inj (s t : Score) : s.rank = t.rank ↔ s = t := by
  refine ⟨fun h => ?_, fun h => h ▸ rfl⟩
  rw [le_antisymm_iff, s.rank_le_iff, t.rank_le_iff] at h
  rw [Score.ext_iff]
  omega

theorem catchAll_score : matchScore ⟨[.wildcard []], true⟩ = ⟨0, 0, 2⟩ := rfl

/-! ### The exact condition -/

/-- No candidate has more literals, or as many and more parameters. -/
def Top (found : List Candidate) (c : Candidate) : Prop :=
  ∀ d ∈ found, d.score.literals < c.score.literals ∨
    d.score.literals = c.score.literals ∧ d.score.params ≤ c.score.params

/-- Wildcards do not matter: the candidates with the most literals and then parameters have as many
of them, and the path is not left to the unnamed wildcard alone. -/
structure Level (found : List Candidate) (path : Text) : Prop where
  same : ∀ c ∈ found, ∀ d ∈ found, Top found c → Top found d →
    c.score.wildcards = d.score.wildcards
  named : (∀ c ∈ found, c.pattern.catchAll = true) → found = [] ∨ trimSlashes path = ['*']

/-- A pattern that is equal to the path is the right choice: it consists of literals and is the
first that compiles to these, or nothing but `*` matches `*`. -/
def OwnFirst (routes : List Route) (method : String) (path : Text) : Prop :=
  (path = ['*'] ∧ ∀ c ∈ candidates method path 0 routes, c.pattern.catchAll = true) ∨
    ∃ r, compilePattern path = some r ∧ (∀ s ∈ r.segments, s.isLiteral = true) ∧
      ∀ pattern, (method, pattern) ∈ routes.takeWhile (· ≠ (method, path)) →
        compilePattern pattern ≠ some r

section Condition

variable {method : String} {path : Text} {routes : List Route}

theorem candidate_ext {c d : Candidate} (hc : c ∈ candidates method path 0 routes)
    (hd : d ∈ candidates method path 0 routes) (h : c.idx = d.idx) : c = d := by
  obtain ⟨pattern, hpattern, hcompile, hmatch⟩ := mem_candidates_zero.mp hc
  obtain ⟨pattern', hpattern', hcompile', hmatch'⟩ := mem_candidates_zero.mp hd
  obtain ⟨i, r, ps⟩ := c
  obtain ⟨j, r', ps'⟩ := d
  obtain rfl : i = j := h
  rw [hpattern] at hpattern'
  cases hpattern'
  rw [hcompile] at hcompile'
  cases hcompile'
  rw [hmatch] at hmatch'
  cases hmatch'
  rfl

/-- A candidate with two wildcards is the catch-all. -/
theorem catchAll_of_wildcards {c : Candidate} (hc : c ∈ candidates method path 0 routes)
    (h : c.score.wildcards = 2) : c.pattern.catchAll = true := by
  rcases candidate_cases hc with ⟨hpattern, -⟩ | ⟨hcatch, hfits⟩
  · rw [hpattern]
  · have hone := hfits.counts.2.1
    rw [Candidate.score, matchScore, hcatch] at h
    simp only [Bool.false_eq_true, if_false, Nat.add_zero] at h
    omega

theorem restores_of_cases {c : Candidate} (hc : c ∈ candidates method path 0 routes)
    (hstar : c.pattern.catchAll = true → trimSlashes path = ['*']) :
    trimSlashes (joinSlash (substitute c.pattern.segments c.params)) = trimSlashes path := by
  rcases candidate_cases hc with ⟨hpattern, -⟩ | ⟨-, hfits⟩
  · rw [hstar (by rw [hpattern]), hpattern]
    rfl
  · exact hfits.restores

/-- The choice by score is the documented one exactly if wildcards do not matter. -/
theorem precedence_iff_level (h : (method, path) ∉ routes) :
    Precedence routes method path ↔ Level (candidates method path 0 routes) path := by
  have hascend : (candidates method path 0 routes).Pairwise fun c d => c.idx < d.idx :=
    candidates_ascend 0 routes
  rw [Precedence, bestMatch_eq h]
  cases hbest : (candidates method path 0 routes).argmax fun c => c.score.coded with
  | none =>
    rw [List.argmax_eq_none] at hbest
    refine iff_of_true hbest ⟨?_, fun _ => .inl hbest⟩
    rw [hbest]
    simp
  | some m =>
    have hm : m ∈ candidates method path 0 routes := List.argmax_mem hbest
    have hcoded : ∀ d ∈ candidates method path 0 routes, d.score.coded ≤ m.score.coded :=
      fun d hd => List.le_of_mem_argmax (f := fun c => c.score.coded) hd hbest
    have htop : Top (candidates method path 0 routes) m := fun d hd => by
      have := (Score.coded_le_iff _ _).mp (hcoded d hd)
      omega
    change (∃ c, Selected _ path c ∧ c.idx = m.idx ∧ c.params = m.params) ↔ _
    constructor
    · rintro ⟨c, hsel, hidx, -⟩
      obtain rfl := candidate_ext hsel.mem hm hidx
      have hlevel : ∀ d ∈ candidates method path 0 routes,
          Top (candidates method path 0 routes) d → d.score.wildcards = c.score.wildcards := by
        intro d hd hdtop
        have h₁ := (Score.coded_le_iff _ _).mp (hcoded d hd)
        have h₂ := (Score.rank_le_iff _ _).mp (hsel.greatest d hd)
        have h₃ := hdtop c hm
        omega
      refine ⟨fun d hd e he hdtop hetop => (hlevel d hd hdtop).trans (hlevel e he hetop).symm,
        fun hall => .inr ?_⟩
      rcases candidate_cases hm with ⟨hpattern, -⟩ | ⟨hcatch, -⟩
      · rw [← hsel.restores, hpattern]
        rfl
      · rw [hall c hm] at hcatch
        cases hcatch
    · rintro ⟨hsame, hnamed⟩
      refine ⟨m, ⟨hm, fun d hd => ?_, fun d hd hrank => ?_, restores_of_cases hm fun hcatch => ?_⟩,
        rfl, rfl⟩
      · have h₁ := (Score.coded_le_iff _ _).mp (hcoded d hd)
        rw [Score.rank_le_iff]
        by_cases hdtop : Top (candidates method path 0 routes) d
        · have h₂ := hsame d hd m hm hdtop htop
          omega
        · have h₂ : ¬ (d.score.literals = m.score.literals ∧ d.score.params = m.score.params) := by
            rintro ⟨hlit, hparam⟩
            refine hdtop fun e he => ?_
            rw [hlit, hparam]
            exact htop e he
          omega
      · rw [Score.rank_inj] at hrank
        obtain ⟨pre, post, hsplit, hpre, -⟩ := exists_split_of_mem_argmax hbest
        rw [hsplit, List.pairwise_append, List.pairwise_cons] at hascend
        rw [hsplit, List.mem_append, List.mem_cons] at hd
        rcases hd with hd | rfl | hd
        · exact absurd (hpre d hd) (by rw [hrank]; exact lt_irrefl _)
        · exact le_rfl
        · exact (hascend.2.1.1 d hd).le
      · -- the catch-all has the least score but for wildcards, so there is nothing else
        have hscore : m.score = ⟨0, 0, 2⟩ := by
          rcases candidate_cases hm with ⟨hpattern, -⟩ | ⟨hcatch', -⟩
          · rw [Candidate.score, hpattern, catchAll_score]
          · rw [hcatch] at hcatch'
            cases hcatch'
        refine (hnamed fun d hd => catchAll_of_wildcards hd ?_).resolve_left
          (List.ne_nil_of_mem hm)
        have h₁ := htop d hd
        rw [hscore] at h₁
        have hdtop : Top (candidates method path 0 routes) d := fun e he => by
          have h₂ := htop e he
          rw [hscore] at h₂
          dsimp only at h₁ h₂
          omega
        rw [hsame d hd m hm hdtop htop, hscore]

/-- What a candidate is worth at most on a path that is a pattern of literals. -/
theorem rank_le_literals {r : RoutePattern} (hr : compilePattern path = some r)
    (hlit : ∀ s ∈ r.segments, s.isLiteral = true) {d : Candidate}
    (hd : d ∈ candidates method path 0 routes) :
    d.score.rank ≤ (matchScore r).rank ∧ (d.score.rank = (matchScore r).rank → d.pattern = r) := by
  rcases compilePattern_cases hr with ⟨-, rfl⟩ | ⟨-, hcatch, -, hsegs⟩
  · exact absurd (hlit _ List.mem_cons_self) Bool.false_ne_true
  obtain ⟨segs, catchAll⟩ := r
  obtain rfl : catchAll = false := hcatch
  have hsegs := hsegs hlit
  dsimp only at hsegs hlit
  have hfits := fits_literals (actualSegments path)
  rw [← hsegs] at hfits
  have hcount : segs.countP Segment.isLiteral = segs.length := List.countP_eq_length.mpr hlit
  have hlen : segs.length = (actualSegments path).length := by rw [hsegs, List.length_map]
  have hcounts := hfits.counts
  have hscore : matchScore ⟨segs, false⟩ = ⟨segs.length, 0, 0⟩ := by
    rw [matchScore, Score.mk.injEq]
    simp only [Bool.false_eq_true, if_false]
    omega
  rw [hscore, Score.rank_le_iff, Score.rank_inj]
  rcases candidate_cases hd with ⟨hpattern, -⟩ | ⟨hcatch, hdfits⟩
  · rw [Candidate.score, hpattern, catchAll_score]
    dsimp only
    rw [Score.mk.injEq]
    omega
  · obtain ⟨idx, ⟨dsegs, dcatch⟩, params⟩ := d
    obtain rfl : dcatch = false := hcatch
    have hdcounts := hdfits.counts
    dsimp only [Candidate.score, matchScore] at hdcounts ⊢
    simp only [Bool.false_eq_true, if_false]
    refine ⟨by omega, fun heq => ?_⟩
    rw [Score.mk.injEq] at heq
    have hall : ∀ s ∈ dsegs, s.isLiteral = true := List.countP_eq_length.mp (by omega)
    obtain rfl : dsegs = segs := (hdfits.of_literal hall).1.trans hsegs.symm
    rfl

/-- The pattern that is equal to the path is the documented choice. -/
theorem precedence_iff_ownFirst (h : (method, path) ∈ routes) :
    Precedence routes method path ↔ OwnFirst routes method path := by
  obtain ⟨pre, post, rfl, hpre⟩ := List.eq_append_cons_of_mem h
  have htake : (pre ++ (method, path) :: post).takeWhile (· ≠ (method, path)) = pre := by
    have hall : ∀ a ∈ pre, decide (a ≠ (method, path)) = true := fun a ha =>
      decide_eq_true fun heq => hpre (heq ▸ ha)
    rw [List.takeWhile_append_of_pos hall, List.takeWhile_cons_of_neg (by simp), List.append_nil]
  have hbest : bestMatch (pre ++ (method, path) :: post) method path = some (pre.length, []) := by
    rw [bestMatch, bestFrom_own hpre, Nat.zero_add]
  have hown (pattern : Text) : (pre ++ (method, path) :: post)[pre.length]? = some (method, pattern)
      ↔ pattern = path := by
    rw [List.getElem?_append_right le_rfl, Nat.sub_self, List.getElem?_cons_zero,
      Option.some.injEq, Prod.mk.injEq]
    exact ⟨fun h => h.2.symm, fun h => ⟨rfl, h.symm⟩⟩
  have hbefore {d : Candidate} (hd : d ∈ candidates method path 0 (pre ++ (method, path) :: post))
      (hlt : d.idx < pre.length) :
      ∃ pattern, (method, pattern) ∈ pre ∧ compilePattern pattern = some d.pattern := by
    obtain ⟨pattern, hpattern, hcompile, -⟩ := mem_candidates_zero.mp hd
    rw [List.getElem?_append_left hlt] at hpattern
    exact ⟨pattern, List.mem_of_getElem? hpattern, hcompile⟩
  rw [Precedence, hbest, OwnFirst, htake]
  constructor
  · rintro ⟨c, hsel, hidx, hparams⟩
    obtain ⟨pattern, hpattern, hcompile, hmatch⟩ := mem_candidates_zero.mp hsel.mem
    rw [hidx, hown] at hpattern
    subst hpattern
    rcases compilePattern_cases hcompile with ⟨hstar, hr⟩ | ⟨hstar, hcatch, htail, hsegs⟩
    · refine .inl ⟨hstar, fun d hd => ?_⟩
      have hrank := (Score.rank_le_iff _ _).mp (hsel.greatest d hd)
      rw [Candidate.score, Candidate.score, hr, catchAll_score] at hrank
      rcases candidate_cases hd with ⟨hpattern, -⟩ | ⟨hdcatch, hfits⟩
      · rw [hpattern]
      · have hone := hfits.counts.2.1
        simp only [matchScore, hdcatch, Bool.false_eq_true, if_false] at hrank
        omega
    · obtain ⟨idx, ⟨segs, catchAll⟩, params⟩ := c
      obtain rfl : catchAll = false := hcatch
      obtain rfl : params = [] := hparams
      have hlit := ((matchPattern_iff_fits htail).mp hmatch).literal_of_nil
      refine .inr ⟨⟨segs, false⟩, hcompile, hlit, fun other hother hcompile' => ?_⟩
      obtain ⟨k, hk, hget⟩ := List.mem_iff_getElem.mp hother
      have hmem : (⟨k, ⟨segs, false⟩, []⟩ : Candidate) ∈
          candidates method pattern 0 (pre ++ (method, pattern) :: post) := by
        refine mem_candidates_zero.mpr ⟨other, ?_, hcompile', hmatch⟩
        rw [List.getElem?_append_left hk, List.getElem?_eq_getElem hk, hget]
      have hfirst := hsel.first _ hmem rfl
      dsimp only at hidx hfirst
      omega
  · rintro (⟨rfl, hall⟩ | ⟨r, hr, hlit, hno⟩)
    · have hmem : (⟨pre.length, ⟨[.wildcard []], true⟩, []⟩ : Candidate) ∈
          candidates method ['*'] 0 (pre ++ (method, ['*']) :: post) :=
        mem_candidates_zero.mpr ⟨['*'], (hown _).mpr rfl, rfl, rfl⟩
      refine ⟨_, ⟨hmem, fun d hd => ?_, fun d hd _ => ?_, rfl⟩, rfl, rfl⟩
      · rcases candidate_cases hd with ⟨hpattern, -⟩ | ⟨hcatch, -⟩
        · rw [Candidate.score, hpattern]
          exact le_rfl
        · rw [hall d hd] at hcatch
          cases hcatch
      · by_contra hlt
        obtain ⟨pattern, hpattern, hcompile⟩ := hbefore hd (not_le.mp hlt)
        rcases compilePattern_cases hcompile with ⟨rfl, -⟩ | ⟨-, hcatch, -⟩
        · exact hpre hpattern
        · rw [hall d hd] at hcatch
          cases hcatch
    · rcases compilePattern_cases hr with ⟨-, rfl⟩ | ⟨-, hcatch, htail, hsegs⟩
      · exact absurd (hlit _ List.mem_cons_self) Bool.false_ne_true
      obtain ⟨segs, catchAll⟩ := r
      obtain rfl : catchAll = false := hcatch
      have hfits := fits_literals (actualSegments path)
      rw [← hsegs hlit] at hfits
      have hmem : (⟨pre.length, ⟨segs, false⟩, []⟩ : Candidate) ∈
          candidates method path 0 (pre ++ (method, path) :: post) :=
        mem_candidates_zero.mpr
          ⟨path, (hown _).mpr rfl, hr, (matchPattern_iff_fits htail).mpr hfits⟩
      refine ⟨_, ⟨hmem, fun d hd => (rank_le_literals hr hlit hd).1, fun d hd hrank => ?_,
        hfits.restores⟩, rfl, rfl⟩
      by_contra hlt
      obtain ⟨pattern, hpattern, hcompile⟩ := hbefore hd (not_le.mp hlt)
      rw [(rank_le_literals hr hlit hd).2 hrank] at hcompile
      exact hno pattern hpattern hcompile

end Condition

/-- **Routes are chosen as documented** exactly if, where a pattern of the method is equal to the
path, it is the first that compiles to these literals, and elsewhere wildcards do not matter. -/
theorem precedence_iff (routes : List Route) (method : String) (path : Text) :
    Precedence routes method path ↔
      if (method, path) ∈ routes then OwnFirst routes method path
      else Level (candidates method path 0 routes) path := by
  split
  · rename_i h
    exact precedence_iff_ownFirst h
  · rename_i h
    exact precedence_iff_level h

/-- For `/users/5` the route with an empty tail goes before the one without a tail. -/
def tailRoutes : List Route :=
  [("GET", "/users/:id".toList), ("GET", "/users/:id/:rest...".toList)]

theorem empty_tail_preferred : ¬ Precedence tailRoutes "GET" "/users/5".toList := by
  have hbest : bestMatch tailRoutes "GET" "/users/5".toList =
      some (1, [("id".toList, ['5']), ("rest".toList, [])]) := by decide
  have hshort : (⟨0, ⟨[.literal "users".toList, .param "id".toList], false⟩,
      [("id".toList, ['5'])]⟩ : Candidate) ∈ candidates "GET" "/users/5".toList 0 tailRoutes := by
    decide
  intro h
  rw [Precedence, hbest] at h
  obtain ⟨c, hsel, hidx, -⟩ := h
  obtain ⟨pattern, hpattern, hcompile, -⟩ := mem_candidates_zero.mp hsel.mem
  rw [hidx] at hpattern
  cases hpattern
  have hrank := hsel.greatest _ hshort
  have hlong : compilePattern "/users/:id/:rest...".toList = some ⟨[.literal "users".toList,
      .param "id".toList, .wildcard "rest".toList], false⟩ := by decide
  rw [hlong] at hcompile
  rw [Candidate.score, Candidate.score, ← Option.some.inj hcompile] at hrank
  exact absurd hrank (by decide)

end ZzLang.Http
