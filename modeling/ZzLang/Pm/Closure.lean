import ZzLang.Pm.Features

/-!
# The closure of dependencies

`walk_closure` goes through the manifests of the packages that a project depends on, and notes for
each package which packages it depends on: in `reqs`, with the requirements of a package by the
packages that have them, and in `edges`, with the packages that a package depends on. Into `edges`
it also puts a node for the project itself, under the name `ROOT`.

`check_closure_cycles` searches `edges` for a cycle, in depth-first order, with a colour for each
node: 1 while its search goes on and 2 after it. It calls itself, and `fuel` bounds how deep.
-/

namespace ZzLang.Pm

local instance isTransString : IsTrans String fun a b => a ≤ b := inferInstance

local instance antisymmString : Std.Antisymm fun a b : String => a ≤ b := inferInstance

local instance totalString : Std.Total fun a b : String => a ≤ b := inferInstance

/-- The name of the node for the project. -/
def root : String := "ROOT"

/-- Why a resolution fails. -/
inductive ResolveError (Err : Type) where
  | circularDependency (chain : List String)
  | feature (message : String)
  /-- The errors of reading manifests and of choosing versions. -/
  | other (e : Err)

/-- One parent's requirement on a transitive package. -/
structure ParentReq where
  parent : String
  spec : DepSpec

/-- What the walk reads and fetches: manifests in directories, and choices of versions, with a cache
of what the registry knows. -/
structure Packages (Err Dir Dep Cache : Type) where
  /-- `load_child_manifest`. -/
  loadChildManifest : Dir → String → Except Err (Option Manifest)
  /-- `place_transitive_dep`, for one requirement. -/
  placeTransitiveDep : String → ParentReq → (AList fun _ : String => Dir) → Cache →
    Except Err (Dep × Option Dir × Cache)
  /-- `choice_content_dir` of a pin, without those of paths. -/
  choiceContentDir : Dep → Option Dir
  depName : Dep → String
  isPath : Dep → Bool

/-- The state of the walk. The end of the queue is the head of the list. -/
structure Walk (Dir Dep Cache : Type) where
  visited : Finset String
  queue : List (String × Dir)
  featureReqs : AList fun _ : String => Finset String
  choices : AList fun _ : String => Dep
  dirs : AList fun _ : String => Dir
  cache : Cache
  reqs : AList fun _ : String => List ParentReq
  edges : AList fun _ : String => List String

/-- `map.entry(key).or_default().push(value)`. -/
def pushEntry {β : Type} (map : AList fun _ : String => List β) (key : String) (value : β) :
    AList fun _ : String => List β :=
  map.insert key ((map.lookup key).getD [] ++ [value])

/-- `active_dep_names`. -/
def activeDepNames (m : Manifest) (requested : List String) : Except String (Finset String) := do
  m.enabledDependencies (← m.enabledFeatures requested false)

/-- `sort` of names. -/
def sortNames (names : List String) : List String :=
  names.mergeSort fun a b => decide (a ≤ b)

section Walking

variable {Err Dir Dep Cache : Type} (P : Packages Err Dir Dep Cache) (direct : Finset String)

/-- The loop over the pins that seeds `dirs`. -/
def seedDirs (choices : AList fun _ : String => Dep) (dirs : AList fun _ : String => Dir) :
    AList fun _ : String => Dir :=
  (choices.entries.map Sigma.snd).foldl (fun dirs dep =>
    if P.isPath dep ∨ P.depName dep ∈ dirs then dirs
    else
      match P.choiceContentDir dep with
      | some dir => dirs.insert (P.depName dep) dir
      | none => dirs) dirs

/-- The state before the loop of `walk_closure`, from what earlier passes have left. -/
def Walk.start (featureReqs : AList fun _ : String => Finset String)
    (choices : AList fun _ : String => Dep) (dirs : AList fun _ : String => Dir) (cache : Cache) :
    Walk Dir Dep Cache :=
  let dirs := seedDirs P choices dirs
  let directNames := direct.sort (· ≤ ·)
  { visited := ∅
    queue := (directNames.filterMap fun name => (dirs.lookup name).map (name, ·)).reverse
    featureReqs := featureReqs
    choices := choices
    dirs := dirs
    cache := cache
    reqs := ∅
    edges := (∅ : AList fun _ : String => List String).insert root directNames }

/-- What the walk notes about a child of a package. -/
def Walk.note (s : Walk Dir Dep Cache) (pkg child : String) (spec : DepSpec) :
    Walk Dir Dep Cache :=
  { s with
    featureReqs := s.featureReqs.insert child
      ((s.featureReqs.lookup child).getD ∅ ∪ spec.features.toFinset)
    edges := pushEntry s.edges pkg child
    reqs := pushEntry s.reqs child ⟨pkg, spec⟩ }

/-- `queue.push` of a child whose directory is known. -/
def Walk.push (s : Walk Dir Dep Cache) (child : String) : Walk Dir Dep Cache :=
  match s.dirs.lookup child with
  | some dir => { s with queue := (child, dir) :: s.queue }
  | none => s

/-- The body of the loop over the children of a package. -/
def Walk.child (pkg : String) (s : Walk Dir Dep Cache) (child : String) (spec : DepSpec) :
    Except (ResolveError Err) (Walk Dir Dep Cache) :=
  let s := s.note pkg child spec
  if child ∈ s.visited then .ok s
  else if child ∈ direct then .ok s
  else if child ∈ s.choices then .ok (s.push child)
  else
    match P.placeTransitiveDep child ⟨pkg, spec⟩ s.dirs s.cache with
    | .error e => .error (.other e)
    | .ok (dep, dir, cache) =>
      let dirs :=
        match dir with
        | some dir => s.dirs.insert child dir
        | none => s.dirs
      .ok (Walk.push { s with dirs := dirs, choices := s.choices.insert child dep, cache := cache }
        child)

/-- The loop over the children of a package. -/
def Walk.children (m : Manifest) (pkg : String) (s : Walk Dir Dep Cache) :
    List String → Except (ResolveError Err) (Walk Dir Dep Cache)
  | [] => .ok s
  | child :: rest =>
    match m.dependencies.lookup child with
    | some spec =>
      match Walk.child P direct pkg s child spec with
      | .ok s => Walk.children m pkg s rest
      | .error e => .error e
    -- the names are keys
    | none => Walk.children m pkg s rest

/-- A turn of the loop of `walk_closure`, for the package that leaves the queue. -/
def Walk.turn (s : Walk Dir Dep Cache) (pkg : String) (dir : Dir) :
    Except (ResolveError Err) (Walk Dir Dep Cache) :=
  if pkg ∈ s.visited then .ok s
  else
    let s := { s with visited := insert pkg s.visited }
    match P.loadChildManifest dir pkg with
    | .error e => .error (.other e)
    | .ok none => .ok s
    | .ok (some m) =>
      let requested := ((s.featureReqs.lookup pkg).getD ∅).sort (· ≤ ·)
      match activeDepNames m requested with
      | .error message => .error (.feature message)
      | .ok active => s.children P direct m pkg (sortNames (m.dependencies.keys.filter (· ∈ active)))

/-- The loop of `walk_closure`, until the queue is empty. -/
inductive Walk.Ends : Walk Dir Dep Cache → Walk Dir Dep Cache → Prop
  | done {s : Walk Dir Dep Cache} : s.queue = [] → Ends s s
  | turn {s s₁ s' : Walk Dir Dep Cache} {pkg : String} {dir : Dir}
      {queue : List (String × Dir)} : s.queue = (pkg, dir) :: queue →
        Walk.turn P direct { s with queue := queue } pkg dir = .ok s₁ → Ends s₁ s' → Ends s s'

end Walking

/-! ### The check -/

/-- The colours of the nodes that have one. -/
abbrev Colors := AList fun _ : String => ℕ

/-- `dedup`, which drops equal neighbours. -/
def dedup : List String → List String
  | [] => []
  | [a] => [a]
  | a :: b :: rest => if a = b then dedup (b :: rest) else a :: dedup (b :: rest)

/-- The children of a node as the search goes through them. -/
def sortedChildren (edges : AList fun _ : String => List String) (node : String) : List String :=
  match edges.lookup node with
  | some children => dedup (sortNames children)
  | none => []

mutual

/-- `dfs_visit`. -/
def dfsVisit (edges : AList fun _ : String => List String) (fuel : ℕ) (node : String)
    (color : Colors) (stack : List String) : Option (Except (List String) (Colors × List String)) :=
  match fuel with
  | 0 => none
  | fuel + 1 =>
    match dfsChildren edges fuel (sortedChildren edges node) (color.insert node 1)
      (stack ++ [node]) with
    | some (.ok (color, stack)) => some (.ok (color.insert node 2, stack.dropLast))
    | r => r
termination_by (fuel, 0)

/-- The loop of `dfs_visit` over the children. -/
def dfsChildren (edges : AList fun _ : String => List String) (fuel : ℕ) (children : List String)
    (color : Colors) (stack : List String) : Option (Except (List String) (Colors × List String)) :=
  match children with
  | [] => some (.ok (color, stack))
  | child :: rest =>
    if child = root then dfsChildren edges fuel rest color stack
    else if (color.lookup child).getD 0 = 0 then
      match dfsVisit edges fuel child color stack with
      | some (.ok (color, stack)) => dfsChildren edges fuel rest color stack
      | r => r
    else if (color.lookup child).getD 0 = 1 then
      let chain := stack.drop ((stack.idxOf? child).getD 0) ++ [child]
      some (.error (chain.filter (· ≠ root)))
    else dfsChildren edges fuel rest color stack
termination_by (fuel, children.length)

end

/-- The loop of `check_closure_cycles` over the nodes. -/
def checkNodes (edges : AList fun _ : String => List String) (fuel : ℕ) (color : Colors)
    (stack : List String) : List String → Option (Except (List String) Unit)
  | [] => some (.ok ())
  | node :: nodes =>
    if node ∈ color then checkNodes edges fuel color stack nodes
    else
      match dfsVisit edges fuel node color stack with
      | some (.ok (color, stack)) => checkNodes edges fuel color stack nodes
      | some (.error chain) => some (.error chain)
      | none => none

/-- `check_closure_cycles`. An error is the chain of a `CircularDependency`. -/
def checkClosureCycles (fuel : ℕ) (edges : AList fun _ : String => List String) :
    Option (Except (List String) Unit) :=
  checkNodes edges fuel ∅ [] (sortNames edges.keys)

end ZzLang.Pm
