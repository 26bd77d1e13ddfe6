import ZzLang.Http.Message
import ZzLang.Http.RouteChoice

/-!
# Dispatching a request

A request goes through the middlewares and then to the handler of the route. Each middleware gets
the request as the ones before have left it, can replace it with `.ok` of another request, or end
the dispatch with `.err`. That is a fold over the middlewares (`chain`).

The loop saves a copy of the request by handing the only one over to the last middleware. If that
one answers `.ok` with something that is not a request, nothing is left to go on with: the handler
is called with the unit value. Anywhere else in the chain such an answer leaves the request as it is
(`folds_iff`).

What callables do is a parameter, and so are the rate limit and the files of static roots.
-/

namespace ZzLang.Http.Middleware

/-! ### Values -/

/-- A list of pairs of texts: headers, query or route parameters. -/
abbrev Pairs := List (String × String)

/-- A request as it is handed to middlewares and handlers. -/
structure TypedRequest where
  method : String
  path : String
  body : String
  bodyRaw : Option Bytes
  headers : Pairs
  query : Pairs
  params : Pairs

/-- `http.response(…)`. -/
structure ResponseValue where
  status : ℕ
  body : String
  headers : Pairs

/-- Values, as far as the dispatch looks at them. -/
inductive HttpValue (O : Type)
  | unit
  | str (s : String)
  | request (req : TypedRequest)
  | response (res : ResponseValue)
  | dict (entries : List (HttpValue O × HttpValue O))
  | array (items : List (HttpValue O))
  | other (o : O)

/-- What a call returns: a result value, or a value of another kind. -/
inductive Answer (O : Type)
  | ok (val : HttpValue O)
  | err (val : HttpValue O)
  | plain (val : HttpValue O)

variable {O : Type}

/-- A typed request or a legacy dict. -/
def HttpValue.isRequest : HttpValue O → Bool
  | .request _ | .dict _ => true
  | _ => false

/-- `k == "params"`. -/
def HttpValue.isParamsKey : HttpValue O → Bool
  | .str s => s == "params"
  | _ => false

/-! ### The server -/

/-- A status, the bytes of a body, and headers. -/
structure Dispatched where
  status : ℕ
  body : Bytes
  headers : Pairs

/-- What the dispatch uses of a server and of the rest of the interpreter. A callable takes its
arguments to an answer or to the text of an error. -/
structure Server (O : Type) where
  routes : List (String × Text × (HttpValue O → Except String (Answer O)))
  middlewares : List (HttpValue O → Except String (Answer O))
  postMiddlewares : List (HttpValue O → HttpValue O → Except String (Answer O))
  staticDirs : List (Text × Text)
  /-- `check_rate_limit`: the seconds to wait, if the peer is over its limit. -/
  checkRateLimit : Option ℕ
  /-- `serve_static_file` for a directory, a path in it and the headers. -/
  serveStaticFile : Text → Text → Pairs → Except String Dispatched
  /-- `{}`. -/
  display : Answer O → String
  /-- `to_json_string(jsonify_value(…))`. -/
  toJson : HttpValue O → String
  /-- `String::from_utf8_lossy`. -/
  lossy : Bytes → String

def textPlain : Pairs := [("Content-Type", "text/plain; charset=utf-8")]

def buildRequestDict (lossy : Bytes → String) (method path : String) (body : Bytes)
    (headers query params : Pairs) : TypedRequest where
  method := method
  path := path
  body := lossy body
  bodyRaw := some body
  headers := headers
  query := query
  params := params

/-! ### The chain -/

/-- How a chain of middlewares ends: with a response or an error, or with a request. -/
inductive ChainEnd (O : Type)
  | stopped (result : Except String Dispatched)
  | passed (req : HttpValue O)

/-- The arguments of the calls, in order, and the end. -/
structure ChainRun (O : Type) where
  args : List (HttpValue O)
  last : ChainEnd O

/-- The response that a middleware rejects a request with. -/
def rejection (display : Answer O → String) : HttpValue O → Dispatched
  | .response r => ⟨r.status, bytes r.body, r.headers⟩
  | other => ⟨401, bytes (display (.plain other)), []⟩

def badAnswer (display : Answer O → String) (val : HttpValue O) : String :=
  "std.http: middleware returned \x60" ++ display (.plain val) ++ "\x60, expected .ok or .err"

/-- The loop of `dispatch_with_request` over the middlewares. -/
def runChain (display : Answer O → String) (current : HttpValue O) :
    List (HttpValue O → Except String (Answer O)) → ChainRun O
  | [] => ⟨[], .passed current⟩
  | mw :: rest =>
    -- the last middleware gets the request itself, not a copy
    let left := if rest = [] then .unit else current
    match mw current with
    | .error e => ⟨[current], .stopped (.error e)⟩
    | .ok (.plain val) => ⟨[current], .stopped (.error (badAnswer display val))⟩
    | .ok (.err val) => ⟨[current], .stopped (.ok (rejection display val))⟩
    | .ok (.ok val) =>
      let run := runChain display (if val.isRequest then val else left) rest
      ⟨current :: run.args, run.last⟩

/-! ### Routes and files -/

/-- `allowed_methods`: the methods with a route that matches, each once. -/
def allowedMethods (routes : List Route) (path : Text) : List String :=
  routes.foldl
    (fun seen route =>
      if route.1 ∈ seen then seen
      else if route.2 = path ∨ ((compilePattern route.2).bind (matchPattern · path)).isSome then
        seen ++ [route.1]
      else seen)
    []

def stripStaticPrefix (pre path : Text) : Option Text :=
  if pre = ['/'] then some path
  else if path = pre then some ['/']
  else if pre <+: path ∧ (path.drop pre.length).head? = some '/' then some (path.drop pre.length)
  else none

/-- The static root with the longest prefix, and the path in it. -/
def staticRoot (path : Text) : List (Text × Text) → Option (ℕ × Text × Text) →
    Option (ℕ × Text × Text)
  | [], best => best
  | (pre, dir) :: rest, best =>
    match stripStaticPrefix pre path with
    | none => staticRoot path rest best
    | some sub =>
      if best.all fun b => decide (b.1 < pre.length) then
        staticRoot path rest (some (pre.length, dir, sub))
      else staticRoot path rest best

/-- The request with the captures as its route parameters, if there are any. -/
def enrich (params : Captures) (req : HttpValue O) : HttpValue O :=
  if params = [] then req
  else
    match req with
    | .request r =>
      .request { r with params := params.map fun p => (String.ofList p.1, String.ofList p.2) }
    | .dict entries =>
      -- no pair with this key is left that could be overwritten
      .dict (entries.filter (fun e => !e.1.isParamsKey) ++ [(.str "params", .dict (params.map
        fun p => (.str (String.ofList p.1), .str (String.ofList p.2))))])
    | other => other

/-- `apply_post_middlewares`. -/
def applyPostMiddlewares (server : Server O) (req : HttpValue O) (res : Dispatched) :
    Except String Dispatched :=
  let rec go (res : ResponseValue) :
      List (HttpValue O → HttpValue O → Except String (Answer O)) → Except String Dispatched
    | [] => .ok ⟨res.status, bytes res.body, res.headers⟩
    | post :: rest =>
      match post req (.response res) with
      | .error e => .error e
      | .ok (.plain (.response r)) => go r rest
      | .ok other => .error ("std.http: post-middleware returned \x60" ++ server.display other ++
          "\x60, expected http.response")
  go ⟨res.status, server.lossy res.body, res.headers⟩ server.postMiddlewares

/-- What a handler's answer is sent as. -/
def respond (server : Server O) : Answer O → Dispatched
  | .plain (.str s) => ⟨200, bytes s, textPlain⟩
  | .plain (.response r) => ⟨r.status, bytes r.body, r.headers⟩
  | .plain (.dict entries) => ⟨200, bytes (server.toJson (.dict entries)),
      [("Content-Type", "application/json; charset=utf-8")]⟩
  | .plain (.array items) => ⟨200, bytes (server.toJson (.array items)),
      [("Content-Type", "application/json; charset=utf-8")]⟩
  | other => ⟨200, bytes (server.display other), textPlain⟩

/-! ### The dispatch -/

/-- A dispatch: the arguments that the middlewares were called with, the handler that was called
with its argument, and the result. -/
structure Dispatch (O : Type) where
  middlewareArgs : List (HttpValue O)
  handled : Option (ℕ × HttpValue O)
  result : Except String Dispatched

/-- `(method, pattern)` pairs. -/
def Server.pairs (server : Server O) : List Route := server.routes.map fun r => (r.1, r.2.1)

/-- No route matches: another method, a file, or nothing. -/
def unrouted (server : Server O) (method : String) (path : Text) (headers : Pairs)
    (req : HttpValue O) : Except String Dispatched :=
  if matchesOtherMethod server.pairs method path then
    .ok ⟨405, bytes "Method Not Allowed",
      [("Allow", ", ".intercalate (allowedMethods server.pairs path))]⟩
  else
    match staticRoot path server.staticDirs none with
    | some (_, dir, sub) =>
      match server.serveStaticFile dir sub headers with
      | .error e => .error e
      | .ok res => applyPostMiddlewares server req res
    | none => .error ("std.http: no route for " ++ method ++ " " ++ String.ofList path)

/-- What comes behind the middlewares. -/
def afterChain (server : Server O) (method : String) (path : Text) (headers : Pairs)
    (args : List (HttpValue O)) (req : HttpValue O) : Dispatch O :=
  match bestMatch server.pairs method path with
  | none => ⟨args, none, unrouted server method path headers req⟩
  | some (idx, params) =>
    match server.routes[idx]? with
    | none => ⟨args, none, .error "index out of bounds"⟩
    | some (_, _, handler) =>
      let enriched := enrich params req
      match handler enriched with
      | .error e => ⟨args, some (idx, enriched), .error e⟩
      | .ok answer =>
        let res := respond server answer
        ⟨args, some (idx, enriched),
          if server.postMiddlewares = [] then .ok res
          else applyPostMiddlewares server enriched res⟩

/-- The request that the chain starts with. -/
def startRequest (server : Server O) (method : String) (path : Text) (body : Bytes)
    (headers query params : Pairs) : HttpValue O :=
  .request (buildRequestDict server.lossy method (String.ofList path) body headers query params)

def dispatchWithRequest (server : Server O) (method : String) (path : Text) (body : Bytes)
    (headers query params : Pairs) : Dispatch O :=
  match server.checkRateLimit with
  | some retryAfter => ⟨[], none, .ok ⟨429, bytes "Too Many Requests",
      textPlain ++ [("Retry-After", toString retryAfter)]⟩⟩
  | none =>
    let req := startRequest server method path body headers query params
    let run := runChain server.display req server.middlewares
    match run.last with
    | .stopped result => ⟨run.args, none, result⟩
    | .passed req => afterChain server method path headers run.args req

/-! ### The fold -/

/-- The chain as it is meant: a middleware that answers `.ok` without a request leaves the request
as it is. -/
def chain (display : Answer O → String) (req : HttpValue O) :
    List (HttpValue O → Except String (Answer O)) → ChainRun O
  | [] => ⟨[], .passed req⟩
  | mw :: rest =>
    match mw req with
    | .error e => ⟨[req], .stopped (.error e)⟩
    | .ok (.plain val) => ⟨[req], .stopped (.error (badAnswer display val))⟩
    | .ok (.err val) => ⟨[req], .stopped (.ok (rejection display val))⟩
    | .ok (.ok val) =>
      let run := chain display (if val.isRequest then val else req) rest
      ⟨req :: run.args, run.last⟩

/-- **The dispatch is a fold**: the middlewares are called as in the chain; if it is stopped, so is
the dispatch, and if it passes a request, the handler of the matching route gets this request with
its captures. -/
structure Folds (server : Server O) (method : String) (path : Text) (req : HttpValue O)
    (run : Dispatch O) : Prop where
  calls : run.middlewareArgs = (chain server.display req server.middlewares).args
  stops : ∀ result, (chain server.display req server.middlewares).last = .stopped result →
    run.handled = none ∧ run.result = result
  handles : ∀ req', (chain server.display req server.middlewares).last = .passed req' →
    ∀ idx params, bestMatch server.pairs method path = some (idx, params) →
      run.handled = some (idx, enrich params req')

/-- The last middleware, if it is reached, does not answer `.ok` without a request. -/
def LastKeeps (server : Server O) (req : HttpValue O) : Prop :=
  ∀ init (mw : HttpValue O → Except String (Answer O)), server.middlewares = init ++ [mw] →
    ∀ req', (chain server.display req init).last = .passed req' →
      ∀ val, mw req' = .ok (.ok val) → val.isRequest = true

/-! ### The two chains -/

section Chains

variable {display : Answer O → String}

theorem chain_append_singleton (req : HttpValue O)
    (init : List (HttpValue O → Except String (Answer O)))
    (mw : HttpValue O → Except String (Answer O)) :
    chain display req (init ++ [mw]) =
      match (chain display req init).last with
      | .stopped result => ⟨(chain display req init).args, .stopped result⟩
      | .passed req' =>
        ⟨(chain display req init).args ++ (chain display req' [mw]).args,
          (chain display req' [mw]).last⟩ := by
  induction init generalizing req with
  | nil => rfl
  | cons m init ih =>
    rw [List.cons_append, chain, chain]
    cases hm : m req with
    | error e => rfl
    | ok answer =>
      cases answer with
      | plain val | err val => rfl
      | ok val =>
        simp only [ih]
        cases (chain display (if val.isRequest then val else req) init).last <;> rfl

/-- The loop differs from the chain in what the last middleware leaves behind. -/
theorem runChain_append_singleton (req : HttpValue O)
    (init : List (HttpValue O → Except String (Answer O)))
    (mw : HttpValue O → Except String (Answer O)) :
    runChain display req (init ++ [mw]) =
      match (chain display req init).last with
      | .stopped result => ⟨(chain display req init).args, .stopped result⟩
      | .passed req' =>
        ⟨(chain display req init).args ++ (runChain display req' [mw]).args,
          (runChain display req' [mw]).last⟩ := by
  induction init generalizing req with
  | nil => rfl
  | cons m init ih =>
    rw [List.cons_append, runChain, chain, if_neg (List.append_ne_nil_of_right_ne_nil _ (by simp))]
    cases hm : m req with
    | error e => rfl
    | ok answer =>
      cases answer with
      | plain val | err val => rfl
      | ok val =>
        simp only [ih]
        cases (chain display (if val.isRequest then val else req) init).last <;> rfl

/-- A single middleware. -/
theorem runChain_singleton (req : HttpValue O) (mw : HttpValue O → Except String (Answer O)) :
    runChain display req [mw] = chain display req [mw] ∨
      ∃ val, mw req = .ok (.ok val) ∧ val.isRequest = false ∧
        runChain display req [mw] = ⟨[req], .passed .unit⟩ := by
  rw [runChain, chain, if_pos rfl]
  cases hm : mw req with
  | error e => exact .inl rfl
  | ok answer =>
    cases answer with
    | plain val | err val => exact .inl rfl
    | ok val =>
      cases hval : val.isRequest with
      | true =>
        simp only [hval, if_true]
        exact .inl rfl
      | false =>
        simp only [hval, Bool.false_eq_true, if_false]
        exact .inr ⟨val, rfl, hval, rfl⟩

theorem chain_args_ne_nil (display : Answer O → String) (req : HttpValue O)
    (mw : HttpValue O → Except String (Answer O))
    (rest : List (HttpValue O → Except String (Answer O))) :
    (chain display req (mw :: rest)).args ≠ [] := by
  rw [chain]
  cases mw req with
  | error e => exact List.cons_ne_nil _ _
  | ok answer => cases answer <;> exact List.cons_ne_nil _ _

/-- What a chain passes on is a request if it starts with one. -/
theorem chain_passed_isRequest {req req' : HttpValue O} (hreq : req.isRequest = true)
    {mws : List (HttpValue O → Except String (Answer O))}
    (h : (chain display req mws).last = .passed req') : req'.isRequest = true := by
  induction mws generalizing req with
  | nil =>
    cases h
    exact hreq
  | cons mw mws ih =>
    rw [chain] at h
    cases hm : mw req with
    | error e => rw [hm] at h; cases h
    | ok answer =>
      rw [hm] at h
      cases answer with
      | plain val | err val => cases h
      | ok val =>
        refine ih ?_ h
        split
        · assumption
        · exact hreq

end Chains

/-- Parameters do not make a request of the unit value, nor the other way round. -/
theorem isRequest_enrich (params : Captures) (req : HttpValue O) :
    (enrich params req).isRequest = req.isRequest := by
  unfold enrich
  split
  · rfl
  · cases req <;> rfl

section Condition

variable {server : Server O} {method : String} {path : Text} {headers : Pairs}

theorem afterChain_middlewareArgs (args : List (HttpValue O)) (req : HttpValue O) :
    (afterChain server method path headers args req).middlewareArgs = args := by
  rw [afterChain]
  split
  · rfl
  · split
    · rfl
    · dsimp only
      split <;> rfl

/-- The handler of the matching route is called, whatever is registered to come after it. -/
theorem afterChain_handled {args : List (HttpValue O)} {req : HttpValue O} {idx : ℕ}
    {params : Captures} (h : bestMatch server.pairs method path = some (idx, params)) :
    (afterChain server method path headers args req).handled = some (idx, enrich params req) := by
  have hlt := bestFrom_lt (by simp) h
  rw [Nat.zero_add, Server.pairs, List.length_map] at hlt
  rw [afterChain, h]
  dsimp only
  rw [List.getElem?_eq_getElem hlt]
  dsimp only
  split <;> rfl

/-- The loop is the chain, or the last middleware has left nothing. -/
theorem runChain_cases (display : Answer O → String) (req : HttpValue O)
    (mws : List (HttpValue O → Except String (Answer O))) :
    runChain display req mws = chain display req mws ∨
      ∃ init, ∃ mw : HttpValue O → Except String (Answer O), ∃ req' val,
        mws = init ++ [mw] ∧ (chain display req init).last = .passed req' ∧
        mw req' = .ok (.ok val) ∧ val.isRequest = false ∧
        runChain display req mws = ⟨(chain display req mws).args, .passed .unit⟩ ∧
        (chain display req mws).last = .passed req' := by
  rcases List.eq_nil_or_concat mws with rfl | ⟨init, mw, rfl⟩
  · exact .inl rfl
  · rw [List.concat_eq_append, runChain_append_singleton, chain_append_singleton]
    cases hinit : (chain display req init).last with
    | stopped result => exact .inl rfl
    | passed req' =>
      rcases @runChain_singleton _ display req' mw with h | ⟨val, hmw, hval, h⟩
      · exact .inl (by simp only [h])
      · refine .inr ⟨init, mw, req', val, rfl, hinit, hmw, hval, ?_⟩
        have hchain : chain display req' [mw] = ⟨[req'], .passed req'⟩ := by
          rw [chain, hmw]
          simp only [hval, Bool.false_eq_true, if_false]
          rfl
        simp only [h, hchain]
        exact ⟨trivial, trivial⟩

/-- **The dispatch is a fold over the middlewares** exactly if the rate limit does not stand in the
way, and the last middleware keeps a request where a handler is to be called. -/
theorem folds_iff (server : Server O) (method : String) (path : Text) (body : Bytes)
    (headers query params : Pairs) :
    Folds server method path (startRequest server method path body headers query params)
        (dispatchWithRequest server method path body headers query params) ↔
      (server.checkRateLimit = none ∧
          LastKeeps server (startRequest server method path body headers query params) ∨
        (server.checkRateLimit = none ∨ server.middlewares = []) ∧
          bestMatch server.pairs method path = none) := by
  set req := startRequest server method path body headers query params with hdef
  have hreq : req.isRequest = true := rfl
  cases hlimit : server.checkRateLimit with
  | some retryAfter =>
    have hrun : dispatchWithRequest server method path body headers query params = ⟨[], none, .ok
        ⟨429, bytes "Too Many Requests", textPlain ++ [("Retry-After", toString retryAfter)]⟩⟩ := by
      rw [dispatchWithRequest, hlimit]
    rw [hrun]
    simp only [reduceCtorEq, false_and, false_or]
    constructor
    · intro h
      have hnil : server.middlewares = [] := by
        by_contra hne
        obtain ⟨mw, rest, hmws⟩ := List.exists_cons_of_ne_nil hne
        have hcalls := h.calls
        rw [hmws] at hcalls
        exact chain_args_ne_nil _ _ _ _ hcalls.symm
      refine ⟨hnil, ?_⟩
      cases hbest : bestMatch server.pairs method path with
      | none => rfl
      | some chosen =>
        have hhandled := h.handles req (by rw [hnil]; rfl) chosen.1 chosen.2 hbest
        cases hhandled
    · rintro ⟨hnil, hbest⟩
      refine ⟨by rw [hnil]; rfl, fun result hlast => ?_, fun req' _ idx ps h => ?_⟩
      · rw [hnil] at hlast
        cases hlast
      · rw [hbest] at h
        cases h
  | none =>
    have hrun : dispatchWithRequest server method path body headers query params =
        match (runChain server.display req server.middlewares).last with
        | .stopped result =>
          ⟨(runChain server.display req server.middlewares).args, none, result⟩
        | .passed req' => afterChain server method path headers
            (runChain server.display req server.middlewares).args req' := by
      rw [dispatchWithRequest, hlimit]
    rw [hrun]
    simp only [true_and, true_or]
    rcases runChain_cases server.display req server.middlewares with
      heq | ⟨init, mw, req', val, hmws, hinit, hmw, hval, hleft, hpassed⟩
    · rw [heq]
      refine iff_of_true ?_ (.inl fun init mw hmws req' hinit val hmw => ?_)
      · cases hlast : (chain server.display req server.middlewares).last with
        | stopped result =>
          refine ⟨rfl, fun result' h => ?_, fun req' h => ?_⟩
          · rw [hlast] at h
            cases h
            exact ⟨rfl, rfl⟩
          · rw [hlast] at h
            cases h
        | passed req' =>
          refine ⟨afterChain_middlewareArgs _ _, fun result h => ?_, fun req'' h idx ps hbest => ?_⟩
          · rw [hlast] at h
            cases h
          · rw [hlast] at h
            cases h
            exact afterChain_handled hbest
      · -- the unit value is nothing that the chain could have passed on
        by_contra hval
        rw [Bool.not_eq_true] at hval
        have hunit : (chain server.display req server.middlewares).last = .passed .unit := by
          rw [← heq, hmws, runChain_append_singleton]
          simp only [hinit]
          rw [runChain, if_pos rfl, hmw]
          simp only [hval, Bool.false_eq_true, if_false]
          rfl
        exact absurd (chain_passed_isRequest hreq hunit) Bool.false_ne_true
    · have hnot : ¬ LastKeeps server req := fun h => by
        rw [h init mw hmws req' hinit val hmw] at hval
        cases hval
      rw [hleft]
      simp only [hnot, false_or]
      constructor
      · intro h
        cases hbest : bestMatch server.pairs method path with
        | none => rfl
        | some chosen =>
          have hhandled := h.handles req' hpassed chosen.1 chosen.2 hbest
          rw [afterChain_handled hbest] at hhandled
          have hsame := congrArg HttpValue.isRequest (Prod.mk.inj (Option.some.inj hhandled)).2
          rw [isRequest_enrich, isRequest_enrich, chain_passed_isRequest hreq hpassed] at hsame
          cases hsame
      · intro hbest
        refine ⟨afterChain_middlewareArgs _ _, fun result h => ?_, fun req'' _ idx ps h => ?_⟩
        · rw [hpassed] at h
          cases h
        · rw [hbest] at h
          cases h

end Condition

/-- `|req| { if req.path == "/health" { return .ok(req) }  .ok(()) }`. A closure's type is that of
its `return`s, and the checker lets a tail of another type pass. -/
def logRequest : HttpValue Unit → Except String (Answer Unit)
  | .request req => if req.path = "/health" then .ok (.ok (.request req)) else .ok (.ok .unit)
  | _ => .error "cannot access field \x60path\x60"

/-- A server with one route and this middleware. -/
def loggingServer : Server Unit where
  routes := [("GET", ['/'], fun _ => .ok (.plain (.str "hello")))]
  middlewares := [logRequest]
  postMiddlewares := []
  staticDirs := []
  checkRateLimit := none
  serveStaticFile := fun _ _ _ => .error "not found"
  display := fun _ => ""
  toJson := fun _ => ""
  lossy := fun _ => ""

/-- Its handler gets the unit value for a request. -/
theorem loggingServer_not_folds : ¬ Folds loggingServer "GET" ['/']
    (startRequest loggingServer "GET" ['/'] [] [] [] [])
    (dispatchWithRequest loggingServer "GET" ['/'] [] [] [] []) := by
  intro h
  have hhandled := h.handles _ rfl 0 [] rfl
  cases (Prod.mk.inj (Option.some.inj hhandled)).2

end ZzLang.Http.Middleware
