import ZzLang.Http.Message

/-!
# The loop of a connection

The server reads a connection in two ways. The head of a request is gathered by reads of up to
8 KiB until the empty line is among the bytes read, and the body by reads of up to 64 KiB until as
many bytes have come as the head says. Either read may bring more than was asked for, and what it
brings beyond the request is in a buffer that ends with the request.

What is answered and by whom is a parameter (`Server`): the handlers with their state, the table
of the WebSocket upgrades and the rate limit. Writes succeed.
-/

namespace ZzLang.Http

/-! ### Reads -/

/-- What has yet to be read of a connection: the segments in which the bytes arrive, and whether
the read after the last one fails or finds the end. -/
structure Stream where
  segments : List Bytes
  fails : Bool

namespace Stream

/-- The bytes that have yet to be read. -/
def content (s : Stream) : Bytes := s.segments.flatten

/-- No segment is empty: a read that brings nothing has found the end. -/
def Proper (s : Stream) : Prop := ∀ seg ∈ s.segments, seg ≠ []

/-- A measure that every read of something makes smaller. -/
def size (s : Stream) : ℕ := (s.segments.map fun seg => seg.length + 1).sum

/-- `Read::read` with a buffer of `k` bytes. -/
def read (k : ℕ) (s : Stream) : Option Bytes × Stream :=
  match s.segments with
  | [] => (if s.fails then none else some [], s)
  | seg :: rest =>
    if seg.length ≤ k then (some seg, { s with segments := rest })
    else (some (seg.take k), { s with segments := seg.drop k :: rest })

theorem read_content {k : ℕ} {s s' : Stream} {chunk : Bytes} (h : s.read k = (some chunk, s')) :
    chunk ++ s'.content = s.content := by
  rw [read] at h
  split at h
  · rename_i hs
    obtain ⟨hc, rfl⟩ := Prod.mk.inj h
    split_ifs at hc
    obtain rfl := Option.some_inj.mp hc
    rfl
  · rename_i seg rest hs
    split_ifs at h <;> obtain ⟨hc, rfl⟩ := Prod.mk.inj h <;> obtain rfl := Option.some_inj.mp hc
    · simp [content, hs]
    · simp [content, hs, ← List.append_assoc]

theorem read_size {k : ℕ} [hk : NeZero k] {s s' : Stream} {b : UInt8} {bs : Bytes}
    (h : s.read k = (some (b :: bs), s')) : s'.size < s.size := by
  rw [read] at h
  split at h
  · split_ifs at h <;> cases h
  · rename_i seg rest hs
    split_ifs at h with hle <;> obtain ⟨hc, rfl⟩ := Prod.mk.inj h
    · simp [size, hs]
    · have := hk.pos
      simp only [size, hs, List.map_cons, List.sum_cons, List.length_drop]
      omega

theorem Proper.read {k : ℕ} {s : Stream} (hs : s.Proper) : (s.read k).2.Proper := by
  rw [Stream.read]
  split
  · exact hs
  · rename_i seg rest hseg
    rw [Proper, hseg] at hs
    split_ifs with hle
    · exact fun g hg => hs g (List.mem_cons_of_mem _ hg)
    · rintro g hg
      rcases List.mem_cons.mp hg with rfl | hg
      · exact fun h => hle (List.drop_eq_nil_iff.mp h)
      · exact hs g (List.mem_cons_of_mem _ hg)

/-- Where there are bytes, a read brings some. -/
theorem Proper.exists_read {k : ℕ} [hk : NeZero k] {s : Stream} (hs : s.Proper)
    (hne : s.content ≠ []) : ∃ b bs, (s.read k).1 = some (b :: bs) := by
  rw [Stream.read]
  split
  · rename_i hseg
    simp [content, hseg] at hne
  · rename_i seg rest hseg
    have hseg : seg ≠ [] := hs seg (by simp [hseg])
    obtain ⟨b, bs, rfl⟩ := List.exists_cons_of_ne_nil hseg
    split_ifs with hle
    · exact ⟨b, bs, rfl⟩
    · obtain ⟨k, rfl⟩ := Nat.exists_eq_succ_of_ne_zero hk.out
      exact ⟨b, bs.take k, rfl⟩

end Stream

/-- `read_until_delim`, after `buf` has been read: `none` is a failed read, and `some none` more
than `cap` bytes. -/
def readUntilDelim (delim : Bytes) (cap : ℕ) (s : Stream) (buf : Bytes) :
    Option (Option Bytes) × Stream :=
  match _h : s.read 8192 with
  | (none, s') => (none, s')
  | (some [], s') => (some (some buf), s')
  | (some (b :: bs), s') =>
    if cap < (buf ++ b :: bs).length then (some none, s')
    else if (findSubslice (buf ++ b :: bs) delim).isSome then (some (some (buf ++ b :: bs)), s')
    else readUntilDelim delim cap s' (buf ++ b :: bs)
termination_by s.size
decreasing_by exact Stream.read_size _h

/-- The loop of `read_exact_capped`, with `remaining` bytes to read behind `out`. -/
def readRemaining (s : Stream) (out : Bytes) (remaining : ℕ) : Option Bytes × Stream :=
  if remaining = 0 then (some out, s) else
    match _h : s.read 65536 with
    | (none, s') => (none, s')
    | (some [], s') => (none, s')
    | (some (b :: bs), s') =>
      readRemaining s' (out ++ (b :: bs).take remaining)
        (remaining - min (b :: bs).length remaining)
termination_by s.size
decreasing_by exact Stream.read_size _h

/-- `read_exact_capped`. -/
def readExactCapped (s : Stream) (buffered : Bytes) (total cap : ℕ) : Option Bytes × Stream :=
  if cap < total then (none, s)
  else readRemaining s (buffered.take total) (total - min buffered.length total)

/-! ### The server -/

/-- `MAX_HEAD_BYTES`. -/
def maxHeadBytes : ℕ := 64 * 1024

/-- What of `ServerLimits` the loop reads. -/
structure ServerLimits where
  maxReqsPerConn : UInt64
  maxBodyBytes : UInt64

/-- `MAX_REQS_PER_CONN` and `MAX_BODY_BYTES`. -/
instance : Inhabited ServerLimits := ⟨{ maxReqsPerConn := 1000, maxBodyBytes := 50 * 1024 * 1024 }⟩

/-- What a handler is called with. -/
structure Call where
  method : String
  path : String
  body : Bytes
  headers : List (String × Bytes)
  query : List (String × String)

/-- A status, a body and the fields of the handler. -/
abbrev DispatchResult := ℕ × Bytes × List (String × String)

/-- The parts of a server that its loop calls, over the state `σ` of the interpreter. -/
structure Server (σ H : Type) where
  /-- `dispatch_with_request`; an error is its message. -/
  dispatch : σ → Call → Except String DispatchResult × σ
  /-- `match_hijack`, with the method, the path, the headers and the query. -/
  matchHijack : String → String → List (String × Bytes) → List (String × String) → Option H
  /-- `check_rate_limit`, where there is a limiter: the seconds to wait when it refuses. -/
  rateLimit : Option (σ → Option ℕ × σ)
  hsts : Bool

/-- `Loop`. -/
inductive Loop (H : Type)
  | next
  | close
  | hijack (h : H)

/-- A request as it is dispatched, with the bytes of the head it was read from. -/
@[ext]
structure Dispatched where
  head : Bytes
  method : String
  rawPath : String
  headers : List (String × Bytes)
  body : Bytes

/-- What `handle_one_request` leaves behind: what it wrote, one entry a write, the request it
dispatched, and the stream and the state after it. -/
structure Turn (σ H : Type) where
  loop : Loop H
  writes : List Bytes
  dispatched : Option Dispatched
  stream : Stream
  interp : σ

variable {σ H : Type}

/-- An error is answered, and the connection closed. -/
def refuse (status : ℕ) (message : String) (writes : List Bytes) (stream : Stream) (interp : σ) :
    Turn σ H where
  loop := .close
  writes := writes ++ [formatResponse status message]
  dispatched := none
  stream := stream
  interp := interp

/-- The connection is closed without an answer. -/
def closeSilently (stream : Stream) (interp : σ) : Turn σ H where
  loop := .close
  writes := []
  dispatched := none
  stream := stream
  interp := interp

/-- `HSTS` on a TLS listener; a field of the handler wins. -/
def withHsts (hsts : Bool) (headers : List (String × String)) : List (String × String) :=
  if hsts ∧ ¬ headers.any (fun f => eqIgnoreAsciiCase f.1 "strict-transport-security") then
    headers ++ [("Strict-Transport-Security", "max-age=31536000; includeSubDomains")]
  else headers

/-- What is written for the outcome of a dispatch. -/
def responseTo (hsts : Bool) (method : String) (keepAlive : Bool)
    (result : Except String DispatchResult) : Bytes :=
  let (status, body, headers) :=
    match result with
    | .ok r => r
    | .error message => (500, bytes message, [])
  let response := formatResponseWithHeaders status (withHsts hsts headers) body keepAlive
  -- For HEAD the body, which is the end of the response, is cut off.
  if method = "HEAD" then response.take (response.length - body.length) else response

/-- An upgrade route has taken the request: it is handed over, unless the rate limit refuses. -/
def serveHijack (server : Server σ H) (hijack : H) (stream : Stream) (interp : σ) : Turn σ H :=
  let limit := (server.rateLimit.map (· interp)).getD (none, interp)
  match limit.1 with
  | some retryAfter =>
    { loop := .close
      writes := [formatResponseWithHeaders 429
        [("Content-Type", "text/plain; charset=utf-8"), ("Retry-After", toString retryAfter)]
        (bytes "Too Many Requests") false]
      dispatched := none
      stream := stream
      interp := limit.2 }
  | none =>
    { loop := .hijack hijack, writes := [], dispatched := none, stream := stream
      interp := limit.2 }

/-- The answer to `Expect: 100-continue`, before the body is read. -/
def goAhead (head : ParsedHead) : List Bytes :=
  if head.expectContinue ∧ 0 < head.contentLength then
    [bytes "HTTP/1.1 100 Continue\r\n\r\n"]
  else []

/-- The request is dispatched and answered. -/
def serveBody (server : Server σ H) (headBuf : Bytes) (head : ParsedHead) (body : Bytes)
    (stream : Stream) (interp : σ) : Turn σ H :=
  let target := splitTarget head.rawPath
  let keepAlive := foldConnection head.version11 head.connection
  let outcome := server.dispatch interp
    { method := head.method, path := target.1, body := body, headers := head.headers
      query := target.2 }
  { loop := if keepAlive then .next else .close
    writes := goAhead head ++ [responseTo server.hsts head.method keepAlive outcome.1]
    dispatched := some
      { head := headBuf.take head.headLen, method := head.method, rawPath := head.rawPath
        headers := head.headers, body := body }
    stream := stream
    interp := outcome.2 }

/-- The upgrade route that takes a request. -/
def hijackOf (server : Server σ H) (allowHijack : Bool) (head : ParsedHead) : Option H :=
  if allowHijack then
    server.matchHijack head.method (splitTarget head.rawPath).1 head.headers
      (splitTarget head.rawPath).2
  else none

/-- The rest of `handle_one_request`, with the head read. -/
def serveHead (server : Server σ H) (limits : ServerLimits) (allowHijack : Bool) (headBuf : Bytes)
    (head : ParsedHead) (stream : Stream) (interp : σ) : Turn σ H :=
  match hijackOf server allowHijack head with
  | some hijack => serveHijack server hijack stream interp
  | none =>
    if limits.maxBodyBytes.toNat < head.contentLength then
      refuse 413 "payload too large" [] stream interp
    else
      -- What the head buffer holds behind the head belongs to the body.
      match readExactCapped stream (headBuf.drop head.headLen) head.contentLength
          limits.maxBodyBytes.toNat with
      | (none, stream) => refuse 400 "truncated body" (goAhead head) stream interp
      | (some body, stream) => serveBody server headBuf head body stream interp

/-- `handle_one_request`. -/
def handleOneRequest (httparse : Bytes → Httparse) (server : Server σ H) (limits : ServerLimits)
    (allowHijack : Bool) (stream : Stream) (interp : σ) : Turn σ H :=
  match readUntilDelim headEnd maxHeadBytes stream [] with
  | (none, stream) => closeSilently stream interp
  | (some none, stream) => refuse 431 "headers too large" [] stream interp
  | (some (some headBuf), stream) =>
    if headBuf = [] then closeSilently stream interp
    else
      match parseHead httparse headBuf with
      | .error .tooManyHeaders => refuse 431 "headers too large" [] stream interp
      | .error .malformed => refuse 400 "bad request" [] stream interp
      | .ok head => serveHead server limits allowHijack headBuf head stream interp

/-- The loop of `handle_connection_thread`, with `fuel` requests to go: the turns it takes. -/
def turns (httparse : Bytes → Httparse) (server : Server σ H) (limits : ServerLimits)
    (allowHijack : Bool) : ℕ → Stream → σ → List (Turn σ H)
  | 0, _, _ => []
  | n + 1, stream, interp =>
    let turn := handleOneRequest httparse server limits allowHijack stream interp
    match turn.loop with
    | .next => turn :: turns httparse server limits allowHijack n turn.stream turn.interp
    | _ => [turn]

/-- `handle_connection_thread`. -/
def handleConnection (httparse : Bytes → Httparse) (server : Server σ H) (limits : ServerLimits)
    (allowHijack : Bool) (stream : Stream) (interp : σ) : List (Turn σ H) :=
  turns httparse server limits allowHijack limits.maxReqsPerConn.toNat stream interp

/-- The requests that a connection dispatches. -/
def dispatches (ts : List (Turn σ H)) : List Dispatched := ts.filterMap Turn.dispatched

end ZzLang.Http
