import Mathlib.Data.List.Forall2
import ZzLang.Http.ResponseRules

/-!
# The framing of responses

The server writes a response as one text, with the length of the body in front and the fields of
the handler behind. Whatever it is given is written, so a client reads the responses to a sequence
of requests as they were meant exactly when each of them is one that a client can read at all: the
names are tokens, the values valid, the status is not an interim one, a response that has no body by
its method or status is given none, and no field of the handler says another length
(`responses_iff`).
-/

namespace ZzLang.Http

/-! ### What handlers return -/

/-- `http.response`. -/
structure Response where
  status : ℕ
  inRange : 100 ≤ status ∧ status ≤ 599
  body : Bytes
  headers : List (String × String)

/-- `http_respond`, called with an integer, a text and a dictionary of texts. -/
def httpRespond (status : ℤ) (body : String) (headers : List (String × String)) :
    Except String Response :=
  if h : 100 ≤ status ∧ status ≤ 599 then
    .ok { status := status.toNat, inRange := by omega, body := bytes body, headers }
  else .error s!"std.http.respond: status {status} out of range (100–599)"

/-- A status that is out of range is refused, and everything else is taken as it is. -/
theorem httpRespond_eq_ok_iff {status : ℤ} {body : String} {headers : List (String × String)}
    {r : Response} : httpRespond status body headers = .ok r ↔
      (r.status : ℤ) = status ∧ r.body = bytes body ∧ r.headers = headers := by
  obtain ⟨code, hrange, text, fields⟩ := r
  rw [httpRespond]
  split_ifs with h
  · simp only [Except.ok.injEq, Response.mk.injEq]
    constructor
    · rintro ⟨rfl, rfl, rfl⟩
      exact ⟨Int.toNat_of_nonneg (by omega), rfl, rfl⟩
    · rintro ⟨rfl, rfl, rfl⟩
      exact ⟨rfl, rfl, rfl⟩
  · refine iff_of_false (by simp) fun hcode => h ?_
    have hcode : (code : ℤ) = status := hcode.1
    omega

/-- What comes of a dispatched request: a text, also the display of a value; the JSON text of a
dictionary or an array; a response, verbatim; or an error. -/
inductive Outcome
  | text (s : String)
  | json (s : String)
  | response (r : Response)
  | error (message : String)

/-- The result of `dispatch_with_request`. -/
def Outcome.result : Outcome → Except String DispatchResult
  | .text s => .ok (200, bytes s, [("Content-Type", "text/plain; charset=utf-8")])
  | .json s => .ok (200, bytes s, [("Content-Type", "application/json; charset=utf-8")])
  | .response r => .ok (r.status, r.body, r.headers)
  | .error message => .error message

/-- The status, the body and the fields that are answered with. -/
def Outcome.answer (o : Outcome) : DispatchResult :=
  match o.result with
  | .ok r => r
  | .error message => (500, bytes message, [])

/-- A dispatched request and what came of it. -/
structure Exchange where
  method : String
  expectContinue : Bool
  keepAlive : Bool
  outcome : Outcome

namespace Exchange

variable (hsts : Bool) (e : Exchange)

/-- What the server writes. -/
def written : Bytes :=
  (if e.expectContinue then bytes "HTTP/1.1 100 Continue\r\n\r\n" else []) ++
    responseTo hsts e.method e.keepAlive e.outcome.result

def status : ℕ := e.outcome.answer.1

def body : Bytes := e.outcome.answer.2.1

/-- The fields of the handler, and the one that a TLS listener adds. -/
def headers : List (String × String) := withHsts hsts e.outcome.answer.2.2

/-- All fields of the response. -/
def fields : List (Bytes × Bytes) :=
  (bytes "Content-Length", bytes (toString e.body.length)) ::
    (bytes "Connection", bytes (if e.keepAlive then "keep-alive" else "close")) ::
    (e.headers hsts).map fun f => (bytes f.1, bytes f.2)

/-- The response as a client is to read it; there is no body after `HEAD`. -/
def expected : Parsed where
  status := e.status
  fields := e.fields hsts
  body := if e.method = "HEAD" then [] else e.body

/-- The response is one that can be read: valid fields, a final status, no body where there is
none, and otherwise no other length. -/
structure Framed : Prop where
  names : ∀ f ∈ e.headers hsts, ValidName (bytes f.1)
  values : ∀ f ∈ e.headers hsts, ValidValue (bytes f.2)
  status : 200 ≤ e.status
  bodyless : e.method ≠ "HEAD" → Bodyless e.method e.status → e.body = []
  coding : ¬ Bodyless e.method e.status →
    ∀ f ∈ e.headers hsts, isNamed "transfer-encoding" (bytes f.1) = false
  lengths : ¬ Bodyless e.method e.status → ∀ f ∈ e.headers hsts,
    isNamed "content-length" (bytes f.1) = true →
      numeral (bytes f.2) = some e.body.length

end Exchange

/-- What is written for a request that is dispatched. -/
theorem written_serveBody {σ H : Type} (server : Server σ H) (headBuf : Bytes) (head : ParsedHead)
    (body : Bytes) (stream : Stream) (interp : σ) {o : Outcome}
    (ho : (server.dispatch interp ⟨head.method, (splitTarget head.rawPath).1, body, head.headers,
      (splitTarget head.rawPath).2⟩).1 = o.result) :
    (serveBody server headBuf head body stream interp).writes.flatten =
      Exchange.written server.hsts
        { method := head.method
          expectContinue := head.expectContinue && decide (0 < head.contentLength)
          keepAlive := foldConnection head.version11 head.connection
          outcome := o } := by
  rw [serveBody, Exchange.written, ← ho]
  dsimp only
  rw [List.flatten_append, List.flatten_singleton, goAhead]
  congr 1
  by_cases h : head.expectContinue = true ∧ 0 < head.contentLength
  · rw [if_pos h, if_pos (by simpa using h), List.flatten_singleton]
  · rw [if_neg h, if_neg (by simpa using h), List.flatten_nil]

/-! ### Numbers -/

theorem isDigit_lt {c : Char} (h : c.isDigit = true) : c.toNat < 128 := by
  simp [Char.isDigit, UInt32.le_iff_toNat_le] at h
  omega

theorem bytes_ofList_of_lt {cs : List Char} (h : ∀ c ∈ cs, c.toNat < 128) :
    bytes (String.ofList cs) = cs.map fun c => c.val.toUInt8 := by
  rw [bytes_ofList, List.map_eq_flatMap]
  exact List.flatMap_congr fun c hc => utf8EncodeChar_of_lt (h c hc)

theorem toList_toString (n : ℕ) : (toString n).toList = Nat.toDigits 10 n := Nat.toList_repr

theorem bytes_toString (n : ℕ) :
    bytes (toString n) = (Nat.toDigits 10 n).map fun c => c.val.toUInt8 := by
  rw [← bytes_ofList_of_lt fun c hc =>
    isDigit_lt (Nat.isDigit_of_mem_toDigits (by omega) (by omega) hc), ← toList_toString,
    String.ofList_toList]

theorem toNat_toUInt8 {c : Char} (h : c.toNat < 128) : c.val.toUInt8.toNat = c.toNat := by
  rw [UInt32.toNat_toUInt8]
  exact Nat.mod_eq_of_lt (Nat.lt_trans h (by omega))

theorem ofUInt8_toUInt8 {c : Char} (h : c.toNat < 128) : Char.ofUInt8 c.val.toUInt8 = c := by
  refine Char.ext (UInt32.toNat_inj.mp ?_)
  exact (UInt8.toNat_toUInt32 _).trans (toNat_toUInt8 h)

/-- A number is written as a numeral that says it. -/
theorem numeral_toString (n : ℕ) : numeral (bytes (toString n)) = some n := by
  have hdigit : ∀ c ∈ Nat.toDigits 10 n, c.isDigit = true := fun c hc =>
    Nat.isDigit_of_mem_toDigits (by omega) (by omega) hc
  have hchars : (bytes (toString n)).map Char.ofUInt8 = Nat.toDigits 10 n := by
    rw [bytes_toString, List.map_map]
    exact (List.map_congr_left fun c hc => ofUInt8_toUInt8 (isDigit_lt (hdigit c hc))).trans
      (List.map_id _)
  rw [numeral, hchars, Db.parseDigits,
    if_pos ⟨Nat.toDigits_ne_nil, List.all_eq_true.mpr hdigit⟩, ← Nat.ofDigitChars_eq_foldl,
    Nat.ofDigitChars_ten_toDigits]

theorem digit_of_mem {n : ℕ} {b : UInt8} (h : b ∈ bytes (toString n)) : 48 ≤ b ∧ b ≤ 57 := by
  rw [bytes_toString] at h
  obtain ⟨c, hc, rfl⟩ := List.mem_map.mp h
  have hdigit := Nat.isDigit_of_mem_toDigits (by omega) (by omega) hc
  rw [UInt8.le_iff_toNat_le, UInt8.le_iff_toNat_le, toNat_toUInt8 (isDigit_lt hdigit)]
  simpa [Char.isDigit, UInt32.le_iff_toNat_le] using hdigit

theorem validValue_of_forall {v : Bytes} (h : ∀ b ∈ v, isFieldByte b = true ∧ isOws b = false) :
    ValidValue v where
  all b hb := (h b hb).1
  first b hb := (h b (List.mem_of_mem_head? hb)).2
  last b hb := (h b (List.mem_of_getLast? hb)).2

theorem validValue_toString (n : ℕ) : ValidValue (bytes (toString n)) := by
  refine validValue_of_forall fun b hb => ?_
  obtain ⟨h48, h57⟩ := digit_of_mem hb
  rw [UInt8.le_iff_toNat_le] at h48 h57
  simp [isFieldByte, isOws, ← UInt8.toNat_inj, UInt8.le_iff_toNat_le] at h48 h57 ⊢
  omega

/-! ### The text of a response, line by line -/

theorem flatMap_lines (lines : List Bytes) (line : Bytes) :
    (line :: lines).flatMap (· ++ crlf) = line ++ lines.flatMap (crlf ++ ·) ++ crlf := by
  induction lines generalizing line with
  | nil => simp
  | cons l lines ih =>
    rw [List.flatMap_cons, ih, List.flatMap_cons]
    simp only [List.append_assoc]

/-- The status line. -/
def statusLine (status : ℕ) : String := "HTTP/1.1 " ++ toString status ++ " " ++ httpReason status

theorem formatResponseWithHeaders_eq (status : ℕ) (headers : List (String × String)) (body : Bytes)
    (keepAlive : Bool) :
    formatResponseWithHeaders status headers body keepAlive =
      (bytes (statusLine status) :: (((bytes "Content-Length", bytes (toString body.length)) ::
        (bytes "Connection", bytes (if keepAlive then "keep-alive" else "close")) ::
        headers.map fun f => (bytes f.1, bytes f.2)).map fun f => f.1 ++ 58 :: 32 :: f.2)).flatMap
          (· ++ crlf) ++ (crlf ++ body) := by
  have hcolon : bytes ": " = [58, 32] := by decide
  have hlength : bytes "Content-Length: " = bytes "Content-Length" ++ [58, 32] := by decide
  have hconn : bytes "Connection: " = bytes "Connection" ++ [58, 32] := by decide
  have hheaders : formatHeaders headers =
      ((headers.map fun f => (bytes f.1, bytes f.2)).map fun f => f.1 ++ 58 :: 32 :: f.2).flatMap
        (crlf ++ ·) := by
    rw [formatHeaders, hcolon, List.map_map, List.flatMap_map]
    simp
  rw [flatMap_lines, formatResponseWithHeaders, hheaders, hlength, hconn, statusLine]
  simp only [bytes_append, List.map_cons, List.flatMap_cons, headEnd, List.append_assoc,
    List.cons_append, List.nil_append]

theorem isFieldByte_httpReason (status : ℕ) :
    ∀ b ∈ bytes (httpReason status), isFieldByte b = true := by
  unfold httpReason
  split <;> exact List.all_eq_true.mp (by decide)

theorem parseStatusLine_statusLine {status : ℕ} (h : 100 ≤ status ∧ status ≤ 599) :
    parseStatusLine (bytes (statusLine status)) = some status := by
  have hlength : (bytes (toString status)).length = 3 := by
    rw [bytes_toString, List.length_map]
    have h3 := (Nat.length_toDigits_le_iff (b := 10) (k := 3) (by omega) (by omega)).mpr
      (show status < 10 ^ 3 by omega)
    have h2 := (Nat.length_toDigits_le_iff (b := 10) (k := 2) (n := status) (by omega)
      (by omega)).not.mpr (by omega)
    omega
  have hversion : (bytes "HTTP/1.1 ").length = 9 := by decide
  have hspace : bytes " " = [32] := by decide
  have htake : (bytes (statusLine status)).take 9 = bytes "HTTP/1.1 " := by
    rw [statusLine, bytes_append, bytes_append, bytes_append, List.append_assoc, List.append_assoc]
    exact List.take_left' hversion
  have hcode : ((bytes (statusLine status)).drop 9).take 3 = bytes (toString status) := by
    rw [statusLine, bytes_append, bytes_append, bytes_append, List.append_assoc, List.append_assoc,
      List.drop_left' hversion]
    exact List.take_left' hlength
  have hreason : (bytes (statusLine status)).drop 12 = 32 :: bytes (httpReason status) := by
    rw [statusLine, bytes_append, bytes_append, bytes_append, hspace, List.append_assoc]
    refine List.drop_left' ?_
    rw [List.length_append, hversion, hlength]
  rw [parseStatusLine, htake, hcode, hreason, numeral_toString]
  refine if_pos ⟨rfl, rfl, List.all_eq_true.mpr fun b hb => ?_⟩
  rcases List.mem_cons.mp hb with rfl | hb
  · decide
  · exact isFieldByte_httpReason status b hb

theorem notMem_statusLine (status : ℕ) : 13 ∉ bytes (statusLine status) := by
  rw [statusLine, bytes_append, bytes_append, bytes_append]
  simp only [List.mem_append, not_or]
  refine ⟨⟨⟨by decide, fun h => ?_⟩, by decide⟩, fun h => ?_⟩
  · exact absurd (digit_of_mem h).1 (by decide)
  · exact isFieldByte_ne (isFieldByte_httpReason status _ h) rfl

/-! ### One exchange -/

namespace Exchange

variable {hsts : Bool} {e : Exchange}

theorem responseTo_eq (hsts : Bool) (e : Exchange) :
    responseTo hsts e.method e.keepAlive e.outcome.result =
      (bytes (statusLine e.status) :: (e.fields hsts).map fun f => f.1 ++ 58 :: 32 :: f.2).flatMap
        (· ++ crlf) ++ (crlf ++ (e.expected hsts).body) := by
  have hresult : responseTo hsts e.method e.keepAlive e.outcome.result =
      if e.method = "HEAD" then
        (formatResponseWithHeaders e.status (e.headers hsts) e.body e.keepAlive).take
          ((formatResponseWithHeaders e.status (e.headers hsts) e.body e.keepAlive).length -
            e.body.length)
      else formatResponseWithHeaders e.status (e.headers hsts) e.body e.keepAlive := by
    unfold responseTo status headers body Outcome.answer
    rcases e.outcome.result with message | ⟨status, body, headers⟩ <;> rfl
  have hformat := formatResponseWithHeaders_eq e.status (e.headers hsts) e.body e.keepAlive
  rw [hresult, expected]
  by_cases hhead : e.method = "HEAD"
  · rw [if_pos hhead, if_pos hhead, hformat, ← List.append_assoc, List.append_nil,
      List.length_append, Nat.add_sub_cancel, List.take_left]
    rfl
  · rw [if_neg hhead, if_neg hhead, hformat]
    rfl

theorem status_inRange (e : Exchange) : 100 ≤ e.status ∧ e.status ≤ 599 := by
  rw [status]
  rcases e.outcome with s | s | r | message
  · exact (by decide : 100 ≤ 200 ∧ 200 ≤ 599)
  · exact (by decide : 100 ≤ 200 ∧ 200 ≤ 599)
  · exact r.inRange
  · exact (by decide : 100 ≤ 500 ∧ 500 ≤ 599)

theorem valid_fields (h : e.Framed hsts) :
    ∀ f ∈ e.fields hsts, ValidName f.1 ∧ ValidValue f.2 := by
  have hlength : ValidName (bytes "Content-Length") := ⟨by decide +kernel, by decide +kernel⟩
  have hconnection : ValidName (bytes "Connection") := ⟨by decide +kernel, by decide +kernel⟩
  intro f hf
  rcases List.mem_cons.mp hf with rfl | hf
  · exact ⟨hlength, validValue_toString _⟩
  rcases List.mem_cons.mp hf with rfl | hf
  · refine ⟨hconnection, ?_⟩
    rcases e.keepAlive <;> exact ⟨by decide +kernel, by decide +kernel, by decide +kernel⟩
  · obtain ⟨g, hg, rfl⟩ := List.mem_map.mp hf
    exact ⟨h.names g hg, h.values g hg⟩

theorem contentLengths_fields (e : Exchange) : contentLengths (e.fields hsts) =
    bytes (toString e.body.length) ::
      contentLengths ((e.headers hsts).map fun f => (bytes f.1, bytes f.2)) := by
  have hlength : isNamed "content-length" (bytes "Content-Length") = true := by decide
  have hconnection : ¬ isNamed "content-length" (bytes "Connection") = true := by decide
  simp only [contentLengths, fields, List.filter_cons, hlength, hconnection, if_true]
  rfl

theorem mem_contentLengths {v : Bytes} :
    v ∈ contentLengths ((e.headers hsts).map fun f => (bytes f.1, bytes f.2)) ↔
      ∃ f ∈ e.headers hsts, isNamed "content-length" (bytes f.1) = true ∧
        bytes f.2 = v := by
  rw [contentLengths, List.filter_map, List.map_map, List.mem_map]
  simp only [List.mem_filter, Function.comp_apply, and_assoc]

/-- The body of a response that can be read. -/
theorem parseBody_eq (h : e.Framed hsts) (rest : Bytes) :
    parseBody e.method e.status (e.fields hsts) ((e.expected hsts).body ++ rest) =
      some ((e.expected hsts).body, rest) := by
  by_cases hless : Bodyless e.method e.status
  · have hnil : (e.expected hsts).body = [] := by
      rw [expected]
      split_ifs with hhead
      · rfl
      · exact h.bodyless hhead hless
    rw [parseBody, if_pos hless, hnil, List.nil_append]
  · have hbody : (e.expected hsts).body = e.body := if_neg fun hhead => hless (.inl hhead)
    have hlength : isNamed "transfer-encoding" (bytes "Content-Length") = false := by
      decide
    have hconnection : isNamed "transfer-encoding" (bytes "Connection") = false := by
      decide
    have hcoding : ¬ (e.fields hsts).any (fun f => isNamed "transfer-encoding" f.1) = true := by
      rw [Bool.not_eq_true, List.any_eq_false]
      intro f hf
      rcases List.mem_cons.mp hf with rfl | hf
      · exact Bool.eq_false_iff.mp hlength
      rcases List.mem_cons.mp hf with rfl | hf
      · exact Bool.eq_false_iff.mp hconnection
      · obtain ⟨g, hg, rfl⟩ := List.mem_map.mp hf
        exact Bool.eq_false_iff.mp (h.coding hless g hg)
    have hlengths : (contentLengths ((e.headers hsts).map fun f => (bytes f.1, bytes f.2))).all
        (fun v => numeral v = some e.body.length) = true := by
      refine List.all_eq_true.mpr fun v hv => ?_
      obtain ⟨f, hf, hnamed, rfl⟩ := mem_contentLengths.mp hv
      exact decide_eq_true (h.lengths hless f hf hnamed)
    rw [parseBody, if_neg hless, if_neg hcoding, contentLengths_fields, hbody]
    dsimp only
    rw [numeral_toString]
    dsimp only
    rw [if_pos ⟨hlengths, by simp⟩, List.take_left, List.drop_left]

/-- An interim response is passed over. -/
theorem parseResponse_goAhead (method : String) (rest : Bytes) :
    parseResponse method (bytes "HTTP/1.1 100 Continue\r\n\r\n" ++ rest) =
      parseResponse method rest := by
  have hline : parseStatusLine (bytes (statusLine 100)) = some 100 :=
    parseStatusLine_statusLine ⟨le_rfl, by omega⟩
  have htext : bytes "HTTP/1.1 100 Continue\r\n\r\n" =
      bytes (statusLine 100) ++ (crlf ++ crlf) := by
    decide
  have happend := parseResponse_append method [] rest hline (notMem_statusLine 100) (by simp)
  rw [if_pos (by omega)] at happend
  rw [← happend, htext]
  simp

/-- A response that can be read is read as it was meant. -/
theorem parseResponse_written (h : e.Framed hsts) (rest : Bytes) :
    parseResponse e.method (e.written hsts ++ rest) = some (e.expected hsts, rest) := by
  have hresponse : parseResponse e.method
      (responseTo hsts e.method e.keepAlive e.outcome.result ++ rest) =
        some (e.expected hsts, rest) := by
    rw [responseTo_eq, List.append_assoc, List.append_assoc,
      parseResponse_append _ _ _ (parseStatusLine_statusLine e.status_inRange)
        (notMem_statusLine _) (valid_fields h), if_neg (by have := h.status; omega), parseBody_eq h]
    rfl
  rw [written]
  split_ifs
  · rw [List.append_assoc, parseResponse_goAhead, hresponse]
  · rw [List.nil_append, hresponse]

/-- A response that a client reads as it was meant is one that can be read. -/
theorem framed_of_sound (h : (e.expected hsts).Sound e.method) : e.Framed hsts := by
  have hmem : ∀ f ∈ e.headers hsts, (bytes f.1, bytes f.2) ∈ (e.expected hsts).fields :=
    fun f hf => List.mem_cons_of_mem _ (List.mem_cons_of_mem _ (List.mem_map_of_mem hf))
  have hbody : e.method ≠ "HEAD" → (e.expected hsts).body = e.body := fun hhead => if_neg hhead
  exact
    { names := fun f hf => (h.fields _ (hmem f hf)).1
      values := fun f hf => (h.fields _ (hmem f hf)).2
      status := h.status
      bodyless := fun hhead hless => hbody hhead ▸ h.bodyless hless
      coding := fun hless f hf => h.coding hless _ (hmem f hf)
      lengths := fun hless f hf hnamed => by
        rw [← hbody fun hhead => hless (.inl hhead)]
        refine h.lengths hless _ (List.mem_map.mpr ⟨(bytes f.1, bytes f.2), ?_, rfl⟩)
        exact List.mem_filter.mpr ⟨hmem f hf, hnamed⟩ }

end Exchange

/-- **One request of a connection**: what the server writes for it is read as the response that was
meant, whatever is written behind it, exactly when that response can be read. -/
theorem serveBody_read_iff {σ H : Type} (server : Server σ H) (headBuf : Bytes) (head : ParsedHead)
    (body : Bytes) (stream : Stream) (interp : σ) {o : Outcome}
    (ho : (server.dispatch interp ⟨head.method, (splitTarget head.rawPath).1, body, head.headers,
      (splitTarget head.rawPath).2⟩).1 = o.result) {e : Exchange}
    (he : e = { method := head.method
                expectContinue := head.expectContinue && decide (0 < head.contentLength)
                keepAlive := foldConnection head.version11 head.connection
                outcome := o }) :
    (∀ rest, parseResponse head.method
      ((serveBody server headBuf head body stream interp).writes.flatten ++ rest) =
        some (e.expected server.hsts, rest)) ↔ e.Framed server.hsts := by
  have hmethod : e.method = head.method := by rw [he]
  rw [written_serveBody server headBuf head body stream interp ho, ← he, ← hmethod]
  exact ⟨fun h => Exchange.framed_of_sound (parseResponse_sound (h [])),
    fun h rest => Exchange.parseResponse_written h rest⟩

/-- What the server writes for a sequence of requests is read as the responses that were meant, one
for each request, exactly when each of them can be read. -/
theorem responses_iff (hsts : Bool) (exchanges : List Exchange) :
    parseResponses (exchanges.map Exchange.method)
        (exchanges.flatMap (Exchange.written hsts)) =
      some (exchanges.map (Exchange.expected hsts)) ↔
    ∀ e ∈ exchanges, e.Framed hsts := by
  constructor
  · intro h e he
    have hsound := parseResponses_sound h
    rw [List.forall₂_map_left_iff, List.forall₂_map_right_iff, List.forall₂_same] at hsound
    exact Exchange.framed_of_sound (hsound e he)
  · intro h
    induction exchanges with
    | nil => rfl
    | cons e exchanges ih =>
      obtain ⟨he, hrest⟩ := List.forall_mem_cons.mp h
      rw [List.map_cons, List.flatMap_cons, parseResponses, Exchange.parseResponse_written he]
      dsimp only
      rw [ih hrest]
      rfl

/-- A `204` with a text in it. -/
def noContent : Exchange where
  method := "GET"
  expectContinue := false
  keepAlive := true
  outcome := .response ⟨204, by omega, bytes "gone", []⟩

example : httpRespond 204 "gone" [] = .ok ⟨204, by omega, bytes "gone", []⟩ := rfl

/-- The body of a `204` is read as the beginning of the next response. -/
theorem noContent_not_framed : parseResponses (([noContent, noContent].map Exchange.method))
    ([noContent, noContent].flatMap (Exchange.written false)) ≠
      some ([noContent, noContent].map (Exchange.expected false)) := by
  intro h
  have hframed := parseResponses_sound h
  rw [List.forall₂_map_left_iff, List.forall₂_map_right_iff, List.forall₂_same] at hframed
  exact absurd ((Exchange.framed_of_sound (hframed noContent (by simp))).bodyless (by decide)
    (by decide)) (by decide)

end ZzLang.Http
