import Mathlib
import ZzLang.Db.PgWire

/-!
# The messages of the HTTP server

A request comes in as bytes, and what the server makes of its head is decided in one pass over the
header fields that `httparse` finds: the last `Content-Length` field that says a number says the
length of the body, and one that says none says zero. A response goes out as one text, in which
the fields of the handler stand behind the two that the server writes itself.

`httparse` is a parameter: `Httparse` is what it can answer about a buffer.
-/

namespace ZzLang.Http

open ZzLang.Db (isWhitespace parseDigits)

/-- A string of bytes. -/
abbrev Bytes := List UInt8

/-- `str::as_bytes`. -/
def bytes (s : String) : Bytes := s.toUTF8.data.toList

/-- `"\r\n"`. -/
def crlf : Bytes := [13, 10]

/-- The end of a head, `"\r\n\r\n"`. -/
def headEnd : Bytes := crlf ++ crlf

/-- `find_subslice`. -/
def findSubslice (haystack needle : Bytes) : Option ℕ :=
  if needle = [] ∨ haystack.length < needle.length then none
  else (List.range (haystack.length - needle.length + 1)).find? fun i =>
    (haystack.drop i).take needle.length = needle

/-! ### Texts -/

/-- `str::eq_ignore_ascii_case`. -/
def eqIgnoreAsciiCase (s t : String) : Bool := s.toList.map Char.toLower = t.toList.map Char.toLower

/-- `u8::to_ascii_lowercase`. -/
def toAsciiLowercase (b : UInt8) : UInt8 := if 65 ≤ b ∧ b ≤ 90 then b + 32 else b

/-- `str::from_utf8`. -/
def fromUtf8 (v : Bytes) : Option String := String.fromUTF8? ⟨v.toArray⟩

/-- `str::trim`. -/
def trim (cs : List Char) : List Char :=
  ((cs.dropWhile isWhitespace).reverse.dropWhile isWhitespace).reverse

/-- `str::parse::<usize>`. -/
def parseUsize (cs : List Char) : Option ℕ :=
  let value :=
    match cs with
    | '+' :: ds => parseDigits ds
    | ds => parseDigits ds
  value.filter (· < 2 ^ 64)

/-- `contains_ignore_case`. -/
def containsIgnoreCase (haystack needle : Bytes) : Bool :=
  needle ≠ [] ∧ needle.length ≤ haystack.length ∧
    (List.range (haystack.length - needle.length + 1)).any fun i =>
      ((haystack.drop i).take needle.length).map toAsciiLowercase = needle.map toAsciiLowercase

/-- `parse_query_string`. -/
def parseQueryString (qs : String) : List (String × String) :=
  if qs = "" then [] else
    (qs.toList.splitOn '&').map fun pair =>
      (String.ofList (pair.takeWhile (· ≠ '=')),
        String.ofList ((pair.dropWhile (· ≠ '=')).drop 1))

/-- The path and the query of a target, `raw_path.split_once('?')`. -/
def splitTarget (rawPath : String) : String × List (String × String) :=
  if '?' ∈ rawPath.toList then
    (String.ofList (rawPath.toList.takeWhile (· ≠ '?')),
      parseQueryString (String.ofList ((rawPath.toList.dropWhile (· ≠ '?')).drop 1)))
  else (rawPath, [])

/-! ### The head of a request -/

/-- What `httparse` finds in the head of a request. -/
structure RawRequest where
  method : Option String
  path : Option String
  version : Option ℕ
  headers : List (String × Bytes)

/-- What `httparse` answers about a buffer. -/
inductive Httparse
  | complete (headLen : ℕ) (req : RawRequest)
  | incomplete
  | tooManyHeaders
  | error

/-- `ParsedHead`. -/
structure ParsedHead where
  method : String
  rawPath : String
  version11 : Bool
  headLen : ℕ
  contentLength : ℕ
  expectContinue : Bool
  connection : Option Bytes
  headers : List (String × Bytes)

/-- `HeadError`. -/
inductive HeadError
  | malformed
  | tooManyHeaders

/-- The length that one `Content-Length` field says. -/
def lengthOf (value : Bytes) : ℕ :=
  ((fromUtf8 value).bind fun v => parseUsize (trim v.toList)).getD 0

/-- Whether an `Expect` field asks to be told to go on. -/
def expectsContinue (value : Bytes) : Bool :=
  (fromUtf8 value).any fun v =>
    eqIgnoreAsciiCase (String.ofList (trim v.toList)) "100-continue"

/-- One header field, in the loop of `parse_head`. -/
def ParsedHead.header (h : ParsedHead) (field : String × Bytes) : ParsedHead :=
  let h := { h with headers := h.headers ++ [field] }
  if eqIgnoreAsciiCase field.1 "content-length" then
    { h with contentLength := lengthOf field.2 }
  else if eqIgnoreAsciiCase field.1 "expect" then
    { h with expectContinue := expectsContinue field.2 }
  else if eqIgnoreAsciiCase field.1 "connection" then
    { h with connection := some field.2 }
  else h

/-- `parse_head`. -/
def parseHead (httparse : Bytes → Httparse) (buf : Bytes) : Except HeadError ParsedHead :=
  match httparse buf with
  | .incomplete | .error => .error .malformed
  | .tooManyHeaders => .error .tooManyHeaders
  | .complete headLen req =>
    match req.method, req.path with
    | some method, some rawPath =>
      if method = "" ∨ rawPath = "" then .error .malformed
      else .ok <| req.headers.foldl ParsedHead.header
        { method, rawPath, version11 := req.version = some 1, headLen, contentLength := 0,
          expectContinue := false, connection := none, headers := [] }
    | _, _ => .error .malformed

/-- `fold_connection`. -/
def foldConnection (keepAlive : Bool) (connection : Option Bytes) : Bool :=
  match connection with
  | some v =>
    if containsIgnoreCase v (bytes "close") then false
    else if containsIgnoreCase v (bytes "keep-alive") then true
    else keepAlive
  | none => keepAlive

/-! ### The text of a response -/

/-- `http_reason`. -/
def httpReason : ℕ → String
  | 100 => "Continue"
  | 200 => "OK"
  | 201 => "Created"
  | 204 => "No Content"
  | 206 => "Partial Content"
  | 301 => "Moved Permanently"
  | 304 => "Not Modified"
  | 400 => "Bad Request"
  | 401 => "Unauthorized"
  | 403 => "Forbidden"
  | 404 => "Not Found"
  | 405 => "Method Not Allowed"
  | 413 => "Payload Too Large"
  | 416 => "Range Not Satisfiable"
  | 429 => "Too Many Requests"
  | 431 => "Headers Too Large"
  | 500 => "Internal Server Error"
  | 503 => "Service Unavailable"
  | _ => "Error"

/-- The header fields of a response as `format_response_with_headers` writes them. -/
def formatHeaders (headers : List (String × String)) : Bytes :=
  headers.flatMap fun f => crlf ++ bytes f.1 ++ bytes ": " ++ bytes f.2

/-- `format_response_with_headers`. -/
def formatResponseWithHeaders (status : ℕ) (extraHeaders : List (String × String)) (body : Bytes)
    (keepAlive : Bool) : Bytes :=
  bytes "HTTP/1.1 " ++ bytes (toString status) ++ bytes " " ++ bytes (httpReason status) ++
    crlf ++ bytes "Content-Length: " ++ bytes (toString body.length) ++
    crlf ++ bytes "Connection: " ++ bytes (if keepAlive then "keep-alive" else "close") ++
    formatHeaders extraHeaders ++ headEnd ++ body

/-- `format_response`. -/
def formatResponse (status : ℕ) (body : String) : Bytes :=
  formatResponseWithHeaders status [("Content-Type", "text/plain; charset=utf-8")] (bytes body)
    false

/-! ### Lemmas -/

theorem fromUtf8_bytes (s : String) : fromUtf8 (bytes s) = some s := by
  have hvalid : ByteArray.IsValidUTF8 ⟨s.toUTF8.data⟩ := s.isValidUTF8
  rw [fromUtf8, bytes, Array.toArray_toList, String.fromUTF8?, dif_pos hvalid]
  rfl

theorem bytes_ofList (cs : List Char) :
    bytes (String.ofList cs) = cs.flatMap String.utf8EncodeChar := by
  rw [bytes, String.toUTF8, String.toByteArray_ofList, List.utf8Encode, List.data_toByteArray]

theorem bytes_append (s t : String) : bytes (s ++ t) = bytes s ++ bytes t := by
  simp [bytes]

theorem utf8EncodeChar_of_lt {c : Char} (h : c.toNat < 128) :
    String.utf8EncodeChar c = [c.val.toUInt8] := by
  refine String.utf8EncodeChar_eq_singleton (Char.utf8Size_eq_one_iff.mpr ?_)
  rw [UInt32.le_iff_toNat_le]
  exact Nat.le_of_lt_succ h

/-- The bytes of an ASCII text, from its bytes. -/
theorem bytes_ofList_map {v : Bytes} (h : ∀ b ∈ v, b.toNat < 128) :
    bytes (String.ofList (v.map Char.ofUInt8)) = v := by
  rw [bytes_ofList, List.flatMap_map]
  conv_rhs => rw [← List.flatMap_singleton' v]
  refine List.flatMap_congr fun b hb => ?_
  rw [utf8EncodeChar_of_lt]
  · exact congrArg (fun b => [b]) (UInt8.toNat_inj.mp (by simp [Char.ofUInt8]))
  · simpa [Char.ofUInt8] using h b hb

namespace ParsedHead

variable (h : ParsedHead) (f : String × Bytes) (fs : List (String × Bytes))

@[simp]
theorem header_method : (h.header f).method = h.method := by
  simp only [header]
  split_ifs <;> rfl

@[simp]
theorem header_rawPath : (h.header f).rawPath = h.rawPath := by
  simp only [header]
  split_ifs <;> rfl

@[simp]
theorem header_headLen : (h.header f).headLen = h.headLen := by
  simp only [header]
  split_ifs <;> rfl

@[simp]
theorem header_headers : (h.header f).headers = h.headers ++ [f] := by
  simp only [header]
  split_ifs <;> rfl

theorem header_contentLength : (h.header f).contentLength =
    if eqIgnoreAsciiCase f.1 "content-length" then lengthOf f.2 else h.contentLength := by
  simp only [header]
  split_ifs <;> rfl

@[simp]
theorem foldl_method : (fs.foldl header h).method = h.method := by
  induction fs generalizing h with
  | nil => rfl
  | cons f fs ih => simp [ih]

@[simp]
theorem foldl_rawPath : (fs.foldl header h).rawPath = h.rawPath := by
  induction fs generalizing h with
  | nil => rfl
  | cons f fs ih => simp [ih]

@[simp]
theorem foldl_headLen : (fs.foldl header h).headLen = h.headLen := by
  induction fs generalizing h with
  | nil => rfl
  | cons f fs ih => simp [ih]

@[simp]
theorem foldl_headers : (fs.foldl header h).headers = h.headers ++ fs := by
  induction fs generalizing h with
  | nil => simp
  | cons f fs ih => simp [ih]

/-- The values of the `Content-Length` fields. -/
def lengths (fs : List (String × Bytes)) : List Bytes :=
  (fs.filter fun f => eqIgnoreAsciiCase f.1 "content-length").map Prod.snd

/-- The last of the fields says the length. -/
theorem foldl_contentLength : (fs.foldl header h).contentLength =
    ((lengths fs).map lengthOf).getLast?.getD h.contentLength := by
  induction fs generalizing h with
  | nil => rfl
  | cons f fs ih =>
    rw [List.foldl_cons, ih, header_contentLength]
    by_cases hf : eqIgnoreAsciiCase f.1 "content-length" = true
    · simp [lengths, hf, List.getLast?_cons]
    · simp [lengths, hf]

end ParsedHead

end ZzLang.Http
