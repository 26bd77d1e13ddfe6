import Mathlib.Data.List.DropRight
import ZzLang.Http.Message

/-!
# Connection strings

The two drivers read connection strings in the same way: a URL, in which user, password and database
may be percent-encoded, or pairs `key=value` with values in single quotes. They differ in the
scheme, in the defaults and in `sslmode`; only PostgreSQL takes the user for an empty database name.

Decoding works byte by byte, and each byte becomes a character of its own. So a value comes out as
it went in exactly if it is ASCII (`carries_iff`). A value without quotes is cut out of the string
and does not have this problem.
-/

namespace ZzLang.Db

open Http (Bytes trim)

/-! ### Texts -/

/-- `str::as_bytes`. -/
def asBytes (s : List Char) : Bytes := s.flatMap String.utf8EncodeChar

/-- Each byte `as char`. -/
def latin1 (bs : Bytes) : List Char := bs.map Char.ofUInt8

/-- `str::split_once`. -/
def splitOnce (sep : Char) (s : List Char) : Option (List Char × List Char) :=
  match s.dropWhile (· ≠ sep) with
  | [] => none
  | _ :: rest => some (s.takeWhile (· ≠ sep), rest)

/-- `str::rsplit_once`, which is `rfind` and the parts on both sides. -/
def rsplitOnce (sep : Char) (s : List Char) : Option (List Char × List Char) :=
  (splitOnce sep s.reverse).map fun p => (p.2.reverse, p.1.reverse)

/-- What is behind the first `://`. -/
def afterScheme : List Char → Option (List Char)
  | ':' :: '/' :: '/' :: rest => some rest
  | _ :: cs => afterScheme cs
  | [] => none

/-- `parse` for unsigned integers up to `max`. -/
def parseUnsigned (max : ℕ) (s : List Char) : Option ℕ :=
  let digits := match s with
    | '+' :: digits => digits
    | digits => digits
  (parseDigits digits).filter (· ≤ max)

/-- `u8::is_ascii_whitespace`. -/
def isAsciiWhitespace (c : Char) : Bool :=
  c = ' ' || c = '\t' || c = '\n' || c = '\x0c' || c = '\r'

/-! ### Percent decoding -/

def hexVal (b : UInt8) : Option ℕ :=
  if 48 ≤ b ∧ b ≤ 57 then some (b.toNat - 48)
  else if 97 ≤ b ∧ b ≤ 102 then some (b.toNat - 87)
  else if 65 ≤ b ∧ b ≤ 70 then some (b.toNat - 55)
  else none

/-- The loop of `percent_decode`. -/
def percentDecodeBytes : Bytes → List Char
  | [] => []
  | b :: h :: l :: rest =>
    match if b = 37 then (hexVal h).bind fun hi => (hexVal l).map fun lo => (hi, lo) else none with
    | some (hi, lo) => Char.ofUInt8 (UInt8.ofNat (16 * hi + lo)) :: percentDecodeBytes rest
    | none => Char.ofUInt8 b :: percentDecodeBytes (h :: l :: rest)
  | b :: rest => Char.ofUInt8 b :: percentDecodeBytes rest

def percentDecode (s : List Char) : List Char := percentDecodeBytes (asBytes s)

/-! ### Pairs -/

/-- A quoted value and what is behind it. -/
def readQuoted : List Char → Option (List Char × List Char)
  | [] => none
  | '\x27' :: '\x27' :: cs => (readQuoted cs).map fun p => ('\x27' :: p.1, p.2)
  | '\x27' :: cs => some ([], cs)
  | c :: cs => (readQuoted cs).map fun p => (latin1 (String.utf8EncodeChar c) ++ p.1, p.2)

/-- A value, in quotes or up to a blank. -/
def readValue : List Char → Except String (List Char × List Char)
  | '\x27' :: cs =>
    match readQuoted cs with
    | none => .error "unterminated quoted value in conninfo"
    | some p => .ok p
  | cs => .ok (cs.takeWhile (!isAsciiWhitespace ·), cs.dropWhile (!isAsciiWhitespace ·))

/-- A round of the loop of `split_kv` behind blanks. -/
def readPair (s : List Char) : Except String ((List Char × List Char) × List Char) :=
  let isKey := fun c => !isAsciiWhitespace c && c ≠ '='
  let key := s.takeWhile isKey
  match s.dropWhile isKey with
  | '=' :: rest =>
    match readValue rest with
    | .error e => .error e
    | .ok (value, rest) =>
      if key = [] then .error "empty key in conninfo" else .ok ((key, value), rest)
  | _ => .error ("invalid conninfo near \x60" ++ String.ofList key ++
      "\x60 (expected \x60key=value\x60)")

theorem readQuoted_length {s v rest : List Char} (h : readQuoted s = some (v, rest)) :
    rest.length < s.length := by
  induction s using readQuoted.induct generalizing v with
  | case1 => cases h
  | case2 cs ih =>
    rw [readQuoted] at h
    obtain ⟨p, hp, heq⟩ := Option.map_eq_some_iff.mp h
    obtain ⟨-, rfl⟩ := Prod.mk.inj heq
    have := ih hp
    simp only [List.length_cons]
    omega
  | case3 cs hne =>
    rw [readQuoted] at h
    · cases h
      exact Nat.lt_succ_self _
    · exact hne
  | case4 c cs hne hne' ih =>
    rw [readQuoted] at h
    · obtain ⟨p, hp, heq⟩ := Option.map_eq_some_iff.mp h
      obtain ⟨-, rfl⟩ := Prod.mk.inj heq
      have := ih hp
      rw [List.length_cons]
      omega
    · exact hne
    · exact hne'

theorem readValue_length {s v rest : List Char} (h : readValue s = .ok (v, rest)) :
    rest.length ≤ s.length := by
  unfold readValue at h
  split at h
  · split at h
    · cases h
    · rename_i hq
      cases h
      have := readQuoted_length hq
      rw [List.length_cons]
      omega
  · cases h
    exact (List.dropWhile_sublist _).length_le

theorem readPair_length {s rest : List Char} {p : List Char × List Char}
    (h : readPair s = .ok (p, rest)) : rest.length < s.length := by
  rw [readPair] at h
  split at h
  · rename_i tail htail
    have hle := (List.dropWhile_sublist (l := s)
      (fun c => !isAsciiWhitespace c && c ≠ '=')).length_le
    rw [htail, List.length_cons] at hle
    split at h
    · cases h
    · rename_i value rest' hvalue
      have := readValue_length hvalue
      split at h
      · cases h
      · cases h
        omega
  · cases h

/-- `split_kv`. -/
def splitKv (s : List Char) : Except String (List (List Char × List Char)) :=
  match _hs : s.dropWhile isAsciiWhitespace with
  | [] => .ok []
  | c :: cs =>
    match _h : readPair (c :: cs) with
    | .error e => .error e
    | .ok (p, rest) => (splitKv rest).map (p :: ·)
termination_by s.length
decreasing_by
  have hle := (List.dropWhile_sublist isAsciiWhitespace (l := s)).length_le
  have hlt := readPair_length _h
  rw [_hs] at hle
  omega

/-! ### The drivers -/

/-- `SslMode`. -/
inductive SslMode
  | disable
  | prefer
  | require
  deriving DecidableEq

def SslMode.parse (s : List Char) : Except String SslMode :=
  if s = "disable".toList then .ok .disable
  else if s = "prefer".toList then .ok .prefer
  else if s = "require".toList then .ok .require
  else .error ("sslmode \x60" ++ String.ofList s ++
    "\x60 is not supported by this driver (want disable|prefer|require)")

/-- The two drivers. -/
inductive Driver
  | pg
  | my
  deriving DecidableEq

/-- `ConnInfo`, and `MyConnInfo` with the `sslmode` that it has not got as it starts. -/
structure ConnInfo where
  host : List Char
  port : ℕ
  user : List Char
  password : List Char
  dbname : List Char
  connectTimeout : ℕ
  sslmode : SslMode
  deriving DecidableEq

namespace Driver

/-- The name in error texts. -/
def name : Driver → String
  | .pg => "postgres"
  | .my => "mysql"

def schemes : Driver → List (List Char)
  | .pg => ["postgres://".toList, "postgresql://".toList]
  | .my => ["mysql://".toList]

def defaults : Driver → ConnInfo
  | .pg => ⟨"127.0.0.1".toList, 5432, "postgres".toList, [], [], 10, .disable⟩
  | .my => ⟨"127.0.0.1".toList, 3306, "root".toList, [], [], 10, .disable⟩

end Driver

variable (d : Driver)

/-- `user:password` of a URL. -/
def setUserinfo (info : ConnInfo) (ui : List Char) : ConnInfo :=
  match splitOnce ':' ui with
  | some (user, password) =>
    { info with user := percentDecode user, password := percentDecode password }
  | none => { info with user := percentDecode ui }

/-- `host[:port]` of a URL. -/
def setHostport (info : ConnInfo) (hostport : List Char) : Except String ConnInfo :=
  match hostport with
  | [] => .ok info
  | '[' :: stripped =>
    match splitOnce ']' stripped with
    | none => .error ("invalid IPv6 host in " ++ d.name ++ " URL")
    | some (host, rest) =>
      match rest with
      | ':' :: port =>
        match parseUnsigned 65535 port with
        | none => .error ("invalid port in " ++ d.name ++ " URL")
        | some port => .ok { info with host := host, port := port }
      | _ => .ok { info with host := host }
  | _ =>
    match rsplitOnce ':' hostport with
    | some (host, port) =>
      -- only a tail that is a number is a port
      match parseUnsigned 65535 port with
      | some port => .ok { info with host := host, port := port }
      | none => .ok { info with host := hostport }
    | none => .ok { info with host := hostport }

/-- A pair of the query of a URL. -/
def setQueryPair (info : ConnInfo) (pair : List Char) : Except String ConnInfo :=
  match splitOnce '=' pair with
  | none =>
    .error ("invalid query pair \x60" ++ String.ofList pair ++ "\x60 in " ++ d.name ++ " URL")
  | some (k, v) =>
    if k = "connect_timeout".toList then
      match parseUnsigned (2 ^ 64 - 1) v with
      | none => .error ("invalid connect_timeout in " ++ d.name ++ " URL")
      | some secs => .ok { info with connectTimeout := max secs 1 }
    else if d = .pg ∧ k = "sslmode".toList then
      (SslMode.parse v).map fun mode => { info with sslmode := mode }
    else .ok info

/-- The database name, if it is not empty. -/
def setDbname (info : ConnInfo) (db : List Char) : ConnInfo :=
  if db = [] then info else { info with dbname := percentDecode db }

/-- `parse_url`. -/
def parseUrl (info : ConnInfo) (s : List Char) : Except String ConnInfo :=
  match afterScheme s with
  | none => .error ("invalid " ++ d.name ++ " URL")
  | some rest =>
    let (authorityPath, query) := match splitOnce '?' rest with
      | some (a, q) => (a, some q)
      | none => (rest, none)
    let (userinfo, hostpath) := match rsplitOnce '@' authorityPath with
      | some (u, h) => (some u, h)
      | none => (none, authorityPath)
    let info := match userinfo with
      | some ui => setUserinfo info ui
      | none => info
    let (hostport, dbname) := match splitOnce '/' hostpath with
      | some (h, db) => (h, some db)
      | none => (hostpath, none)
    match setHostport d info hostport with
    | .error e => .error e
    | .ok info =>
      let info := match dbname with
        | some db => setDbname info db
        | none => info
      match query with
      | some q => (q.splitOn '&').foldlM (setQueryPair d) info
      | none => .ok info

/-- A pair of the keyword form. -/
def setPair (info : ConnInfo) (pair : List Char × List Char) : Except String ConnInfo :=
  let (k, v) := pair
  if k = "host".toList then .ok { info with host := v }
  else if k = "port".toList then
    match parseUnsigned 65535 v with
    | none => .error ("invalid port \x60" ++ String.ofList v ++ "\x60 in " ++ d.name ++ " conninfo")
    | some port => .ok { info with port := port }
  else if k = "user".toList then .ok { info with user := v }
  else if k = "password".toList then .ok { info with password := v }
  else if k = "dbname".toList then .ok { info with dbname := v }
  else if k = "connect_timeout".toList then
    match parseUnsigned (2 ^ 64 - 1) v with
    | none => .error ("invalid connect_timeout \x60" ++ String.ofList v ++ "\x60")
    | some secs => .ok { info with connectTimeout := max secs 1 }
  else if d = .pg ∧ k = "sslmode".toList then
    (SslMode.parse v).map fun mode => { info with sslmode := mode }
  else .ok info

/-- `parse_kv`. -/
def parseKv (info : ConnInfo) (s : List Char) : Except String ConnInfo :=
  match splitKv s with
  | .error e => .error e
  | .ok pairs => pairs.foldlM (setPair d) info

/-- `ConnInfo::parse` and `MyConnInfo::parse`. -/
def parseConnInfo (s : List Char) : Except String ConnInfo :=
  let s := trim s
  let parsed := if d.schemes.any (·.isPrefixOf s) then parseUrl d d.defaults s
    else parseKv d d.defaults s
  parsed.map fun info =>
    if d = .pg ∧ info.dbname = [] then { info with dbname := info.user } else info

/-! ### The law -/

/-- A hexadecimal digit as a byte. -/
def hexDigit (n : ℕ) : UInt8 := if n < 10 then UInt8.ofNat (48 + n) else UInt8.ofNat (55 + n)

/-- `%XX`. -/
def percentByte (b : UInt8) : Bytes := [37, hexDigit (b.toNat / 16), hexDigit (b.toNat % 16)]

/-- A text with its UTF-8 bytes as `%XX`; letters and digits may be left as they are. -/
def percentEncode (keep : Char → Bool) (s : List Char) : List Char :=
  s.flatMap fun c =>
    if c.isAlphanum && keep c then [c]
    else latin1 ((String.utf8EncodeChar c).flatMap percentByte)

/-- A text with each quote doubled. -/
def doubleQuotes (s : List Char) : List Char :=
  s.flatMap fun c => if c = '\x27' then ['\x27', '\x27'] else [c]

/-- A host, possibly with a port, that is written as it is. -/
structure PlainHost where
  text : List Char
  plain : ∀ c ∈ text, c ≠ '@' ∧ c ≠ '/' ∧ c ≠ '?' ∧ c ≠ '['

/-- User, password and database. -/
structure Credentials where
  user : List Char
  password : List Char
  dbname : List Char

/-- The URL with the credentials percent-encoded. -/
def urlOf (keep : Char → Bool) (host : PlainHost) (cred : Credentials) : List Char :=
  d.schemes.headD [] ++ (percentEncode keep cred.user ++ ':' :: (percentEncode keep cred.password ++
    '@' :: (host.text ++ '/' :: percentEncode keep cred.dbname)))

/-- `key='value'`. -/
def quotedPair (key value : List Char) : List Char :=
  key ++ '=' :: '\x27' :: (doubleQuotes value ++ ['\x27'])

/-- The keyword form with the credentials in quotes. -/
def kvOf (cred : Credentials) : List Char :=
  quotedPair "user".toList cred.user ++ ' ' :: (quotedPair "password".toList cred.password ++
    ' ' :: quotedPair "dbname".toList cred.dbname)

/-- A connection string gives the credentials. -/
def Gives (s : List Char) (cred : Credentials) : Prop :=
  ∃ info, parseConnInfo d s = .ok info ∧ info.user = cred.user ∧ info.password = cred.password ∧
    info.dbname = cred.dbname

/-- **Connection strings carry the credentials**: both forms give them back. -/
structure Carries (keep : Char → Bool) (host : PlainHost) (cred : Credentials) : Prop where
  url : Gives d (urlOf d keep host cred) cred
  kv : Gives d (kvOf cred) cred

/-! ### Bytes as characters -/

/-- What a text comes out as. -/
def mangled (s : List Char) : List Char := latin1 (asBytes s)

theorem latin1_utf8EncodeChar {c : Char} (h : c.toNat < 128) :
    latin1 (String.utf8EncodeChar c) = [c] := by
  rw [Http.utf8EncodeChar_of_lt h, latin1, List.map_singleton, List.singleton_inj]
  apply Char.ext
  apply UInt32.toNat_inj.mp
  have hlt : c.val.toNat < 128 := h
  change c.val.toUInt8.toUInt32.toNat = c.val.toNat
  rw [UInt8.toNat_toUInt32, UInt32.toNat_toUInt8]
  omega

theorem mangled_cons (c : Char) (s : List Char) :
    mangled (c :: s) = latin1 (String.utf8EncodeChar c) ++ mangled s := by
  rw [mangled, asBytes, List.flatMap_cons, latin1, List.map_append]
  rfl

theorem length_mangled_le (s : List Char) : s.length ≤ (mangled s).length := by
  induction s with
  | nil => exact Nat.le_refl 0
  | cons c s ih =>
    rw [mangled_cons, List.length_append, latin1, List.length_map, String.length_utf8EncodeChar,
      List.length_cons]
    have := c.utf8Size_pos
    omega

/-- Only ASCII comes out as it went in: every other character becomes longer. -/
theorem mangled_eq_self_iff (s : List Char) : mangled s = s ↔ ∀ c ∈ s, c.toNat < 128 := by
  induction s with
  | nil => exact iff_of_true rfl (by simp)
  | cons c s ih =>
    rw [mangled_cons, List.forall_mem_cons]
    rcases Nat.lt_or_ge c.toNat 128 with hlt | hge
    · rw [latin1_utf8EncodeChar hlt, List.singleton_append, List.cons.injEq, ih]
      exact ⟨fun h => ⟨hlt, h.2⟩, fun h => ⟨rfl, h.2⟩⟩
    · refine iff_of_false (fun h => ?_) fun h => by omega
      have hlen := congrArg List.length h
      have hle := length_mangled_le s
      have hone : c.utf8Size ≠ 1 := fun h1 => by
        have := Char.utf8Size_eq_one_iff.mp h1
        have h128 : c.val.toNat ≤ 127 := this
        change 128 ≤ c.val.toNat at hge
        omega
      have hpos := c.utf8Size_pos
      rw [List.length_append, latin1, List.length_map, String.length_utf8EncodeChar,
        List.length_cons] at hlen
      omega

theorem mangled_eq_nil_iff (s : List Char) : mangled s = [] ↔ s = [] := by
  constructor
  · intro h
    have := length_mangled_le s
    rw [h] at this
    exact List.length_eq_zero_iff.mp (Nat.le_zero.mp this)
  · rintro rfl
    rfl

/-! ### Percent encoding -/

theorem asBytes_append (s t : List Char) : asBytes (s ++ t) = asBytes s ++ asBytes t :=
  List.flatMap_append

theorem asBytes_latin1 {bs : Bytes} (h : ∀ b ∈ bs, b.toNat < 128) : asBytes (latin1 bs) = bs := by
  rw [asBytes, ← Http.bytes_ofList]
  exact Http.bytes_ofList_map h

theorem hexDigit_lt {n : ℕ} (h : n < 16) : (hexDigit n).toNat < 128 :=
  (by decide : ∀ n < 16, (hexDigit n).toNat < 128) n h

theorem hexVal_hexDigit {n : ℕ} (h : n < 16) : hexVal (hexDigit n) = some n :=
  (by decide : ∀ n < 16, hexVal (hexDigit n) = some n) n h

theorem isAlphanum_hexDigit {n : ℕ} (h : n < 16) :
    (Char.ofUInt8 (hexDigit n)).isAlphanum = true :=
  (by decide : ∀ n < 16, (Char.ofUInt8 (hexDigit n)).isAlphanum = true) n h

theorem percentByte_lt (b : UInt8) : ∀ x ∈ percentByte b, x.toNat < 128 := by
  have hb := b.toNat_lt
  have h₁ := hexDigit_lt (n := b.toNat / 16) (by omega)
  have h₂ := hexDigit_lt (n := b.toNat % 16) (by omega)
  intro x hx
  rw [percentByte] at hx
  simp only [List.mem_cons, List.not_mem_nil, or_false] at hx
  rcases hx with rfl | rfl | rfl
  · decide
  · exact h₁
  · exact h₂

/-- An encoded byte is read back. -/
theorem percentDecodeBytes_percentByte (b : UInt8) (rest : Bytes) :
    percentDecodeBytes (percentByte b ++ rest) = Char.ofUInt8 b :: percentDecodeBytes rest := by
  have hb := b.toNat_lt
  have hval : UInt8.ofNat (16 * (b.toNat / 16) + b.toNat % 16) = b := by
    rw [Nat.div_add_mod, UInt8.ofNat_toNat]
  change percentDecodeBytes (37 :: hexDigit (b.toNat / 16) :: hexDigit (b.toNat % 16) :: rest) = _
  rw [percentDecodeBytes, if_pos rfl, hexVal_hexDigit (by omega), hexVal_hexDigit (by omega)]
  simp only [Option.bind_some, Option.map_some, hval]

/-- Any other byte stands for itself. -/
theorem percentDecodeBytes_cons {b : UInt8} (hb : b ≠ 37) (rest : Bytes) :
    percentDecodeBytes (b :: rest) = Char.ofUInt8 b :: percentDecodeBytes rest := by
  match rest with
  | [] => rfl
  | [_] => rfl
  | h :: l :: rest => rw [percentDecodeBytes, if_neg hb]

theorem percentDecodeBytes_flatMap (bs rest : Bytes) :
    percentDecodeBytes (bs.flatMap percentByte ++ rest) =
      latin1 bs ++ percentDecodeBytes rest := by
  induction bs with
  | nil => rfl
  | cons b bs ih =>
    rw [List.flatMap_cons, List.append_assoc, percentDecodeBytes_percentByte, ih]
    rfl

theorem isAlphanum_cases {c : Char} (h : c.isAlphanum = true) :
    (65 ≤ c.toNat ∧ c.toNat ≤ 90 ∨ 97 ≤ c.toNat ∧ c.toNat ≤ 122) ∨
      48 ≤ c.toNat ∧ c.toNat ≤ 57 := by
  simp only [Char.isAlphanum, Char.isAlpha, Char.isUpper, Char.isLower, Char.isDigit,
    Bool.or_eq_true, decide_eq_true_eq, Bool.and_eq_true, ge_iff_le, UInt32.le_iff_toNat_le] at h
  exact h

/-- **What is percent-encoded comes out with a character for each byte.** -/
theorem percentDecode_percentEncode (keep : Char → Bool) (s : List Char) :
    percentDecode (percentEncode keep s) = mangled s := by
  rw [percentDecode]
  induction s with
  | nil => rfl
  | cons c s ih =>
    rw [percentEncode, List.flatMap_cons, ← percentEncode, asBytes_append, mangled_cons]
    split
    · rename_i hkeep
      rw [Bool.and_eq_true] at hkeep
      have hrange := isAlphanum_cases hkeep.1
      have hlt : c.toNat < 128 := by omega
      have hbyte : c.val.toUInt8 ≠ 37 := fun h => by
        have h' := congrArg UInt8.toNat h
        rw [UInt32.toNat_toUInt8] at h'
        change c.toNat % 256 = 37 at h'
        omega
      rw [asBytes, List.flatMap_singleton, latin1_utf8EncodeChar hlt,
        Http.utf8EncodeChar_of_lt hlt, List.singleton_append, percentDecodeBytes_cons hbyte, ih]
      have hone := latin1_utf8EncodeChar hlt
      rw [Http.utf8EncodeChar_of_lt hlt, latin1, List.map_singleton] at hone
      rw [List.singleton_append, List.singleton_inj.mp hone]
    · rw [asBytes_latin1, percentDecodeBytes_flatMap, ih]
      intro b hb
      obtain ⟨x, -, hx⟩ := List.mem_flatMap.mp hb
      exact percentByte_lt x b hx

/-- An encoded text has no separators in it. -/
theorem percentEncode_plain (keep : Char → Bool) (s : List Char) :
    ∀ c ∈ percentEncode keep s, c = '%' ∨ c.isAlphanum = true := by
  intro c hc
  obtain ⟨x, -, hx⟩ := List.mem_flatMap.mp hc
  split at hx
  · rename_i hkeep
    rw [List.mem_singleton.mp hx]
    exact .inr (Bool.and_eq_true_iff.mp hkeep).1
  · obtain ⟨b, hb, rfl⟩ := List.mem_map.mp hx
    obtain ⟨y, -, hy⟩ := List.mem_flatMap.mp hb
    have hlt := y.toNat_lt
    rw [percentByte] at hy
    simp only [List.mem_cons, List.not_mem_nil, or_false] at hy
    rcases hy with rfl | rfl | rfl
    · exact .inl rfl
    · exact .inr (isAlphanum_hexDigit (by omega))
    · exact .inr (isAlphanum_hexDigit (by omega))

/-! ### Splitting -/

theorem splitOnce_append {sep : Char} {a : List Char} (ha : sep ∉ a) (b : List Char) :
    splitOnce sep (a ++ sep :: b) = some (a, b) := by
  have hall : ∀ c ∈ a, decide (c ≠ sep) = true := fun c hc =>
    decide_eq_true fun h => ha (h ▸ hc)
  rw [splitOnce, List.dropWhile_append_of_pos hall, List.dropWhile_cons_of_neg (by simp),
    List.takeWhile_append_of_pos hall, List.takeWhile_cons_of_neg (by simp), List.append_nil]

theorem splitOnce_eq_none {sep : Char} {s : List Char} (h : sep ∉ s) : splitOnce sep s = none := by
  have hall : ∀ c ∈ s, decide (c ≠ sep) = true := fun c hc =>
    decide_eq_true fun heq => h (heq ▸ hc)
  rw [splitOnce, List.dropWhile_eq_nil_iff.mpr hall]

theorem rsplitOnce_append {sep : Char} (a : List Char) {b : List Char} (hb : sep ∉ b) :
    rsplitOnce sep (a ++ sep :: b) = some (a, b) := by
  rw [rsplitOnce, List.reverse_append, List.reverse_cons, List.append_assoc, List.singleton_append,
    splitOnce_append fun h => hb (List.mem_reverse.mp h)]
  simp

theorem trim_eq_self {s : List Char} (hhead : ∀ c ∈ s.head?, isWhitespace c = false)
    (hlast : ∀ c ∈ s.getLast?, isWhitespace c = false) : trim s = s := by
  have hfront : s.dropWhile isWhitespace = s := by
    cases s with
    | nil => rfl
    | cons c s => exact List.dropWhile_cons_of_neg (Bool.eq_false_iff.mp (hhead c rfl))
  change (s.dropWhile isWhitespace).rdropWhile isWhitespace = s
  rw [hfront, List.rdropWhile_eq_self_iff]
  exact fun hne => Bool.eq_false_iff.mp (hlast _ (List.getLast?_eq_getLast_of_ne_nil hne))

/-! ### URLs -/

section Url

variable {d}

theorem afterScheme_scheme (rest : List Char) :
    afterScheme (d.schemes.headD [] ++ rest) = some rest := by
  cases d <;> rfl

theorem scheme_isPrefixOf (rest : List Char) :
    d.schemes.any (·.isPrefixOf (d.schemes.headD [] ++ rest)) = true := by
  cases d <;> simp [Driver.schemes]

/-- A plain host sets nothing but host and port. -/
theorem setHostport_plain (info : ConnInfo) (host : PlainHost) :
    ∃ info', setHostport d info host.text = .ok info' ∧ info'.user = info.user ∧
      info'.password = info.password ∧ info'.dbname = info.dbname := by
  unfold setHostport
  split
  · exact ⟨info, rfl, rfl, rfl, rfl⟩
  · rename_i stripped hbracket
    exact absurd rfl (host.plain '[' (hbracket ▸ List.mem_cons_self)).2.2.2
  · split
    · split
      · exact ⟨_, rfl, rfl, rfl, rfl⟩
      · exact ⟨_, rfl, rfl, rfl, rfl⟩
    · exact ⟨_, rfl, rfl, rfl, rfl⟩

/-- What a parsed connection string says about the credentials. -/
def Mangles (s : List Char) (cred : Credentials) : Prop :=
  ∃ info, parseConnInfo d s = .ok info ∧ info.user = mangled cred.user ∧
    info.password = mangled cred.password ∧
    info.dbname = if d = .pg ∧ cred.dbname = [] then mangled cred.user else mangled cred.dbname

/-- Filling in the database name. -/
theorem mangles_of_parsed {s : List Char} {cred : Credentials} {info : ConnInfo}
    (hparse : (if d.schemes.any (·.isPrefixOf (trim s)) then parseUrl d d.defaults (trim s)
      else parseKv d d.defaults (trim s)) = .ok info)
    (huser : info.user = mangled cred.user) (hpassword : info.password = mangled cred.password)
    (hdb : info.dbname = mangled cred.dbname) : Mangles (d := d) s cred := by
  rw [Mangles, parseConnInfo, hparse]
  refine ⟨_, rfl, ?_⟩
  beta_reduce
  by_cases h : d = .pg ∧ cred.dbname = []
  · have h' : d = .pg ∧ info.dbname = [] := ⟨h.1, by rw [hdb, mangled_eq_nil_iff, h.2]⟩
    rw [if_pos h', if_pos h]
    exact ⟨huser, hpassword, huser⟩
  · have h' : ¬ (d = .pg ∧ info.dbname = []) := by
      rwa [hdb, mangled_eq_nil_iff]
    rw [if_neg h', if_neg h]
    exact ⟨huser, hpassword, hdb⟩

theorem percentEncode_no {sep : Char} (hne : sep ≠ '%') (hsep : sep.isAlphanum = false)
    (keep : Char → Bool) (s : List Char) : sep ∉ percentEncode keep s := fun h => by
  rcases percentEncode_plain keep s sep h with heq | halnum
  · exact hne heq
  · rw [hsep] at halnum
    cases halnum

theorem mangles_url (keep : Char → Bool) (host : PlainHost) (cred : Credentials) :
    Mangles (d := d) (urlOf d keep host cred) cred := by
  have hno (s : List Char) : '?' ∉ percentEncode keep s ∧ '@' ∉ percentEncode keep s ∧
      ':' ∉ percentEncode keep s ∧ '/' ∉ percentEncode keep s :=
    ⟨percentEncode_no (by decide) rfl keep s, percentEncode_no (by decide) rfl keep s,
      percentEncode_no (by decide) rfl keep s, percentEncode_no (by decide) rfl keep s⟩
  have hblank : ∀ c ∈ '/' :: percentEncode keep cred.dbname, isWhitespace c = false := by
    refine List.forall_mem_cons.mpr ⟨rfl, fun c hc => ?_⟩
    rcases percentEncode_plain keep _ c hc with rfl | halnum
    · rfl
    · have h := isAlphanum_cases halnum
      simp only [isWhitespace, Bool.or_eq_false_iff, Bool.and_eq_false_iff, decide_eq_false_iff_not]
      omega
  have hurl : urlOf d keep host cred = (d.schemes.headD [] ++ percentEncode keep cred.user ++ ':' ::
      percentEncode keep cred.password ++ '@' :: host.text) ++
        '/' :: percentEncode keep cred.dbname := by
    simp [urlOf]
  have htrim : trim (urlOf d keep host cred) = urlOf d keep host cred := by
    refine trim_eq_self (fun c hc => ?_) fun c hc => ?_
    · cases d <;> (cases hc; rfl)
    · rw [hurl, List.getLast?_append_of_ne_nil _ (List.cons_ne_nil _ _)] at hc
      exact hblank c (List.mem_of_getLast? hc)
  have hnoat : '@' ∉ host.text ++ '/' :: percentEncode keep cred.dbname := by
    rw [List.mem_append, List.mem_cons]
    rintro (h | h | h)
    · exact (host.plain _ h).1 rfl
    · cases h
    · exact (hno _).2.1 h
  have hnoquery : '?' ∉ percentEncode keep cred.user ++ ':' :: (percentEncode keep cred.password ++
      '@' :: (host.text ++ '/' :: percentEncode keep cred.dbname)) := by
    simp only [List.mem_append, List.mem_cons, not_or]
    exact ⟨(hno _).1, by decide, (hno _).1, by decide, fun h => (host.plain _ h).2.2.1 rfl,
      by decide, (hno _).1⟩
  have hassoc : percentEncode keep cred.user ++ ':' :: (percentEncode keep cred.password ++
      '@' :: (host.text ++ '/' :: percentEncode keep cred.dbname)) =
        (percentEncode keep cred.user ++ ':' :: percentEncode keep cred.password) ++
          '@' :: (host.text ++ '/' :: percentEncode keep cred.dbname) := by
    simp
  obtain ⟨info, hinfo, huser, hpassword, hdb⟩ := setHostport_plain (d := d)
    (setUserinfo d.defaults
      (percentEncode keep cred.user ++ ':' :: percentEncode keep cred.password)) host
  rw [setUserinfo, splitOnce_append (hno _).2.2.1] at huser hpassword hdb
  have hparse : parseUrl d d.defaults (urlOf d keep host cred) =
      .ok (setDbname info (percentEncode keep cred.dbname)) := by
    rw [parseUrl, urlOf, afterScheme_scheme]
    dsimp only
    rw [splitOnce_eq_none hnoquery]
    dsimp only
    rw [hassoc, rsplitOnce_append _ hnoat]
    dsimp only
    rw [splitOnce_append fun h => (host.plain _ h).2.1 rfl]
    dsimp only
    rw [hinfo]
  refine mangles_of_parsed (by rw [htrim, urlOf, if_pos (scheme_isPrefixOf _), ← urlOf, hparse])
    ?_ ?_ ?_
  · rw [setDbname]
    split <;> exact huser.trans (percentDecode_percentEncode keep _)
  · rw [setDbname]
    split <;> exact hpassword.trans (percentDecode_percentEncode keep _)
  · rw [setDbname]
    split
    · rename_i hempty
      have hnil : mangled cred.dbname = [] := by
        rw [← percentDecode_percentEncode keep, hempty]
        rfl
      rw [hdb, hnil]
      cases d <;> rfl
    · exact percentDecode_percentEncode keep _

/-! ### Pairs with quotes -/

/-- A quoted value ends at the first quote that is not doubled. -/
theorem readQuoted_doubleQuotes (v : List Char) {rest : List Char}
    (hrest : rest.head? ≠ some '\x27') :
    readQuoted (doubleQuotes v ++ '\x27' :: rest) = some (mangled v, rest) := by
  induction v with
  | nil =>
    cases rest with
    | nil => rfl
    | cons c rest =>
      have hc : c ≠ '\x27' := fun h => hrest (by rw [h]; rfl)
      change readQuoted ('\x27' :: c :: rest) = _
      rw [readQuoted]
      · rfl
      · exact fun cs h => hc (List.cons.inj h).1
  | cons c v ih =>
    rw [doubleQuotes, List.flatMap_cons, ← doubleQuotes, mangled_cons]
    split
    · rename_i h
      subst h
      change readQuoted ('\x27' :: '\x27' :: (doubleQuotes v ++ '\x27' :: rest)) = _
      rw [readQuoted, ih]
      rfl
    · rename_i h
      change readQuoted (c :: (doubleQuotes v ++ '\x27' :: rest)) = _
      rw [readQuoted, ih]
      · rfl
      · exact fun _ h' => absurd h' h
      · exact h

theorem readPair_quotedPair {key : List Char} (hne : key ≠ [])
    (hkey : ∀ c ∈ key, (!isAsciiWhitespace c && c ≠ '=') = true) (v : List Char)
    {rest : List Char} (hrest : rest.head? ≠ some '\x27') :
    readPair (quotedPair key v ++ rest) = .ok ((key, mangled v), rest) := by
  have hform : quotedPair key v ++ rest =
      key ++ '=' :: '\x27' :: (doubleQuotes v ++ '\x27' :: rest) := by
    simp [quotedPair]
  rw [readPair, hform, List.dropWhile_append_of_pos hkey, List.takeWhile_append_of_pos hkey,
    List.dropWhile_cons_of_neg (by decide), List.takeWhile_cons_of_neg (by decide),
    List.append_nil]
  have hvalue : readValue ('\x27' :: (doubleQuotes v ++ '\x27' :: rest)) =
      .ok (mangled v, rest) := by
    unfold readValue
    simp only [readQuoted_doubleQuotes v hrest]
  simp only [hvalue]
  exact if_neg hne

theorem splitKv_cons {s cs rest : List Char} {c : Char} {p : List Char × List Char}
    (hs : s.dropWhile isAsciiWhitespace = c :: cs) (h : readPair (c :: cs) = .ok (p, rest)) :
    splitKv s = (splitKv rest).map (p :: ·) := by
  rw [splitKv]
  split
  · rename_i hnil
    rw [hs] at hnil
    cases hnil
  · rename_i c' cs' hs'
    rw [hs] at hs'
    cases hs'
    split
    · rename_i e he
      rw [h] at he
      cases he
    · rename_i p' rest' h'
      rw [h] at h'
      cases h'
      rfl

theorem splitKv_nil : splitKv [] = .ok [] := by
  rw [splitKv]
  rfl

/-- A pair in front of others, possibly behind a blank. -/
theorem splitKv_quotedPair {key : List Char} (hne : key ≠ [])
    (hkey : ∀ c ∈ key, (!isAsciiWhitespace c && c ≠ '=') = true) (v : List Char)
    {rest : List Char} (hrest : rest.head? ≠ some '\x27') :
    splitKv (quotedPair key v ++ rest) = (splitKv rest).map ((key, mangled v) :: ·) ∧
      splitKv (' ' :: (quotedPair key v ++ rest)) =
        (splitKv rest).map ((key, mangled v) :: ·) := by
  obtain ⟨c, cs, rfl⟩ := List.exists_cons_of_ne_nil hne
  have hread := readPair_quotedPair hne hkey v hrest
  have hc : ¬ isAsciiWhitespace c = true := fun h => by
    have := hkey c List.mem_cons_self
    rw [h] at this
    cases this
  have hdrop : (quotedPair (c :: cs) v ++ rest).dropWhile isAsciiWhitespace =
      quotedPair (c :: cs) v ++ rest := List.dropWhile_cons_of_neg hc
  exact ⟨splitKv_cons hdrop hread,
    splitKv_cons ((List.dropWhile_cons_of_pos rfl).trans hdrop) hread⟩

theorem mangles_kv (cred : Credentials) : Mangles (d := d) (kvOf cred) cred := by
  have hkey : ∀ key ∈ ["user".toList, "password".toList, "dbname".toList],
      key ≠ [] ∧ ∀ c ∈ key, (!isAsciiWhitespace c && c ≠ '=') = true := by
    simp [isAsciiWhitespace]
  have huser := hkey _ List.mem_cons_self
  have hpassword := hkey _ (List.mem_cons_of_mem _ List.mem_cons_self)
  have hdbname := hkey _ (List.mem_cons_of_mem _ (List.mem_cons_of_mem _ List.mem_cons_self))
  have hsplit : splitKv (kvOf cred) = .ok [("user".toList, mangled cred.user),
      ("password".toList, mangled cred.password), ("dbname".toList, mangled cred.dbname)] := by
    have hlast := (splitKv_quotedPair hdbname.1 hdbname.2 cred.dbname
      (show ([] : List Char).head? ≠ some '\x27' from nofun)).2
    rw [List.append_nil, splitKv_nil] at hlast
    rw [kvOf, (splitKv_quotedPair huser.1 huser.2 cred.user (by simp)).1,
      (splitKv_quotedPair hpassword.1 hpassword.2 cred.password (by simp)).2, hlast]
    rfl
  have hparse : parseKv d d.defaults (kvOf cred) = .ok { d.defaults with
      user := mangled cred.user, password := mangled cred.password,
      dbname := mangled cred.dbname } := by
    rw [parseKv, hsplit]
    rfl
  have htrim : trim (kvOf cred) = kvOf cred := by
    refine trim_eq_self (fun c hc => ?_) fun c hc => ?_
    · cases hc
      rfl
    · have hform : kvOf cred = ("user".toList ++ '=' :: '\x27' :: (doubleQuotes cred.user ++
          '\x27' :: ' ' :: ("password".toList ++ '=' :: '\x27' :: (doubleQuotes cred.password ++
            '\x27' :: ' ' :: ("dbname".toList ++ '=' :: '\x27' :: doubleQuotes cred.dbname))))) ++
              ['\x27'] := by
        simp [kvOf, quotedPair]
      rw [hform, List.getLast?_concat] at hc
      cases hc
      rfl
  have hscheme : d.schemes.any (·.isPrefixOf (kvOf cred)) = false := by
    cases d <;> rfl
  have hfinal : (if d.schemes.any (·.isPrefixOf (trim (kvOf cred))) then
      parseUrl d d.defaults (trim (kvOf cred)) else parseKv d d.defaults (trim (kvOf cred))) =
        .ok { d.defaults with user := mangled cred.user, password := mangled cred.password,
                              dbname := mangled cred.dbname } := by
    rw [htrim, if_neg (Bool.eq_false_iff.mp hscheme), hparse]
  exact mangles_of_parsed hfinal rfl rfl rfl

end Url

/-! ### The exact condition -/

/-- Such a string gives the credentials exactly if they are ASCII, and the database name is not
replaced by the user. -/
theorem gives_iff {s : List Char} {cred : Credentials} (h : Mangles (d := d) s cred) :
    Gives d s cred ↔ ((∀ c ∈ cred.user, c.toNat < 128) ∧ (∀ c ∈ cred.password, c.toNat < 128) ∧
      ∀ c ∈ cred.dbname, c.toNat < 128) ∧ (d = .pg → cred.dbname = [] → cred.user = []) := by
  obtain ⟨info, hparse, huser, hpassword, hdb⟩ := h
  have hgives : Gives d s cred ↔ info.user = cred.user ∧ info.password = cred.password ∧
      info.dbname = cred.dbname := by
    constructor
    · rintro ⟨info', hparse', h⟩
      rw [hparse] at hparse'
      cases hparse'
      exact h
    · exact fun h => ⟨info, hparse, h⟩
  rw [hgives, huser, hpassword, hdb, mangled_eq_self_iff, mangled_eq_self_iff]
  by_cases hempty : d = .pg ∧ cred.dbname = []
  · rw [if_pos hempty, hempty.2, mangled_eq_nil_iff]
    constructor
    · rintro ⟨hu, hp, hnil⟩
      exact ⟨⟨hu, hp, by simp⟩, fun _ _ => hnil⟩
    · rintro ⟨⟨hu, hp, -⟩, hnil⟩
      exact ⟨hu, hp, hnil hempty.1 rfl⟩
  · rw [if_neg hempty, mangled_eq_self_iff]
    constructor
    · rintro ⟨hu, hp, hdbname⟩
      exact ⟨⟨hu, hp, hdbname⟩, fun hd hnil => absurd ⟨hd, hnil⟩ hempty⟩
    · rintro ⟨⟨hu, hp, hdbname⟩, -⟩
      exact ⟨hu, hp, hdbname⟩

/-- **Both forms carry the credentials** exactly if these are ASCII and, for PostgreSQL, an empty
database name comes with an empty user. -/
theorem carries_iff (keep : Char → Bool) (host : PlainHost) (cred : Credentials) :
    Carries d keep host cred ↔
      ((∀ c ∈ cred.user, c.toNat < 128) ∧ (∀ c ∈ cred.password, c.toNat < 128) ∧
        ∀ c ∈ cred.dbname, c.toNat < 128) ∧ (d = .pg → cred.dbname = [] → cred.user = []) := by
  rw [← gives_iff d (mangles_kv cred)]
  constructor
  · exact fun h => h.kv
  · exact fun h => ⟨(gives_iff d (mangles_url keep host cred)).mpr
      ((gives_iff d (mangles_kv cred)).mp h), h⟩

/-- The password `é` comes out as two characters. -/
theorem accent_not_carried : ¬ Carries .pg (fun _ => false) ⟨"db".toList, by simp⟩
    ⟨"app".toList, ['é'], "app".toList⟩ := by
  intro h
  obtain ⟨info, hparse, -, hpassword, -⟩ := h.kv
  obtain ⟨info', hparse', -, hmangled, -⟩ := mangles_kv (d := .pg)
    ⟨"app".toList, ['é'], "app".toList⟩
  rw [hparse] at hparse'
  cases hparse'
  rw [hpassword] at hmangled
  exact absurd hmangled (by decide)

end ZzLang.Db
