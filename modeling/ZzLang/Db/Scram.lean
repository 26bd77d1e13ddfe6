import ZzLang.Db.ConnInfo

/-!
# The SCRAM exchange

The client sends its first message, gets the server's, answers with a proof that it knows the
password, and should get a signature that only the real server can make. What the client does is
driven by the messages of the server: a `SASLFinal` message is verified when it comes, and
`AuthenticationOk` ends the exchange, whether one has come or not (`verified_iff`).

The signature is made over a text that contains the nonce. When the server sends several `r=`
attributes, the client answers with the last one and verifies with the first.

The hash functions are parameters, so what is said here holds whatever they are. Writes succeed, and
a read after the last message fails.
-/

namespace ZzLang.Db

open Http (Bytes fromUtf8)

/-! ### Base64 -/

def b64Alphabet : List Char :=
  "ABCDEFGHIJKLMNOPQRSTUVWXYZabcdefghijklmnopqrstuvwxyz0123456789+/".toList

/-- The characters for a chunk of up to three bytes. -/
def b64Chunk (chunk : Bytes) : List Char :=
  let n := (chunk.getD 0 0).toNat * 65536 + (chunk.getD 1 0).toNat * 256 + (chunk.getD 2 0).toNat
  let digits := [n / 262144 % 64, n / 4096 % 64, n / 64 % 64, n % 64]
  (digits.take (chunk.length + 1)).map (fun i => b64Alphabet.getD i '=') ++
    List.replicate (3 - chunk.length) '='

/-- `b64_encode`. -/
def b64Encode : Bytes → List Char
  | a :: b :: c :: rest => b64Chunk [a, b, c] ++ b64Encode rest
  | [] => []
  | chunk => b64Chunk chunk

/-- The values of the characters; padding counts as zero. -/
def b64Values (input : Bytes) : Except String (List ℕ) :=
  input.mapM fun c =>
    if c = 61 then .ok 0
    else
      match (asBytes b64Alphabet).idxOf? c with
      | none => .error ("invalid base64 character \x60" ++ toString c ++ "\x60")
      | some i => .ok i

/-- Three bytes for four values. -/
def b64Bytes : List ℕ → Bytes
  | a :: b :: c :: d :: rest =>
    let n := a * 262144 + b * 4096 + c * 64 + d
    UInt8.ofNat (n / 65536) :: UInt8.ofNat (n / 256) :: UInt8.ofNat n :: b64Bytes rest
  | _ => []

/-- `b64_decode`. -/
def b64Decode (input : List Char) : Except String Bytes :=
  match b64Values (asBytes input) with
  | .error e => .error e
  | .ok vals =>
    if vals.length % 4 ≠ 0 then .error "invalid base64 length"
    else
      let out := b64Bytes vals
      .ok (out.take (out.length - min ((asBytes input).count 61) 2))

/-! ### The client -/

/-- The hash functions. -/
structure Hashes where
  sha256 : Bytes → Bytes
  hmacSha256 : Bytes → Bytes → Bytes
  pbkdf2Sha256 : Bytes → Bytes → ℕ → Bytes

/-- `ScramClient`. -/
structure ScramClient where
  clientNonce : List Char
  clientFirstBare : List Char
  serverFirst : List Char
  saltedPassword : Option Bytes

/-- `strip_prefix`. -/
def stripPrefix (pre s : List Char) : Option (List Char) :=
  if pre <+: s then some (s.drop pre.length) else none

/-- The values of an attribute in a comma-separated message. -/
def attributes (name : Char) (message : List Char) : List (List Char) :=
  (message.splitOn ',').filterMap (stripPrefix [name, '='])

variable (H : Hashes)

namespace ScramClient

/-- `begin`: the client and the client-first message. -/
def start (user nonce : List Char) : ScramClient × List Char :=
  let bare := "n=".toList ++ user ++ ",r=".toList ++ nonce
  (⟨nonce, bare, [], none⟩, "n,,".toList ++ bare)

/-- The text that proof and signature are made over, for a nonce. -/
def authMessage (client : ScramClient) (nonce : List Char) : List Char :=
  client.clientFirstBare ++ ',' :: (client.serverFirst ++ ',' :: ("c=biws,r=".toList ++ nonce))

/-- The signature of the server over a text with this nonce. -/
def serverSignature (client : ScramClient) (salted : Bytes) (nonce : List Char) : Bytes :=
  H.hmacSha256 (H.hmacSha256 salted (asBytes "Server Key".toList))
    (asBytes (client.authMessage nonce))

/-- The client-final message with the proof. -/
def clientFinal (client : ScramClient) (salted : Bytes) (nonce : List Char) : List Char :=
  let clientKey := H.hmacSha256 salted (asBytes "Client Key".toList)
  let sig := H.hmacSha256 (H.sha256 clientKey) (asBytes (client.authMessage nonce))
  "c=biws,r=".toList ++ nonce ++ ",p=".toList ++ b64Encode (List.zipWith (· ^^^ ·) clientKey sig)

/-- `step_server_first`: the client-final message, and the client behind it. The last attribute of a
name counts, and a part is asked for `r=` before `s=` and `i=`. -/
def stepServerFirst (client : ScramClient) (serverFirst password : List Char) :
    Except String (List Char × ScramClient) :=
  match (attributes 'r' serverFirst).getLast? with
  | none => .error "SCRAM: server-first missing nonce"
  | some nonce =>
    if ¬ client.clientNonce <+: nonce then
      .error "SCRAM: server nonce does not extend client nonce"
    else
      match (attributes 's' serverFirst).getLast? with
      | none => .error "SCRAM: server-first missing salt"
      | some saltB64 =>
        match b64Decode saltB64 with
        | .error e => .error e
        | .ok salt =>
          match (attributes 'i' serverFirst).getLast? with
          | none => .error "SCRAM: server-first missing iteration count"
          | some iters =>
            match parseUnsigned (2 ^ 32 - 1) iters with
            | none => .error "SCRAM: bad iteration count"
            | some iters =>
              if iters = 0 then .error "SCRAM: iteration count must be > 0"
              else
                let salted := H.pbkdf2Sha256 (asBytes password) salt iters
                let client := { client with
                  serverFirst := serverFirst, saltedPassword := some salted }
                .ok (client.clientFinal H salted nonce, client)

/-- `verify_server_final`, with the first nonce of the server-first message. -/
def verifyServerFinal (client : ScramClient) (serverFinal : List Char) : Except String Unit :=
  match client.saltedPassword with
  | none => .error "SCRAM: no handshake in progress"
  | some salted =>
    match (attributes 'r' client.serverFirst).head? with
    | none => .error "SCRAM: malformed handshake state"
    | some nonce =>
      match stripPrefix "v=".toList serverFinal with
      | none => .error "SCRAM: expected server signature \x60v=...\x60"
      | some gotB64 =>
        match b64Decode gotB64 with
        | .error e => .error e
        | .ok got =>
          if got = client.serverSignature H salted nonce then .ok ()
          else .error "SCRAM: server signature mismatch"

end ScramClient

/-! ### The exchange -/

section Exchange

variable (debug : BackendMsg → String)

/-- The loop of `scram_exchange` over what comes behind the client-final message. What `{:?}` says
of a message is a parameter. -/
def awaitOk (client : ScramClient) : List BackendMsg → Except String Unit
  | [] => .error "pg: socket read failed"
  | .authSaslFinal data :: rest =>
    match fromUtf8 data with
    | none => .error "pg: SCRAM server-final is not UTF-8"
    | some s =>
      match client.verifyServerFinal H s.toList with
      | .error e => .error e
      | .ok () => awaitOk client rest
  | .authOk :: _ => .ok ()
  | .errorMsg fs :: _ => .error ("pg.connect: " ++ fieldsMessage fs)
  | other :: _ => .error ("pg: expected SCRAM final/ok, got \x60" ++ debug other ++ "\x60")

/-- `scram_exchange`, with the nonce that `gen_nonce` gives and the messages that are received. -/
def scramExchange (user password nonce : List Char) (msgs : List BackendMsg) :
    Except String Unit :=
  match msgs with
  | [] => .error "pg: socket read failed"
  | .authSaslContinue data :: rest =>
    match fromUtf8 data with
    | none => .error "pg: SCRAM server-first is not UTF-8"
    | some serverFirst =>
      match (ScramClient.start user nonce).1.stepServerFirst H serverFirst.toList password with
      | .error e => .error e
      | .ok (_, client) => awaitOk H debug client rest
  | .errorMsg fs :: _ => .error ("pg.connect: " ++ fieldsMessage fs)
  | other :: _ => .error ("pg: expected SCRAM continue, got \x60" ++ debug other ++ "\x60")

end Exchange

/-! ### The law -/

/-- The client behind the server-first message. -/
def takenClient (user nonce serverFirst : List Char) (salted : Bytes) : ScramClient :=
  { (ScramClient.start user nonce).1 with
    serverFirst := serverFirst, saltedPassword := some salted }

/-- What the client takes from a server-first message: its nonce, which extends that of the client,
and the salted password. -/
structure Negotiated (password nonce serverFirst serverNonce : List Char) (salted : Bytes) :
    Prop where
  last : (attributes 'r' serverFirst).getLast? = some serverNonce
  extends' : nonce <+: serverNonce
  salts : ∃ saltB64 salt iters n, (attributes 's' serverFirst).getLast? = some saltB64 ∧
    b64Decode saltB64 = .ok salt ∧ (attributes 'i' serverFirst).getLast? = some iters ∧
    parseUnsigned (2 ^ 32 - 1) iters = some n ∧ n ≠ 0 ∧
    salted = H.pbkdf2Sha256 (asBytes password) salt n

/-- A server-final message whose decoded `v=` is a signature. -/
def Signs (final sig : Bytes) : Prop :=
  ∃ s v, fromUtf8 final = some s ∧ stripPrefix "v=".toList s.toList = some v ∧ b64Decode v = .ok sig

/-- Server-final messages up to `AuthenticationOk`, and what comes behind. -/
abbrev closing (finals : List Bytes) (tail : List BackendMsg) : List BackendMsg :=
  finals.map .authSaslFinal ++ .authOk :: tail

/-- The signature for an exchange with this nonce. -/
def signature (user nonce serverFirst : List Char) (salted : Bytes) (serverNonce : List Char) :
    Bytes :=
  (takenClient user nonce serverFirst salted).serverSignature H salted serverNonce

/-- **The server is verified**: its nonce extends that of the client, and one of the messages
between its first message and `AuthenticationOk` carries the signature for the salted password and
the text of this exchange. -/
def Verified (user password nonce : List Char) (msgs : List BackendMsg) : Prop :=
  ∃ data serverFirst serverNonce salted finals tail,
    msgs = .authSaslContinue data :: closing finals tail ∧
    fromUtf8 data = some serverFirst ∧
    Negotiated H password nonce serverFirst.toList serverNonce salted ∧
    ∃ final ∈ finals, Signs final (signature H user nonce serverFirst.toList salted serverNonce)

/-- Where the messages are such that the exchange ends well, at least one of them is signed, and the
signature for the first nonce in the server-first message is that for the last. -/
def SignedThroughout (user password nonce : List Char) (msgs : List BackendMsg) : Prop :=
  ∀ data serverFirst firstNonce serverNonce salted finals tail,
    msgs = .authSaslContinue data :: closing finals tail →
    fromUtf8 data = some serverFirst →
    Negotiated H password nonce serverFirst.toList serverNonce salted →
    (attributes 'r' serverFirst.toList).head? = some firstNonce →
    (∀ final ∈ finals,
      Signs final (signature H user nonce serverFirst.toList salted firstNonce)) →
    finals ≠ [] ∧ signature H user nonce serverFirst.toList salted firstNonce =
      signature H user nonce serverFirst.toList salted serverNonce

/-! ### The steps of the client -/

theorem Signs.unique {final sig sig' : Bytes} (h : Signs final sig) (h' : Signs final sig') :
    sig = sig' := by
  obtain ⟨s, v, hs, hv, hd⟩ := h
  obtain ⟨s', v', hs', hv', hd'⟩ := h'
  rw [hs] at hs'
  cases hs'
  rw [hv] at hv'
  cases hv'
  rw [hd] at hd'
  cases hd'
  rfl

theorem Negotiated.unique {password nonce serverFirst n n' : List Char} {salted salted' : Bytes}
    (h : Negotiated H password nonce serverFirst n salted)
    (h' : Negotiated H password nonce serverFirst n' salted') : n = n' ∧ salted = salted' := by
  obtain ⟨hlast, -, b, salt, iters, k, hb, hsalt, hiters, hk, -, rfl⟩ := h
  obtain ⟨hlast', -, b', salt', iters', k', hb', hsalt', hiters', hk', -, rfl⟩ := h'
  rw [hlast] at hlast'
  rw [hb] at hb'
  cases hb'
  rw [hsalt] at hsalt'
  cases hsalt'
  rw [hiters] at hiters'
  cases hiters'
  rw [hk] at hk'
  cases hk'
  exact ⟨Option.some.inj hlast', rfl⟩

/-- The client takes exactly the messages from which it can negotiate. -/
theorem stepServerFirst_ok_iff {user password nonce serverFirst : List Char}
    {r : List Char × ScramClient} :
    (ScramClient.start user nonce).1.stepServerFirst H serverFirst password = .ok r ↔
      ∃ serverNonce salted, Negotiated H password nonce serverFirst serverNonce salted ∧
        r = ((takenClient user nonce serverFirst salted).clientFinal H salted serverNonce,
          takenClient user nonce serverFirst salted) := by
  rw [ScramClient.stepServerFirst]
  constructor
  · intro h
    split at h
    · cases h
    · rename_i serverNonce hlast
      split at h
      · cases h
      · rename_i hextends
        split at h
        · cases h
        · rename_i saltB64 hsaltB64
          split at h
          · cases h
          · rename_i salt hsalt
            split at h
            · cases h
            · rename_i iters hiters
              split at h
              · cases h
              · rename_i n hn
                split at h
                · cases h
                · rename_i hzero
                  exact ⟨serverNonce, _, ⟨hlast, not_not.mp hextends, saltB64, salt, iters, n,
                    hsaltB64, hsalt, hiters, hn, hzero, rfl⟩, (Except.ok.inj h).symm⟩
  · rintro ⟨serverNonce, salted, ⟨hlast, hextends, saltB64, salt, iters, n, hsaltB64, hsalt, hiters,
      hn, hzero, rfl⟩, rfl⟩
    have hstart : (ScramClient.start user nonce).1.clientNonce <+: serverNonce := hextends
    rw [hlast]
    dsimp only
    rw [if_neg (not_not.mpr hstart), hsaltB64]
    dsimp only
    rw [hsalt]
    dsimp only
    rw [hiters]
    dsimp only
    rw [hn]
    dsimp only
    rw [if_neg hzero]
    rfl

/-- What is verified is the signature for the first nonce. -/
theorem verifyServerFinal_ok_iff {user nonce serverFirst firstNonce : List Char} {salted : Bytes}
    (hfirst : (attributes 'r' serverFirst).head? = some firstNonce) (s : List Char) :
    (takenClient user nonce serverFirst salted).verifyServerFinal H s = .ok () ↔
      ∃ v, stripPrefix "v=".toList s = some v ∧
        b64Decode v = .ok (signature H user nonce serverFirst salted firstNonce) := by
  have hsalted : (takenClient user nonce serverFirst salted).saltedPassword = some salted := rfl
  have htaken : (takenClient user nonce serverFirst salted).serverFirst = serverFirst := rfl
  unfold signature
  rw [ScramClient.verifyServerFinal, hsalted]
  dsimp only
  rw [htaken, hfirst]
  dsimp only
  constructor
  · intro h
    split at h
    · cases h
    · rename_i v hv
      split at h
      · cases h
      · rename_i got hgot
        refine ⟨v, hv, hgot.trans (congrArg _ ?_)⟩
        by_contra hne
        rw [if_neg hne] at h
        cases h
  · rintro ⟨v, hv, hdecode⟩
    rw [hv]
    dsimp only
    rw [hdecode]
    exact if_pos rfl

theorem awaitOk_ok_iff (debug : BackendMsg → String) {user nonce serverFirst firstNonce : List Char}
    {salted : Bytes} (hfirst : (attributes 'r' serverFirst).head? = some firstNonce)
    (msgs : List BackendMsg) :
    awaitOk H debug (takenClient user nonce serverFirst salted) msgs = .ok () ↔
      ∃ finals tail, msgs = closing finals tail ∧
        ∀ final ∈ finals, Signs final (signature H user nonce serverFirst salted firstNonce) := by
  induction msgs with
  | nil =>
    refine iff_of_false nofun ?_
    rintro ⟨finals, tail, h, -⟩
    exact List.append_ne_nil_of_right_ne_nil _ (List.cons_ne_nil _ _) h.symm
  | cons m rest ih =>
    constructor
    · intro h
      cases m
      case authOk => exact ⟨[], rest, rfl, by simp⟩
      case authSaslFinal data =>
        rw [awaitOk] at h
        split at h
        · cases h
        · rename_i s hs
          split at h
          · cases h
          · rename_i hverify
            obtain ⟨v, hv, hdecode⟩ := (verifyServerFinal_ok_iff H hfirst s.toList).mp hverify
            obtain ⟨finals, tail, rfl, hall⟩ := ih.mp h
            exact ⟨data :: finals, tail, rfl,
              List.forall_mem_cons.mpr ⟨⟨s, v, hs, hv, hdecode⟩, hall⟩⟩
      all_goals cases h
    · rintro ⟨finals, tail, hmsgs, hall⟩
      cases finals with
      | nil =>
        cases hmsgs
        rfl
      | cons data finals =>
        cases hmsgs
        obtain ⟨⟨s, v, hs, hv, hdecode⟩, hall⟩ := List.forall_mem_cons.mp hall
        rw [awaitOk, hs]
        dsimp only
        rw [(verifyServerFinal_ok_iff H hfirst s.toList).mpr ⟨v, hv, hdecode⟩]
        exact ih.mpr ⟨finals, tail, rfl, hall⟩

theorem map_final_inj {finals finals' : List Bytes} {tail tail' : List BackendMsg}
    (h : closing finals tail =
      closing finals' tail') : finals = finals' := by
  induction finals generalizing finals' with
  | nil =>
    cases finals' with
    | nil => rfl
    | cons f finals' => cases h
  | cons f finals ih =>
    cases finals' with
    | nil => cases h
    | cons f' finals' =>
      rw [closing, closing, List.map_cons, List.map_cons, List.cons_append, List.cons_append,
        List.cons.injEq] at h
      rw [BackendMsg.authSaslFinal.inj h.1, ih h.2]

theorem exists_first_of_last {α : Type} {l : List α} {a : α} (h : l.getLast? = some a) :
    ∃ b, l.head? = some b := by
  cases l with
  | nil => cases h
  | cons b l => exact ⟨b, rfl⟩

/-- An exchange ends well exactly if the messages are signed for the first nonce. -/
theorem scramExchange_ok_iff (debug : BackendMsg → String) (user password nonce : List Char)
    (msgs : List BackendMsg) :
    scramExchange H debug user password nonce msgs = .ok () ↔
      ∃ data serverFirst firstNonce serverNonce salted finals tail,
        msgs = .authSaslContinue data :: closing finals tail ∧
        fromUtf8 data = some serverFirst ∧
        Negotiated H password nonce serverFirst.toList serverNonce salted ∧
        (attributes 'r' serverFirst.toList).head? = some firstNonce ∧
        ∀ final ∈ finals,
          Signs final (signature H user nonce serverFirst.toList salted firstNonce) := by
  constructor
  · intro h
    cases msgs with
    | nil => cases h
    | cons m rest =>
      cases m
      case authSaslContinue data =>
        rw [scramExchange] at h
        split at h
        · cases h
        · rename_i serverFirst htext
          split at h
          · cases h
          · rename_i cfinal client hstep
            obtain ⟨serverNonce, salted, hneg, hr⟩ := (stepServerFirst_ok_iff H).mp hstep
            cases hr
            obtain ⟨firstNonce, hfirst⟩ := exists_first_of_last hneg.last
            obtain ⟨finals, tail, rfl, hall⟩ := (awaitOk_ok_iff H debug hfirst rest).mp h
            exact ⟨data, serverFirst, firstNonce, serverNonce, salted, finals, tail, rfl, htext,
              hneg, hfirst, hall⟩
      all_goals cases h
  · rintro ⟨data, serverFirst, firstNonce, serverNonce, salted, finals, tail, rfl, htext, hneg,
      hfirst, hall⟩
    rw [scramExchange, htext]
    dsimp only
    rw [(stepServerFirst_ok_iff H).mpr ⟨serverNonce, salted, hneg, rfl⟩]
    exact (awaitOk_ok_iff H debug hfirst _).mpr ⟨finals, tail, rfl, hall⟩

/-! ### The exact condition -/

/-- **A successful exchange has verified the server** exactly if, where the messages make it
succeed, there is a signed one among them, and it does not matter which nonce is signed. -/
theorem verified_iff (debug : BackendMsg → String) (user password nonce : List Char)
    (msgs : List BackendMsg) :
    (scramExchange H debug user password nonce msgs = .ok () →
        Verified H user password nonce msgs) ↔
      SignedThroughout H user password nonce msgs := by
  rw [scramExchange_ok_iff]
  constructor
  · intro h data serverFirst firstNonce serverNonce salted finals tail hmsgs htext hneg hfirst hall
    obtain ⟨data', serverFirst', serverNonce', salted', finals', tail', hmsgs', htext', hneg',
      final, hfinal, hsigns⟩ := h ⟨data, serverFirst, firstNonce, serverNonce, salted, finals, tail,
        hmsgs, htext, hneg, hfirst, hall⟩
    rw [hmsgs, List.cons.injEq] at hmsgs'
    obtain rfl := BackendMsg.authSaslContinue.inj hmsgs'.1
    obtain rfl := map_final_inj hmsgs'.2
    rw [htext] at htext'
    cases htext'
    obtain ⟨rfl, rfl⟩ := hneg.unique H hneg'
    exact ⟨List.ne_nil_of_mem hfinal, (hall final hfinal).unique hsigns⟩
  · rintro h ⟨data, serverFirst, firstNonce, serverNonce, salted, finals, tail, hmsgs, htext, hneg,
      hfirst, hall⟩
    obtain ⟨hne, hsame⟩ := h data serverFirst firstNonce serverNonce salted finals tail hmsgs htext
      hneg hfirst hall
    obtain ⟨final, rest, rfl⟩ := List.exists_cons_of_ne_nil hne
    refine ⟨data, serverFirst, serverNonce, salted, final :: rest, tail, hmsgs, htext, hneg, final,
      List.mem_cons_self, ?_⟩
    rw [← hsame]
    exact hall final List.mem_cons_self

/-- Whatever the hash functions are: a server that answers `r=aB,s=,i=1` to the nonce `a` and then
says that all is well is believed. -/
theorem unsigned_server_believed : ¬ ∃ H : Hashes,
    ∀ (debug : BackendMsg → String) (user password nonce : List Char) (msgs : List BackendMsg),
      scramExchange H debug user password nonce msgs = .ok () →
        Verified H user password nonce msgs := by
  rintro ⟨H, h⟩
  have hneg : Negotiated H [] ['a'] "r=aB,s=,i=1".toList ['a', 'B'] (H.pbkdf2Sha256 [] [] 1) := by
    refine ⟨by decide, by decide, [], [], ['1'], 1, by decide, by decide, by decide, by decide,
      by decide, rfl⟩
  obtain ⟨data, serverFirst, serverNonce, salted, finals, tail, hmsgs, -, -, final, hfinal, -⟩ :=
    h (fun _ => "") [] [] ['a'] [.authSaslContinue (Http.bytes "r=aB,s=,i=1"), .authOk]
      ((scramExchange_ok_iff H _ _ _ _ _).mpr ⟨_, "r=aB,s=,i=1", ['a', 'B'], ['a', 'B'], _, [], [],
        rfl, Http.fromUtf8_bytes _, hneg, by decide, by simp⟩)
  obtain ⟨f, rest, rfl⟩ := List.exists_cons_of_ne_nil (List.ne_nil_of_mem hfinal)
  cases hmsgs

end ZzLang.Db
