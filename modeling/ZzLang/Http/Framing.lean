import Mathlib.Algebra.BigOperators.Group.List.Basic
import Mathlib.Data.List.Infix
import ZzLang.Http.Serve

/-!
# The framing of requests

A connection carries requests one behind the other, and the server has to find where each of them
ends. It does so as long as no read brings bytes of two requests: what a read brings beyond the
request at hand is dropped with the buffer it is in. So the server dispatches the requests of a
connection exactly when every read that ends a head or a body ends a request with it
(`Separate`); how the bytes are cut inside a request does not matter.

A head that says no length, by a transfer coding or by a field that says no number, is served as
if it said the number that `parse_head` makes of it. It is refused only where the request with
that length would be.
-/

namespace ZzLang.Http

open ZzLang.Db (isWhitespace parseDigits)

/-! ### Reading until enough bytes have come -/

namespace Stream

variable {k n : ℕ} [NeZero k] {s : Stream}

/-- Reads with a buffer of `k` bytes, until at least `n` bytes have come or no more come. -/
def fetch (k n : ℕ) [NeZero k] (s : Stream) : Bytes × Stream :=
  if n = 0 then ([], s) else
    match _h : s.read k with
    | (some (b :: bs), s') =>
      ((b :: bs) ++ (s'.fetch k (n - (b :: bs).length)).1, (s'.fetch k (n - (b :: bs).length)).2)
    | _ => ([], s)
termination_by s.size
decreasing_by all_goals exact Stream.read_size _h

@[simp]
theorem fetch_zero : s.fetch k 0 = ([], s) := by
  rw [fetch, if_pos rfl]

theorem fetch_of_read {b : UInt8} {bs : Bytes} {s' : Stream} (hn : n ≠ 0)
    (h : s.read k = (some (b :: bs), s')) :
    s.fetch k n = ((b :: bs) ++ (s'.fetch k (n - (b :: bs).length)).1,
      (s'.fetch k (n - (b :: bs).length)).2) := by
  rw [fetch, if_neg hn]
  split
  · rename_i heq
    rw [h] at heq
    obtain ⟨hc, rfl⟩ := Prod.mk.inj heq
    obtain ⟨rfl, rfl⟩ := List.cons.inj (Option.some_inj.mp hc)
    rfl
  · rename_i hne
    exact absurd h (hne _ _ _)

/-- How reads of enough bytes go: there is nothing left to read for, or one more read brings
something. -/
theorem fetchInduct {motive : Stream → ℕ → Prop} (zero : ∀ s, s.Proper → motive s 0)
    (read : ∀ s n b bs s', n ≠ 0 → s.read k = (some (b :: bs), s') → s'.Proper →
      n ≤ s.content.length → (b :: bs) ++ s'.content = s.content →
      motive s' (n - (b :: bs).length) → motive s n)
    (s : Stream) (n : ℕ) (hs : s.Proper) (hn : n ≤ s.content.length) : motive s n := by
  induction hsize : s.size using Nat.strong_induction_on generalizing s n with
  | _ size ih =>
    by_cases hzero : n = 0
    · exact hzero ▸ zero s hs
    · have hne : s.content ≠ [] := by
        rintro hnil
        simp [hnil] at hn
        exact hzero hn
      obtain ⟨b, bs, hread⟩ := hs.exists_read (k := k) hne
      have hread : s.read k = (some (b :: bs), (s.read k).2) := Prod.ext hread rfl
      have hcontent := read_content hread
      refine read s n b bs _ hzero hread hs.read hn hcontent ?_
      refine ih _ (hsize ▸ read_size hread) _ _ hs.read ?_ rfl
      have := congrArg List.length hcontent
      rw [List.length_append] at this
      omega

theorem Proper.fetch (hs : s.Proper) (hn : n ≤ s.content.length) : (s.fetch k n).2.Proper := by
  refine fetchInduct (k := k) (motive := fun s n => (s.fetch k n).2.Proper) ?_ ?_ s n hs hn
  · intro s hs
    rwa [fetch_zero]
  · intro s n b bs s' hn hread _ _ _ ih
    rwa [fetch_of_read hn hread]

/-- Fetching loses nothing. -/
theorem Proper.fetch_content (hs : s.Proper) (hn : n ≤ s.content.length) :
    (s.fetch k n).1 ++ (s.fetch k n).2.content = s.content := by
  refine fetchInduct (k := k)
    (motive := fun s n => (s.fetch k n).1 ++ (s.fetch k n).2.content = s.content) ?_ ?_ s n hs hn
  · intro s _
    rw [fetch_zero, List.nil_append]
  · intro s n b bs s' hn hread _ _ hcontent ih
    rw [fetch_of_read hn hread, List.append_assoc, ih, hcontent]

theorem Proper.le_fetch (hs : s.Proper) (hn : n ≤ s.content.length) :
    n ≤ (s.fetch k n).1.length := by
  refine fetchInduct (k := k) (motive := fun s n => n ≤ (s.fetch k n).1.length) ?_ ?_ s n hs hn
  · exact fun s _ => Nat.zero_le _
  · intro s n b bs s' hn hread _ _ _ ih
    rw [fetch_of_read hn hread, List.length_append]
    omega

end Stream

/-! ### The two loops -/

theorem findSubslice_isSome {haystack needle : Bytes} (h : needle ≠ []) :
    (findSubslice haystack needle).isSome ↔ needle <:+: haystack := by
  rw [findSubslice]
  split_ifs with hshort
  · refine iff_of_false (by simp) fun hin => ?_
    rcases hshort with hnil | hshort
    · exact h hnil
    · exact absurd hin.length_le (by omega)
  · simp only [List.find?_isSome, List.mem_range, decide_eq_true_eq]
    constructor
    · rintro ⟨i, -, hi⟩
      rw [← hi]
      exact ((List.take_prefix _ _).isInfix).trans (List.drop_suffix _ _).isInfix
    · rintro ⟨pre, post, rfl⟩
      refine ⟨pre.length, ?_, ?_⟩
      · simp only [List.length_append]
        omega
      · simp [List.append_assoc]

/-- The loop for a head stops with the read that brings the end of the head, and then sees whether
it has read too much. -/
theorem readUntilDelim_eq {s : Stream} {buf : Bytes} {delim : Bytes} {cap n : ℕ} (hn : n ≠ 0)
    (hs : s.Proper) (hle : n ≤ s.content.length) (hcap : buf.length + n ≤ cap)
    (hfind : ∀ pre, pre <+: s.content →
      ((findSubslice (buf ++ pre) delim).isSome ↔ n ≤ pre.length)) :
    readUntilDelim delim cap s buf =
      (some (if cap < (buf ++ (s.fetch 8192 n).1).length then none
        else some (buf ++ (s.fetch 8192 n).1)), (s.fetch 8192 n).2) := by
  refine Stream.fetchInduct (k := 8192) (motive := fun s n => ∀ buf : Bytes, n ≠ 0 →
    buf.length + n ≤ cap → (∀ pre, pre <+: s.content →
      ((findSubslice (buf ++ pre) delim).isSome ↔ n ≤ pre.length)) →
    readUntilDelim delim cap s buf =
      (some (if cap < (buf ++ (s.fetch 8192 n).1).length then none
        else some (buf ++ (s.fetch 8192 n).1)), (s.fetch 8192 n).2)) ?_ ?_ s n hs hle buf hn
      hcap hfind
  · exact fun s _ buf h => absurd rfl h
  · intro s n b bs s' hn hread hs' hle hcontent ih buf _ hcap hfind
    have hfound := hfind (b :: bs) ⟨s'.content, hcontent⟩
    rw [readUntilDelim, Stream.fetch_of_read hn hread]
    split
    · rename_i heq
      rw [hread] at heq
      cases heq
    · rename_i heq
      rw [hread] at heq
      cases heq
    rename_i heq
    rw [hread] at heq
    obtain ⟨hc, rfl⟩ := Prod.mk.inj heq
    obtain ⟨rfl, rfl⟩ := List.cons.inj (Option.some_inj.mp hc)
    by_cases hdone : n ≤ (b :: bs).length
    · -- The end of the head is among the bytes of this read.
      rw [Nat.sub_eq_zero_of_le hdone, Stream.fetch_zero, if_pos (hfound.mpr hdone)]
      simp only [List.append_nil]
      by_cases h : cap < (buf ++ b :: bs).length
      · rw [if_pos h, if_pos h]
      · rw [if_neg h, if_neg h]
    · have hrest : n - (b :: bs).length ≠ 0 := by omega
      have hroom : ¬ cap < (buf ++ b :: bs).length := by
        rw [List.length_append]
        omega
      rw [if_neg hroom, if_neg (fun h => hdone (hfound.mp h)), ih _ hrest ?_ ?_]
      · simp only [List.append_assoc]
      · rw [List.length_append]
        omega
      · intro pre hpre
        have hpre : (b :: bs) ++ pre <+: s.content :=
          hcontent ▸ (List.prefix_append_right_inj _).mpr hpre
        rw [List.append_assoc, hfind _ hpre, List.length_append]
        omega

/-- The loop for a body brings the bytes that are missing, or finds that they do not come. -/
theorem readRemaining_eq {s : Stream} {out : Bytes} {remaining : ℕ} (hs : s.Proper)
    (hle : remaining ≤ s.content.length) :
    readRemaining s out remaining = (some (out ++ (s.fetch 65536 remaining).1.take remaining),
      (s.fetch 65536 remaining).2) := by
  refine Stream.fetchInduct (k := 65536) (motive := fun s n => ∀ out : Bytes,
    readRemaining s out n = (some (out ++ (s.fetch 65536 n).1.take n),
      (s.fetch 65536 n).2)) ?_ ?_ s remaining hs hle out
  · intro s _ out
    rw [readRemaining, if_pos rfl, Stream.fetch_zero, List.take_nil, List.append_nil]
  · intro s n b bs s' hn hread hs' hle hcontent ih out
    rw [readRemaining, if_neg hn, Stream.fetch_of_read hn hread]
    split
    · rename_i heq
      rw [hread] at heq
      cases heq
    · rename_i heq
      rw [hread] at heq
      cases heq
    rename_i heq
    rw [hread] at heq
    obtain ⟨hc, rfl⟩ := Prod.mk.inj heq
    obtain ⟨rfl, rfl⟩ := List.cons.inj (Option.some_inj.mp hc)
    have hmin : n - min (b :: bs).length n = n - (b :: bs).length := by omega
    rw [hmin, ih, List.take_append, List.append_assoc]

/-- When fewer bytes come than are missing, there is no body. -/
theorem readRemaining_eq_none {s : Stream} {out : Bytes} {remaining : ℕ}
    (hlt : s.content.length < remaining) : (readRemaining s out remaining).1 = none := by
  induction hsize : s.size using Nat.strong_induction_on generalizing s out remaining with
  | _ size ih =>
    rw [readRemaining, if_neg (by omega)]
    split
    · rfl
    · rfl
    · rename_i b bs s' hread
      have hlen := congrArg List.length (Stream.read_content hread)
      rw [List.length_append] at hlen
      refine ih _ (hsize ▸ Stream.read_size hread) ?_ rfl
      omega

/-! ### Nothing is read twice -/

theorem length_content_of_read {k : ℕ} {s s' : Stream} {chunk : Option Bytes}
    (h : s.read k = (chunk, s')) :
    (chunk.getD []).length + s'.content.length = s.content.length := by
  rcases chunk with _ | chunk
  · rw [Stream.read] at h
    split at h
    · obtain ⟨-, rfl⟩ := Prod.mk.inj h
      simp
    · split_ifs at h <;> cases h
  · rw [← Stream.read_content h, List.length_append, Option.getD_some]

theorem length_readUntilDelim (delim : Bytes) (cap : ℕ) (s : Stream) (buf : Bytes) :
    ((readUntilDelim delim cap s buf).1.join.getD []).length +
        (readUntilDelim delim cap s buf).2.content.length ≤ buf.length + s.content.length := by
  induction hsize : s.size using Nat.strong_induction_on generalizing s buf with
  | _ size ih =>
    rw [readUntilDelim]
    split
    · rename_i s' hread
      have := length_content_of_read hread
      simp at this ⊢
      omega
    · rename_i s' hread
      have := length_content_of_read hread
      simp at this ⊢
      omega
    · rename_i b bs s' hread
      have hlen := length_content_of_read hread
      rw [Option.getD_some] at hlen
      split_ifs
      · simp
        omega
      · simp only [Option.join_some, Option.getD_some, List.length_append]
        omega
      · have := ih _ (hsize ▸ Stream.read_size hread) s' (buf ++ b :: bs) rfl
        rw [List.length_append] at this
        omega

theorem length_readRemaining (s : Stream) (out : Bytes) (remaining : ℕ) :
    ((readRemaining s out remaining).1.getD []).length +
        (readRemaining s out remaining).2.content.length ≤ out.length + s.content.length := by
  induction hsize : s.size using Nat.strong_induction_on generalizing s out remaining with
  | _ size ih =>
    rw [readRemaining]
    split_ifs
    · simp
    · split
      · rename_i s' hread
        have := length_content_of_read hread
        simp at this ⊢
        omega
      · rename_i s' hread
        have := length_content_of_read hread
        simp at this ⊢
        omega
      · rename_i b bs s' hread
        have hlen := length_content_of_read hread
        rw [Option.getD_some] at hlen
        have := ih _ (hsize ▸ Stream.read_size hread) s' (out ++ (b :: bs).take remaining)
          (remaining - min (b :: bs).length remaining) rfl
        rw [List.length_append, List.length_take] at this
        omega

theorem length_readExactCapped (s : Stream) (buffered : Bytes) (total cap : ℕ) :
    ((readExactCapped s buffered total cap).1.getD []).length +
        (readExactCapped s buffered total cap).2.content.length ≤
      buffered.length + s.content.length := by
  rw [readExactCapped]
  split_ifs
  · simp
  · refine (length_readRemaining _ _ _).trans ?_
    rw [List.length_take]
    omega

/-- The bytes that a dispatched request is made of. -/
def Dispatched.weight (d : Dispatched) : ℕ := d.head.length + d.body.length

/-- The bytes of all of them. -/
def weight (ds : List Dispatched) : ℕ := (ds.map Dispatched.weight).sum

variable {σ H : Type}

section

variable (httparse : Bytes → Httparse) (server : Server σ H) (limits : ServerLimits)
  (allowHijack : Bool)

theorem weight_serveHead (headBuf : Bytes) (head : ParsedHead) (s : Stream) (interp : σ) :
    weight (serveHead server limits allowHijack headBuf head s interp).dispatched.toList +
        (serveHead server limits allowHijack headBuf head s interp).stream.content.length ≤
      headBuf.length + s.content.length := by
  have hread := length_readExactCapped s (headBuf.drop head.headLen) head.contentLength
    limits.maxBodyBytes.toNat
  rw [List.length_drop] at hread
  rw [serveHead]
  split
  · rw [serveHijack]
    split <;> simp [weight]
  · split_ifs
    · simp [weight, refuse]
    · split <;> rename_i heq <;> rw [heq] at hread
      · simp [weight, refuse] at hread ⊢
        omega
      · simp [weight, Dispatched.weight, serveBody] at hread ⊢
        omega

theorem weight_handleOneRequest (s : Stream) (interp : σ) :
    weight (handleOneRequest httparse server limits allowHijack s interp).dispatched.toList +
        (handleOneRequest httparse server limits allowHijack s interp).stream.content.length ≤
      s.content.length := by
  have hread := length_readUntilDelim headEnd maxHeadBytes s []
  rw [handleOneRequest]
  split <;> rename_i heq <;> rw [heq] at hread <;> simp at hread
  · simpa [weight, closeSilently] using hread
  · simpa [weight, refuse] using hread
  · split_ifs
    · simp [weight, closeSilently]
      omega
    · split
      · simp [weight, refuse]
        omega
      · simp [weight, refuse]
        omega
      · exact (weight_serveHead _ _ _ _ _ _ _).trans hread

theorem weight_append (ds ds' : List Dispatched) : weight (ds ++ ds') = weight ds + weight ds' := by
  simp [weight]

/-- The requests that the first turn and the turns behind it dispatch. -/
theorem dispatches_turns_succ (n : ℕ) (s : Stream) (interp : σ) :
    dispatches (turns httparse server limits allowHijack (n + 1) s interp) =
      let turn := handleOneRequest httparse server limits allowHijack s interp
      turn.dispatched.toList ++
        match turn.loop with
        | .next => dispatches (turns httparse server limits allowHijack n turn.stream turn.interp)
        | _ => [] := by
  rw [turns]
  set turn := handleOneRequest httparse server limits allowHijack s interp
  dsimp only
  cases turn.loop with
  | next => rcases h : turn.dispatched <;> simp [dispatches, h]
  | close => rcases h : turn.dispatched <;> simp [dispatches, h]
  | hijack upgrade => rcases h : turn.dispatched <;> simp [dispatches, h]

/-- The requests that a connection dispatches are made of bytes that it carries. -/
theorem weight_dispatches_turns (n : ℕ) (s : Stream) (interp : σ) :
    weight (dispatches (turns httparse server limits allowHijack n s interp)) ≤
      s.content.length := by
  induction n generalizing s interp with
  | zero => exact Nat.zero_le _
  | succ n ih =>
    have hone := weight_handleOneRequest httparse server limits allowHijack s interp
    rw [dispatches_turns_succ]
    dsimp only
    rw [weight_append]
    split
    · exact (Nat.add_le_add_left (ih _ _) _).trans hone
    · exact (Nat.le_add_right _ _).trans hone

end

variable {httparse : Bytes → Httparse} {server : Server σ H} {limits : ServerLimits}
  {allowHijack : Bool}

/-! ### Requests -/

/-- A request as a client sends it: the bytes of its head, what is in them, and its body. -/
structure Request where
  head : Bytes
  method : String
  path : String
  version : Option ℕ
  headers : List (String × Bytes)
  body : Bytes

namespace Request

variable (R : Request)

def bytes : Bytes := R.head ++ R.body

/-- What `httparse` finds in the head. -/
def raw : RawRequest := ⟨some R.method, some R.path, R.version, R.headers⟩

/-- What `parse_head` makes of it. -/
def parsed : ParsedHead :=
  R.headers.foldl ParsedHead.header
    { method := R.method, rawPath := R.path, version11 := R.version = some 1
      headLen := R.head.length, contentLength := 0, expectContinue := false, connection := none
      headers := [] }

/-- The request as it is to be dispatched. -/
def event : Dispatched := ⟨R.head, R.method, R.path, R.headers, R.body⟩

/-- The values of the `Content-Length` fields. -/
def lengths : List Bytes := ParsedHead.lengths R.headers

/-- Whether the body comes in a transfer coding. -/
def TransferCoded : Prop := ∃ f ∈ R.headers, eqIgnoreAsciiCase f.1 "transfer-encoding" = true

/-- Whether an upgrade route takes the request. -/
def Hijacked {σ H : Type} (server : Server σ H) (allowHijack : Bool) : Prop :=
  (hijackOf server allowHijack R.parsed).isSome

/-- Whether the server reads on behind the request. -/
def StaysOpen : Prop := foldConnection R.parsed.version11 R.parsed.connection = true

end Request

/-- A numeral. -/
def numeral (value : Bytes) : Option ℕ := parseDigits (value.map Char.ofUInt8)

/-- A head that `httparse` reads, whatever comes behind it, and that ends with its first empty
line. -/
structure HeadFormed (httparse : Bytes → Httparse) (R : Request) : Prop where
  parses : ∀ rest, httparse (R.head ++ rest) = .complete R.head.length R.raw
  method : R.method ≠ ""
  path : R.path ≠ ""
  ends : headEnd <:+ R.head
  first : ∀ pre, pre <+: R.head → headEnd <:+: pre → pre = R.head
  size : R.head.length ≤ maxHeadBytes

/-- A request whose body is as long as its `Content-Length` says, or absent. -/
structure WellFormed (httparse : Bytes → Httparse) (limits : ServerLimits) (R : Request) : Prop
    extends HeadFormed httparse R where
  uncoded : ¬ R.TransferCoded
  announced : ∀ v ∈ R.lengths, numeral v = some R.body.length
  absent : R.lengths = [] → R.body = []
  bodySize : R.body.length ≤ limits.maxBodyBytes.toNat

/-- A request whose head does not say how long the body is: the body comes in a transfer coding,
or a `Content-Length` is no number, or two of them differ. -/
def LengthUnknown (R : Request) : Prop :=
  R.TransferCoded ∨ (∃ v ∈ R.lengths, numeral v = none) ∨
    ∃ v ∈ R.lengths, ∃ w ∈ R.lengths, numeral v ≠ numeral w

/-- The read that ends a head ends before the limit, the read that ends a request ends with it, no
upgrade route takes the request, and the server reads on when there is one more. -/
def Separate {σ H : Type} (server : Server σ H) (allowHijack : Bool) :
    List Request → Stream → Prop
  | [], _ => True
  | R :: rest, s =>
    let head := s.fetch 8192 R.head.length
    let body := head.2.fetch 65536 (R.bytes.length - head.1.length)
    head.1.length ≤ maxHeadBytes ∧ head.1.length + body.1.length = R.bytes.length ∧
      ¬ R.Hijacked server allowHijack ∧ (rest ≠ [] → R.StaysOpen) ∧
      Separate server allowHijack rest body.2

/-- An error is answered and the connection is closed; nothing is dispatched. -/
def AnsweredByError {σ H : Type} (t : Turn σ H) : Prop :=
  t.loop = .close ∧ t.dispatched = none ∧ ∃ status headers message, 400 ≤ status ∧
    t.writes.getLast? = some (formatResponseWithHeaders status headers message false)

/-- The rate limit refuses the next upgrade. -/
def Limited {σ H : Type} (server : Server σ H) (interp : σ) : Prop :=
  ∃ check, server.rateLimit = some check ∧ (check interp).1.isSome

/-! ### The head and the body of a request -/

theorem isDigit_ofUInt8 {b : UInt8} (h : (Char.ofUInt8 b).isDigit = true) : b.toNat < 128 := by
  simp [Char.isDigit, Char.ofUInt8, UInt32.le_iff_toNat_le] at h
  omega

theorem isWhitespace_of_isDigit {c : Char} (h : c.isDigit = true) : isWhitespace c = false := by
  simp [Char.isDigit, UInt32.le_iff_toNat_le] at h
  simp [isWhitespace]
  omega

theorem trim_of_isDigit {cs : List Char} (h : ∀ c ∈ cs, c.isDigit = true) : trim cs = cs := by
  have hdrop : ∀ {ds : List Char}, (∀ c ∈ ds, c.isDigit = true) →
      ds.dropWhile isWhitespace = ds := by
    rintro (_ | ⟨d, ds⟩) h
    · rfl
    · exact List.dropWhile_cons_of_neg (by simp [isWhitespace_of_isDigit (h d (by simp))])
  rw [trim, hdrop h, hdrop (fun c hc => h c (List.mem_reverse.mp hc)), List.reverse_reverse]

theorem parseUsize_of_isDigit {cs : List Char} {n : ℕ} (h : parseDigits cs = some n)
    (hn : n < 2 ^ 64) : parseUsize cs = some n := by
  have hplus : ∀ ds, cs ≠ '+' :: ds := by
    rintro ds rfl
    simp [parseDigits] at h
  rw [parseUsize, h, Option.filter_some, if_pos (by simpa using hn)]
  exact hplus

/-- A numeral says the number that it is. -/
theorem lengthOf_of_numeral {v : Bytes} {n : ℕ} (h : numeral v = some n) (hn : n < 2 ^ 64) :
    lengthOf v = n := by
  have hall : ∀ c ∈ v.map Char.ofUInt8, c.isDigit = true := by
    rw [numeral, parseDigits] at h
    split_ifs at h with hdigits
    exact List.all_eq_true.mp hdigits.2
  have hbytes := bytes_ofList_map fun b hb =>
    isDigit_ofUInt8 (hall _ (List.mem_map_of_mem hb))
  rw [lengthOf]
  conv_lhs => rw [← hbytes]
  rw [fromUtf8_bytes, Option.bind_some, String.toList_ofList, trim_of_isDigit hall,
    parseUsize_of_isDigit h hn, Option.getD_some]

namespace HeadFormed

variable {R : Request} {s : Stream} {rest : Bytes} {interp : σ}

theorem parseHead (h : HeadFormed httparse R) (rest : Bytes) :
    parseHead httparse (R.head ++ rest) = .ok R.parsed := by
  rw [Http.parseHead, h.parses]
  simp only [Request.raw, h.method, h.path, or_self, if_false]
  rfl

/-- The empty line that ends the head is in a buffer exactly when the whole head is. -/
theorem isSome_findSubslice (h : HeadFormed httparse R) {pre : Bytes}
    (hpre : pre <+: R.head ++ rest) :
    (findSubslice pre headEnd).isSome ↔ R.head.length ≤ pre.length := by
  rw [findSubslice_isSome (by decide)]
  constructor
  · intro hin
    by_contra hlt
    have hshort : pre <+: R.head :=
      List.prefix_of_prefix_length_le hpre (List.prefix_append _ _) (by omega)
    exact hlt (h.first pre hshort hin ▸ le_rfl)
  · intro hle
    have hlong : R.head <+: pre :=
      List.prefix_of_prefix_length_le (List.prefix_append _ _) hpre hle
    exact h.ends.isInfix.trans hlong.isInfix

theorem length_ne_zero (h : HeadFormed httparse R) : R.head.length ≠ 0 := by
  have := h.ends.length_le
  simp [headEnd, crlf] at this
  omega

theorem readUntilDelim (h : HeadFormed httparse R) (hs : s.Proper)
    (hc : s.content = R.head ++ rest) :
    readUntilDelim headEnd maxHeadBytes s [] =
      (some (if maxHeadBytes < (s.fetch 8192 R.head.length).1.length then none
        else some (s.fetch 8192 R.head.length).1), (s.fetch 8192 R.head.length).2) := by
  have hle : R.head.length ≤ s.content.length := by
    rw [hc, List.length_append]
    omega
  have hsize : ([] : Bytes).length + R.head.length ≤ maxHeadBytes := by
    simpa using h.size
  rw [readUntilDelim_eq h.length_ne_zero hs hle hsize]
  · simp
  · exact fun pre hpre => h.isSome_findSubslice (hc ▸ hpre)

/-- What has been read with the head: the head, and what comes behind it. -/
theorem fetch_eq (hs : s.Proper) (hc : s.content = R.head ++ rest) :
    ∃ tail, (s.fetch 8192 R.head.length).1 = R.head ++ tail ∧
      tail ++ (s.fetch 8192 R.head.length).2.content = rest := by
  have hle : R.head.length ≤ s.content.length := by
    rw [hc, List.length_append]
    omega
  have hall := hs.fetch_content (k := 8192) hle
  have hlong : R.head <+: (s.fetch 8192 R.head.length).1 :=
    List.prefix_of_prefix_length_le (hc ▸ List.prefix_append _ _) (hall ▸ List.prefix_append _ _)
      (hs.le_fetch hle)
  obtain ⟨tail, htail⟩ := hlong
  refine ⟨tail, htail.symm, ?_⟩
  rw [← htail, hc, List.append_assoc] at hall
  exact List.append_cancel_left hall

/-- A head is refused when too much has been read with it, and served otherwise. -/
theorem handleOneRequest (h : HeadFormed httparse R) (hs : s.Proper)
    (hc : s.content = R.head ++ rest) :
    handleOneRequest httparse server limits allowHijack s interp =
      if maxHeadBytes < (s.fetch 8192 R.head.length).1.length then
        refuse 431 "headers too large" [] (s.fetch 8192 R.head.length).2 interp
      else serveHead server limits allowHijack (s.fetch 8192 R.head.length).1 R.parsed
        (s.fetch 8192 R.head.length).2 interp := by
  obtain ⟨tail, htail, -⟩ := fetch_eq hs hc
  have hne : R.head ++ tail ≠ [] := by
    rintro hnil
    rw [List.append_eq_nil_iff] at hnil
    exact h.length_ne_zero (by rw [hnil.1, List.length_nil])
  rw [Http.handleOneRequest, h.readUntilDelim hs hc, htail]
  by_cases hlong : maxHeadBytes < (R.head ++ tail).length
  · simp only [if_pos hlong]
  · simp only [if_neg hlong, if_neg hne, h.parseHead tail]

end HeadFormed

theorem Request.parsed_contentLength (R : Request) :
    R.parsed.contentLength = (R.lengths.map lengthOf).getLast?.getD 0 :=
  ParsedHead.foldl_contentLength _ _

theorem WellFormed.contentLength {R : Request} (h : WellFormed httparse limits R) :
    R.parsed.contentLength = R.body.length := by
  have hbound : R.body.length < 2 ^ 64 :=
    lt_of_le_of_lt h.bodySize (by simpa using limits.maxBodyBytes.toNat_lt)
  rw [R.parsed_contentLength]
  rcases hlast : (R.lengths.map lengthOf).getLast? with _ | n
  · rw [List.getLast?_eq_none_iff, List.map_eq_nil_iff] at hlast
    rw [h.absent hlast, Option.getD_none, List.length_nil]
  · obtain ⟨v, hv, rfl⟩ := List.mem_map.mp (List.mem_of_getLast? hlast)
    rw [Option.getD_some, lengthOf_of_numeral (h.announced v hv) hbound]

/-! ### One request -/

/-- What a body is read from: what is left of the head buffer, and the reads behind it. -/
theorem readExactCapped_eq {s : Stream} (buffered : Bytes) {total cap : ℕ} (hs : s.Proper)
    (hcap : total ≤ cap) (hle : total ≤ (buffered ++ s.content).length) :
    readExactCapped s buffered total cap =
      (some ((buffered ++ s.content).take total),
        (s.fetch 65536 (total - buffered.length)).2) := by
  have hmissing : total - min buffered.length total = total - buffered.length := by omega
  have hrest : total - buffered.length ≤ s.content.length := by
    rw [List.length_append] at hle
    omega
  rw [readExactCapped, if_neg (by omega), hmissing, readRemaining_eq hs hrest, List.take_append]
  conv_rhs => rw [← hs.fetch_content (k := 65536) hrest]
  rw [List.take_append_of_le_length (hs.le_fetch hrest)]

theorem readExactCapped_eq_none {s : Stream} {buffered : Bytes} {total : ℕ} (cap : ℕ)
    (hlt : (buffered ++ s.content).length < total) :
    (readExactCapped s buffered total cap).1 = none := by
  rw [readExactCapped]
  split_ifs
  · rfl
  · refine readRemaining_eq_none ?_
    rw [List.length_append] at hlt
    omega

section

variable {R : Request} {s : Stream} {rest : Bytes} {interp : σ}

@[simp]
theorem Request.parsed_headLen (R : Request) : R.parsed.headLen = R.head.length := by
  simp [Request.parsed]

/-- A request that no upgrade route takes is dispatched, unless too much has been read with its
head; what is read with its body is what is missing of it, in reads of 64 KiB. -/
theorem WellFormed.handleOneRequest (h : WellFormed httparse limits R) (hs : s.Proper)
    (hc : s.content = R.bytes ++ rest) (hhijack : ¬ R.Hijacked server allowHijack)
    (hsize : (s.fetch 8192 R.head.length).1.length ≤ maxHeadBytes) :
    handleOneRequest httparse server limits allowHijack s interp =
      serveBody server (s.fetch 8192 R.head.length).1 R.parsed R.body
        ((s.fetch 8192 R.head.length).2.fetch 65536
          (R.bytes.length - (s.fetch 8192 R.head.length).1.length)).2 interp := by
  rw [Request.bytes, List.append_assoc] at hc
  obtain ⟨tail, htail, hrest⟩ := HeadFormed.fetch_eq hs hc
  have hle : R.head.length ≤ s.content.length := by
    rw [hc, List.length_append]
    omega
  have hnone : hijackOf server allowHijack R.parsed = none :=
    Option.not_isSome_iff_eq_none.mp hhijack
  have hmissing : R.body.length - tail.length =
      R.bytes.length - (s.fetch 8192 R.head.length).1.length := by
    rw [htail, Request.bytes, List.length_append, List.length_append]
    omega
  have hread := readExactCapped_eq tail (hs.fetch hle) h.bodySize (by
    rw [hrest, List.length_append]
    omega)
  rw [h.toHeadFormed.handleOneRequest hs hc, if_neg (by omega), serveHead, hnone,
    h.contentLength]
  simp only [if_neg (show ¬ limits.maxBodyBytes.toNat < R.body.length by
    have := h.bodySize
    omega)]
  rw [R.parsed_headLen, htail, List.drop_left, hread, hmissing, hrest, List.take_left, htail]

theorem dispatched_serveBody {s' : Stream} (hs : s.Proper) (hc : s.content = R.head ++ rest) :
    (serveBody server (s.fetch 8192 R.head.length).1 R.parsed R.body s' interp).dispatched =
      some R.event := by
  obtain ⟨tail, htail, -⟩ := HeadFormed.fetch_eq hs hc
  simp [serveBody, htail, Request.event, Request.parsed]

theorem dispatched_serveHijack (hijack : H) :
    (serveHijack server hijack s interp).dispatched = none := by
  rw [serveHijack]
  split <;> rfl

theorem loop_serveHijack (hijack : H) : (serveHijack server hijack s interp).loop ≠ .next := by
  rw [serveHijack]
  split <;> rintro ⟨⟩

/-- Otherwise nothing is dispatched. -/
theorem WellFormed.dispatches_eq_nil (h : WellFormed httparse limits R) (hs : s.Proper)
    (hc : s.content = R.bytes ++ rest)
    (hor : R.Hijacked server allowHijack ∨
      maxHeadBytes < (s.fetch 8192 R.head.length).1.length) (n : ℕ) :
    dispatches (turns httparse server limits allowHijack n s interp) = [] := by
  rcases n with _ | n
  · rfl
  rw [Request.bytes, List.append_assoc] at hc
  rw [dispatches_turns_succ, h.toHeadFormed.handleOneRequest hs hc]
  by_cases hlong : maxHeadBytes < (s.fetch 8192 R.head.length).1.length
  · rw [if_pos hlong]
    rfl
  · obtain ⟨hijack, hsome⟩ := Option.isSome_iff_exists.mp (hor.resolve_right hlong)
    rw [if_neg hlong, serveHead, hsome]
    dsimp only
    rw [dispatched_serveHijack]
    split
    · rename_i heq
      exact absurd heq (loop_serveHijack hijack)
    · rfl

end

/-! ### All requests of a connection -/

/-- On a connection that carries nothing, nothing is dispatched. -/
theorem dispatches_eq_nil {s : Stream} (hs : s.Proper) (hc : s.content = []) (n : ℕ) (interp : σ) :
    dispatches (turns httparse server limits allowHijack n s interp) = [] := by
  rcases n with _ | n
  · rfl
  have hsegments : s.segments = [] := by
    rcases hseg : s.segments with _ | ⟨seg, segs⟩
    · rfl
    · rw [Stream.content, hseg, List.flatten_cons, List.append_eq_nil_iff] at hc
      exact absurd hc.1 (hs seg (by simp [hseg]))
  have hread : s.read 8192 = (if s.fails then none else some [], s) := by
    rw [Stream.read, hsegments]
  have hsilent : handleOneRequest httparse server limits allowHijack s interp =
      closeSilently s interp := by
    rw [handleOneRequest, readUntilDelim]
    rcases hfails : s.fails <;> rw [hfails] at hread
    · split <;> rename_i heq <;> split at heq <;> rename_i hread' <;>
        simp_all
    · split <;> rename_i heq <;> split at heq <;> rename_i hread' <;>
        simp_all
  rw [dispatches_turns_succ, hsilent]
  rfl

theorem weight_events (reqs : List Request) :
    weight (reqs.map Request.event) = (reqs.flatMap Request.bytes).length := by
  induction reqs with
  | nil => rfl
  | cons R reqs ih =>
    rw [List.map_cons, List.flatMap_cons, List.length_append, ← ih, Request.bytes,
      List.length_append]
    simp [weight, Dispatched.weight, Request.event]

/-- What the reads of a request bring: all of the request, and what may come behind it. -/
theorem fetch_request {R : Request} {s : Stream} {rest : Bytes} (hs : s.Proper)
    (hc : s.content = R.bytes ++ rest) :
    let head := s.fetch 8192 R.head.length
    let body := head.2.fetch 65536 (R.bytes.length - head.1.length)
    head.1 ++ body.1 ++ body.2.content = R.bytes ++ rest ∧
      R.bytes.length ≤ head.1.length + body.1.length ∧ body.2.Proper := by
  intro head body
  have hle : R.head.length ≤ s.content.length := by
    rw [hc, Request.bytes, List.length_append, List.length_append]
    omega
  have hhead : head.1 ++ head.2.content = s.content := hs.fetch_content hle
  have hmissing : R.bytes.length - head.1.length ≤ head.2.content.length := by
    have := congrArg List.length hhead
    rw [hc, List.length_append, List.length_append] at this
    omega
  have hbody : body.1 ++ body.2.content = head.2.content := (hs.fetch hle).fetch_content hmissing
  have hreach : R.bytes.length - head.1.length ≤ body.1.length :=
    (hs.fetch hle).le_fetch hmissing
  refine ⟨?_, by omega, (hs.fetch hle).fetch hmissing⟩
  rw [List.append_assoc, hbody, hhead, hc]

/-- A connection dispatches all its requests when the reads keep them apart, and only then: what
is read beyond a request is missing for the ones behind it. -/
theorem dispatches_iff {reqs : List Request} (hwell : ∀ R ∈ reqs, WellFormed httparse limits R)
    {s : Stream} (hs : s.Proper) (hc : s.content = reqs.flatMap Request.bytes) {n : ℕ}
    (hn : reqs.length ≤ n) (interp : σ) :
    dispatches (turns httparse server limits allowHijack n s interp) = reqs.map Request.event ↔
      Separate server allowHijack reqs s := by
  induction reqs generalizing s n interp with
  | nil => exact iff_of_true (dispatches_eq_nil hs hc n interp) trivial
  | cons R reqs ih =>
    have hR := hwell R (by simp)
    rw [List.flatMap_cons] at hc
    rw [Separate]
    by_cases hrefused : R.Hijacked server allowHijack ∨
        maxHeadBytes < (s.fetch 8192 R.head.length).1.length
    · -- The server stops here.
      rw [hR.dispatches_eq_nil hs hc hrefused]
      refine iff_of_false (by simp) fun hsep => ?_
      rcases hrefused with hhijack | hlong
      · exact hsep.2.2.1 hhijack
      · exact absurd hsep.1 (by omega)
    obtain ⟨hhijack, hsize⟩ := not_or.mp hrefused
    rw [not_lt] at hsize
    obtain ⟨n, rfl⟩ : ∃ m, n = m + 1 := ⟨n - 1, by simp at hn; omega⟩
    obtain ⟨hall, hreach, hproper⟩ := fetch_request hs hc
    rw [dispatches_turns_succ, hR.handleOneRequest hs hc hhijack hsize]
    dsimp only
    rw [dispatched_serveBody hs (by rw [hc, Request.bytes, List.append_assoc])]
    set head := s.fetch 8192 R.head.length
    set body := head.2.fetch 65536 (R.bytes.length - head.1.length)
    set turn := serveBody server head.1 R.parsed R.body body.2 interp
    have hstream : turn.stream = body.2 := rfl
    have htotal := congrArg List.length hall
    simp only [List.length_append] at htotal
    by_cases hopen : R.StaysOpen
    · rw [show turn.loop = .next from if_pos hopen]
      dsimp only
      rw [hstream, Option.toList_some, List.singleton_append, List.map_cons, List.cons_inj_right]
      by_cases hexact : head.1.length + body.1.length = R.bytes.length
      · have hrest : body.2.content = reqs.flatMap Request.bytes :=
          (List.append_inj hall (by rw [List.length_append, hexact])).2
        rw [ih (fun R hR => hwell R (List.mem_cons_of_mem _ hR)) hproper hrest (by simpa using hn)]
        exact ⟨fun h => ⟨hsize, hexact, hhijack, fun _ => hopen, h⟩, fun h => h.2.2.2.2⟩
      · -- Some bytes of the requests behind have been read, and are lost.
        refine iff_of_false (fun hevents => ?_) fun hsep => hexact hsep.2.1
        have hweight := weight_dispatches_turns httparse server limits allowHijack n body.2
          turn.interp
        rw [hevents, weight_events] at hweight
        omega
    · rw [show turn.loop = .close from if_neg hopen]
      rcases reqs with _ | ⟨R', reqs⟩
      · refine iff_of_true rfl ⟨hsize, ?_, hhijack, fun h => absurd rfl h, trivial⟩
        simp only [List.flatMap_nil, List.length_nil] at htotal
        omega
      · exact iff_of_false (by simp) fun hsep => hopen (hsep.2.2.2.1 (by simp))

/-! ### A length that the head does not say -/

theorem answered_refuse {status : ℕ} (hstatus : 400 ≤ status) (message : String)
    (writes : List Bytes) (s : Stream) (interp : σ) :
    AnsweredByError (refuse status message writes s interp : Turn σ H) :=
  ⟨rfl, rfl, status, _, _, hstatus, List.getLast?_concat⟩

theorem answered_serveHijack_iff (hijack : H) (s : Stream) (interp : σ) :
    AnsweredByError (serveHijack server hijack s interp) ↔ Limited server interp := by
  rw [serveHijack, Limited]
  rcases hlimit : server.rateLimit with _ | check
  · exact iff_of_false (fun h => by cases h.1) (by simp)
  · simp only [Option.map_some, Option.getD_some, Option.some_inj, exists_eq_left']
    rcases (check interp).1 with _ | seconds
    · exact iff_of_false (fun h => by cases h.1) (by simp)
    · exact iff_of_true ⟨rfl, rfl, 429, _, _, by omega, rfl⟩ rfl

/-- Whatever its head says, a request is refused when too much is read with its head, when the
rate limit refuses an upgrade, when the length that the server takes it to have is over the limit,
and when fewer bytes come. -/
theorem answeredByError_iff {R : Request} (h : HeadFormed httparse R) {s : Stream} {rest : Bytes}
    (hs : s.Proper) (hc : s.content = R.head ++ rest) (interp : σ) :
    AnsweredByError (handleOneRequest httparse server limits allowHijack s interp) ↔
      maxHeadBytes < (s.fetch 8192 R.head.length).1.length ∨
      R.Hijacked server allowHijack ∧ Limited server interp ∨
      ¬ R.Hijacked server allowHijack ∧ (limits.maxBodyBytes.toNat < R.parsed.contentLength ∨
        rest.length < R.parsed.contentLength) := by
  rw [h.handleOneRequest hs hc]
  by_cases hlong : maxHeadBytes < (s.fetch 8192 R.head.length).1.length
  · rw [if_pos hlong]
    exact iff_of_true (answered_refuse (by omega) _ _ _ _) (.inl hlong)
  rw [if_neg hlong, serveHead]
  rcases hhijack : hijackOf server allowHijack R.parsed with _ | hijack
  · have hno : ¬ R.Hijacked server allowHijack := by simp [Request.Hijacked, hhijack]
    simp only [hlong, hno, false_and, not_false_eq_true, true_and, false_or]
    by_cases hbig : limits.maxBodyBytes.toNat < R.parsed.contentLength
    · rw [if_pos hbig]
      exact iff_of_true (answered_refuse (by omega) _ _ _ _) (.inl hbig)
    obtain ⟨tail, htail, hrest⟩ := HeadFormed.fetch_eq hs hc
    have hle : R.head.length ≤ s.content.length := by
      rw [hc, List.length_append]
      omega
    rw [if_neg hbig, R.parsed_headLen, htail, List.drop_left]
    by_cases hshort : rest.length < R.parsed.contentLength
    · have hread := readExactCapped_eq_none limits.maxBodyBytes.toNat
        (hrest.symm ▸ hshort)
      split <;> rename_i heq <;> rw [heq] at hread
      · exact iff_of_true (answered_refuse (by omega) _ _ _ _) (.inr hshort)
      · cases hread
    · rw [readExactCapped_eq tail (hs.fetch hle) (by omega) (by rw [hrest]; omega)]
      refine iff_of_false (fun h => nomatch h.2.1) ?_
      rintro (h | h)
      · exact hbig h
      · exact hshort h
  · have hyes : R.Hijacked server allowHijack := by simp [Request.Hijacked, hhijack]
    simp only [hlong, hyes, true_and, not_true_eq_false, false_and, or_false, false_or]
    exact answered_serveHijack_iff hijack _ _

/-- The framing of the server: it dispatches exactly the requests of a connection when its reads
keep them apart; and it answers a request whose length the head does not say by an error when it
would refuse the request with the length that it makes of the head. -/
theorem framing_iff (httparse : Bytes → Httparse) (server : Server σ H) (limits : ServerLimits)
    (allowHijack : Bool) (interp : σ) :
    (∀ (reqs : List Request) (s : Stream), (∀ R ∈ reqs, WellFormed httparse limits R) → s.Proper →
      s.content = reqs.flatMap Request.bytes → reqs.length ≤ limits.maxReqsPerConn.toNat →
      (dispatches (handleConnection httparse server limits allowHijack s interp) =
        reqs.map Request.event ↔ Separate server allowHijack reqs s)) ∧
    ∀ (R : Request) (s : Stream) (rest : Bytes), HeadFormed httparse R → LengthUnknown R →
      s.Proper → s.content = R.head ++ rest →
      (AnsweredByError (handleOneRequest httparse server limits allowHijack s interp) ↔
        maxHeadBytes < (s.fetch 8192 R.head.length).1.length ∨
        R.Hijacked server allowHijack ∧ Limited server interp ∨
        ¬ R.Hijacked server allowHijack ∧ (limits.maxBodyBytes.toNat < R.parsed.contentLength ∨
          rest.length < R.parsed.contentLength)) :=
  ⟨fun _ _ hwell hs hc hn => dispatches_iff hwell hs hc hn interp,
    fun _ _ _ h _ hs hc => answeredByError_iff h hs hc interp⟩

/-! ### Two requests -/

theorem Stream.fetch_segment {k n : ℕ} [NeZero k] {seg : Bytes} {segs : List Bytes} {fails : Bool}
    (hn : n ≠ 0) (hle : n ≤ seg.length) (hk : seg.length ≤ k) :
    (⟨seg :: segs, fails⟩ : Stream).fetch k n = (seg, ⟨segs, fails⟩) := by
  rcases seg with _ | ⟨b, bs⟩
  · simp at hle
    exact absurd hle hn
  · have hread : (⟨(b :: bs) :: segs, fails⟩ : Stream).read k =
        (some (b :: bs), ⟨segs, fails⟩) := by
      simp only [read, if_pos hk]
    rw [fetch_of_read hn hread, Nat.sub_eq_zero_of_le hle, fetch_zero, List.append_nil]

/-- `GET / HTTP/1.1` with a host. -/
def getRoot : Request where
  head := bytes "GET / HTTP/1.1\r\nHost: a\r\n\r\n"
  method := "GET"
  path := "/"
  version := some 1
  headers := [("Host", bytes "a")]
  body := []

/-- A parser that knows this request. -/
def parseGetRoot (buf : Bytes) : Httparse :=
  if getRoot.head <+: buf then .complete getRoot.head.length getRoot.raw else .error

/-- A server that answers every request with an empty page. -/
def emptyPages : Server Unit Unit where
  dispatch interp _ := (.ok (200, [], []), interp)
  matchHijack _ _ _ _ := none
  rateLimit := none
  hsts := false

theorem wellFormed_getRoot : WellFormed parseGetRoot default getRoot where
  parses rest := if_pos (List.prefix_append _ _)
  method := by decide
  path := by decide
  ends := by decide
  first pre hpre := by
    have hinits : ∀ pre ∈ getRoot.head.inits, headEnd <:+: pre → pre = getRoot.head := by
      decide +kernel
    exact hinits pre ((List.mem_inits _ _).mpr hpre)
  size := by decide
  uncoded := by
    rw [Request.TransferCoded]
    decide
  announced := by decide
  absent _ := rfl
  bodySize := by decide

theorem length_getRoot : getRoot.head.length = 27 := by
  decide

theorem framing_iff_twoSegments :
    dispatches (handleConnection parseGetRoot emptyPages default false
      ⟨[getRoot.head, getRoot.head], false⟩ ()) = [getRoot, getRoot].map Request.event := by
  refine ((framing_iff parseGetRoot emptyPages default false ()).1 _ _ ?_ ?_ ?_ ?_).mpr ?_
  · simp [wellFormed_getRoot]
  · simp [Stream.Proper, ← List.length_pos_iff, length_getRoot]
  · simp [Stream.content, Request.bytes, getRoot]
  · decide
  · have hhijack : ¬ getRoot.Hijacked emptyPages false := by simp [Request.Hijacked, hijackOf]
    have hopen : getRoot.StaysOpen := by
      rw [Request.StaysOpen]
      decide
    have hbytes : getRoot.bytes.length = 27 := by decide
    have hhead : getRoot.head.length = 27 := length_getRoot
    have hfetch : ∀ segs, (⟨getRoot.head :: segs, false⟩ : Stream).fetch 8192 27 =
        (getRoot.head, ⟨segs, false⟩) := fun segs =>
      Stream.fetch_segment (by decide) (by omega) (by omega)
    simp [Separate, hhead, hbytes, hfetch, hhijack, hopen, maxHeadBytes]

/-- Two requests that arrive in one segment: the second one is read with the first, and lost. -/
theorem pipelined_not_dispatched :
    (∀ R ∈ [getRoot, getRoot], WellFormed parseGetRoot default R) ∧
    (⟨[getRoot.head ++ getRoot.head], false⟩ : Stream).content =
      [getRoot, getRoot].flatMap Request.bytes ∧
    dispatches (handleConnection parseGetRoot emptyPages default false
      ⟨[getRoot.head ++ getRoot.head], false⟩ ()) ≠ [getRoot, getRoot].map Request.event := by
  have hwell : ∀ R ∈ [getRoot, getRoot], WellFormed parseGetRoot default R := by
    simp [wellFormed_getRoot]
  have hcontent : (⟨[getRoot.head ++ getRoot.head], false⟩ : Stream).content =
      [getRoot, getRoot].flatMap Request.bytes := by
    simp [Stream.content, Request.bytes, getRoot]
  refine ⟨hwell, hcontent, fun hall => ?_⟩
  have hproper : (⟨[getRoot.head ++ getRoot.head], false⟩ : Stream).Proper := by
    simp [Stream.Proper, ← List.length_pos_iff, length_getRoot]
  obtain ⟨-, hexact, -⟩ := (dispatches_iff hwell hproper hcontent (by decide) ()).mp hall
  have hhead : getRoot.head.length = 27 := length_getRoot
  have hbytes : getRoot.bytes.length = 27 := by decide
  rw [hhead, Stream.fetch_segment (by decide) (by simp [hhead]) (by simp [hhead]), hbytes] at hexact
  simp [hhead] at hexact

end ZzLang.Http
