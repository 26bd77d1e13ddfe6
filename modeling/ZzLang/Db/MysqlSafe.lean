import ZzLang.Db.MysqlWire

/-!
# What can crash the readers of MySQL packets

A length in a packet has up to 64 bits, and the check that a string fits adds its length to the
bytes in front of it before it compares. The sum leaves the machine word for the lengths just below
`2 ^ 64`, which take all of the eight bytes. Those are the strings that crash a reader
(`Overlong`), wherever it meets one: where it reads one string, among the six in front of a column
definition (`FieldsClear`), or in a cell that is not `NULL` (`CellsClear`).

The second fault is a request for room. The number of columns that a result set announces is taken
as it comes, and no definition of a column has been received by then.

Everything else is safe: the positions never leave the body.
-/

namespace ZzLang.Db.Mysql

open Crash
open StepReader (leBytes ofLeBytes)
open Http (Bytes fromUtf8)

/-! ### Strings on the wire -/

/-- The bytes that announce a length, or `NULL`. -/
inductive Announces : Bytes → ℕ → Prop where
  | byte (v : UInt8) (h : v < 0xFB ∨ v = 0xFF) : Announces [v] v.toNat
  | null : Announces [0xFB] (2 ^ 64 - 1)
  | two (b : Bytes) (h : b.length = 2) : Announces (0xFC :: b) (ofLeBytes b)
  | three (b : Bytes) (h : b.length = 3) : Announces (0xFD :: b) (ofLeBytes b)
  | eight (b : Bytes) (h : b.length = 8) : Announces (0xFE :: b) (ofLeBytes b)

/-- The data begin with a string, or with `NULL`, and the rest is behind it. -/
def StringEnds (data rest : Bytes) : Prop :=
  ∃ header text n, Announces header n ∧ data = header ++ text ++ rest ∧
    text.length = if n = 2 ^ 64 - 1 then 0 else n

/-- The data begin with a string whose length is one of the eight below the greatest number of 64
bits. -/
def Overlong (data : Bytes) : Prop :=
  ∃ low rest, 0xF7 ≤ low ∧ low < 0xFF ∧ data = 0xFE :: low :: (List.replicate 7 0xFF ++ rest)

theorem ofLeBytes_lt (b : Bytes) : ofLeBytes b < 256 ^ b.length := by
  induction b with
  | nil => simp [ofLeBytes]
  | cons x b ih =>
    have hx : x.toNat < 256 := x.toNat_lt
    rw [ofLeBytes, List.length_cons, pow_succ]
    omega

/-- Bytes that spell the greatest number. -/
theorem eq_replicate_of_le : ∀ {b : Bytes}, 256 ^ b.length ≤ ofLeBytes b + 1 →
    b = List.replicate b.length 0xFF
  | [], _ => rfl
  | x :: b, h => by
    have hx : x.toNat < 256 := x.toNat_lt
    rw [ofLeBytes, List.length_cons, pow_succ] at h
    have hb := ofLeBytes_lt b
    have htail := eq_replicate_of_le (b := b) (by omega)
    have hhead : x = 0xFF := by
      rw [← UInt8.toNat_inj]
      have : (0xFF : UInt8).toNat = 255 := rfl
      omega
    rw [List.length_cons, List.replicate_succ, ← htail, hhead]

theorem ofLeBytes_replicate (k : ℕ) : ofLeBytes (List.replicate k 0xFF) + 1 = 256 ^ k := by
  induction k with
  | zero => rfl
  | succ k ih =>
    have : (0xFF : UInt8).toNat = 255 := rfl
    rw [List.replicate_succ, ofLeBytes, pow_succ]
    omega

/-- What is read behind the first byte of a length of `k` more bytes. -/
def lenencOf (tail : Bytes) (k : ℕ) : Wire (ℕ × ℕ) :=
  if tail.length < k then failWith "truncated length-encoded integer"
  else .ok (ofLeBytes (tail.take k), k + 1)

theorem readLenenc_cons (head : UInt8) (tail : Bytes) :
    readLenenc (head :: tail) =
      if head = 0xFB then .ok (2 ^ 64 - 1, 1)
      else if head = 0xFC then lenencOf tail 2
      else if head = 0xFD then lenencOf tail 3
      else if head = 0xFE then lenencOf tail 8
      else .ok (head.toNat, 1) := by
  have hslice : ∀ k, 0 < k → (if (head :: tail).length < k + 1
      then failWith "truncated length-encoded integer"
      else do
        let b ← slice (head :: tail) 1 (k + 1)
        pure (ofLeBytes b, k + 1)) = lenencOf tail k := by
    intro k hk
    rw [lenencOf, List.length_cons]
    by_cases hlen : tail.length < k
    · rw [if_pos (by omega), if_pos hlen]
    · rw [if_neg (by omega), if_neg hlen]
      have hs : (slice (head :: tail) 1 (k + 1) : Wire Bytes) = .ok (tail.take k) := by
        rw [slice_ok]
        exact ⟨by omega, by simp only [List.length_cons]; omega, by simp⟩
      rw [hs]
      rfl
  rw [← hslice 2 (by omega), ← hslice 3 (by omega), ← hslice 8 (by omega)]
  rfl

theorem sound_lenencOf (tail : Bytes) (k : ℕ) : Sound (lenencOf tail k) := by
  rw [lenencOf, sound_ite]
  exact ⟨fun _ => sound_report _, fun _ => sound_ok _⟩

theorem lenencOf_ok {tail : Bytes} {k n used : ℕ} :
    lenencOf tail k = .ok (n, used) ↔
      ∃ b rest, tail = b ++ rest ∧ b.length = k ∧ n = ofLeBytes b ∧ used = k + 1 := by
  rw [lenencOf]
  constructor
  · intro h
    split at h
    · exact nomatch h
    · rename_i hlen
      obtain ⟨rfl, rfl⟩ : ofLeBytes (tail.take k) = n ∧ k + 1 = used := by simpa using h
      refine ⟨tail.take k, tail.drop k, (List.take_append_drop k tail).symm, ?_, rfl, rfl⟩
      rw [List.length_take]
      omega
  · rintro ⟨b, rest, rfl, rfl, rfl, rfl⟩
    rw [if_neg (by simp), List.take_left']
    rfl

theorem sound_readLenenc (data : Bytes) : Sound (readLenenc data) := by
  cases data with
  | nil => exact sound_report _
  | cons head tail =>
    simp only [readLenenc_cons, sound_ite, sound_ok, sound_lenencOf, implies_true, and_self]

/-- `read_lenenc` reads what a header announces, and nothing behind the header. -/
theorem readLenenc_ok {data : Bytes} {n used : ℕ} :
    readLenenc data = .ok (n, used) ↔
      ∃ header rest, data = header ++ rest ∧ Announces header n ∧ used = header.length := by
  constructor
  · intro h
    cases data with
    | nil => exact nomatch h
    | cons head tail =>
      rw [readLenenc_cons] at h
      split_ifs at h with hnull htwo hthree height
      · obtain ⟨rfl, rfl⟩ : 2 ^ 64 - 1 = n ∧ 1 = used := by simpa using h
        exact ⟨[0xFB], tail, by rw [hnull]; rfl, .null, rfl⟩
      · obtain ⟨b, rest, rfl, hb, rfl, rfl⟩ := lenencOf_ok.mp h
        exact ⟨0xFC :: b, rest, by rw [htwo]; rfl, .two b hb, by rw [List.length_cons, hb]⟩
      · obtain ⟨b, rest, rfl, hb, rfl, rfl⟩ := lenencOf_ok.mp h
        exact ⟨0xFD :: b, rest, by rw [hthree]; rfl, .three b hb, by rw [List.length_cons, hb]⟩
      · obtain ⟨b, rest, rfl, hb, rfl, rfl⟩ := lenencOf_ok.mp h
        exact ⟨0xFE :: b, rest, by rw [height]; rfl, .eight b hb, by rw [List.length_cons, hb]⟩
      · obtain ⟨rfl, rfl⟩ : head.toNat = n ∧ 1 = used := by simpa using h
        refine ⟨[head], tail, rfl, .byte head ?_, rfl⟩
        -- The four marks left out, a byte is below them or the greatest.
        simp only [UInt8.lt_iff_toNat_lt, ← UInt8.toNat_inj] at *
        have := head.toNat_lt
        simp at *
        omega
  · rintro ⟨header, rest, rfl, hn, rfl⟩
    cases hn with
    | byte v h =>
      have h' : v ≠ 0xFB ∧ v ≠ 0xFC ∧ v ≠ 0xFD ∧ v ≠ 0xFE := by
        simp only [UInt8.lt_iff_toNat_lt, ← UInt8.toNat_inj, ne_eq] at *
        simp at *
        omega
      rw [List.singleton_append, readLenenc_cons, if_neg h'.1, if_neg h'.2.1, if_neg h'.2.2.1,
        if_neg h'.2.2.2]
      rfl
    | null => rfl
    | two b h =>
      rw [List.cons_append, readLenenc_cons, if_neg (by decide), if_pos rfl, lenencOf_ok]
      exact ⟨b, rest, rfl, h, rfl, by rw [List.length_cons, h]⟩
    | three b h =>
      rw [List.cons_append, readLenenc_cons, if_neg (by decide), if_neg (by decide), if_pos rfl,
        lenencOf_ok]
      exact ⟨b, rest, rfl, h, rfl, by rw [List.length_cons, h]⟩
    | eight b h =>
      rw [List.cons_append, readLenenc_cons, if_neg (by decide), if_neg (by decide),
        if_neg (by decide), if_pos rfl, lenencOf_ok]
      exact ⟨b, rest, rfl, h, rfl, by rw [List.length_cons, h]⟩

/-- The strings that are too long are those whose announced length leaves the word once the header
is counted. -/
theorem overlong_iff {data : Bytes} :
    Overlong data ↔ ∃ header rest n, data = header ++ rest ∧ Announces header n ∧
      n ≠ 2 ^ 64 - 1 ∧ 2 ^ 64 ≤ header.length + n := by
  have hFF : (0xFF : UInt8).toNat = 255 := rfl
  have hF7 : (0xF7 : UInt8).toNat = 247 := rfl
  constructor
  · rintro ⟨low, rest, hlow, hlow', rfl⟩
    have hn := ofLeBytes_replicate 7
    rw [UInt8.le_iff_toNat_le, hF7] at hlow
    rw [UInt8.lt_iff_toNat_lt, hFF] at hlow'
    have hb : (low :: List.replicate 7 0xFF).length = 8 := rfl
    refine ⟨_, rest, _, rfl, .eight (low :: List.replicate 7 0xFF) hb, ?_, ?_⟩
    · rw [ofLeBytes]
      omega
    · rw [List.length_cons, hb, ofLeBytes]
      omega
  · rintro ⟨header, rest, n, rfl, hn, hne, hle⟩
    cases hn with
    | byte v h =>
      have := v.toNat_lt
      rw [List.length_singleton] at hle
      omega
    | null => exact absurd rfl hne
    | two b h =>
      have := ofLeBytes_lt b
      rw [List.length_cons, h] at hle
      rw [h] at this
      omega
    | three b h =>
      have := ofLeBytes_lt b
      rw [List.length_cons, h] at hle
      rw [h] at this
      omega
    | eight b h =>
      obtain ⟨low, tail, rfl⟩ : ∃ low tail, b = low :: tail := by
        cases b with
        | nil => cases h
        | cons low tail => exact ⟨low, tail, rfl⟩
      have hlen : tail.length = 7 := by simpa using h
      have hlow := low.toNat_lt
      rw [List.length_cons, h, ofLeBytes] at hle
      rw [ofLeBytes] at hne
      have htail := eq_replicate_of_le (b := tail) (by rw [hlen]; omega)
      have hspelt := ofLeBytes_replicate 7
      rw [hlen] at htail
      rw [← htail] at hspelt
      refine ⟨low, rest, ?_, ?_, ?_⟩
      · rw [UInt8.le_iff_toNat_le, hF7]
        omega
      · rw [UInt8.lt_iff_toNat_lt, hFF]
        omega
      · conv_lhs => rw [htail]
        rfl

/-- Reading a string crashes exactly on a string that is too long. -/
theorem sound_readLenencBytes {data : Bytes} : Sound (readLenencBytes data) ↔ ¬ Overlong data := by
  have hstep : ∀ len used : ℕ, Sound (if len = 2 ^ 64 - 1 then (pure (none, used) : Wire _)
      else do
        let stop ← add used len
        if data.length < stop then failWith "truncated length-encoded string"
        else do
          let s ← slice data used stop
          pure (some s, stop)) ↔ (len ≠ 2 ^ 64 - 1 → used + len < 2 ^ 64) := by
    intro len used
    simp only [sound_ite, sound_bind, sound_pure, sound_add, sound_slice, add_ok, failWith,
      sound_report, implies_true, true_and, and_true]
    constructor
    · intro h hne
      exact (h hne).1
    · intro h hne
      refine ⟨h hne, ?_⟩
      rintro stop ⟨-, rfl⟩ hlen
      omega
  rw [readLenencBytes, sound_bind, overlong_iff]
  simp only [sound_readLenenc, true_and, Prod.forall, hstep]
  constructor
  · rintro h ⟨header, rest, n, hdata, hn, hne, hle⟩
    have := h n _ (readLenenc_ok.mpr ⟨header, rest, hdata, hn, rfl⟩) hne
    omega
  · intro h n used hok hne
    obtain ⟨header, rest, hdata, hn, rfl⟩ := readLenenc_ok.mp hok
    by_contra hle
    exact h ⟨header, rest, n, hdata, hn, hne, by omega⟩

/-- Where a string was read, the data begin with one that ends behind the bytes read. -/
theorem stringEnds_of_ok {data : Bytes} {v : Option Bytes} {used : ℕ}
    (h : readLenencBytes data = .ok (v, used)) :
    used ≤ data.length ∧ StringEnds data (data.drop used) := by
  obtain ⟨⟨n, k⟩, hread, hrest⟩ := bind_ok.mp h
  obtain ⟨header, rest, rfl, hn, rfl⟩ := readLenenc_ok.mp hread
  dsimp only at hrest
  split_ifs at hrest with hnull
  · obtain ⟨-, rfl⟩ : none = v ∧ header.length = used := by
      rw [← Prod.mk.injEq]
      exact Except.ok.inj hrest
    refine ⟨by simp, header, [], n, hn, ?_, by rw [if_pos hnull]; rfl⟩
    simp
  · obtain ⟨stop, hstop, hrest⟩ := bind_ok.mp hrest
    obtain ⟨-, rfl⟩ := add_ok.mp hstop
    split_ifs at hrest with hlen
    · exact nomatch hrest
    · obtain ⟨s, hs, hrest⟩ := bind_ok.mp hrest
      obtain ⟨-, rfl⟩ : some s = v ∧ header.length + n = used := by
        rw [← Prod.mk.injEq]
        exact Except.ok.inj hrest
      rw [List.length_append] at hlen ⊢
      refine ⟨by omega, header, rest.take n, n, hn, ?_, ?_⟩
      · rw [List.append_assoc, List.drop_append, List.drop_eq_nil_of_le (by omega),
          List.nil_append, Nat.add_sub_cancel_left, List.take_append_drop]
      · rw [if_neg hnull, List.length_take]
        omega

/-- Where the data begin with a string, it is read. -/
theorem ok_of_stringEnds {data rest : Bytes} (hfits : data.length < 2 ^ 63)
    (h : StringEnds data rest) :
    ∃ v used, readLenencBytes data = .ok (v, used) ∧ rest = data.drop used := by
  obtain ⟨header, text, n, hn, rfl, htext⟩ := h
  have hread : readLenenc (header ++ text ++ rest) = .ok (n, header.length) :=
    readLenenc_ok.mpr ⟨header, text ++ rest, List.append_assoc .., hn, rfl⟩
  rw [readLenencBytes, hread]
  by_cases hnull : n = 2 ^ 64 - 1
  · rw [if_pos hnull, List.length_eq_zero_iff] at htext
    refine ⟨none, header.length, ?_, by simp [htext]⟩
    exact if_pos hnull
  · rw [if_neg hnull] at htext
    have hlen : header.length + n ≤ (header ++ text ++ rest).length := by
      simp only [List.length_append]
      omega
    refine ⟨some text, header.length + n, ?_, ?_⟩
    · change (if n = 2 ^ 64 - 1 then _ else _) = _
      rw [if_neg hnull, add_eq (by omega)]
      change (if (header ++ text ++ rest).length < header.length + n then _ else _) = _
      rw [if_neg (by omega), slice_append rfl (by rw [htext])]
      rfl
    · rw [← htext, ← List.length_append, List.drop_left]

/-! ### Readers that never crash -/

theorem readCstr_ok {data s : Bytes} {used : ℕ} (h : readCstr data = .ok (s, used)) :
    used ≤ data.length := by
  rw [readCstr] at h
  split at h
  · rename_i i hi
    obtain ⟨t, -, hrest⟩ := bind_ok.mp h
    obtain ⟨stop, hstop, hrest⟩ := bind_ok.mp hrest
    obtain ⟨-, rfl⟩ := add_ok.mp hstop
    obtain ⟨-, rfl⟩ : t = s ∧ i + 1 = used := by
      rw [← Prod.mk.injEq]
      exact Except.ok.inj hrest
    obtain ⟨hlt, -⟩ := List.findIdx?_eq_some_iff_getElem.mp hi
    omega
  · cases h

theorem sound_readCstr {data : Bytes} (hfits : data.length < 2 ^ 63) : Sound (readCstr data) := by
  rw [readCstr]
  split
  · rename_i i hi
    obtain ⟨hlt, -⟩ := List.findIdx?_eq_some_iff_getElem.mp hi
    simp only [sound_bind, sound_slice, sound_add, sound_pure, implies_true, and_true]
    exact ⟨⟨by omega, by omega⟩, fun _ _ => by omega⟩
  · exact sound_report _

/-- Behind `take` the position is inside of the body. -/
theorem sound_take_bind {β : Type} {body : Bytes} {pos n : ℕ} {k : Bytes × ℕ → Wire β}
    (hpos : pos + n < 2 ^ 64)
    (hk : ∀ s, s.length = n → pos + n ≤ body.length → Sound (k (s, pos + n))) :
    Sound (take body pos n >>= k) := by
  have htake : Sound (take body pos n) := by
    simp only [take, sound_bind, sound_add, sound_ite, failWith, sound_report, sound_slice,
      sound_pure, add_ok, implies_true, true_and, and_true]
    refine ⟨hpos, ?_⟩
    rintro stop ⟨-, rfl⟩ hlen
    omega
  refine sound_bind.mpr ⟨htake, ?_⟩
  rintro ⟨s, stop⟩ h
  obtain ⟨stop', hstop, h⟩ := bind_ok.mp h
  obtain ⟨-, rfl⟩ := add_ok.mp hstop
  split_ifs at h with hlen
  · cases h
  · obtain ⟨s', hs, h⟩ := bind_ok.mp h
    obtain ⟨rfl, rfl⟩ : s' = s ∧ pos + n = stop := by
      rw [← Prod.mk.injEq]
      exact Except.ok.inj h
    obtain ⟨-, -, rfl⟩ := slice_ok.mp hs
    refine hk _ ?_ (by omega)
    rw [List.length_drop, List.length_take]
    omega

theorem sound_takePluginLen_bind {β : Type} {body : Bytes} {pos caps : ℕ} {k : ℕ × ℕ → Wire β}
    (hpos : pos + 1 < 2 ^ 64) (hk : ∀ n pos', pos' ≤ pos + 1 → Sound (k (n, pos'))) :
    Sound (takePluginLen body pos caps >>= k) := by
  rw [takePluginLen]
  by_cases hcaps : caps &&& capPluginAuth ≠ 0
  · rw [if_pos hcaps, bind_assoc]
    refine sound_take_bind hpos fun s hs _ => ?_
    dsimp only
    rw [bind_assoc]
    refine sound_bind.mpr ⟨sound_index.mpr (by omega), fun n _ => ?_⟩
    exact hk _ _ le_rfl
  · rw [if_neg hcaps]
    exact hk _ _ (by omega)

theorem sound_parseAuthPlugin {body : Bytes} {pos : ℕ} (caps : ℕ) (hfits : body.length < 2 ^ 63) :
    Sound (parseAuthPlugin body pos caps) := by
  rw [parseAuthPlugin, sound_ite]
  refine ⟨fun h => ?_, fun _ => sound_pure _⟩
  simp only [sound_bind, sound_sliceFrom, sliceFrom_ok]
  refine ⟨by omega, ?_⟩
  rintro rest ⟨-, rfl⟩
  refine ⟨sound_readCstr (by rw [List.length_drop]; omega), ?_⟩
  rintro ⟨name, used⟩ -
  dsimp only
  split
  · exact sound_pure _
  · exact sound_report _

theorem sound_parseHandshake {body : Bytes} (hfits : body.length < 2 ^ 63) :
    Sound (parseHandshake body) := by
  rw [parseHandshake]
  refine sound_take_bind (by omega) fun s hs hle => sound_bind.mpr ⟨?_, fun protocol _ => ?_⟩
  · rw [sound_index]
    omega
  rw [sound_ite]
  refine ⟨fun _ => sound_report _, fun _ => ?_⟩
  refine sound_bind.mpr ⟨sound_sliceFrom.mpr hle, ?_⟩
  intro rest hrest
  obtain ⟨-, rfl⟩ := sliceFrom_ok.mp hrest
  refine sound_bind.mpr ⟨sound_readCstr (by rw [List.length_drop]; omega), ?_⟩
  rintro ⟨ver, used⟩ hver
  have hused := readCstr_ok hver
  rw [List.length_drop] at hused
  refine sound_bind.mpr ⟨sound_add.mpr (by omega), ?_⟩
  intro pos hpos
  obtain ⟨-, rfl⟩ := add_ok.mp hpos
  dsimp only
  split
  · exact sound_report _
  refine sound_take_bind (by omega) fun connectionId _ hle => ?_
  refine sound_take_bind (by omega) fun part1 _ hle => ?_
  refine sound_bind.mpr ⟨sound_add.mpr (by omega), ?_⟩
  intro pos hpos
  obtain ⟨-, rfl⟩ := add_ok.mp hpos
  refine sound_take_bind (by omega) fun capsLo _ hle => ?_
  refine sound_take_bind (by omega) fun charset hcharset hle => ?_
  refine sound_bind.mpr ⟨sound_index.mpr (by dsimp only; omega), fun _ _ => ?_⟩
  refine sound_take_bind (by omega) fun status _ hle => ?_
  refine sound_take_bind (by omega) fun capsHi _ hle => ?_
  refine sound_takePluginLen_bind (by omega) fun pluginLen pos hpos => ?_
  refine sound_bind.mpr ⟨sound_add.mpr (by dsimp only; omega), ?_⟩
  intro pos' hpos'
  obtain ⟨-, rfl⟩ := add_ok.mp hpos'
  refine sound_take_bind (by dsimp only; omega) fun part2 _ hle => ?_
  exact sound_bind.mpr ⟨sound_parseAuthPlugin _ hfits, fun _ _ => sound_pure _⟩

theorem sound_parseAuthSwitch {body : Bytes} (hfits : body.length < 2 ^ 63) :
    Sound (parseAuthSwitch body) := by
  rw [parseAuthSwitch, sound_ite]
  refine ⟨fun _ => sound_report _, fun hhead => ?_⟩
  have hpos : 1 ≤ body.length := by
    cases body with
    | nil => exact absurd nofun hhead
    | cons x body => simp
  refine sound_bind.mpr ⟨sound_sliceFrom.mpr hpos, ?_⟩
  intro rest hrest
  obtain ⟨-, rfl⟩ := sliceFrom_ok.mp hrest
  refine sound_bind.mpr ⟨sound_readCstr (by rw [List.length_drop]; omega), ?_⟩
  rintro ⟨name, used⟩ hname
  have hused := readCstr_ok hname
  rw [List.length_drop] at hused
  dsimp only
  split
  · exact sound_report _
  refine sound_bind.mpr ⟨sound_add.mpr (by omega), ?_⟩
  intro start hstart
  obtain ⟨-, rfl⟩ := add_ok.mp hstart
  exact sound_bind.mpr ⟨sound_sliceFrom.mpr (by omega), fun _ _ => sound_pure _⟩

/-- A header is part of the data. -/
theorem readLenenc_le {data : Bytes} {n used : ℕ} (h : readLenenc data = .ok (n, used)) :
    used ≤ data.length := by
  obtain ⟨header, rest, rfl, -, rfl⟩ := readLenenc_ok.mp h
  simp

theorem sound_parseOk {body : Bytes} (hfits : body.length < 2 ^ 63) : Sound (parseOk body) := by
  rw [parseOk, sound_ite]
  refine ⟨fun _ => sound_report _, fun hhead => ?_⟩
  have hpos : 1 ≤ body.length := by
    cases body with
    | nil => exact absurd nofun hhead
    | cons x body => simp
  refine sound_bind.mpr ⟨sound_sliceFrom.mpr hpos, ?_⟩
  intro rest hrest
  obtain ⟨-, rfl⟩ := sliceFrom_ok.mp hrest
  refine sound_bind.mpr ⟨sound_readLenenc _, ?_⟩
  rintro ⟨affected, used⟩ hok
  have hused := readLenenc_le hok
  rw [List.length_drop] at hused
  refine sound_bind.mpr ⟨sound_add.mpr (by omega), ?_⟩
  intro start hstart
  obtain ⟨-, rfl⟩ := add_ok.mp hstart
  refine sound_bind.mpr ⟨sound_sliceFrom.mpr (by omega), fun rest _ => ?_⟩
  exact sound_bind.mpr ⟨sound_readLenenc _, fun _ _ => sound_pure _⟩

theorem sound_parseErr (body : Bytes) : Sound (parseErr body) := by
  rw [parseErr, sound_ite, sound_ite]
  refine ⟨fun _ => sound_report _, fun _ => ⟨fun _ => sound_report _, fun hlen => ?_⟩⟩
  refine sound_bind.mpr ⟨sound_slice.mpr (by omega), fun code _ => ?_⟩
  refine sound_bind.mpr ⟨sound_sliceFrom.mpr ?_, fun _ _ => sound_pure _⟩
  split_ifs <;> omega

theorem sound_parsePrepareOk (body : Bytes) : Sound (parsePrepareOk body) := by
  rw [parsePrepareOk, sound_ite]
  refine ⟨fun _ => sound_report _, fun h => ?_⟩
  simp only [sound_bind, sound_slice, sound_pure]
  grind

/-! ### Column definitions -/

/-- So many strings in front of the data, none of which is too long. The strings behind one that
does not end are not reached. -/
def FieldsClear : ℕ → Bytes → Prop
  | 0, _ => True
  | k + 1, data => ¬ Overlong data ∧ ∀ rest, StringEnds data rest → FieldsClear k rest

/-- A program that reads a string and goes on behind it. -/
theorem sound_stringAt_bind {β : Type} {body : Bytes} {pos : ℕ} {P : Bytes → Prop}
    {k : Option Bytes × ℕ → Wire β} (hfits : body.length < 2 ^ 63) (hpos : pos ≤ body.length)
    (hk : ∀ s pos', pos' ≤ body.length → (Sound (k (s, pos')) ↔ P (body.drop pos'))) :
    Sound (stringAt body pos >>= k) ↔ ¬ Overlong (body.drop pos) ∧
      ∀ rest, StringEnds (body.drop pos) rest → P rest := by
  have hat : ∀ {s pos'}, stringAt body pos = .ok (s, pos') ↔
      ∃ used, readLenencBytes (body.drop pos) = .ok (s, used) ∧ pos' = pos + used := by
    intro s pos'
    constructor
    · intro h
      obtain ⟨data, hdata, h⟩ := bind_ok.mp h
      obtain ⟨-, rfl⟩ := sliceFrom_ok.mp hdata
      obtain ⟨⟨s', used⟩, hread, h⟩ := bind_ok.mp h
      obtain ⟨stop, hstop, h⟩ := bind_ok.mp h
      obtain ⟨-, rfl⟩ := add_ok.mp hstop
      obtain ⟨rfl, rfl⟩ : s' = s ∧ pos + used = pos' := by
        rw [← Prod.mk.injEq]
        exact Except.ok.inj h
      exact ⟨used, hread, rfl⟩
    · rintro ⟨used, hread, rfl⟩
      have hused := (stringEnds_of_ok hread).1
      rw [List.length_drop] at hused
      refine bind_ok.mpr ⟨_, sliceFrom_ok.mpr ⟨hpos, rfl⟩, bind_ok.mpr ⟨_, hread, ?_⟩⟩
      exact bind_ok.mpr ⟨_, add_eq (by omega), rfl⟩
  have hsound : Sound (stringAt body pos) ↔ ¬ Overlong (body.drop pos) := by
    rw [stringAt, sound_bind, ← sound_readLenencBytes]
    constructor
    · rintro ⟨-, h⟩
      exact (sound_bind.mp (h _ (sliceFrom_ok.mpr ⟨hpos, rfl⟩))).1
    · intro h
      refine ⟨sound_sliceFrom.mpr hpos, ?_⟩
      intro data hdata
      obtain ⟨-, rfl⟩ := sliceFrom_ok.mp hdata
      refine sound_bind.mpr ⟨h, ?_⟩
      rintro ⟨s, used⟩ hread
      have hused := (stringEnds_of_ok hread).1
      rw [List.length_drop] at hused
      exact sound_bind.mpr ⟨sound_add.mpr (by omega), fun _ _ => sound_pure _⟩
  rw [sound_bind, hsound]
  refine and_congr_right fun hclear => ?_
  constructor
  · intro h rest hrest
    obtain ⟨s, used, hread, rfl⟩ := ok_of_stringEnds (by rw [List.length_drop]; omega) hrest
    have hused := (stringEnds_of_ok hread).1
    rw [List.length_drop] at hused
    have := (hk s (pos + used) (by omega)).mp (h _ (hat.mpr ⟨used, hread, rfl⟩))
    rwa [← List.drop_drop] at this
  · rintro h ⟨s, pos'⟩ hok
    obtain ⟨used, hread, rfl⟩ := hat.mp hok
    obtain ⟨hused, hends⟩ := stringEnds_of_ok hread
    rw [List.length_drop] at hused
    refine (hk s (pos + used) (by omega)).mpr ?_
    rw [← List.drop_drop]
    exact h _ hends

theorem sound_parseColdefTail {body : Bytes} {pos : ℕ} (name : String)
    (hfits : body.length < 2 ^ 63) (hpos : pos ≤ body.length) :
    Sound (parseColdefTail body pos name) := by
  rw [parseColdefTail]
  refine sound_bind.mpr ⟨sound_sliceFrom.mpr hpos, ?_⟩
  intro data hdata
  obtain ⟨-, rfl⟩ := sliceFrom_ok.mp hdata
  refine sound_bind.mpr ⟨sound_readLenenc _, ?_⟩
  rintro ⟨fixedLen, used⟩ hok
  have hused := readLenenc_le hok
  rw [List.length_drop] at hused
  refine sound_bind.mpr ⟨sound_add.mpr (by omega), ?_⟩
  intro pos' hpos'
  obtain ⟨-, rfl⟩ := add_ok.mp hpos'
  rw [sound_ite]
  refine ⟨fun _ => sound_report _, fun _ => ?_⟩
  refine sound_bind.mpr ⟨sound_add.mpr (by omega), ?_⟩
  intro stop hstop
  obtain ⟨-, rfl⟩ := add_ok.mp hstop
  rw [sound_ite]
  refine ⟨fun _ => sound_report _, fun hlen => ?_⟩
  simp only [sound_bind, sound_slice, sound_index, sound_pure]
  grind

/-- A column definition crashes the reader exactly if one of its six strings that is reached is
too long. -/
theorem sound_parseColdef {body : Bytes} (hfits : body.length < 2 ^ 63) :
    Sound (parseColdef body) ↔ FieldsClear 6 body := by
  have htail : ∀ (name : String) (pos : ℕ), pos ≤ body.length →
      (Sound (parseColdefTail body pos name) ↔ FieldsClear 0 (body.drop pos)) :=
    fun name pos hpos => iff_true_intro (sound_parseColdefTail name hfits hpos)
  rw [parseColdef]
  simp only [skipStrings, bind_assoc, pure_bind]
  refine sound_stringAt_bind (P := FieldsClear 5) hfits (Nat.zero_le _) fun _ pos hpos => ?_
  refine sound_stringAt_bind (P := FieldsClear 4) hfits hpos fun _ pos hpos => ?_
  refine sound_stringAt_bind (P := FieldsClear 3) hfits hpos fun _ pos hpos => ?_
  refine sound_stringAt_bind (P := FieldsClear 2) hfits hpos fun _ pos hpos => ?_
  refine sound_stringAt_bind (P := FieldsClear 1) hfits hpos fun name pos hpos => ?_
  exact sound_stringAt_bind (P := FieldsClear 0) hfits hpos fun _ pos hpos => htail _ pos hpos

/-! ### Rows -/

/-- How the values of a type stand in a row. -/
inductive Layout where
  /-- So many bytes. -/
  | fixed (n : ℕ)
  /-- So many bytes as the first byte says. -/
  | dated
  /-- A length-encoded string. -/
  | string
  deriving DecidableEq

/-- The layout of a type. -/
def layout (ty : UInt8) : Layout :=
  if ty = typeTiny then .fixed 1
  else if ty = typeShort ∨ ty = typeYear then .fixed 2
  else if ty = typeLong ∨ ty = typeInt24 ∨ ty = typeFloat then .fixed 4
  else if ty = typeLonglong ∨ ty = typeDouble then .fixed 8
  else if ty = typeDate ∨ ty = typeDatetime ∨ ty = typeTimestamp ∨ ty = typeTime then .dated
  else .string

/-- The data begin with a value of the layout, and the rest is behind it. -/
def Layout.Ends (data rest : Bytes) : Layout → Prop
  | .fixed n => ∃ v, v.length = n ∧ data = v ++ rest
  | .dated => ∃ n v, v.length = UInt8.toNat n ∧ data = n :: v ++ rest
  | .string => StringEnds data rest

/-- The values of a row from column `i` on, none of which is a string that is too long. The values
behind one that does not end are not reached, and `NULL` has no value. -/
def CellsClear (bitmap : Bytes) : ℕ → List UInt8 → Bytes → Prop
  | _, [], _ => True
  | i, ty :: types, data =>
    if getBit bitmap (i + 2) then CellsClear bitmap (i + 1) types data
    else (layout ty = .string → ¬ Overlong data) ∧
      ∀ rest, (layout ty).Ends data rest → CellsClear bitmap (i + 1) types rest

theorem returns_decodeMysqlDatetime (b : Bytes) : Returns (decodeMysqlDatetime b) := by
  simp only [decodeMysqlDatetime, returns_ite, returns_bind, returns_slice, returns_index,
    returns_pure]
  grind

theorem returns_decodeMysqlTime (b : Bytes) : Returns (decodeMysqlTime b) := by
  simp only [decodeMysqlTime, returns_ite, returns_bind, returns_slice, returns_index,
    returns_pure]
  grind

theorem parseBinaryValue_eq (data : Bytes) (ty : UInt8) :
    parseBinaryValue data ty =
      match layout ty with
      | .fixed n => fixedValue data n
      | .dated =>
        datedValue data (if ty = typeTime then decodeMysqlTime else decodeMysqlDatetime)
      | .string => readLenencBytes data >>= fun p => pure (p.1.getD [], p.2) := by
  rw [parseBinaryValue, layout]
  by_cases htime : ty = typeTime
  · subst htime
    rfl
  · simp only [htime, or_false, if_false]
    split_ifs <;> rfl

/-- A reader cuts the data in front of the rests in `E`: it stays inside of the data, and leaves
such a rest, whichever there is. -/
structure Cuts {γ : Type} (x : Wire (γ × ℕ)) (data : Bytes) (E : Bytes → Prop) : Prop where
  ends {v : γ} {used : ℕ} : x = .ok (v, used) → used ≤ data.length ∧ E (data.drop used)
  reads {rest : Bytes} : E rest → ∃ v used, x = .ok (v, used) ∧ rest = data.drop used

/-- A value of so many bytes is read if the data have them. -/
theorem fixedValue_eq (data : Bytes) (n : ℕ) :
    fixedValue data n = if data.length < n then failWith "truncated binary value"
      else .ok (data.take n, n) := by
  rw [fixedValue, need]
  split
  · rfl
  · rename_i h
    have hs : (slice data 0 n : Wire Bytes) = .ok (data.take n) :=
      slice_ok.mpr ⟨Nat.zero_le _, by omega, rfl⟩
    rw [pure_bind, hs]
    rfl

theorem sound_datedValue {decode : Bytes → Wire Bytes} (hdecode : ∀ b, Returns (decode b))
    (data : Bytes) : Sound (datedValue data decode) := by
  simp only [datedValue, need, failWith, sound_bind, sound_ite, sound_report, sound_pure,
    sound_index, sound_add, sound_slice, (hdecode _).sound]
  grind [UInt8.toNat_lt, add_ok]

theorem datedValue_cons (len : UInt8) (data : Bytes) (decode : Bytes → Wire Bytes) :
    datedValue (len :: data) decode =
      if data.length < len.toNat then failWith "truncated binary value"
      else decode (data.take len.toNat) >>= fun v => pure (v, 1 + len.toNat) := by
  have hlen := len.toNat_lt
  have hadd : (add 1 len.toNat : Wire ℕ) = .ok (1 + len.toNat) := add_eq (by omega)
  rw [datedValue, need, if_neg (by simp), pure_bind]
  change (add 1 len.toNat >>= _) = _
  rw [hadd]
  change (need (len :: data) (1 + len.toNat) >>= _) = _
  rw [need, List.length_cons]
  split
  · rw [if_pos (by omega)]
    rfl
  · rename_i h
    have hs : (slice (len :: data) 1 (1 + len.toNat) : Wire Bytes) =
        .ok (data.take len.toNat) := by
      rw [slice_ok, Nat.add_comm 1]
      exact ⟨by omega, by simp only [List.length_cons]; omega, by simp⟩
    rw [if_neg (by omega), pure_bind, hs]
    rfl

/-- A dated value is read exactly if the data begin with one. -/
theorem cuts_datedValue {decode : Bytes → Wire Bytes} (hdecode : ∀ b, Returns (decode b))
    (data : Bytes) : Cuts (datedValue data decode) data (Layout.dated.Ends data) := by
  cases data with
  | nil =>
    constructor
    · intro v used h
      exact nomatch h
    · rintro rest ⟨n, v, -, h⟩
      exact nomatch h
  | cons len data =>
    rw [datedValue_cons]
    constructor
    · intro v used h
      split_ifs at h with hlen
      · exact nomatch h
      · obtain ⟨v', -, h⟩ := bind_ok.mp h
        obtain ⟨-, rfl⟩ : v' = v ∧ 1 + len.toNat = used := by
          rw [← Prod.mk.injEq]
          exact Except.ok.inj h
        refine ⟨by rw [List.length_cons]; omega, len, data.take len.toNat, ?_, ?_⟩
        · rw [List.length_take]
          omega
        · rw [Nat.add_comm 1, List.drop_succ_cons, List.cons_append, List.take_append_drop]
    · rintro rest ⟨n, v, hv, h⟩
      obtain ⟨rfl, rfl⟩ : len = n ∧ data = v ++ rest := by simpa using h
      obtain ⟨w, hw⟩ := hdecode ((v ++ rest).take len.toNat)
      refine ⟨w, 1 + len.toNat, ?_, ?_⟩
      · rw [if_neg (by rw [List.length_append]; omega), hw]
        rfl
      · rw [Nat.add_comm 1, List.drop_succ_cons, ← hv, List.drop_left]

theorem cuts_fixedValue (data : Bytes) (n : ℕ) :
    Cuts (fixedValue data n) data ((Layout.fixed n).Ends data) := by
  rw [fixedValue_eq]
  constructor
  · intro v used h
    split_ifs at h with hlen
    · exact nomatch h
    · obtain ⟨-, rfl⟩ : data.take n = v ∧ n = used := by simpa using h
      refine ⟨by omega, data.take n, ?_, (List.take_append_drop n data).symm⟩
      rw [List.length_take]
      omega
  · rintro rest ⟨v, rfl, rfl⟩
    exact ⟨v, v.length, by simp, by simp⟩

/-- Reading a value crashes exactly on a string that is too long. -/
theorem sound_parseBinaryValue {data : Bytes} {ty : UInt8} :
    Sound (parseBinaryValue data ty) ↔ (layout ty = .string → ¬ Overlong data) := by
  rw [parseBinaryValue_eq]
  cases hty : layout ty with
  | fixed n =>
    simp only [fixedValue_eq, sound_ite, failWith, sound_report, sound_ok, reduceCtorEq,
      implies_true, false_implies, and_self]
  | dated =>
    simp only [reduceCtorEq, false_implies, iff_true]
    split
    · exact sound_datedValue returns_decodeMysqlTime data
    · exact sound_datedValue returns_decodeMysqlDatetime data
  | string =>
    rw [sound_bind, sound_readLenencBytes]
    simp only [sound_pure, implies_true, and_true, forall_const]

/-- A value is read exactly if the data begin with one. -/
theorem cuts_parseBinaryValue (data : Bytes) (hfits : data.length < 2 ^ 63) (ty : UInt8) :
    Cuts (parseBinaryValue data ty) data ((layout ty).Ends data) := by
  rw [parseBinaryValue_eq]
  cases hty : layout ty with
  | fixed n => exact cuts_fixedValue data n
  | dated =>
    dsimp only
    split
    · exact cuts_datedValue returns_decodeMysqlTime data
    · exact cuts_datedValue returns_decodeMysqlDatetime data
  | string =>
    constructor
    · intro v used h
      obtain ⟨⟨s, used'⟩, hread, h⟩ := bind_ok.mp h
      obtain ⟨-, rfl⟩ : s.getD [] = v ∧ used' = used := by
        rw [← Prod.mk.injEq]
        exact Except.ok.inj h
      exact stringEnds_of_ok hread
    · intro rest h
      obtain ⟨s, used, hread, rfl⟩ := ok_of_stringEnds hfits h
      exact ⟨s.getD [], used, by rw [hread]; rfl, rfl⟩

theorem getBit_eq {bitmap : Bytes} {i : ℕ} {b : UInt8}
    (h : (index bitmap (i / 8) : Wire UInt8) = .ok b) :
    getBit bitmap i = b.toNat.testBit (i % 8) := by
  rw [index] at h
  rw [getBit, List.getD_eq_getElem?_getD]
  cases hb : bitmap[i / 8]? with
  | none =>
    rw [hb] at h
    cases h
  | some c =>
    rw [hb] at h
    cases h
    rfl

/-- The loop over the columns crashes exactly if a cell that it reaches is a string that is too
long. -/
theorem sound_parseCells {body bitmap : Bytes} (hfits : body.length < 2 ^ 63) :
    ∀ (types : List UInt8) (i pos : ℕ), pos ≤ body.length →
      i + types.length + 1 < 8 * bitmap.length →
      (Sound (parseCells body bitmap i pos types) ↔
        CellsClear bitmap i types (body.drop pos)) := by
  intro types
  induction types with
  | nil =>
    intro i pos hpos hbits
    exact iff_true_intro (sound_pure _)
  | cons ty types ih =>
    intro i pos hpos hbits
    rw [List.length_cons] at hbits
    obtain ⟨b, hb⟩ : Returns (index bitmap ((i + 2) / 8) : Wire UInt8) :=
      returns_index.mpr (by omega)
    rw [parseCells, CellsClear, hb, getBit_eq hb]
    change Sound (if b.toNat.testBit ((i + 2) % 8) = true then _ else _) ↔ _
    split
    · rw [sound_bind, ih (i + 1) pos hpos (by omega)]
      simp
    · rw [sound_bind, ← sound_parseBinaryValue]
      have hcuts := cuts_parseBinaryValue (body.drop pos)
        (by rw [List.length_drop]; omega) ty
      -- Behind the value, the rest of the row is the rest of the loop.
      have hrest : ∀ v used, used ≤ (body.drop pos).length →
          (Sound (do
            let pos ← add pos used
            let cells ← parseCells body bitmap (i + 1) pos types
            pure (some v :: cells) : Wire (List Cell)) ↔
            CellsClear bitmap (i + 1) types ((body.drop pos).drop used)) := by
        intro v used hused
        rw [List.length_drop] at hused
        rw [add_eq (by omega)]
        change Sound (parseCells body bitmap (i + 1) (pos + used) types >>= _) ↔ _
        rw [sound_bind, ih (i + 1) (pos + used) (by omega) (by omega), List.drop_drop]
        simp
      constructor
      · rintro ⟨-, h⟩
        obtain ⟨hval, h⟩ := sound_bind.mp (h _ (sliceFrom_ok.mpr ⟨hpos, rfl⟩))
        refine ⟨hval, ?_⟩
        intro rest hends
        obtain ⟨v, used, hok, rfl⟩ := hcuts.reads hends
        exact (hrest v used (hcuts.ends hok).1).mp (h _ hok)
      · rintro ⟨hval, h⟩
        refine ⟨sound_sliceFrom.mpr hpos, ?_⟩
        intro data hdata
        obtain ⟨-, rfl⟩ := sliceFrom_ok.mp hdata
        refine sound_bind.mpr ⟨hval, ?_⟩
        rintro ⟨v, used⟩ hok
        obtain ⟨hused, hends⟩ := hcuts.ends hok
        exact (hrest v used hused).mpr (h _ hends)

/-- A row has no string that is too long, among the values that are reached. -/
def RowClear (types : List UInt8) (body : Bytes) : Prop :=
  ∀ bitmap data, body = 0 :: (bitmap ++ data) → bitmap.length = (types.length + 9) / 8 →
    CellsClear bitmap 0 types data

theorem sound_parseBinaryRow {body : Bytes} {types : List UInt8} (hfits : body.length < 2 ^ 63)
    (htypes : types.length < 2 ^ 63) :
    Sound (parseBinaryRow body types) ↔ RowClear types body := by
  rw [parseBinaryRow]
  by_cases hhead : body.head? = some 0x00
  · obtain ⟨tail, rfl⟩ : ∃ tail, body = 0 :: tail := by
      cases body with
      | nil => exact nomatch hhead
      | cons x tail => exact ⟨tail, by cases hhead; rfl⟩
    rw [if_neg (not_not_intro hhead), add_eq (by omega)]
    change Sound (add 1 ((types.length + 9) / 8) >>= _) ↔ _
    rw [add_eq (by omega)]
    change Sound (if (0 :: tail).length < 1 + (types.length + 9) / 8 then _ else _) ↔ _
    rw [List.length_cons]
    rw [List.length_cons] at hfits
    split
    · rename_i hshort
      refine iff_of_true (sound_report _) ?_
      intro bitmap data hbody hlen
      obtain ⟨-, rfl⟩ : True ∧ tail = bitmap ++ data := by simpa using hbody
      rw [List.length_append] at hshort
      omega
    · rename_i hlong
      have hs : (slice (0 :: tail) 1 (1 + (types.length + 9) / 8) : Wire Bytes) =
          .ok (tail.take ((types.length + 9) / 8)) := by
        rw [slice_ok, Nat.add_comm 1]
        exact ⟨by omega, by rw [List.length_cons]; omega, by simp⟩
      have hroom : (withCapacity types.length types.length : Wire Unit) = .ok () :=
        withCapacity_ok.mpr le_rfl
      have htake : (tail.take ((types.length + 9) / 8)).length = (types.length + 9) / 8 := by
        rw [List.length_take]
        omega
      rw [hs]
      change Sound (withCapacity types.length types.length >>= _) ↔ _
      rw [hroom]
      change Sound (parseCells (0 :: tail) _ 0 (1 + (types.length + 9) / 8) types) ↔ _
      rw [sound_parseCells (by rw [List.length_cons]; omega) types 0 _
        (by rw [List.length_cons]; omega) (by rw [htake]; omega), Nat.add_comm 1,
        List.drop_succ_cons]
      constructor
      · intro h bitmap data hbody hlen
        obtain rfl : tail = bitmap ++ data := by simpa using hbody
        rwa [← hlen, List.take_left, List.drop_left] at h
      · intro h
        exact h _ _ (by rw [List.take_append_drop]) htake
  · rw [if_pos hhead]
    refine iff_of_true (sound_report _) ?_
    rintro bitmap data rfl
    exact absurd rfl hhead

/-! ### The number of columns -/

/-- The packet announces at least one column: it is neither an error nor an OK, and begins with a
number other than zero. -/
def AnnouncesColumns (first : Bytes) : Prop :=
  first.head? ≠ some 0xFF ∧ ∃ header rest n, first = header ++ rest ∧ Announces header n ∧ n ≠ 0

theorem sound_columnCount {first : Bytes} (hfits : first.length < 2 ^ 63) :
    Sound (columnCount first) ↔ ¬ AnnouncesColumns first := by
  rw [columnCount, sound_ite, sound_ite, AnnouncesColumns]
  by_cases herr : first.head? = some 0xFF
  · refine iff_of_true ⟨fun _ => ?_, fun h => absurd herr h⟩ fun h => h.1 herr
    exact sound_bind.mpr ⟨sound_parseErr first, fun _ _ => sound_report _⟩
  by_cases hok : first.head? = some 0x00
  · refine iff_of_true ⟨fun h => absurd h herr, fun _ => ⟨fun _ => ?_, fun h => absurd hok h⟩⟩ ?_
    · exact sound_bind.mpr ⟨sound_parseOk hfits, fun _ _ => sound_pure _⟩
    · rintro ⟨-, header, rest, n, rfl, hn, hne⟩
      cases hn with
      | byte v h =>
        cases hok
        exact hne rfl
      | null => exact nomatch hok
      | two b h => exact nomatch hok
      | three b h => exact nomatch hok
      | eight b h => exact nomatch hok
  simp only [herr, hok, false_implies, not_false_eq_true, forall_const, true_and, ne_eq]
  rw [sound_bind]
  constructor
  · rintro ⟨-, h⟩ ⟨header, rest, n, hdata, hn, hne⟩
    have := h (n, header.length) (readLenenc_ok.mpr ⟨header, rest, hdata, hn, rfl⟩)
    have hroom := (sound_bind.mp this).1
    rw [sound_withCapacity] at hroom
    exact hne (Nat.le_zero.mp hroom)
  · intro h
    refine ⟨sound_readLenenc first, ?_⟩
    rintro ⟨n, used⟩ hread
    obtain ⟨header, rest, hdata, hn, -⟩ := readLenenc_ok.mp hread
    refine sound_bind.mpr ⟨sound_withCapacity.mpr ?_, fun _ _ => sound_pure _⟩
    by_contra hne
    exact h ⟨header, rest, n, hdata, hn, fun h0 => hne (Nat.le_of_eq h0)⟩

/-! ### All readers -/

/-- No reader crashes on the packet. -/
structure NeverPanics (body : Bytes) (types : List UInt8) : Prop where
  handshake : Sound (parseHandshake body)
  authSwitch : Sound (parseAuthSwitch body)
  ok : Sound (parseOk body)
  err : Sound (parseErr body)
  prepareOk : Sound (parsePrepareOk body)
  coldef : Sound (parseColdef body)
  binaryRow : Sound (parseBinaryRow body types)
  lenencBytes : Sound (readLenencBytes body)
  columnCount : Sound (columnCount body)

/-- **No reader crashes on a packet** exactly if it has no string that is too long where a column
definition or a row of these columns has strings, and does not announce columns. -/
theorem neverPanics_iff (body types : Slice) :
    NeverPanics body.elems types.elems ↔
      FieldsClear 6 body.elems ∧ RowClear types.elems body.elems ∧
        ¬ AnnouncesColumns body.elems := by
  constructor
  · intro h
    exact ⟨(sound_parseColdef body.fits).mp h.coldef,
      (sound_parseBinaryRow body.fits types.fits).mp h.binaryRow,
      (sound_columnCount body.fits).mp h.columnCount⟩
  · rintro ⟨hfields, hrow, hcolumns⟩
    exact
      { handshake := sound_parseHandshake body.fits
        authSwitch := sound_parseAuthSwitch body.fits
        ok := sound_parseOk body.fits
        err := sound_parseErr body.elems
        prepareOk := sound_parsePrepareOk body.elems
        coldef := (sound_parseColdef body.fits).mpr hfields
        binaryRow := (sound_parseBinaryRow body.fits types.fits).mpr hrow
        lenencBytes := sound_readLenencBytes.mpr hfields.1
        columnCount := (sound_columnCount body.fits).mpr hcolumns }

/-- A length one below the marker of `NULL` crashes the reader of strings, and the marker itself,
as a number of columns, asks for room. -/
theorem greatest_lengths_crash :
    ¬ (∀ body types : Slice, NeverPanics body.elems types.elems) ∧
      readLenencBytes (0xFE :: 0xFE :: List.replicate 7 0xFF) = .error (.fault .overflow) ∧
      columnCount [0xFB] = .error (.fault .capacity) := by
  have hover : readLenencBytes (0xFE :: 0xFE :: List.replicate 7 0xFF) =
      .error (.fault .overflow) := by decide
  refine ⟨fun h => ?_, hover, rfl⟩
  have hbody : (0xFE :: 0xFE :: List.replicate 7 0xFF : Bytes).length < 2 ^ 63 := by simp
  exact (h ⟨_, hbody⟩ ⟨[], by simp⟩).lenencBytes _ hover

end ZzLang.Db.Mysql
