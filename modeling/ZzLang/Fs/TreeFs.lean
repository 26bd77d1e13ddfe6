import Mathlib.Data.List.AList
import Mathlib.Data.List.Lex
import Mathlib.Data.Char
import ZzLang.Path.Native

/-!
# The in-memory file system

The tree behind a `memfs` keeps its files in a map and its directories in a set. Both are keyed by
the whole text of a path, and no entry points to another one. The root is in neither of them.

An operation says what the tree is afterwards and what it returns, an error code or nothing. User
paths come in through `vfsKey`, which normalizes them.
-/

namespace ZzLang.Fs

open ZzLang.Path

local instance lawfulBEqChars : LawfulBEq (List Char) := inferInstance

/-- A path in the virtual namespace. -/
abbrev Key := List Char

abbrev Bytes := List UInt8

/-- The error codes. -/
inductive Code where
  | ioError
  | alreadyExists
  | notFound
  deriving DecidableEq

def Code.text : Code → String
  | .ioError => "io_error"
  | .alreadyExists => "already_exists"
  | .notFound => "not_found"

/-- `TreeFs`. -/
structure TreeFs where
  files : AList fun _ : Key => Bytes := ∅
  dirs : List Key := []

/-- What an operation returns. -/
abbrev Res := Except Code Unit

namespace TreeFs

/-- The key of the root. -/
def root : Key := ['/']

variable (t : TreeFs) (key : Key)

def get : Option Bytes := t.files.lookup key

def contains : Bool := key ∈ t.files || key ∈ t.dirs || key = root

def isFile : Bool := key ∈ t.files

def isDir : Bool := key = root || key ∈ t.dirs

/-- The segments of a key. -/
def segments : List (List Char) := (key.splitOn '/').filter (· ≠ [])

/-- One turn of `mkdir_parents`: the parent so far grows by a segment, and becomes a directory. -/
def mkdirParent (st : Key × List Key) (seg : List Char) : Key × List Key :=
  let cur := st.1 ++ '/' :: seg
  (cur, st.2.insert cur)

/-- `mkdir_parents`. -/
def mkdirParents : TreeFs :=
  let segs := segments key
  { t with dirs := ((segs.take (segs.length - 1)).foldl mkdirParent ([], t.dirs)).2 }

/-- `insert`. -/
def insert (data : Bytes) : TreeFs × Res :=
  if key ∈ t.dirs then (t, .error .ioError)
  else
    let t := t.mkdirParents key
    ({ t with files := t.files.insert key data }, .ok ())

theorem insert_of_mem {data : Bytes} (h : key ∈ t.dirs) :
    t.insert key data = (t, .error .ioError) := if_pos h

theorem insert_of_not_mem {data : Bytes} (h : key ∉ t.dirs) :
    t.insert key data = (⟨t.files.insert key data, (t.mkdirParents key).dirs⟩, .ok ()) := if_neg h

/-- `mkdir_all`. -/
def mkdirAll : TreeFs × Res :=
  if key ∈ t.files then (t, .error .alreadyExists)
  else
    let t := t.mkdirParents key
    (if key ≠ root then { t with dirs := t.dirs.insert key } else t, .ok ())

theorem mkdirAll_of_mem (h : key ∈ t.files) : t.mkdirAll key = (t, .error .alreadyExists) :=
  if_pos h

theorem mkdirAll_root (h : root ∉ t.files) :
    t.mkdirAll root = (⟨t.files, (t.mkdirParents root).dirs⟩, .ok ()) := if_neg h

theorem mkdirAll_of_not_mem {key : Key} (h : key ∉ t.files) (hr : key ≠ root) :
    t.mkdirAll key = (⟨t.files, (t.mkdirParents key).dirs.insert key⟩, .ok ()) := by
  rw [mkdirAll, if_neg h]
  dsimp only
  rw [if_pos hr]
  rfl

/-- `remove_file`. -/
def removeFile : TreeFs × Res :=
  if key ∈ t.dirs then (t, .error .ioError)
  else
    ({ t with files := t.files.erase key },
      if key ∈ t.files then .ok () else .error .notFound)

theorem removeFile_of_mem (h : key ∈ t.dirs) : t.removeFile key = (t, .error .ioError) := if_pos h

theorem removeFile_of_not_mem (h : key ∉ t.dirs) :
    t.removeFile key = (⟨t.files.erase key, t.dirs⟩,
      if key ∈ t.files then .ok () else .error .notFound) := if_neg h

/-- `strip_prefix` with what `read_dir` asks of the rest. -/
def childName (pre k : Key) : Option (List Char) :=
  match k.dropPrefix? pre with
  | none => none
  | some rest =>
    if rest ≠ [] ∧ '/' ∉ rest then some rest else none

/-- `dedup` of a vector. -/
def dedup : List (List Char) → List (List Char)
  | a :: b :: l => if a = b then dedup (b :: l) else a :: dedup (b :: l)
  | l => l

/-- `read_dir`. -/
def readDir : Except Code (List (List Char)) :=
  if key ∈ t.files then .error .ioError
  else if key ≠ root ∧ key ∉ t.dirs then .error .notFound
  else
    let pre := if key = root then root else key ++ ['/']
    .ok (dedup (((t.files.keys ++ t.dirs).filterMap (childName pre)).mergeSort
      fun a b => decide (a ≤ b)))

end TreeFs

/-- `vfs_key`. -/
def vfsKey (p : List Char) : Key :=
  let n := normalize p .unix
  if n = ['.'] then TreeFs.root
  else if n.head? = some '/' then n
  else if n = ['.', '.'] ∨ ['.', '.', '/'] <+: n then TreeFs.root
  else '/' :: n

/-! ### The operations on a `memfs` -/

/-- An operation, with the user's path. -/
inductive Op where
  | write (raw : List Char) (data : Bytes)
  | append (raw : List Char) (data : Bytes)
  | mkdirAll (raw : List Char)
  | removeFile (raw : List Char)

/-- The branches for `Provider::Mem` of `fs_write_at`, `fs_append_at`, `fs_mkdir_all_at` and
`fs_remove_file_at`. -/
def Op.exec : Op → TreeFs → TreeFs × Res
  | .write raw data, t => t.insert (vfsKey raw) data
  | .append raw data, t =>
    let key := vfsKey raw
    if key ∈ t.dirs then (t, .error .ioError)
    else t.insert key ((t.get key).getD [] ++ data)
  | .mkdirAll raw, t => t.mkdirAll (vfsKey raw)
  | .removeFile raw, t => t.removeFile (vfsKey raw)

/-- The tree after operations on a new `memfs`. -/
def runOps (ops : List Op) : TreeFs := ops.foldl (fun t op => (op.exec t).1) {}

/-! ### Archives -/

/-- The bytes of a field up to the first zero. -/
def untilZero (field : Bytes) : Bytes := field.takeWhile (· ≠ 0)

/-- The white space `trim` removes, as far as one byte holds it. -/
def isLatinSpace (b : UInt8) : Bool :=
  (9 ≤ b && b ≤ 13) || b = 32 || b = 0x85 || b = 0xa0

/-- `usize::from_str_radix` of a trimmed text to the base 8. Twelve digits are no overflow. -/
def parseOctal (field : Bytes) : Option ℕ :=
  let s := ((field.dropWhile isLatinSpace).reverse.dropWhile isLatinSpace).reverse
  let digits := if s.head? = some 43 then s.tail else s
  if digits ≠ [] ∧ digits.all (fun b => 48 ≤ b && b ≤ 55) then
    some (digits.foldl (fun n b => n * 8 + (b.toNat - 48)) 0)
  else none

/-- An entry of an archive, as its header and its data say. -/
structure TarEntry where
  name : List Char
  data : Bytes
  typeflag : UInt8

section Tar

-- `String::from_utf8_lossy`.
variable (lossy : Bytes → List Char)

/-- The name a header gives, with the prefix. -/
def entryName (hdr : Bytes) : List Char :=
  let name := lossy (untilZero (hdr.take 100))
  let pre := untilZero ((hdr.drop 345).take 155)
  if 0 < pre.length then lossy pre ++ '/' :: name else name

/-- The size field of a header. -/
def entrySize (hdr : Bytes) : Option ℕ :=
  parseOctal (((hdr.drop 124).take 12).takeWhile fun b => b ≠ 0 && b ≠ 32)

/-- One entry and the bytes behind it, or nothing at the end of the archive. -/
def readEntry (bytes : Bytes) : Except String (Option (TarEntry × Bytes)) :=
  if bytes.length < 512 then .ok none
  else
    let hdr := bytes.take 512
    if hdr.all (· = 0) then .ok none
    else
      let name := entryName lossy hdr
      match entrySize hdr with
      | none => .error ("malformed size field for entry \x60" ++ String.ofList name ++ "\x60")
      | some size =>
        let rest := bytes.drop 512
        if rest.length < size then
          .error ("truncated data for entry \x60" ++ String.ofList name ++ "\x60")
        else
          .ok (some (⟨name, rest.take size, hdr.getD 156 0⟩,
            rest.drop ((size + 511) / 512 * 512)))

/-- What is left is shorter. -/
theorem length_readEntry {bytes rest : Bytes} {e : TarEntry}
    (h : readEntry lossy bytes = .ok (some (e, rest))) : rest.length < bytes.length := by
  unfold readEntry at h
  dsimp only at h
  split at h
  · simp at h
  · split at h
    · simp at h
    · split at h
      · simp at h
      · split at h
        · simp at h
        · have hrest := congrArg Prod.snd (Option.some.inj (Except.ok.inj h))
          simp only at hrest
          rw [← hrest, List.length_drop, List.length_drop]
          omega

/-- The loop of `parse_tar`, with the long name that waits for its entry. -/
def parseTarLoop (bytes : Bytes) (pendingLong : Option (List Char)) (tree : TreeFs) :
    Except String TreeFs :=
  match h : readEntry lossy bytes with
  | .error e => .error e
  | .ok none => .ok tree
  | .ok (some (e, rest)) =>
    have := length_readEntry lossy h
    if e.typeflag = 76 then
      -- The data names the next entry.
      let s := lossy e.data
      parseTarLoop rest (some (s.reverse.dropWhile (· = '\x00')).reverse) tree
    else if e.typeflag = 48 ∨ e.typeflag = 0 then
      let n := pendingLong.getD e.name
      match tree.insert (vfsKey n) e.data with
      | (tree, .ok ()) => parseTarLoop rest none tree
      | (_, .error c) =>
        .error ("duplicate entry \x60" ++ String.ofList n ++ "\x60 (" ++ c.text ++ ")")
    else if e.typeflag = 53 then
      let n := pendingLong.getD e.name
      match tree.mkdirAll (vfsKey n) with
      | (tree, .ok ()) => parseTarLoop rest none tree
      | (_, .error c) =>
        .error ("conflicting entry \x60" ++ String.ofList n ++ "\x60 (" ++ c.text ++ ")")
    else parseTarLoop rest none tree
termination_by bytes.length

/-- `parse_tar`. -/
def parseTar (bytes : Bytes) : Except String TreeFs := parseTarLoop lossy bytes none {}

end Tar

end ZzLang.Fs
