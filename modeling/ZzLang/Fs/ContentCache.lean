import Mathlib.Data.List.AList
import Mathlib.Logic.Function.Basic

/-!
# The cache of file contents

Reads of files share their contents through a cache, whose entries are checked against the metadata
of the file each time. The cache is cut into shards with a lock each. A shard has a map, a queue of
slots in the order of the insertions, and a count of bytes. Slots of entries that were replaced or
dropped stay in the queue and are told by their sequence number.

A thread does one thing at a time that others can see: it takes the metadata, reads the file, draws
a sequence number, or holds the lock of a shard. Between these, other threads go on and files
change. What was read is inserted if the metadata are the same before and after.
-/

namespace ZzLang.Fs.Cache

/-- A path, as its bytes. -/
abbrev Path := List UInt8

abbrev Bytes := List UInt8

def shardCount : ℕ := 32

def maxEntriesPerShard : ℕ := 512

/-- `Fingerprint`, with the fields of Unix. -/
structure Fingerprint where
  len : ℕ
  mtimeSec : ℤ
  mtimeNsec : ℕ
  ctimeSec : ℤ
  ctimeNsec : ℕ
  dev : ℕ
  ino : ℕ
  deriving DecidableEq

/-- What `metadata` tells. -/
structure Metadata where
  isFile : Bool
  stamp : Fingerprint

/-- `Config`. -/
structure Config where
  enabled : Bool
  shardBudget : ℕ
  maxEntry : ℕ

/-- `CachedFile`. What it computes from its bytes later is left out. -/
structure CachedFile where
  fingerprint : Fingerprint
  seq : ℕ
  bytes : Bytes

structure Slot where
  key : Path
  seq : ℕ

/-- `Shard`. -/
structure Shard where
  map : AList fun _ : Path => CachedFile := ∅
  order : List Slot := []
  bytes : ℕ := 0

variable (cfg : Config)

/-- `shard_index`. -/
def shardIndex (path : Path) : ℕ :=
  let h := path.foldl (fun h b => (h ^^^ b.toUInt64) * 0x00000100000001b3) (0xcbf29ce484222325 : UInt64)
  h.toNat % shardCount

/-- `fingerprint`. -/
def fingerprint (m : Metadata) : Option Fingerprint :=
  if m.isFile = false ∨ m.stamp.len = 0 ∨ cfg.maxEntry < m.stamp.len then none else some m.stamp

/-! ### Critical sections -/

/-- `drop_entry`. -/
def dropEntry (shard : Shard) (path : Path) : Shard :=
  match shard.map.lookup path with
  | none => shard
  | some removed =>
    { shard with map := shard.map.erase path, bytes := shard.bytes - removed.bytes.length }

/-- The loop of `insert` that evicts: slots go from the front until the shard is within its
bounds. -/
def evict (map : AList fun _ : Path => CachedFile) (bytes : ℕ) : List Slot → Shard
  | [] => ⟨map, [], bytes⟩
  | slot :: order =>
    if cfg.shardBudget < bytes ∨ maxEntriesPerShard < map.keys.length then
      match map.lookup slot.key with
      | none => evict map bytes order
      | some current =>
        if current.seq ≠ slot.seq then evict map bytes order
        else evict (map.erase slot.key) (bytes - current.bytes.length) order
    else ⟨map, slot :: order, bytes⟩

/-- The sequence numbers of the entries. -/
def liveSeqs (map : AList fun _ : Path => CachedFile) : List ℕ := map.entries.map (·.2.seq)

/-- The end of `insert`: a queue with many stale slots is cleaned. -/
def compact (shard : Shard) : Shard :=
  if shard.map.keys.length * 2 + 64 < shard.order.length then
    let live := liveSeqs shard.map
    { shard with order := shard.order.filter fun slot => slot.seq ∈ live }
  else shard

/-- The count of a shard without the entry that `insert` replaces. -/
def bytesWithout (shard : Shard) (path : Path) : ℕ :=
  match shard.map.lookup path with
  | some old => shard.bytes - old.bytes.length
  | none => shard.bytes

/-- What `insert` does under the lock. -/
def insertEntry (shard : Shard) (path : Path) (entry : CachedFile) : Shard :=
  compact (evict cfg (shard.map.insert path entry)
    (bytesWithout shard path + entry.bytes.length) (shard.order ++ [⟨path, entry.seq⟩]))

/-- Whether `insert` takes what it is given. -/
def insertable (fp : Fingerprint) (bytes : Bytes) : Bool :=
  ! (! cfg.enabled || bytes = [] || cfg.maxEntry < bytes.length || bytes.length ≠ fp.len)

/-- The prefix that `invalidate_prefix` works with: it loses the separators at its end, but not its
first byte. -/
def trimPrefix : Path → Path
  | [] => []
  | b :: rest => b :: (rest.reverse.dropWhile fun c => c = 47 || c = 92).reverse

/-- Whether `invalidate_prefix` drops a key. -/
def isVictim (pre key : Path) : Bool :=
  pre = [47] || key = pre ||
    (pre.isPrefixOf key && (key[pre.length]? = some 47 || key[pre.length]? = some 92))

/-- What `invalidate_prefix` does to one shard. -/
def dropPrefix (shard : Shard) (pre : Path) : Shard :=
  (shard.map.keys.filter (isVictim pre)).foldl dropEntry shard

/-! ### Threads -/

/-- An open file. -/
abbrev File := ℕ

/-- The file system outside of the process: what the files are, and which one a path names. -/
structure World where
  metadata : File → Metadata
  contents : File → Bytes
  resolve : Path → Option File

/-- What a thread is doing. -/
inductive Thread where
  | idle
  /-- `probe` has taken the metadata; the contents are those the file had then. -/
  | probing (path : Path) (fp : Option Fingerprint) (contents : Bytes)
  /-- `probe` has returned an entry. -/
  | hit (entry : CachedFile) (contents : Bytes)
  /-- `read_uncached` has opened the file. -/
  | opened (path : Path) (file : File)
  /-- It has the metadata before the read. Whether the file has kept its fingerprint since then is
  noted here, for the proofs only. -/
  | statted (path : Path) (file : File) (fp : Option Fingerprint) (kept : Bool)
  /-- It has the contents. -/
  | loaded (path : Path) (file : File) (fp : Option Fingerprint) (bytes : Bytes) (kept : Bool)
  /-- It calls `insert`. -/
  | inserting (path : Path) (fp : Fingerprint) (bytes : Bytes)
  /-- `insert` has drawn a number. -/
  | numbered (path : Path) (fp : Fingerprint) (bytes : Bytes) (seq : ℕ)
  /-- `invalidate_prefix` has this shard to do next. -/
  | clearing (pre : Path) (shard : ℕ)

structure State where
  world : World
  shards : ℕ → Shard
  nextSeq : ℕ
  threads : ℕ → Thread

/-- The process before its first read. -/
def State.start (w : World) : State := ⟨w, fun _ => {}, 1, fun _ => .idle⟩

namespace State

variable (s : State)

def setThread (t : ℕ) (th : Thread) : State :=
  { s with threads := Function.update s.threads t th }

/-- The shard of a path changes. -/
def setShard (i : ℕ) (shard : Shard) : State :=
  { s with shards := Function.update s.shards i shard }

end State

/-- The fingerprint a file has. -/
def World.fingerprint (w : World) (f : File) : Option Fingerprint :=
  Cache.fingerprint cfg (w.metadata f)

/-- What a thread notes of a change of the world. -/
def Thread.age (w : World) : Thread → Thread
  | .statted path f fp kept => .statted path f fp (kept && w.fingerprint cfg f = fp)
  | .loaded path f fp bytes kept => .loaded path f fp bytes (kept && w.fingerprint cfg f = fp)
  | th => th

/-- Equal fingerprints imply equal contents, at all files and at all times. -/
def Determined (contentsOf : Fingerprint → Bytes) (w : World) : Prop :=
  ∀ f fp, w.fingerprint cfg f = some fp → w.contents f = contentsOf fp

/-- What happens in a step; of all insertions it is told which path they are about. -/
inductive Label where
  | world
  | insert (path : Path)
  | other

/-- One step. The world changes to one that a condition allows. -/
inductive Step (allowed : World → (ℕ → Thread) → Prop) : State → Label → State → Prop where
  | world {s : State} {w : World} (h : allowed w fun t => (s.threads t).age cfg w) :
      Step allowed s .world { s with world := w, threads := fun t => (s.threads t).age cfg w }
  | probeStat {s : State} {t : ℕ} (path : Path) (hi : s.threads t = .idle)
      (he : cfg.enabled = true) :
      Step allowed s .other (s.setThread t (match s.world.resolve path with
        | none => .probing path none []
        | some f => .probing path (s.world.fingerprint cfg f) (s.world.contents f)))
  | probeDrop {s : State} {t : ℕ} {path : Path} {c : Bytes}
      (ht : s.threads t = .probing path none c) :
      Step allowed s .other ((s.setShard (shardIndex path)
        (dropEntry (s.shards (shardIndex path)) path)).setThread t .idle)
  | probeMiss {s : State} {t : ℕ} {path : Path} {fp : Fingerprint} {c : Bytes}
      (ht : s.threads t = .probing path (some fp) c)
      (hl : (s.shards (shardIndex path)).map.lookup path = none) :
      Step allowed s .other (s.setThread t .idle)
  | probeHit {s : State} {t : ℕ} {path : Path} {fp : Fingerprint} {c : Bytes} {e : CachedFile}
      (ht : s.threads t = .probing path (some fp) c)
      (hl : (s.shards (shardIndex path)).map.lookup path = some e) (hfp : e.fingerprint = fp) :
      Step allowed s .other (s.setThread t (.hit e c))
  | probeStale {s : State} {t : ℕ} {path : Path} {fp : Fingerprint} {c : Bytes} {e : CachedFile}
      (ht : s.threads t = .probing path (some fp) c)
      (hl : (s.shards (shardIndex path)).map.lookup path = some e) (hfp : e.fingerprint ≠ fp) :
      Step allowed s .other ((s.setShard (shardIndex path)
        (dropEntry (s.shards (shardIndex path)) path)).setThread t .idle)
  | returned {s : State} {t : ℕ} {e : CachedFile} {c : Bytes} (ht : s.threads t = .hit e c) :
      Step allowed s .other (s.setThread t .idle)
  | openFile {s : State} {t : ℕ} {path : Path} {f : File} (hi : s.threads t = .idle)
      (hf : s.world.resolve path = some f) :
      Step allowed s .other (s.setThread t (.opened path f))
  | stat {s : State} {t : ℕ} {path : Path} {f : File} (ht : s.threads t = .opened path f) :
      Step allowed s .other (s.setThread t (.statted path f (s.world.fingerprint cfg f) true))
  | load {s : State} {t : ℕ} {path : Path} {f : File} {fp : Option Fingerprint} {kept : Bool}
      (ht : s.threads t = .statted path f fp kept) :
      Step allowed s .other (s.setThread t (.loaded path f fp (s.world.contents f) kept))
  | stable {s : State} {t : ℕ} {path : Path} {f : File} {fp : Fingerprint} {bytes : Bytes}
      {kept : Bool} (ht : s.threads t = .loaded path f (some fp) bytes kept)
      (hfp : s.world.fingerprint cfg f = some fp) :
      Step allowed s .other (s.setThread t (.inserting path fp bytes))
  | giveUp {s : State} {t : ℕ} {path : Path} {f : File} {fp : Option Fingerprint} {bytes : Bytes}
      {kept : Bool} (ht : s.threads t = .loaded path f fp bytes kept) :
      Step allowed s .other (s.setThread t .idle)
  | number {s : State} {t : ℕ} {path : Path} {fp : Fingerprint} {bytes : Bytes}
      (ht : s.threads t = .inserting path fp bytes) (hb : insertable cfg fp bytes = true) :
      Step allowed s .other ({ s with nextSeq := s.nextSeq + 1 }.setThread t
        (.numbered path fp bytes s.nextSeq))
  | refuse {s : State} {t : ℕ} {path : Path} {fp : Fingerprint} {bytes : Bytes}
      (ht : s.threads t = .inserting path fp bytes) (hb : insertable cfg fp bytes = false) :
      Step allowed s .other (s.setThread t .idle)
  | insert {s : State} {t : ℕ} {path : Path} {fp : Fingerprint} {bytes : Bytes} {seq : ℕ}
      (ht : s.threads t = .numbered path fp bytes seq) :
      Step allowed s (.insert path) ((s.setShard (shardIndex path)
        (insertEntry cfg (s.shards (shardIndex path)) path ⟨fp, seq, bytes⟩)).setThread t .idle)
  | invalidate {s : State} {t : ℕ} (path : Path) (hi : s.threads t = .idle)
      (he : cfg.enabled = true) :
      Step allowed s .other (s.setShard (shardIndex path)
        (dropEntry (s.shards (shardIndex path)) path))
  | startPrefix {s : State} {t : ℕ} (pre : Path) (hi : s.threads t = .idle)
      (he : cfg.enabled = true) (hp : pre ≠ []) :
      Step allowed s .other (s.setThread t (.clearing (trimPrefix pre) 0))
  | clearShard {s : State} {t i : ℕ} {pre : Path} (ht : s.threads t = .clearing pre i)
      (hi : i < shardCount) :
      Step allowed s .other ((s.setShard i (dropPrefix (s.shards i) pre)).setThread t
        (.clearing pre (i + 1)))
  | endPrefix {s : State} {t i : ℕ} {pre : Path} (ht : s.threads t = .clearing pre i)
      (hi : i = shardCount) :
      Step allowed s .other (s.setThread t .idle)

/-- The states of a run. -/
inductive Reachable (start : World → Prop) (allowed : World → (ℕ → Thread) → Prop) :
    State → Prop where
  | start {w : World} (h : start w) : Reachable start allowed (State.start w)
  | step {s s' : State} {l : Label} (h : Reachable start allowed s)
      (hs : Step cfg allowed s l s') : Reachable start allowed s'

end ZzLang.Fs.Cache
