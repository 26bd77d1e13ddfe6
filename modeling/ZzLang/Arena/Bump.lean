import ZzLang.Library.Extents

/-!
# The bump arena

An arena hands out ranges of memory from the last of its blocks, by moving a mark upwards. It grows
by further blocks, and gives a large request a backing of its own (a *spill*). Nothing is freed by
itself: a checkpoint says how far the arena is filled, and rewinding goes back to it.

Addresses are those of the machine, and blocks and spills are known by their extents; the bytes in
them do not matter here. Blocks and spills are listed with the newest first. The memory itself comes
from the allocator of the program, which is asked for a number of bytes and may have none.
-/

namespace ZzLang.Arena

open Memory

/-- `Config`. -/
structure Config where
  initialBlock : ℕ
  maxBlock : ℕ
  maxBytes : ℕ
  maxBlocks : ℕ
  retainBlocks : ℕ

/-- `SPILL_FRACTION`. -/
def spillFraction : ℕ := 4

/-- `Block`, by the address and the number of its bytes. -/
structure Block where
  base : ℕ
  capacity : ℕ
  used : ℕ
  deriving DecidableEq

namespace Block

/-- The memory of the block. -/
def extent (b : Block) : Extent := ⟨b.base, b.capacity⟩

/-- The part that has been handed out. -/
def filled (b : Block) : Extent := ⟨b.base, b.used⟩

end Block

/-- `Checkpoint`. -/
structure Checkpoint where
  block : ℕ
  used : ℕ
  spills : ℕ
  bytesUsed : ℕ

/-- `Bump`, with its counter of used bytes. -/
structure Bump where
  blocks : List Block
  spills : List Extent
  bytesUsed : ℕ
  deriving DecidableEq

/-- The number of bytes and the alignment that `try_alloc_raw` is asked for: those of a slice, which
has at most `isize::MAX` bytes. -/
structure Request where
  size : ℕ
  align : ℕ
  power : ∃ k, align = 2 ^ k
  multiple : align ∣ size
  positive : 0 < size
  fits : size < 2 ^ 63

/-- What a request comes to. -/
inductive Outcome where
  /-- An address. -/
  | ok (ptr : ℕ)
  /-- An `ArenaError` with this limit. -/
  | err (limit : String)
  /-- The allocator has no memory. -/
  | abort
  deriving DecidableEq

namespace Bump

/-- `Bump::with_config`. -/
def empty : Bump := ⟨[], [], 0⟩

/-- All memory that the arena owns. -/
def backing (a : Bump) : List Extent := a.blocks.map Block.extent ++ a.spills

/-- `accounted`. -/
def accounted (a : Bump) : ℕ := total a.backing

/-- `spill_raw`. -/
def spillRaw (cfg : Config) (malloc : ℕ → Option ℕ) (a : Bump) (size align : ℕ) : Outcome × Bump :=
  if cfg.maxBytes < size then (.err "max_single", a)
  else if cfg.maxBytes < (a.accounted + size + align) % 2 ^ 64 then (.err "max_bytes", a)
  else
    match malloc (size + align) with
    | none => (.abort, a)
    | some base =>
      (.ok (alignUp base align),
        { a with spills := ⟨base, size + align⟩ :: a.spills, bytesUsed := a.bytesUsed + size })

/-- The capacity of the next block: twice the last one, or the initial one, within the limits. -/
def nextCapacity (cfg : Config) (a : Bump) (size align : ℕ) : ℕ :=
  match a.blocks with
  | [] => min (max cfg.initialBlock (size + align)) cfg.maxBlock
  | b :: _ =>
    min (max (max b.capacity cfg.initialBlock * 2 % 2 ^ 64) (size + align)) cfg.maxBlock

/-- `slow_alloc_raw`. -/
def slowAllocRaw (cfg : Config) (malloc : ℕ → Option ℕ) (a : Bump) (size align : ℕ) :
    Outcome × Bump :=
  if cfg.maxBlock / spillFraction ≤ size then a.spillRaw cfg malloc size align
  else if a.blocks = [] ∧ cfg.maxBlock < size + align then a.spillRaw cfg malloc size align
  else if cfg.maxBlocks < a.blocks.length + 1 then (.err "max_blocks", a)
  else if cfg.maxBytes < (a.accounted + a.nextCapacity cfg size align) % 2 ^ 64 then
    (.err "max_bytes", a)
  else
    match malloc (a.nextCapacity cfg size align) with
    | none => (.abort, a)
    | some base =>
      let ptr := alignUp base align
      (.ok ptr,
        { a with
          blocks := ⟨base, a.nextCapacity cfg size align, ptr + size - base⟩ :: a.blocks
          bytesUsed := a.bytesUsed + size })

/-- `try_alloc_raw`. -/
def tryAllocRaw (cfg : Config) (malloc : ℕ → Option ℕ) (a : Bump) (size align : ℕ) :
    Outcome × Bump :=
  match a.blocks with
  | [] => a.slowAllocRaw cfg malloc size align
  | b :: bs =>
    let aligned := alignUp (b.base + b.used) align
    if aligned + size ≤ b.base + b.capacity then
      (.ok aligned,
        { a with
          blocks := { b with used := aligned + size - b.base } :: bs
          bytesUsed := a.bytesUsed + size })
    else a.slowAllocRaw cfg malloc size align

/-- `checkpoint`. -/
def checkpoint (a : Bump) : Checkpoint where
  block := a.blocks.length
  used := match a.blocks with
    | [] => 0
    | b :: _ => b.used
  spills := a.spills.length
  bytesUsed := a.bytesUsed

/-- `rewind`. -/
def rewind (a : Bump) (cp : Checkpoint) : Bump where
  blocks := match a.blocks.drop (a.blocks.length - cp.block) with
    | [] => []
    | b :: bs => { b with used := cp.used } :: bs
  spills := a.spills.drop (a.spills.length - cp.spills)
  bytesUsed := cp.bytesUsed

/-- `scoped`. -/
def scopedCall {T E : Type} (a : Bump) (f : Bump → Except E T × Bump) : Except E T × Bump :=
  let cp := a.checkpoint
  match f a with
  | (.ok t, a') => (.ok t, a')
  | (.error e, a') => (.error e, a'.rewind cp)

/-- `reset`. -/
def reset (cfg : Config) (a : Bump) : Bump where
  blocks := (a.blocks.take (min cfg.retainBlocks a.blocks.length)).map ({ · with used := 0 })
  spills := []
  bytesUsed := 0

/-- `shrink`. -/
def shrink (_ : Bump) : Bump := ⟨[], [], 0⟩

end Bump

end ZzLang.Arena
