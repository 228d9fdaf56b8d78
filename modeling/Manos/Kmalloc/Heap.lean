import Manos.Lib.ByteMem
import Manos.Lib.Tiling
import Manos.Kmalloc.Layout

/-!
# Heaps of chunks

What the allocator is for, without tags, links and bitmap: a heap is the list of its
chunks in the order of their addresses, the lists of free chunks, the size of the chunk
allocated last, and the bytes the clients own.  The operations are those of the allocator,
as functions on heaps.
-/

open ByteMem

namespace Kmalloc

/-- A chunk: its address and size, and the number of bytes asked for if it is allocated. -/
structure Chunk where
  addr : Nat
  size : Nat
  used : Option Nat
deriving DecidableEq

namespace Chunk

/-- The chunk while it holds a block of `n` bytes. -/
def claimed (c : Chunk) (n : Nat) : Chunk := { c with used := some n }

/-- The chunk while it is free. -/
def freed (c : Chunk) : Chunk := { c with used := none }

/-- The first `n` bytes of the chunk, as a free chunk. -/
def front (c : Chunk) (n : Nat) : Chunk where
  addr := c.addr
  size := n
  used := none

/-- The chunk without its first `n` bytes, as a free chunk. -/
def rest (c : Chunk) (n : Nat) : Chunk where
  addr := c.addr + n
  size := c.size - n
  used := none

end Chunk

/-- The lists of free chunks: `bins[i].clean` and `bins[i].dirty`. -/
inductive Bin where
  | clean (i : Nat)
  | dirty (i : Nat)
deriving DecidableEq

namespace Bin

/-- The list `RECENT_CHUNK_BIN`. -/
abbrev recent : Bin := dirty 0

/-- The list `REMAINDER_CHUNK_BIN`. -/
abbrev remainder : Bin := clean 0

/-- The index of a list among the bins. -/
def index : Bin → Nat
  | clean i => i
  | dirty i => i

end Bin

/-- A heap. -/
structure Heap where
  /-- the chunks, in the order of their addresses -/
  chunks : List Chunk
  /-- the lists of free chunks -/
  lists : Bin → List Chunk
  /-- the size of the chunk allocated last -/
  lastAllocSize : Nat
  /-- the bytes of the clients -/
  data : ByteMem

/-- A chunk of `size` bytes or a little more. -/
def Exact (size : Nat) (c : Chunk) : Prop := size ≤ c.size ∧ c.size ≤ size + minAllocBytes

instance (size : Nat) (c : Chunk) : Decidable (Exact size c) :=
  inferInstanceAs (Decidable (_ ∧ _))

namespace Heap

/-! ### Lists -/

/-- The heap with `l` as the list `b`. -/
def setList (b : Bin) (l : List Chunk) (H : Heap) : Heap :=
  { H with lists := Function.update H.lists b l }

/-- The heap with the chunk `c` on no list. -/
def unlink (c : Chunk) (H : Heap) : Heap := { H with lists := fun b => (H.lists b).erase c }

/-- The heap with the chunk `c` in front of the list `b`. -/
def push (b : Bin) (c : Chunk) (H : Heap) : Heap := H.setList b (c :: H.lists b)

/-- The list `l` with the chunk `c` before the first chunk of a larger signed address. -/
def insertByAddr (c : Chunk) : List Chunk → List Chunk
  | [] => [c]
  | d :: l =>
    if Word32.toSigned c.addr < Word32.toSigned d.addr then c :: d :: l
    else d :: insertByAddr c l

/-- The heap with the chunk `c` on the dirty list of its size. -/
def binDirty (c : Chunk) (H : Heap) : Heap :=
  H.setList (.dirty (getBinIndex c.size)) (insertByAddr c (H.lists (.dirty (getBinIndex c.size))))

/-- Look for an exact match for `size` on the list, and bin the chunks before it. -/
def rebin (size : Nat) : List Chunk → Heap → Option Chunk × Heap
  | [], H => (none, H)
  | c :: l, H =>
    if Exact size c then (some c, H) else rebin size l ((H.unlink c).binDirty c)

/-- The lists that are searched for a chunk to split. -/
def cleanBins (size : Nat) : List Bin :=
  .remainder :: .clean (getBinIndex size) ::
    (List.range' (getBinIndex size + 1) (maxBins - (getBinIndex size + 1))).map .clean

/-- The first chunk of at least `size` bytes on the lists `bs`. -/
def firstFit (size : Nat) (H : Heap) (bs : List Bin) : Option Chunk :=
  bs.findSome? fun b => (H.lists b).find? fun c => size ≤ c.size

/-! ### Allocation -/

/-- The heap with `c` cut after `size` bytes. -/
def split (c : Chunk) (size : Nat) (H : Heap) : Heap :=
  { H with chunks := Tiling.replace c [c.front size, c.rest size] H.chunks }

/-- Cut at most `n` chunks off `c` for the next allocations. -/
def preallocate (size : Nat) : Nat → Chunk → Heap → Chunk × Heap
  | 0, c, H => (c, H)
  | n + 1, c, H =>
    if size + minAllocBytes ≤ c.size then
      preallocate size n (c.rest size) ((H.split c size).push .recent (c.front size))
    else (c, H)

/-- Cut `size` bytes off the free chunk `c`, if what is left makes a chunk. -/
def allocateSplit (c : Chunk) (size : Nat) (H : Heap) : Chunk × Heap :=
  if c.size < size + minAllocBytes then (c, H) else
  let p := if H.lastAllocSize = size
    then (H.split c size).preallocate size maxPreAllocations (c.rest size)
    else (c.rest size, H.split c size)
  (c.front size, p.2.push .remainder p.1)

/-- Take a free chunk of at least `size` bytes off its list. -/
def allocate (size : Nat) (H : Heap) : Option Chunk × Heap :=
  match (H.lists .recent).head?.filter (Exact size ·) with
  | some c => (some c, H.unlink c)
  | none =>
    match (H.lists (.dirty (getBinIndex size))).find? (Exact size ·) with
    | some c => (some c, H.unlink c)
    | none =>
      match H.rebin size (H.lists .recent) with
      | (some c, H) => (some c, H.unlink c)
      | (none, H) =>
        match H.firstFit size (cleanBins size) with
        | some c =>
          let p := (H.unlink c).allocateSplit c size
          (some p.1, p.2)
        | none => (none, H)

/-- The heap with the free chunk `c` given out as a block of `n` zero bytes. -/
def claim (c : Chunk) (n : Nat) (H : Heap) : Heap :=
  { H with
    chunks := Tiling.replace c [c.claimed n] H.chunks
    lastAllocSize := c.size
    data := H.data.fill (c.addr + 4) n 0 }

/-- The heap after a request for `n` bytes, and the address of the block. -/
def kmalloc (n : Nat) (size : Nat) (H : Heap) : Nat × Heap :=
  match H.allocate size with
  | (some c, H) => (c.addr + 4, H.claim c n)
  | (none, H) => (0, H)

/-! ### Release -/

/-- The heap with the block in the chunk `c` taken back, and the chunk on no list. -/
def release (c : Chunk) (H : Heap) : Heap :=
  { H with chunks := Tiling.replace c [c.freed] H.chunks }

/-- The heap with the block in the chunk `c` freed. -/
def kfree (c : Chunk) (H : Heap) : Heap := (H.release c).push .recent c.freed

end Heap

end Kmalloc
