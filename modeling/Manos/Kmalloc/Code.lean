import Manos.Lib.Exec
import Manos.Kmalloc.Layout
import Manos.Kmalloc.Memset

/-!
# The allocator

The functions of `kmalloc.c` as programs over the state `Alloc`: the memory, the file's
global variables, and the accesses made so far.  Pointers are addresses, `NULL`,
`BAD_PTR` and `BAD_PPTR` are `0`, and pointer arithmetic is that of 32-bit words.  What
the functions print is left out.
-/

set_option linter.style.nameCheck false

open ByteMem

namespace Kmalloc

/-! ### Tags -/

/-- `ChunkTag`: the bit fields of a tag, from the low bits to the high ones. -/
structure ChunkTag where
  size : BitVec 24
  pid : BitVec 7
  free : Bool
deriving DecidableEq

namespace ChunkTag

/-- The tag a word holds. -/
def ofWord (w : Nat) : ChunkTag where
  size := .ofNat 24 w
  pid := .ofNat 7 (w / 2 ^ 24)
  free := decide (w / 2 ^ 31 % 2 = 1)

/-- The word that holds a tag. -/
def toWord (t : ChunkTag) : Nat :=
  t.size.toNat + 2 ^ 24 * t.pid.toNat + 2 ^ 31 * (if t.free then 1 else 0)

/-- `zeroTag` -/
def zero (t : ChunkTag) : ChunkTag := { t with pid := 0, size := 0, free := false }

/-- `readSize(tag)`: the size field shifted left by three bits. -/
def readSize (t : ChunkTag) : Nat := t.size.toNat * 8

/-- `writeSize(tag, sz)`: the size field takes `sz` shifted right by three bits. -/
def writeSize (sz : Nat) (t : ChunkTag) : ChunkTag := { t with size := .ofNat 24 (sz / 8) }

/-- `(tag).free = b` -/
def writeFree (b : Bool) (t : ChunkTag) : ChunkTag := { t with free := b }

/-- `(tag).pid = pid` -/
def writePid (pid : Int) (t : ChunkTag) : ChunkTag := { t with pid := .ofInt 7 pid }

end ChunkTag

/-- The tag at the address `a`. -/
def tagAt (m : ByteMem) (a : Nat) : ChunkTag := .ofWord (m.load32 a)

/-! ### The state -/

/-- The global variables that say where the allocator's memory is. -/
structure Globals where
  ram0 : Nat
  ramHighAddress : Nat
  header : Nat
  heap : Nat
  numChunkOffsets : Nat
  totalRAM : Nat

/-- The counters of the allocator. -/
structure Counters where
  allocHWM : BitVec 32
  allocCount : BitVec 32
  freeCount : BitVec 32
  allocInUse : BitVec 32
  allocFree : BitVec 32
  allocPM : BitVec 32
deriving DecidableEq

/-- The accesses that are recorded: a chunk tag at an address, the byte of the bitmap at
an index, the bin at an index. -/
inductive Access where
  | tag (addr : Nat)
  | bitmap (index : Nat)
  | bin (index : Nat)
deriving DecidableEq

/-- The state of the allocator, with the accesses recorded so far, last first. -/
structure Alloc where
  mem : ByteMem
  glob : Globals
  ctr : Counters
  errno : Nat
  log : List Access

/-- Programs of the allocator. -/
abbrev M : Type → Type := Exec Alloc

/-- `ENOMEM` -/
def enomem : Nat := 12

/-- Record an access. -/
def record (x : Access) : M Unit := Exec.modify fun s => { s with log := x :: s.log }

/-- Read the chunk tag at `a`. -/
def readTag (a : Nat) : M ChunkTag := fun s =>
  .done (tagAt s.mem a) { s with log := .tag a :: s.log }

/-- Assign to fields of the chunk tag at `a`. -/
def updateTag (a : Nat) (f : ChunkTag → ChunkTag) : M Unit := fun s =>
  .done () { s with mem := s.mem.store32 a (f (tagAt s.mem a)).toWord, log := .tag a :: s.log }

/-- Read the pointer at `a`. -/
def loadPtr (a : Nat) : M Nat := fun s => .done (s.mem.load32 a) s

/-- Write the pointer `w` at `a`. -/
def storePtr (a w : Nat) : M Unit := Exec.modify fun s => { s with mem := s.mem.store32 a w }

/-! ### Parts of a chunk -/

/-- `&chunk->prev` -/
def prevField (chunk : Nat) : Nat := chunk + 4

/-- `&chunk->next` -/
def nextField (chunk : Nat) : Nat := chunk + 8

/-- `getSize(chk)` -/
def getSize (chk : Nat) : M Nat := do
  let tag ← readTag chk
  pure tag.readSize

/-- `getPayload(chk)` -/
def getPayload (chk : Nat) : Nat := Word32.add chk sizeofChunkTag

/-- `getFooter(chk)` -/
def getFooter (chk : Nat) : M Nat := do
  let size ← getSize chk
  pure (Word32.sub (Word32.add chk size) sizeofChunkTag)

/-- `getSucc(chk)` and `getTagSucc(chk)` -/
def getSucc (chk : Nat) : M Nat := do
  let size ← getSize chk
  pure (Word32.add chk size)

/-- `getTagPred(chk)` -/
def getTagPred (chk : Nat) : Nat := Word32.sub chk sizeofChunkTag

/-- `getPred(chk)` -/
def getPred (chk : Nat) : M Nat := do
  let tag ← readTag (getTagPred chk)
  pure (Word32.sub chk tag.readSize)

/-- `isUnlinked(chk)` -/
def isUnlinked (chk : Nat) : M Bool := do
  let prev ← loadPtr (prevField chk)
  let next ← loadPtr (nextField chk)
  pure (decide (chk ≠ 0 ∧ prev = 0 ∧ next = 0))

/-- The part of `isExactMatch(chk, sz)` on the size of `chk`. -/
def isExactSize (size sz : Nat) : Prop := size = sz ∨ Word32.sub size sz ≤ minAllocBytes

instance (size sz : Nat) : Decidable (isExactSize size sz) :=
  inferInstanceAs (Decidable (_ ∨ _))

/-- `isExactMatch(chk, sz)` -/
def isExactMatch (chk sz : Nat) : M Bool :=
  if chk = 0 then pure false else do
    let size ← getSize chk
    pure (decide (isExactSize size sz))

/-! ### The bitmap and the bins -/

/-- `getAddrBitmapOffset(addr)` -/
def getAddrBitmapOffset (heap addr : Nat) : Nat := Word32.sub addr heap / minAllocBytes

/-- `getAddrBit(addr)` -/
def getAddrBit (heap addr : Nat) : Nat :=
  dwordBytes - 1 - getAddrBitmapOffset heap addr % dwordBytes

/-- `getAddrByte(addr)` -/
def getAddrByte (heap addr : Nat) : Nat := getAddrBitmapOffset heap addr / dwordBytes

/-- `&header->bitmap[i]` -/
def bitmapAddr (header i : Nat) : Nat := Word32.add header (bitmapOffset + i)

/-- `checkBitmap(addr)` -/
def checkBitmap (addr : Nat) : M Bool := do
  let s ← Exec.get
  let i := getAddrByte s.glob.heap addr
  record (.bitmap i)
  pure ((s.mem (bitmapAddr s.glob.header i)).getLsbD (getAddrBit s.glob.heap addr))

/-- Replace the byte of the bitmap for `addr`, given the bit for `addr`. -/
def updateBitmap (addr : Nat) (f : BitVec 8 → BitVec 8 → BitVec 8) : M Unit := do
  let s ← Exec.get
  let i := getAddrByte s.glob.heap addr
  record (.bitmap i)
  let a := bitmapAddr s.glob.header i
  let bit := 1#8 <<< getAddrBit s.glob.heap addr
  Exec.modify fun s => { s with mem := s.mem.write a (f (s.mem a) bit) }

/-- `setBitmap(addr)` -/
def setBitmap (addr : Nat) : M Unit := updateBitmap addr fun byte bit => byte ||| bit

/-- `clearBitmap(addr)` -/
def clearBitmap (addr : Nat) : M Unit := updateBitmap addr fun byte bit => byte &&& ~~~ bit

/-- `&header->bins[i].clean` -/
def cleanField (header i : Nat) : Nat := Word32.add header (4 + 8 * i)

/-- `&header->bins[i].dirty` -/
def dirtyField (header i : Nat) : Nat := Word32.add header (4 + 8 * i + 4)

/-- `&getBinByIndex(i).clean` -/
def getCleanBin (i : Nat) : M Nat := do
  let s ← Exec.get
  record (.bin i)
  pure (cleanField s.glob.header i)

/-- `&getBinByIndex(i).dirty` -/
def getDirtyBin (i : Nat) : M Nat := do
  let s ← Exec.get
  record (.bin i)
  pure (dirtyField s.glob.header i)

/-- `&RECENT_CHUNK_BIN` -/
def recentChunkBin : M Nat := getDirtyBin 0

/-- `&REMAINDER_CHUNK_BIN` -/
def remainderChunkBin : M Nat := getCleanBin 0

/-! ### Chunks and lists of chunks -/

/-- `initChunk(mem, size)` -/
def initChunk (mem size : Nat) : M Nat := do
  Exec.assert (isWordAligned mem)
    "Attempt to initialize chunk which does not align to WORD bound"
  Exec.assert (isWordAligned size)
    "Attempt to initialize chunk whose size will misalign successive chunks"
  Exec.assert (size ≥ minAllocBytes) "Attempt to initialize chunk of diminutive size"
  let s ← Exec.get
  Exec.assert (¬ Word32.add mem size > s.glob.ramHighAddress)
    "Attempt to initialize chunk larger than RAM"
  updateTag mem ChunkTag.zero
  updateTag mem (ChunkTag.writeSize size)
  updateTag (← getFooter mem) (ChunkTag.writeSize size)
  updateTag mem (ChunkTag.writeFree true)
  updateTag (← getFooter mem) (ChunkTag.writeFree true)
  storePtr (prevField mem) 0
  storePtr (nextField mem) 0
  pure mem

/-- `insertChunkBefore(that, this)` -/
def insertChunkBefore (that this : Nat) : M Unit := do
  Exec.assert (that ≠ 0) "insertChunkBefore() that is BAD_PTR"
  Exec.assert (this ≠ 0) "insertChunkBefore() this is BAD_PTR"
  let prev ← loadPtr (prevField that)
  Exec.assert (prev ≠ 0) "Cannot insert when 'that' node isn't in a list"
  storePtr (prevField this) prev
  storePtr prev this
  storePtr (nextField this) that
  storePtr (prevField that) (nextField this)

/-- `insertChunkAfter(that, this)` -/
def insertChunkAfter (that this : Nat) : M Unit := do
  Exec.assert (that ≠ 0) "insertChunkAfter() that is BAD_PTR"
  Exec.assert (this ≠ 0) "insertChunkAfter() this is BAD_PTR"
  let next ← loadPtr (nextField that)
  storePtr (nextField this) next
  Exec.when (next ≠ 0) (storePtr (prevField next) (nextField this))
  storePtr (nextField that) this
  storePtr (prevField this) (nextField that)

/-- `removeChunk(this)` -/
def removeChunk (this : Nat) : M Nat := do
  Exec.assert (this ≠ 0) "removeChunk() this is NULL"
  let prev ← loadPtr (prevField this)
  let next ← loadPtr (nextField this)
  storePtr prev next
  let next ← loadPtr (nextField this)
  Exec.when (next ≠ 0) do
    let prev ← loadPtr (prevField this)
    storePtr (prevField next) prev
  pure this

/-- `unlinkChunk(chunk)` -/
def unlinkChunk (chunk : Nat) : M Nat := do
  let prev ← loadPtr (prevField chunk)
  let next ← loadPtr (nextField chunk)
  if prev ≠ 0 ∨ next ≠ 0 then do
    let chunk ← removeChunk chunk
    storePtr (prevField chunk) 0
    storePtr (nextField chunk) 0
    pure chunk
  else pure chunk

/-- `BinChunkMode` -/
inductive BinChunkMode where
  | binDirty
  | binClean
  | binRecent
  | binLastSplitRem
deriving DecidableEq

/-- A bound on the length of every list of chunks. -/
def listBound : Nat := 2 ^ 24

/-- The loop at the end of `binChunk`, which puts `chunk` in its place by address. -/
def insertChunkSorted (chunk : Nat) : Nat → Nat → M Unit
  | 0, _ => Exec.fault .endless
  | n + 1, chunks =>
    if chunks = 0 then pure ()
    else if Word32.toSigned chunk < Word32.toSigned chunks then insertChunkBefore chunks chunk
    else do
      let next ← loadPtr (nextField chunks)
      if next = 0 then insertChunkAfter chunks chunk
      else insertChunkSorted chunk n next

/-- The cases `BinDirty` and `BinClean` of `binChunk`, for the list at `list`. -/
def binSorted (list chunk : Nat) : M Unit := do
  let chunks ← loadPtr list
  if chunks = 0 then do
    storePtr list chunk
    storePtr (prevField chunk) list
  else insertChunkSorted chunk listBound chunks

/-- `binChunk(chunk, mode)` -/
def binChunk (chunk : Nat) (mode : BinChunkMode) : M Unit := do
  let unlinked ← isUnlinked chunk
  Exec.assert (unlinked = true) "Chunk has not been unlinked prior to bining"
  let size ← getSize chunk
  match mode with
  | .binDirty => do
    let list ← getDirtyBin (getBinIndex size)
    binSorted list chunk
  | .binClean => do
    let list ← getCleanBin (getBinIndex size)
    binSorted list chunk
  | .binRecent => do
    let list ← recentChunkBin
    let chunks ← loadPtr list
    if chunks = 0 then do
      storePtr list chunk
      storePtr (prevField chunk) list
    else insertChunkBefore chunks chunk
  | .binLastSplitRem => do
    let list ← remainderChunkBin
    let chunks ← loadPtr list
    Exec.assert (chunks = 0) "binChunk() unexpected value in REMAINDER_CHUNK_BIN"
    storePtr list chunk
    storePtr (prevField chunk) list

/-- One half of `assertChunk`: the checks of the neighbour `chk`, named `who` in the
messages, against the tag of it that was read next to the chunk. -/
def assertNeighbour (who : String) (chk : Nat) (beside : ChunkTag) : M Unit := do
  let tag ← readTag chk
  let footer ← readTag (← getFooter chk)
  Exec.assert (tag.readSize = footer.readSize)
    ("validateChunk() " ++ who ++ " size consistency error")
  Exec.assert (tag.readSize = beside.readSize) ("validateChunk() " ++ who ++ " size mismatch")
  Exec.assert (tag.free = footer.free) ("validateChunk() " ++ who ++ " free consistency error")
  Exec.assert (tag.free = beside.free) ("validateChunk() " ++ who ++ " free mismatch")
  let inBitmap ← checkBitmap (getPayload chk)
  Exec.assert (beside.free = true ∨ inBitmap = true)
    ("validateChunk() " ++ who ++ " bitmap error")

/-- `assertChunk(chunk)` -/
def assertChunk (chunk : Nat) : M Unit := do
  let predTag ← readTag (getTagPred chunk)
  let succTag ← readTag (← getSucc chunk)
  let pred ← getPred chunk
  let succ ← getSucc chunk
  let size ← getSize chunk
  let s ← Exec.get
  Exec.when (¬ s.glob.heap = chunk) (assertNeighbour "pred" pred predTag)
  Exec.when (¬ Word32.add chunk size = s.glob.ramHighAddress)
    (assertNeighbour "succ" succ succTag)

/-! ### Initialisation -/

/-- The loop of `initRam` that empties the bins from `i` on. -/
def invalidateBins (header : Nat) : Nat → Nat → M Unit
  | 0, _ => pure ()
  | n + 1, i => do
    storePtr (dirtyField header i) 0
    storePtr (cleanField header i) 0
    invalidateBins header n (i + 1)

/-- `initRam()` -/
def initRam (L : Layout) : M Unit := do
  let s ← Exec.get
  Exec.when (s.glob.ram0 = 0) do
    let ram0 := L.sdramStart
    let heap := Word32.add ram0 (wordPad L.headerSize)
    let totalRAM := Word32.sub L.sdramEnd heap
    Exec.modify fun s =>
      { s with glob := { s.glob with ram0 := ram0, ramHighAddress := L.sdramEnd } }
    Exec.modify fun s => { s with mem := kmemset s.mem ram0 0 L.headerSize }
    Exec.modify fun s => { s with glob := { s.glob with header := ram0 } }
    invalidateBins ram0 maxBins 0
    Exec.modify fun s => { s with glob := { s.glob with heap := heap, totalRAM := totalRAM } }
    Exec.modify fun s => { s with mem := kmemset s.mem heap 0xfa totalRAM }
    Exec.modify fun s =>
      { s with glob := { s.glob with numChunkOffsets := totalRAM / minAllocBytes } }
    let firstChunk ← initChunk heap totalRAM
    storePtr (← getCleanBin (maxBins - 1)) firstChunk
    storePtr (prevField firstChunk) (← getCleanBin (maxBins - 1))
    let size ← getSize firstChunk
    Exec.modify fun s => { s with ctr := { s.ctr with allocFree := .ofNat 32 size } }

/-! ### Coalescing -/

/-- `zeroTag(chk)` -/
def zeroTag (chk : Nat) : M Unit := updateTag chk ChunkTag.zero

/-- `zeroFooter(chk)`: both assignments look the footer up. -/
def zeroFooter (chk : Nat) : M Unit := do
  updateTag (← getFooter chk) (ChunkTag.writeSize 0)
  updateTag (← getFooter chk) (ChunkTag.writeFree false)

/-- Case 1 of `coalesce`: both neighbours of `chunk` are free. -/
def coalesceBoth (chunk : Nat) : M Unit := do
  let pred ← getPred chunk
  let succ ← getSucc chunk
  let predSet ← checkBitmap (getPayload pred)
  Exec.assert (predSet = false) "kmalloc() coalescing(1) pred exits in bitmap"
  let succSet ← checkBitmap (getPayload succ)
  Exec.assert (succSet = false) "kmalloc() coalescing(1) succ exits in bitmap"
  let predTag ← readTag pred
  Exec.assert (predTag.free = true) "Tag ismatch in pred coalesce(1)"
  let succTag ← readTag succ
  Exec.assert (succTag.free = true) "Tag mismatch in succ coalesce(1)"
  let predSize ← getSize pred
  let chunkSize ← getSize chunk
  let succSize ← getSize succ
  updateTag pred (ChunkTag.writeSize (Word32.add (Word32.add predSize chunkSize) succSize))
  let size ← getSize pred
  updateTag (← getFooter chunk) (ChunkTag.writeSize size)
  let chunk ← unlinkChunk chunk
  let succ ← unlinkChunk succ
  zeroFooter succ
  zeroTag chunk
  zeroFooter chunk
  zeroTag succ
  let pred ← unlinkChunk pred
  binChunk pred .binClean

/-- Case 2 of `coalesce`: only the chunk before `chunk` is free. -/
def coalescePred (chunk : Nat) : M Unit := do
  let pred ← getPred chunk
  let predSet ← checkBitmap (getPayload pred)
  Exec.assert (predSet = false) "kmalloc() coalescing(1) pred exits in bitmap"
  let predTag ← readTag pred
  Exec.assert (predTag.free = true) "Tag mismatch in pred coalesce(2)"
  let predSize ← getSize pred
  let chunkSize ← getSize chunk
  updateTag pred (ChunkTag.writeSize (Word32.add predSize chunkSize))
  let size ← getSize pred
  updateTag (← getFooter chunk) (ChunkTag.writeSize size)
  let chunk ← unlinkChunk chunk
  zeroFooter pred
  zeroTag chunk
  let pred ← unlinkChunk pred
  binChunk pred .binClean

/-- Case 3 of `coalesce`: only the chunk behind `chunk` is free. -/
def coalesceSucc (chunk : Nat) : M Unit := do
  let succ ← getSucc chunk
  let succSet ← checkBitmap (getPayload succ)
  Exec.assert (succSet = false) "kmalloc() coalescing(1) succ exits in bitmap"
  let succTag ← readTag succ
  Exec.assert (succTag.free = true) "Tag mismatch in succ coalesce(3)"
  let chunkSize ← getSize chunk
  let succSize ← getSize succ
  updateTag chunk (ChunkTag.writeSize (Word32.add chunkSize succSize))
  let size ← getSize chunk
  updateTag (← getFooter succ) (ChunkTag.writeSize size)
  let succ ← unlinkChunk succ
  zeroFooter chunk
  zeroTag succ
  let chunk ← unlinkChunk chunk
  binChunk chunk .binClean

/-- The cases of `coalesce`, by the free bits before and behind `chunk`. -/
def coalesceCases (chunk : Nat) (predFree succFree : Bool) : M Unit :=
  if predFree = true ∧ succFree = true then coalesceBoth chunk
  else if predFree = true then coalescePred chunk
  else if succFree = true then coalesceSucc chunk
  else pure ()

/-- The body of the loop of `coalesce`, which gives the next chunk. -/
def coalesceChunk (chunk : Nat) : M Nat := do
  let next ← loadPtr (nextField chunk)
  let set ← checkBitmap (getPayload chunk)
  Exec.assert (set = false) "kmalloc() coalescing chunk exists in bitmap"
  let predTag ← readTag (getTagPred chunk)
  let succTag ← readTag (← getSucc chunk)
  coalesceCases chunk predTag.free succTag.free
  pure next

/-- The loop of `coalesce`. -/
def coalesceFrom : Nat → Nat → M Unit
  | 0, _ => Exec.fault .endless
  | n + 1, chunk =>
    if chunk = 0 then pure () else do
      let next ← coalesceChunk chunk
      coalesceFrom n next

/-- `coalesce(chunks)` -/
def coalesce (chunks : Nat) : M Unit := coalesceFrom listBound chunks

/-! ### Allocation -/

/-- `exactFitSearch(chunks, size, rebinMismatch)` -/
def exactFitSearch (size : Nat) (rebinMismatch : Bool) : Nat → Nat → M Nat
  | 0, _ => Exec.fault .endless
  | n + 1, chunk =>
    if chunk = 0 then pure 0 else do
      let found ← isExactMatch chunk size
      if found then pure chunk
      else if rebinMismatch then do
        let next ← loadPtr (nextField chunk)
        let chunk ← unlinkChunk chunk
        binChunk chunk .binDirty
        exactFitSearch size rebinMismatch n next
      else do
        let next ← loadPtr (nextField chunk)
        exactFitSearch size rebinMismatch n next

/-- `firstFitSearch(chunks, size)` -/
def firstFitSearch (size : Nat) : Nat → Nat → M Nat
  | 0, _ => Exec.fault .endless
  | n + 1, chunk =>
    if chunk = 0 then pure 0 else do
      let chunkSize ← getSize chunk
      if chunkSize ≥ size then pure chunk
      else do
        let next ← loadPtr (nextField chunk)
        firstFitSearch size n next

/-- `splitChunk(chunk, size, &rest)`: the new chunk and the rest. -/
def splitChunk (chunk size : Nat) : M (Nat × Nat) := do
  let oldSize ← getSize chunk
  Exec.assert (oldSize > size) "Something is wrong. Splitting from too small a chunk"
  Exec.assert (isWordAligned size) "Something is wrong. Size is not WORD aligned"
  Exec.assert (isWordAligned oldSize) "Something is wrong. Chunk is not WORD aligned"
  let chunkA ← initChunk chunk size
  let chunkB ← initChunk (Word32.add chunk size) (Word32.sub oldSize size)
  Exec.assert (isWordAligned chunkA) "Split chunk A is not on a WORD boundary"
  Exec.assert (isWordAligned chunkB) "Split chunk B is not on a WORD boundary"
  let sizeA ← getSize chunkA
  Exec.assert (sizeA = size) "Something is wrong. Split chunk A size incorrect"
  let footerA ← readTag (← getFooter chunkA)
  Exec.assert (footerA.readSize = size)
    "Something is wrong. Split chunk A footer size incorrect"
  let sizeB ← getSize chunkB
  Exec.assert (sizeB = Word32.sub oldSize size)
    "Something is wrong. Split chunk B size incorrect"
  let footerB ← readTag (← getFooter chunkB)
  Exec.assert (footerB.readSize = Word32.sub oldSize size)
    "Something is wrong. Split chunk B size incorrect"
  pure (chunkA, chunkB)

/-- Steps 6 and 7 of `allocateChunk`: the first clean chunk that is large enough, in the
`n` bins from `i` on. -/
def scanCleanBins (size : Nat) : Nat → Nat → M Nat
  | 0, _ => pure 0
  | n + 1, i => do
    let chunk ← firstFitSearch size listBound (← loadPtr (← getCleanBin i))
    if chunk ≠ 0 then pure chunk else scanCleanBins size n (i + 1)

/-- The loop of `allocateChunk` that splits at most `n` more chunks off `rest`. -/
def preallocate (size : Nat) : Nat → Nat → Nat → M Nat
  | 0, rest, _ => pure rest
  | n + 1, rest, sizeRest =>
    if sizeRest > size ∧ Word32.sub sizeRest size ≥ minAllocBytes then do
      let (pre, rest) ← splitChunk rest size
      binChunk pre .binRecent
      let sizeRest ← getSize rest
      preallocate size n rest sizeRest
    else pure rest

/-- The part of `allocateChunk` from the label `split` on. -/
def allocateSplit (chunk size : Nat) : M Nat := do
  let chunkSize ← getSize chunk
  if Word32.sub chunkSize size < minAllocBytes then pure chunk else do
    let (chunk, rest) ← splitChunk chunk size
    let sizeRest ← getSize rest
    let s ← Exec.get
    let lastAllocSize ← loadPtr s.glob.header
    let rest ← if lastAllocSize = size then preallocate size maxPreAllocations rest sizeRest
      else pure rest
    binChunk rest .binLastSplitRem
    pure chunk

/-- `allocateChunk(size)`, the steps that look for a chunk to split. -/
def allocateFromClean (size : Nat) : M Nat := do
  let chunk ← firstFitSearch size listBound (← loadPtr (← remainderChunkBin))
  if chunk ≠ 0 then do allocateSplit (← unlinkChunk chunk) size else do
    let chunk ← firstFitSearch size listBound (← loadPtr (← getCleanBin (getBinIndex size)))
    if chunk ≠ 0 then do allocateSplit (← unlinkChunk chunk) size else do
      let first := getBinIndex size + 1
      let chunk ← scanCleanBins size (maxBins - first) first
      if chunk ≠ 0 then do allocateSplit (← unlinkChunk chunk) size else do
        let chunk ← scanCleanBins size (maxBins - first) first
        if chunk ≠ 0 then do allocateSplit (← unlinkChunk chunk) size else
          pure 0

/-- `allocateChunk(size)` -/
def allocateChunk (size : Nat) : M Nat := do
  let recent ← loadPtr (← recentChunkBin)
  let found ← isExactMatch recent size
  if found then unlinkChunk recent else do
    let dirty ← loadPtr (← getDirtyBin (getBinIndex size))
    let chunk ← exactFitSearch size false listBound dirty
    if chunk ≠ 0 then unlinkChunk chunk else do
      let recent ← loadPtr (← recentChunkBin)
      let chunk ← exactFitSearch size true listBound recent
      if chunk ≠ 0 then unlinkChunk chunk else allocateFromClean size

/-- The loop of `__kmalloc` that looks up the bitmap along the new block. -/
def probeBitmap : Nat → Nat → Nat → M Unit
  | 0, _, _ => Exec.fault .endless
  | n + 1, iter, stop =>
    if iter < stop then do
      let set ← checkBitmap iter
      Exec.assert (set = false) "CORRUPT REGION DETECTED! DOUBLE ALLOCATION ERROR"
      probeBitmap n (Word32.add iter minAllocBytes) stop
    else pure ()

/-- The counters after a chunk of `size` bytes is allocated. -/
def Counters.countAlloc (size : Nat) (c : Counters) : Counters :=
  let allocInUse := c.allocInUse + .ofNat 32 size
  { c with
    allocInUse := allocInUse
    allocFree := c.allocFree - .ofNat 32 size
    allocPM := c.allocPM + 1
    allocCount := c.allocCount + 1
    allocHWM := if allocInUse > c.allocHWM then allocInUse else c.allocHWM }

/-- The counters after a chunk of `size` bytes is freed. -/
def Counters.countFree (size : Nat) (c : Counters) : Counters :=
  { c with
    allocInUse := c.allocInUse - .ofNat 32 size
    allocFree := c.allocFree + .ofNat 32 size
    freeCount := c.freeCount + 1
    allocPM := c.allocPM - 1 }

/-- The part of `__kmalloc` that takes possession of `chunk`. -/
def claimChunk (chunk size : Nat) (pid : Int) : M Nat := do
  let mem := getPayload chunk
  let s ← Exec.get
  storePtr s.glob.header (← getSize chunk)
  updateTag chunk (ChunkTag.writePid pid)
  updateTag (← getFooter chunk) (ChunkTag.writePid pid)
  updateTag chunk (ChunkTag.writeFree false)
  updateTag (← getFooter chunk) (ChunkTag.writeFree false)
  let set ← checkBitmap mem
  Exec.assert (set = false) "Memory error. Cannot allocate adress already allocated."
  probeBitmap (2 ^ 28 + 1) mem (Word32.add mem size)
  setBitmap mem
  let chunkSize ← getSize chunk
  Exec.modify fun s => { s with ctr := s.ctr.countAlloc chunkSize }
  Exec.modify fun s => { s with mem := kmemset s.mem mem 0 size }
  pure mem

/-- The size of the chunk that `__kmalloc` asks for. -/
def chunkSizeFor (size : Nat) : Nat :=
  let newSize := Word32.add size (2 * sizeofChunkTag)
  dwordPad (if newSize < minAllocBytes then
    Word32.add newSize (Word32.sub minAllocBytes newSize) else newSize)

/-- `__kmalloc(size, pid)` -/
def __kmalloc (L : Layout) (size : Nat) (pid : Int) : M Nat := do
  initRam L
  let chunk ← allocateChunk (chunkSizeFor size)
  if chunk ≠ 0 then claimChunk chunk size pid else do
    Exec.modify fun s => { s with errno := enomem }
    pure 0

/-- `kmalloc(size)`, called by the process `pid`. -/
def kmalloc (L : Layout) (pid : Int) (size : Nat) : M Nat := __kmalloc L size pid

/-- `syskmalloc(size)`, called by the process `pid`. -/
def syskmalloc (L : Layout) (pid : Int) (size : Nat) : M Nat := __kmalloc L size pid

/-- `syskmalloc0(size)` -/
def syskmalloc0 (L : Layout) (size : Nat) : M Nat := __kmalloc L size 0

/-! ### Release -/

/-- The part of `__kfree` that releases the chunk with the payload `ptr`, once it has
passed `assertChunk`. -/
def releaseChunk (chunk ptr : Nat) : M Unit := do
  let chunkSize ← getSize chunk
  Exec.modify fun s => { s with ctr := s.ctr.countFree chunkSize }
  updateTag chunk (ChunkTag.writePid 0)
  updateTag chunk (ChunkTag.writeFree true)
  updateTag (← getFooter chunk) (ChunkTag.writePid 0)
  updateTag (← getFooter chunk) (ChunkTag.writeFree true)
  storePtr (prevField chunk) 0
  storePtr (nextField chunk) 0
  clearBitmap ptr
  binChunk chunk .binRecent

/-- `__kfree(ptr)` -/
def __kfree (ptr : Nat) : M Unit :=
  if ptr = 0 then pure ()
  else if ptr % dwordBytes ≠ 0 then pure ()
  else do
    let set ← checkBitmap ptr
    Exec.assert (set = true) "Memory error. Cannot free address not allocated by malloc"
    let s ← Exec.get
    Exec.assert (ptr ≥ s.glob.heap ∧ ptr ≤ s.glob.ramHighAddress)
      "Memory error. Address out of allocator zone"
    let set ← checkBitmap ptr
    Exec.when (set = true) do
      let chunk := Word32.sub ptr sizeofChunkTag
      assertChunk chunk
      releaseChunk chunk ptr

/-- `kfree(ptr)` -/
def kfree (ptr : Nat) : M Unit := __kfree ptr

/-- `syskfree(ptr)` -/
def syskfree (ptr : Nat) : M Unit := __kfree ptr

end Kmalloc
