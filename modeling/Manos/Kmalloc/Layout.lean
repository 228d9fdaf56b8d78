import Manos.Lib.Word32

/-!
# Sizes, bins and memory layouts of the allocator

The constants of `kmalloc.c`, the index of the bin for a size, and the two layouts of the
memory the allocator works in: `k70`, of `ramk70.h`, and `nice dram`, of `ram.h` for a
buffer `_DRAM` at the address `dram`.  Sizes and addresses are 32-bit words, as natural
numbers.
-/

namespace Kmalloc

/-- `WORD_BYTES` -/
def wordBytes : Nat := 4

/-- `DWORD_BYTES` -/
def dwordBytes : Nat := 8

/-- `sizeof(ChunkTag)`: a single word of bit fields. -/
def sizeofChunkTag : Nat := 4

/-- `MIN_ALLOC_BYTES`: a chunk header of three words and a footer. -/
def minAllocBytes : Nat := 16

/-- `MAX_PRE_ALLOCATIONS` -/
def maxPreAllocations : Nat := 16

/-- `MAX_BINS` -/
def maxBins : Nat := 128

/-- `MAX_RANGE_BINS` -/
def maxRangeBins : Nat := maxBins - 1

/-- `MAX_FAST_BIN` -/
def maxFastBin : Nat := 512

/-- `MAX_RANGE_BIN` -/
def maxRangeBin : Nat := 2 ^ 26

/-- `WORD_PAD(n)` -/
def wordPad (n : Nat) : Nat := Word32.add n (wordBytes - 1) / wordBytes * wordBytes

/-- `DWORD_PAD(n)` -/
def dwordPad (n : Nat) : Nat := Word32.add n (dwordBytes - 1) / dwordBytes * dwordBytes

/-- `IS_WORD_ALIGNED(addr)` -/
def isWordAligned (addr : Nat) : Prop := addr % wordBytes = 0

instance (addr : Nat) : Decidable (isWordAligned addr) :=
  inferInstanceAs (Decidable (_ = _))

/-! ### Bins -/

/-- `isFastBinSize(sz)` -/
def isFastBinSize (sz : Nat) : Prop := sz < maxFastBin ∧ sz % dwordBytes = 0

instance (sz : Nat) : Decidable (isFastBinSize sz) :=
  inferInstanceAs (Decidable (_ ∧ _))

/-- `fastBinIndex(sz)` -/
def fastBinIndex (sz : Nat) : Nat := Word32.sub sz minAllocBytes / dwordBytes

/-- `rangeBinIndex(sz)` -/
def rangeBinIndex (sz : Nat) : Nat :=
  Word32.mul (maxRangeBins - 1) (Word32.sub sz minAllocBytes) / (maxRangeBin - minAllocBytes)

/-- `getBinIndex(sz)` -/
def getBinIndex (sz : Nat) : Nat :=
  Word32.add 1 (if isFastBinSize sz then fastBinIndex sz else rangeBinIndex sz)

/-- Sizes of at least `MIN_ALLOC_BYTES` have a bin between 1 and 65. -/
theorem getBinIndex_bounds {sz : Nat} (h : minAllocBytes ≤ sz) :
  1 ≤ getBinIndex sz ∧ getBinIndex sz ≤ 65
  := by
  rw [getBinIndex]
  split
  case isTrue hfast =>
    have hidx : fastBinIndex sz ≤ 62 := by
      simp only [isFastBinSize, maxFastBin] at hfast
      rw [fastBinIndex, Word32.sub_of_le h (by omega)]
      simp only [minAllocBytes, dwordBytes] at h ⊢
      omega
    rw [Word32.add_of_lt (by omega)]
    omega
  case isFalse hfast =>
    have hidx : rangeBinIndex sz ≤ 64 := by
      have hlt := Word32.mul_lt (maxRangeBins - 1) (Word32.sub sz minAllocBytes)
      simp only [rangeBinIndex, maxRangeBin, minAllocBytes] at hlt ⊢
      omega
    rw [Word32.add_of_lt (by omega)]
    omega

/-! ### Layouts -/

/-- The offset of `bitmap` in an `AllocHeader`: after `lastAllocSize` and the bins, each
of two words. -/
def bitmapOffset : Nat := 4 + 8 * maxBins

/-- A layout of the allocator's memory: the constants of `ram.h` or `ramk70.h`, and what
the rest of the allocator relies on about them. -/
structure Layout where
  /-- `SDRAM_START` -/
  sdramStart : Nat
  /-- `SDRAM_SIZE` -/
  sdramSize : Nat
  /-- `SDRAM_END` -/
  sdramEnd : Nat
  /-- `ALLOCATION_BITMAP_SIZE` -/
  bitmapSize : Nat
  start_pos : 0 < sdramStart
  start_align : sdramStart % 8 = 0
  bitmap_align : bitmapSize % 8 = 0
  end_align : sdramEnd % 4 = 0
  end_lt : sdramEnd + 4 < 2 ^ 32
  heap_room : sdramStart + (bitmapOffset + bitmapSize) + 32 ≤ sdramEnd
  size_bits : sdramEnd < sdramStart + (bitmapOffset + bitmapSize) + 2 ^ 27
  bitmap_covers : sdramEnd ≤ sdramStart + (bitmapOffset + bitmapSize) + 128 * bitmapSize
  end_le : sdramEnd ≤ sdramStart + sdramSize
  tail_room : (sdramEnd + 4) / 8 * 8 ≤ sdramStart + sdramSize

namespace Layout

variable (L : Layout)

/-- `sizeof(struct AllocHeader)` -/
def headerSize : Nat := bitmapOffset + L.bitmapSize

/-- `heap`, as `initRam` computes it. -/
def heap : Nat := Word32.add L.sdramStart (wordPad L.headerSize)

/-- `totalRAM`, as `initRam` computes it. -/
def totalRAM : Nat := Word32.sub L.sdramEnd L.heap

/-- The size of the first chunk: `totalRAM` without the low three bits, which a tag does
not hold. -/
def heapSize : Nat := L.totalRAM / 8 * 8

/-- The end of the last chunk. -/
def heapEnd : Nat := L.heap + L.heapSize

theorem heap_eq :
  L.heap = L.sdramStart + 1028 + L.bitmapSize
  := by
  have h1 := L.heap_room
  have h2 := L.end_lt
  have h3 := L.bitmap_align
  simp only [bitmapOffset, maxBins] at h1
  have hpad : wordPad L.headerSize = 1028 + L.bitmapSize := by
    simp only [wordPad, headerSize, bitmapOffset, maxBins, wordBytes]
    rw [Word32.add_of_lt (by omega)]
    omega
  rw [heap, hpad, Word32.add_of_lt (by omega)]
  omega

theorem totalRAM_eq :
  L.totalRAM = L.sdramEnd - L.heap
  := by
  have h1 := L.heap_room
  have h2 := L.end_lt
  have h3 := L.heap_eq
  simp only [bitmapOffset, maxBins] at h1
  rw [totalRAM, Word32.sub_of_le (by omega) (by omega)]

/-- What the allocator's proofs use about the places of a layout. -/
theorem bounds :
  L.heap = L.sdramStart + 1028 + L.bitmapSize ∧ L.heap % 8 = 4 ∧ 0 < L.sdramStart
    ∧ L.heapSize % 8 = 0 ∧ 16 ≤ L.heapSize ∧ L.heapSize < 2 ^ 27
    ∧ L.heapEnd = L.heap + L.heapSize ∧ L.heapEnd ≤ L.sdramEnd ∧ L.sdramEnd < L.heapEnd + 8
    ∧ L.sdramEnd + 4 < 2 ^ 32 ∧ L.heapSize ≤ 128 * L.bitmapSize
    ∧ L.heapEnd + 4 ≤ L.sdramStart + L.sdramSize
  := by
  have h1 := L.heap_room
  have h2 := L.end_lt
  have h3 := L.heap_eq
  have h4 := L.totalRAM_eq
  have h5 := L.start_align
  have h6 := L.bitmap_align
  have h7 := L.size_bits
  have h8 := L.bitmap_covers
  have h9 := L.tail_room
  have h10 := L.start_pos
  simp only [bitmapOffset, maxBins] at h1 h7 h8
  have hmod : L.heap % 8 = 4 := by omega
  have htail : L.heap + (L.sdramEnd - L.heap) / 8 * 8 + 4 = (L.sdramEnd + 4) / 8 * 8 := by omega
  have hend : L.heapEnd = L.heap + L.heapSize := rfl
  have hsize : L.heapSize = (L.sdramEnd - L.heap) / 8 * 8 := by rw [heapSize, h4]
  omega

end Layout

/-- The layout of `ramk70.h`. -/
def k70 : Layout where
  sdramStart := 0x8007f800
  sdramSize := 133695488
  sdramEnd := (0x8007f800 + 133695488 - 1) / 4 * 4
  bitmapSize := 1036392
  start_pos := by decide
  start_align := by decide
  bitmap_align := by decide
  end_align := by decide
  end_lt := by decide
  heap_room := by decide
  size_bits := by decide
  bitmap_covers := by decide
  end_le := by decide
  tail_room := by decide

/-- The layout of `ram.h` when the buffer `_DRAM` is at the address `dram`. -/
def nice (dram : Nat) (hpos : 0 < dram) (halign : dram % 8 = 0)
    (hfits : dram + 1048583 ≤ 2 ^ 32) : Layout where
  sdramStart := dram
  sdramSize := 1048576
  sdramEnd := dram + 1048576
  bitmapSize := 8128
  start_pos := hpos
  start_align := halign
  bitmap_align := by decide
  end_align := by omega
  end_lt := by omega
  heap_room := by
    simp only [bitmapOffset, maxBins]
    omega
  size_bits := by
    simp only [bitmapOffset, maxBins]
    omega
  bitmap_covers := by
    simp only [bitmapOffset, maxBins]
    omega
  end_le := Nat.le_refl _
  tail_room := by omega

end Kmalloc
