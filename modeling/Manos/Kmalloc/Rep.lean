import Manos.Lib.PtrChain
import Manos.Kmalloc.HeapInv
import Manos.Kmalloc.Code

/-!
# The memory that represents a heap

`Rep L H X m` says how the memory `m` represents the heap `H` of the layout `L` with the
chunks `X` on no list: tags at both ends of every chunk, the chains of free chunks, the
bitmap of allocated ones, and the bytes of the clients.  `Good L H X s` adds what the rest
of the allocator's state has to satisfy.  The lemmas of this module say what the bytes
are that each part depends on, so that an operation has to account only for those it
writes.
-/

open ByteMem PtrChain Tiling

namespace Kmalloc

/-- The tag at `a` holds `size` and `free`. -/
def TagIs (m : ByteMem) (a size : Nat) (free : Bool) : Prop :=
  (tagAt m a).readSize = size ∧ (tagAt m a).free = free

/-- The bit `i` of the bitmap. -/
def bitAt (L : Layout) (m : ByteMem) (i : Nat) : Bool :=
  (m (L.sdramStart + 1028 + i / 8)).getLsbD (7 - i % 8)

/-- The bit of the bitmap for the address `addr`. -/
def Layout.slot (L : Layout) (addr : Nat) : Nat := (addr - L.heap) / 16

/-- The address of the pointer to the first chunk of a list. -/
def Bin.addr (L : Layout) : Bin → Nat
  | clean i => L.sdramStart + 4 + 8 * i
  | dirty i => L.sdramStart + 8 + 8 * i

/-- The links of the chunk at `a` are both null. -/
def Unlinked (m : ByteMem) (a : Nat) : Prop := m.load32 (a + 4) = 0 ∧ m.load32 (a + 8) = 0

/-- The bytes of the clients: those outside the memory of the allocator, and those of the
blocks. -/
def Heap.Owned (L : Layout) (H : Heap) (x : Nat) : Prop :=
  x < L.sdramStart ∨ L.heapEnd ≤ x
    ∨ ∃ c ∈ H.chunks, ∃ n ∈ c.used, c.addr + 4 ≤ x ∧ x < c.addr + 4 + n

/-- The memory `m` represents the heap `H`. -/
structure Rep (L : Layout) (H : Heap) (X : List Chunk) (m : ByteMem) : Prop where
  last : m.load32 L.sdramStart = H.lastAllocSize
  head : ∀ c ∈ H.chunks, TagIs m c.addr c.size c.used.isNone
  foot : ∀ c ∈ H.chunks, TagIs m (c.addr + c.size - 4) c.size c.used.isNone
  chain : ∀ b : Bin, b.index < maxBins →
    Chain 4 8 m.load32 (b.addr L) ((H.lists b).map Chunk.addr)
  unlinked : ∀ c ∈ X, Unlinked m c.addr
  bitmap : ∀ i, i < 8 * L.bitmapSize →
    (bitAt L m i = true ↔ ∃ c ∈ H.chunks, c.used ≠ none ∧ L.slot (c.addr + 4) = i)
  data : ∀ x, H.Owned L x → m x = H.data x

/-- An access inside the memory it is to. -/
def Access.InRange (L : Layout) : Access → Prop
  | tag addr => L.sdramStart ≤ addr ∧ addr + 4 ≤ L.sdramStart + L.sdramSize
  | bitmap index => index < L.bitmapSize
  | bin index => index < maxBins

/-- The global variables of an initialised allocator. -/
structure GlobalsOf (L : Layout) (g : Globals) : Prop where
  ram0 : g.ram0 = L.sdramStart
  high : g.ramHighAddress = L.sdramEnd
  header : g.header = L.sdramStart
  heap : g.heap = L.heap

/-- The state `s` of the allocator holds the heap `H`, with the chunks `X` on no list. -/
structure Good (L : Layout) (H : Heap) (X : List Chunk) (s : Alloc) : Prop where
  inv : H.Inv L X
  glob : GlobalsOf L s.glob
  rep : Rep L H X s.mem
  log : ∀ x ∈ s.log, x.InRange L

/-! ### Words and bytes -/

/-- A word after another word is written, both at multiples of four. -/
theorem load32_store32_aligned {m : ByteMem} {a w x : Nat} (ha : a % 4 = 0) (hx : x % 4 = 0)
    (hw : w < 2 ^ 32) :
  (m.store32 a w).load32 x = if x = a then w else m.load32 x
  := by
  split
  case isTrue h =>
    rw [h, load32_store32, Nat.mod_eq_of_lt hw]
  case isFalse h =>
    apply load32_store32_of_apart
    omega

/-- A tag depends on its four bytes. -/
theorem TagIs.congr {m m' : ByteMem} {a size : Nat} {free : Bool} (h : TagIs m a size free)
    (heq : ∀ x, a ≤ x → x < a + 4 → m' x = m x) :
  TagIs m' a size free
  := by
  rw [TagIs, tagAt, load32_congr heq]
  apply h

/-- Null links depend on the words of the links. -/
theorem Unlinked.congr {m m' : ByteMem} {a : Nat} (h : Unlinked m a)
    (heq : ∀ x, a + 4 ≤ x → x < a + 12 → m' x = m x) :
  Unlinked m' a
  := by
  obtain ⟨hprev, hnext⟩ := h
  constructor
  · rw [← hprev]
    apply load32_congr
    intro x h₁ h₂
    apply heq x (by omega) (by omega)
  · rw [← hnext]
    apply load32_congr
    intro x h₁ h₂
    apply heq x (by omega) (by omega)

theorem Bin.addr_bounds (L : Layout) {b : Bin} (hb : b.index < maxBins) :
  L.sdramStart + 4 ≤ b.addr L ∧ b.addr L + 4 ≤ L.sdramStart + 1028
  := by
  cases b with
  | clean i =>
      simp only [Bin.index, maxBins] at hb
      simp only [Bin.addr]
      omega
  | dirty i =>
      simp only [Bin.index, maxBins] at hb
      simp only [Bin.addr]
      omega

theorem Bin.addr_align (L : Layout) (b : Bin) :
  b.addr L % 4 = 0
  := by
  have := L.start_align
  cases b with
  | clean i =>
      simp only [Bin.addr]
      omega
  | dirty i =>
      simp only [Bin.addr]
      omega

theorem Bin.addr_inj (L : Layout) {b b' : Bin} (h : b.addr L = b'.addr L) :
  b = b'
  := by
  have := L.start_align
  cases b with
  | clean i =>
      cases b' with
      | clean j =>
          simp only [Bin.addr] at h
          congr 1
          omega
      | dirty j =>
          simp only [Bin.addr] at h
          omega
  | dirty i =>
      cases b' with
      | clean j =>
          simp only [Bin.addr] at h
          omega
      | dirty j =>
          simp only [Bin.addr] at h
          congr 1
          omega

/-! ### The places of the words of a heap -/

section

variable {L : Layout} {X : List Chunk} {H : Heap} {b : Bin}

/-- The words of a list are pointers of bins and links of listed chunks. -/
theorem mem_words_list {w : Nat} :
  w ∈ words 4 8 (b.addr L) ((H.lists b).map Chunk.addr) ↔
    w = b.addr L ∨ ∃ c ∈ H.lists b, w = c.addr + 4 ∨ w = c.addr + 8
  := by
  rw [mem_words]
  simp

/-- The words of a list are at multiples of four below the end of the heap. -/
theorem Heap.Sound.word_bounds {w : Nat} (h : H.Sound L X) (hb : b.index < maxBins)
    (hw : w ∈ words 4 8 (b.addr L) ((H.lists b).map Chunk.addr)) :
  w % 4 = 0 ∧ 0 < w ∧ w + 4 ≤ L.heapEnd
  := by
  have hL := L.bounds
  rcases mem_words_list.mp hw with rfl | ⟨c, hc, hw⟩
  · have h₁ := Bin.addr_bounds L hb
    have h₂ := Bin.addr_align L b
    omega
  · have hc' := (h.listed b c hc).1
    have h₁ := h.place hc'
    have h₂ := h.align hc'
    omega

/-- The words of a list are different. -/
theorem Heap.Sound.words_nodup (h : H.Sound L X) (hb : b.index < maxBins) :
  (words 4 8 (b.addr L) ((H.lists b).map Chunk.addr)).Nodup
  := by
  have hL := L.bounds
  have h₁ := Bin.addr_bounds L hb
  apply PtrChain.words_nodup
  · apply List.Nodup.map_on _ (h.nodup b)
    intro c hc d hd heq
    apply h.eq_of_addr (h.listed b c hc).1 (h.listed b d hd).1 heq
  · intro x hx
    obtain ⟨c, hc, rfl⟩ := List.mem_map.mp hx
    have := h.place (h.listed b c hc).1
    omega
  · intro x hx
    obtain ⟨c, hc, rfl⟩ := List.mem_map.mp hx
    have := h.place (h.listed b c hc).1
    omega
  · intro x hx y hy
    obtain ⟨c, hc, rfl⟩ := List.mem_map.mp hx
    obtain ⟨d, hd, rfl⟩ := List.mem_map.mp hy
    have h₂ := h.align (h.listed b c hc).1
    have h₃ := h.align (h.listed b d hd).1
    omega

/-- Different lists have different words. -/
theorem Heap.Sound.words_disjoint {b' : Bin} {w : Nat} (h : H.Sound L X)
    (hb : b.index < maxBins) (hb' : b'.index < maxBins) (hne : b ≠ b')
    (hw : w ∈ words 4 8 (b.addr L) ((H.lists b).map Chunk.addr)) :
  w ∉ words 4 8 (b'.addr L) ((H.lists b').map Chunk.addr)
  := by
  have hL := L.bounds
  have h₁ := Bin.addr_bounds L hb
  have h₁' := Bin.addr_bounds L hb'
  intro hw'
  rcases mem_words_list.mp hw with rfl | ⟨c, hc, hwc⟩ <;>
    rcases mem_words_list.mp hw' with hwb | ⟨d, hd, hwd⟩
  · apply hne (Bin.addr_inj L hwb)
  · have := h.place (h.listed b' d hd).1
    omega
  · have := h.place (h.listed b c hc).1
    omega
  · have hc' := (h.listed b c hc).1
    have hd' := (h.listed b' d hd).1
    have h₂ := h.align hc'
    have h₃ := h.align hd'
    have hcd : c = d := by
      apply h.eq_of_addr hc' hd'
      omega
    subst hcd
    apply hne (h.distinct b b' c hc hd)

/-- Chunks have different bits of the bitmap. -/
theorem Heap.Sound.slot_inj {c d : Chunk} (h : H.Sound L X) (hc : c ∈ H.chunks) (hd : d ∈ H.chunks)
    (heq : L.slot (c.addr + 4) = L.slot (d.addr + 4)) :
  c = d
  := by
  by_contra hne
  have h₁ := h.apart hc hd hne
  have h₂ := h.place hc
  have h₃ := h.place hd
  simp only [Layout.slot] at heq
  omega

/-- The bit of a chunk is inside the bitmap. -/
theorem Heap.Sound.slot_lt {c : Chunk} (h : H.Sound L X) (hc : c ∈ H.chunks) :
  L.slot (c.addr + 4) < 8 * L.bitmapSize
  := by
  have hL := L.bounds
  have h₁ := h.place hc
  simp only [Layout.slot]
  omega

/-! ### Chunks and what is apart from them -/

/-- The bytes of a block are in its chunk, between the tags. -/
theorem Heap.Inv.block_bounds {c : Chunk} {n : Nat} (h : H.Inv L X) (hc : c ∈ H.chunks)
    (hn : n ∈ c.used) :
  L.heap ≤ c.addr ∧ c.addr + 4 + n + 4 ≤ c.addr + c.size ∧ c.addr + c.size ≤ L.heapEnd
  := by
  have h₁ := h.place hc
  have h₂ := h.room c hc n hn
  omega

/-- A byte of a free chunk is not a client's. -/
theorem Heap.Inv.not_owned {c : Chunk} {x : Nat} (h : H.Inv L X) (hc : c ∈ H.chunks)
    (hfree : c.used = none) (hx : c.addr ≤ x) (hx' : x < c.addr + c.size) :
  ¬ H.Owned L x
  := by
  have hL := L.bounds
  have h₁ := h.place hc
  rintro (hlt | hle | ⟨d, hd, n, hn, hd₁, hd₂⟩)
  · omega
  · omega
  · have h₂ := h.block_bounds hd hn
    have hne : c ≠ d := by
      rintro rfl
      rw [hfree] at hn
      cases hn
    have := h.apart hc hd hne
    omega

end

end Kmalloc
