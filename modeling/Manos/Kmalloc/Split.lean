import Manos.Kmalloc.Tags

/-!
# Splitting chunks

`initChunk` makes a chunk of any bytes of the heap, and `splitChunk` makes two chunks of
one that is on no list.  What `allocateChunk` does from the label `split` on is
`Heap.allocateSplit`.
-/

open ByteMem PtrChain Tiling

namespace Kmalloc

open Exec

variable {L : Layout} {X : List Chunk} {H : Heap} {s : Alloc}

/-- What `initChunk` leaves in memory. -/
structure Initialised (m m' : ByteMem) (a size : Nat) : Prop where
  head : TagIs m' a size true
  foot : TagIs m' (a + size - 4) size true
  unlinked : Unlinked m' a
  outside : SameOutside m m' a size

/-- `initChunk` writes a free chunk of any size that the size field of a tag holds: the low
three bits of the size are lost. -/
theorem initChunk_returns {a size : Nat} (ha : a % 4 = 0) (h4 : size % 4 = 0) (h16 : 16 ≤ size)
    (hlt : size < 2 ^ 27) (hstart : L.sdramStart ≤ a) (hend : a + size ≤ L.sdramEnd)
    (hhigh : s.glob.ramHighAddress = L.sdramEnd) :
  Returns s (initChunk a size) fun r s' =>
    r = a ∧ Keeps L s s' ∧ Initialised s.mem s'.mem a (size / 8 * 8)
  := by
  have hL := L.bounds
  have hmax := L.end_le
  have hrange : ∀ x, a ≤ x → x + 4 ≤ a + size → (Access.tag x).InRange L := by
    intro x h₁ h₂
    simp only [Access.InRange]
    omega
  have h8 : 8 ≤ size / 8 * 8 := by omega
  set k := size / 8 * 8 with hk
  have hkle : k ≤ size := by omega
  apply Returns.assert (show isWordAligned a from ha)
  apply Returns.assert (show isWordAligned size from h4)
  apply Returns.assert (show size ≥ minAllocBytes from h16)
  apply Returns.get
  apply Returns.assert
  · rw [Word32.add_of_lt (by omega), hhigh]
    omega
  have hr₁ := hrange a (by omega) (by omega)
  have hr₂ := hrange (a + k - 4) (by omega) (by omega)
  apply returns_updateTag L hr₁
  intro s₁ k₁ ht₁ ho₁
  apply returns_updateTag L hr₁
  intro s₂ k₂ ht₂ ho₂
  have hs₂ : (tagAt s₂.mem a).readSize = k := by
    rw [ht₂, ChunkTag.readSize_writeSize_div _ hlt]
  refine returns_getFooter L k hs₂ (by omega) (by omega) hr₁ ?_
  intro s₃ k₃ hm₃
  apply returns_updateTag L hr₂
  intro s₄ k₄ ht₄ ho₄
  rw [hm₃] at ht₄ ho₄
  have hs₄ : tagAt s₄.mem a = tagAt s₂.mem a := by
    apply tagAt_congr
    intro x h₁ h₂
    apply ho₄ x
    omega
  apply returns_updateTag L hr₁
  intro s₅ k₅ ht₅ ho₅
  have hs₅ : (tagAt s₅.mem a).readSize = k := by
    rw [ht₅, ChunkTag.readSize_writeFree, hs₄, hs₂]
  have hf₅ : tagAt s₅.mem (a + k - 4) = tagAt s₄.mem (a + k - 4) := by
    apply tagAt_congr
    intro x h₁ h₂
    apply ho₅ x
    omega
  refine returns_getFooter L k hs₅ (by omega) (by omega) hr₁ ?_
  intro s₆ k₆ hm₆
  apply returns_updateTag L hr₂
  intro s₇ k₇ ht₇ ho₇
  rw [hm₆] at ht₇ ho₇
  apply returns_storeNull L
  intro s₈ k₈ hp₈ ho₈
  apply returns_storeNull L
  intro s₉ k₉ hp₉ ho₉
  apply Returns.pure
  simp only [prevField, nextField] at hp₈ ho₈ hp₉ ho₉
  have hhead : tagAt s₉.mem a = tagAt s₅.mem a := by
    apply tagAt_congr
    intro x h₁ h₂
    rw [ho₉ x (by omega), ho₈ x (by omega), ho₇ x (by omega)]
  have hfoot : tagAt s₉.mem (a + k - 4) = tagAt s₇.mem (a + k - 4) := by
    apply tagAt_congr
    intro x h₁ h₂
    rw [ho₉ x (by omega), ho₈ x (by omega)]
  refine ⟨rfl, ?_, ?_, ?_, ⟨?_, hp₉⟩, ?_⟩
  · apply k₁.trans (k₂.trans (k₃.trans (k₄.trans (k₅.trans (k₆.trans (k₇.trans (k₈.trans k₉)))))))
  · constructor
    · rw [hhead, hs₅]
    · rw [hhead, ht₅, ChunkTag.free_writeFree]
  · constructor
    · rw [hfoot, ht₇, ChunkTag.readSize_writeFree, hf₅, ht₄,
        ChunkTag.readSize_writeSize_div _ hlt]
    · rw [hfoot, ht₇, ChunkTag.free_writeFree]
  · rw [← hp₈]
    apply load32_congr
    intro x h₁ h₂
    apply ho₉ x
    omega
  · intro x hx
    rw [ho₉ x (by omega), ho₈ x (by omega), ho₇ x (by omega), ho₅ x (by omega),
      ho₄ x (by omega), ho₂ x (by omega), ho₁ x (by omega)]

/-! ### Splitting -/

theorem Good.perm {X' : List Chunk} (h : Good L H X s) (hX : X.Perm X') :
  Good L H X' s
  := by
  obtain ⟨hI, hg, hr, hlog⟩ := h
  constructor
  case glob => apply hg
  case log => apply hlog
  case inv =>
    obtain ⟨h₁, h₂, h₃, h₄, h₅, h₆, h₇, h₈, h₉, h₁₀, h₁₁, h₁₂, h₁₃⟩ := hI
    refine ⟨h₁, h₂, h₃, h₄, ?_, hX.nodup h₆, ?_, h₈, h₉, h₁₀, h₁₁, h₁₂, h₁₃⟩
    · intro c hc
      apply h₅ c (hX.mem_iff.mpr hc)
    · intro c hc hfree
      rw [← hX.mem_iff]
      apply h₇ c hc hfree
  case rep =>
    obtain ⟨h₁, h₂, h₃, h₄, h₅, h₆, h₇⟩ := hr
    refine ⟨h₁, h₂, h₃, h₄, ?_, h₆, h₇⟩
    intro c hc
    apply h₅ c (hX.mem_iff.mpr hc)

/-- The memory after a chunk on no list is cut in two. -/
theorem Rep.split {c : Chunk} {size : Nat} {m₁ m₂ m₃ : ByteMem} (h : Rep L H (c :: X) m₁)
    (hI : H.Inv L (c :: X)) (hmin : 16 ≤ size) (hle : size + 16 ≤ c.size)
    (hfront : Initialised m₁ m₂ c.addr size)
    (hrest : Initialised m₂ m₃ (c.addr + size) (c.size - size)) :
  Rep L (H.split c size) (c.front size :: c.rest size :: X) m₃
  := by
  have hL := L.bounds
  obtain ⟨hc, hfree, hoff⟩ := hI.flight c List.mem_cons_self
  obtain ⟨hcX, -⟩ := List.nodup_cons.mp hI.fresh
  have hpc := hI.place hc
  have hout : ∀ x, x < c.addr ∨ c.addr + c.size ≤ x → m₃ x = m₁ x := by
    intro x hx
    rw [hrest.outside x (by omega), hfront.outside x (by omega)]
  have hcs : ∀ d ∈ [c.front size, c.rest size], d.used = none := by
    intro d hd
    simp only [List.mem_cons, List.not_mem_nil, or_false] at hd
    rcases hd with rfl | rfl
    · rfl
    · rfl
  apply h.replace hI (H.split c size) rfl rfl hc hoff
  · intro x h₁ h₂
    apply hout x
    omega
  · intro x h₁ h₂ h₃
    apply hout x h₃
  · rw [show (H.split c size).lastAllocSize = H.lastAllocSize from rfl, ← h.last]
    apply load32_congr
    intro x h₁ h₂
    apply hout x
    omega
  · intro d hd
    simp only [List.mem_cons, List.not_mem_nil, or_false] at hd
    rcases hd with rfl | rfl
    · constructor
      · apply hfront.head.congr
        intro x h₁ h₂
        apply hrest.outside x
        omega
      · apply hfront.foot.congr
        intro x h₁ h₂
        apply hrest.outside x
        omega
    · constructor
      · apply hrest.head
      · apply hrest.foot
  · intro d hd
    rcases List.mem_cons.mp hd with rfl | hd'
    · right
      apply hfront.unlinked.congr
      intro x h₁ h₂
      apply hrest.outside x
      omega
    · rcases List.mem_cons.mp hd' with rfl | hdX
      · right
        apply hrest.unlinked
      · left
        refine ⟨List.mem_cons_of_mem _ hdX, ?_⟩
        rintro rfl
        apply hcX hdX
  · intro i hi
    apply h.bitmap_of_same (H.split c size) rfl hfree hcs _ hi
    intro x h₁ h₂
    apply hout x
    omega
  · intro x hx
    have hx' : H.Owned L x := owned_of_replace_free rfl hcs hx
    rw [show (H.split c size).data = H.data from rfl, ← h.data x hx']
    apply hout x
    by_contra hin
    apply hI.not_owned hc hfree (by omega) (by omega) hx'

/-- `splitChunk` cuts a chunk on no list in two. -/
theorem Good.splitChunk {c : Chunk} {size : Nat} (h : Good L H (c :: X) s) (hmin : 16 ≤ size)
    (h8 : size % 8 = 0) (hle : size + 16 ≤ c.size) :
  Returns s (splitChunk c.addr size) fun r s' => r = ((c.front size).addr, (c.rest size).addr)
    ∧ Good L (H.split c size) (c.front size :: c.rest size :: X) s'
  := by
  have hL := L.bounds
  have hc := (h.inv.flight c List.mem_cons_self).1
  have hpc := h.inv.place hc
  have hac := h.inv.align hc
  have hsub : Word32.sub c.size size = c.size - size := Word32.sub_of_le (by omega) (by omega)
  have hadd : Word32.add c.addr size = c.addr + size := Word32.add_of_lt (by omega)
  have hsize8 : size / 8 * 8 = size := by omega
  have hrest8 : (c.size - size) / 8 * 8 = c.size - size := by omega
  apply Returns.bind (getSize_returns h hc)
  rintro _ s₁ ⟨rfl, -, h₁⟩
  apply Returns.assert (show c.size > size by omega)
  apply Returns.assert (show size % 4 = 0 by omega)
  apply Returns.assert (show c.size % 4 = 0 by omega)
  apply Returns.bind (initChunk_returns (L := L) (by omega) (by omega) hmin (by omega) (by omega)
    (by omega) h₁.glob.high)
  rintro _ s₂ ⟨rfl, k₂, hi₂⟩
  rw [hadd, hsub]
  apply Returns.bind (initChunk_returns (L := L) (by omega) (by omega) (by omega) (by omega)
    (by omega) (by omega) (k₂.glob ▸ h₁.glob.high))
  rintro _ s₃ ⟨rfl, k₃, hi₃⟩
  rw [hsize8] at hi₂
  rw [hrest8] at hi₃
  have hrep := h₁.rep.split h₁.inv hmin hle hi₂ hi₃
  have hgood : Good L (H.split c size) (c.front size :: c.rest size :: X) s₃ := by
    constructor
    · apply h₁.inv.split hmin h8 hle
    · rw [k₃.glob, k₂.glob]
      apply h₁.glob
    · apply hrep
    · apply k₃.log (k₂.log h₁.log)
  apply Returns.assert (show c.addr % 4 = 0 by omega)
  apply Returns.assert (show (c.addr + size) % 4 = 0 by omega)
  have hfront : c.front size ∈ (H.split c size).chunks :=
    (hgood.inv.flight _ List.mem_cons_self).1
  have hrest : c.rest size ∈ (H.split c size).chunks :=
    (hgood.inv.flight _ (List.mem_cons_of_mem _ List.mem_cons_self)).1
  apply Returns.bind (getSize_returns hgood hfront)
  rintro a s₄ ⟨ha, -, h₄⟩
  apply Returns.assert (show a = size from ha)
  apply Returns.bind (getFooter_returns h₄ hfront)
  rintro _ s₅ ⟨rfl, -, h₅⟩
  apply Returns.bind (readFooter_returns h₅ hfront)
  rintro t s₆ ⟨⟨ht, -⟩, -, h₆⟩
  apply Returns.assert ht
  apply Returns.bind (getSize_returns h₆ hrest)
  rintro a s₇ ⟨ha, -, h₇⟩
  apply Returns.assert (show a = c.size - size from ha)
  apply Returns.bind (getFooter_returns h₇ hrest)
  rintro _ s₈ ⟨rfl, -, h₈⟩
  apply Returns.bind (readFooter_returns h₈ hrest)
  rintro t s₉ ⟨⟨ht, -⟩, -, h₉⟩
  apply Returns.assert ht
  apply Returns.pure
  refine ⟨rfl, h₉⟩

/-! ### The end of `allocateChunk` -/

theorem noClean_pushRecent {c : Chunk} (h : H.NoClean) :
  (H.push .recent c).NoClean
  := by
  intro i
  rw [Heap.push, Heap.lists_setList, if_neg (by simp)]
  apply h i

/-- The loop that splits chunks for the next allocations. -/
theorem Good.preallocate {c : Chunk} {size : Nat} (n : Nat) (h : Good L H (c :: X) s)
    (hmin : 16 ≤ size) (h8 : size % 8 = 0) (hclean : H.NoClean) :
  Returns s (preallocate size n c.addr c.size) fun r s' =>
    r = (H.preallocate size n c).1.addr
      ∧ Good L (H.preallocate size n c).2 ((H.preallocate size n c).1 :: X) s'
      ∧ (H.preallocate size n c).2.NoClean
  := by
  induction n generalizing c H s with
  | zero =>
      apply Returns.pure
      refine ⟨rfl, h, hclean⟩
  | succ n ih =>
      have hL := L.bounds
      have hc := (h.inv.flight c List.mem_cons_self).1
      have hpc := h.inv.place hc
      have hcond : (c.size > size ∧ Word32.sub c.size size ≥ minAllocBytes)
          ↔ size + minAllocBytes ≤ c.size := by
        simp only [minAllocBytes]
        constructor
        · rintro ⟨hgt, hsub⟩
          rw [Word32.sub_of_le (by omega) (by omega)] at hsub
          omega
        · intro hle
          refine ⟨by omega, ?_⟩
          rw [Word32.sub_of_le (by omega) (by omega)]
          omega
      rw [Kmalloc.preallocate, Heap.preallocate]
      split
      case isFalse hno =>
        rw [if_neg (hcond.not.mp hno)]
        apply Returns.pure
        refine ⟨rfl, h, hclean⟩
      case isTrue hyes =>
        have hle := hcond.mp hyes
        rw [if_pos hle]
        apply Returns.bind (h.splitChunk hmin h8 hle)
        rintro ⟨pre, rest⟩ s₁ ⟨heq, h₁⟩
        cases heq
        apply Returns.bind h₁.binRecent
        intro _ s₂ h₂
        apply Returns.bind (getSize_returns h₂ (h₂.inv.flight _ List.mem_cons_self).1)
        rintro _ s₃ ⟨rfl, -, h₃⟩
        apply ih h₃ (noClean_pushRecent hclean)

/-- What `allocateChunk` does from the label `split` on. -/
theorem Good.allocateSplit {c : Chunk} {size : Nat} (h : Good L H (c :: X) s)
    (hmin : 16 ≤ size) (h8 : size % 8 = 0) (hle : size ≤ c.size) (hclean : H.NoClean) :
  Returns s (allocateSplit c.addr size) fun r s' =>
    r = (H.allocateSplit c size).1.addr
      ∧ Good L (H.allocateSplit c size).2 ((H.allocateSplit c size).1 :: X) s'
  := by
  have hL := L.bounds
  have hc := (h.inv.flight c List.mem_cons_self).1
  have hpc := h.inv.place hc
  apply Returns.bind (getSize_returns h hc)
  rintro _ s₁ ⟨rfl, -, h₁⟩
  rw [Word32.sub_of_le hle (by omega), Heap.allocateSplit]
  by_cases hsmall : c.size < size + minAllocBytes
  · rw [if_pos hsmall, if_pos (by omega)]
    apply Returns.pure
    refine ⟨rfl, h₁⟩
  · rw [if_neg hsmall, if_neg (by omega)]
    apply Returns.bind (h₁.splitChunk hmin h8 (by simp only [minAllocBytes] at hsmall; omega))
    rintro ⟨chunk, rest⟩ s₂ ⟨heq, h₂⟩
    cases heq
    have hrest := (h₂.inv.flight _ (List.mem_cons_of_mem _ List.mem_cons_self)).1
    apply Returns.bind (getSize_returns h₂ hrest)
    rintro _ s₃ ⟨rfl, -, h₃⟩
    apply Returns.get
    apply returns_loadPtr
    have hsame : (H.split c size).lastAllocSize = H.lastAllocSize := rfl
    rw [h₃.glob.header, h₃.rep.last, hsame]
    have hsplit : (H.split c size).NoClean := hclean
    have hswap := h₃.perm (List.Perm.swap _ _ _)
    by_cases hlast : H.lastAllocSize = size
    · rw [if_pos hlast, if_pos hlast]
      apply Returns.bind (hswap.preallocate maxPreAllocations hmin h8 hsplit)
      rintro _ s₄ ⟨rfl, h₄, hclean₄⟩
      apply Returns.bind (h₄.binLastSplitRem hclean₄)
      intro _ s₅ h₅
      apply Returns.pure
      refine ⟨rfl, h₅⟩
    · rw [if_neg hlast, if_neg hlast]
      apply Returns.bind (hswap.binLastSplitRem hsplit)
      intro _ s₅ h₅
      apply Returns.pure
      refine ⟨rfl, h₅⟩

end Kmalloc
