import Manos.Kmalloc.Split

/-!
# Allocating a chunk

The searches of `allocateChunk` on memories that represent heaps, and `allocateChunk`
itself: it does what `Heap.allocate` does.
-/

open ByteMem PtrChain Tiling

namespace Kmalloc

open Exec

variable {L : Layout} {X : List Chunk} {H : Heap} {s : Alloc} {size : Nat}

/-- The address of a chunk that was looked for, or `0`. -/
def addrOf (o : Option Chunk) : Nat := (o.map Chunk.addr).getD 0

@[simp]
theorem addrOf_none :
  addrOf none = 0
  := rfl

@[simp]
theorem addrOf_some (c : Chunk) :
  addrOf (some c) = c.addr
  := rfl

/-- The sizes asked of `allocateChunk`. -/
structure Padded (size : Nat) : Prop where
  min : 16 ≤ size
  mod : size % 8 = 0
  lt : size < 2 ^ 32

/-! ### Searching lists -/

/-- The size test of `isExactMatch` does not wrap around. -/
theorem isExactSize_iff {c : Chunk} (hsize : Padded size) (h16 : 16 ≤ c.size)
    (hlt : c.size < 2 ^ 27) :
  isExactSize c.size size ↔ Exact size c
  := by
  obtain ⟨hmin, hmod, hlt'⟩ := hsize
  simp only [isExactSize, Exact, minAllocBytes]
  by_cases hle : size ≤ c.size
  · rw [Word32.sub_of_le hle (by omega)]
    omega
  · rw [Word32.sub_of_lt (by omega) (by omega)]
    omega

theorem isExactMatch_returns {c : Chunk} (h : Good L H X s) (hc : c ∈ H.chunks)
    (hsize : Padded size) :
  Returns s (isExactMatch c.addr size) fun r s' =>
    r = decide (Exact size c) ∧ s'.mem = s.mem ∧ Good L H X s'
  := by
  have hL := L.bounds
  have hpc := h.inv.place hc
  rw [isExactMatch, if_neg (h.inv.addr_ne_zero hc)]
  apply Returns.bind (getSize_returns h hc)
  rintro _ s₁ ⟨rfl, hm, h₁⟩
  apply Returns.pure
  refine ⟨?_, hm, h₁⟩
  apply decide_eq_decide.mpr (isExactSize_iff hsize hpc.2.2.1 (by omega))

section

variable {b : Bin} {l₁ l₂ : List Chunk}

theorem mem_chunks_of_list {c : Chunk} (h : Good L H X s) (hl : H.lists b = l₁ ++ c :: l₂) :
  c ∈ H.chunks
  := by
  apply (h.inv.listed b c _).1
  rw [hl]
  simp

theorem Good.load_next {c : Chunk} (h : Good L H X s) (hl : H.lists b = l₁ ++ c :: l₂) :
  s.mem.load32 (nextField c.addr) = PtrChain.head (l₂.map Chunk.addr)
  := by
  have hc : c ∈ H.lists b := by
    rw [hl]
    simp
  have hchain := h.rep.chain b (h.inv.index b c hc)
  rw [hl, List.map_append] at hchain
  apply hchain.load_next

/-- `exactFitSearch` without rebinning. -/
theorem Good.exactFitSearch {n : Nat} (h : Good L H X s) (hsize : Padded size)
    (hl : H.lists b = l₁ ++ l₂) (hn : l₂.length < n) :
  Returns s (Kmalloc.exactFitSearch size false n (PtrChain.head (l₂.map Chunk.addr))) fun r s' =>
    r = addrOf (l₂.find? (Exact size ·)) ∧ Good L H X s'
  := by
  induction l₂ generalizing l₁ n s with
  | nil =>
      cases n with
      | zero => cases hn
      | succ n => refine ⟨_, _, rfl, rfl, h⟩
  | cons c l₂ ih =>
      cases n with
      | zero => cases hn
      | succ n =>
          have hc := mem_chunks_of_list h hl
          rw [List.map_cons, PtrChain.head, Kmalloc.exactFitSearch,
            if_neg (h.inv.addr_ne_zero hc)]
          apply Returns.bind (isExactMatch_returns h hc hsize)
          rintro _ s₁ ⟨rfl, -, h₁⟩
          rw [List.find?_cons]
          by_cases hex : Exact size c
          · simp only [hex, decide_true, ↓reduceIte]
            apply Returns.pure
            refine ⟨rfl, h₁⟩
          · simp only [hex, decide_false, Bool.false_eq_true, ↓reduceIte]
            apply returns_loadPtr
            rw [h₁.load_next hl]
            apply ih h₁ (hl.trans (List.append_cons l₁ c l₂))
            apply Nat.lt_of_succ_lt_succ hn

/-- `firstFitSearch` finds the first chunk that is large enough. -/
theorem Good.firstFitSearch {n : Nat} (h : Good L H X s) (hl : H.lists b = l₁ ++ l₂)
    (hn : l₂.length < n) :
  Returns s (Kmalloc.firstFitSearch size n (PtrChain.head (l₂.map Chunk.addr))) fun r s' =>
    r = addrOf (l₂.find? fun c => size ≤ c.size) ∧ Good L H X s'
  := by
  induction l₂ generalizing l₁ n s with
  | nil =>
      cases n with
      | zero => cases hn
      | succ n => refine ⟨_, _, rfl, rfl, h⟩
  | cons c l₂ ih =>
      cases n with
      | zero => cases hn
      | succ n =>
          have hc := mem_chunks_of_list h hl
          rw [List.map_cons, PtrChain.head, Kmalloc.firstFitSearch,
            if_neg (h.inv.addr_ne_zero hc)]
          apply Returns.bind (getSize_returns h hc)
          rintro _ s₁ ⟨rfl, -, h₁⟩
          rw [List.find?_cons]
          by_cases hle : size ≤ c.size
          · simp only [ge_iff_le, hle, decide_true, ↓reduceIte]
            apply Returns.pure
            refine ⟨rfl, h₁⟩
          · simp only [ge_iff_le, hle, decide_false, ↓reduceIte]
            apply returns_loadPtr
            rw [h₁.load_next hl]
            apply ih h₁ (hl.trans (List.append_cons l₁ c l₂))
            apply Nat.lt_of_succ_lt_succ hn

end

/-- `exactFitSearch` with rebinning, from the first recent chunk on. -/
theorem Good.exactFitRebin {n : Nat} {l : List Chunk} (h : Good L H X s) (hsize : Padded size)
    (hl : H.lists .recent = l) (hn : l.length < n) :
  Returns s (Kmalloc.exactFitSearch size true n (PtrChain.head (l.map Chunk.addr))) fun r s' =>
    r = addrOf (H.rebin size l).1 ∧ Good L (H.rebin size l).2 X s'
      ∧ ∀ c ∈ (H.rebin size l).1, c ∈ (H.rebin size l).2.lists .recent
  := by
  induction l generalizing n s H with
  | nil =>
      cases n with
      | zero => cases hn
      | succ n =>
          refine ⟨_, _, rfl, rfl, h, ?_⟩
          intro c hc
          cases hc
  | cons c l ih =>
      cases n with
      | zero => cases hn
      | succ n =>
          have hc := mem_chunks_of_list h (hl.trans (List.nil_append _).symm)
          have hmem : c ∈ H.lists .recent := by
            rw [hl]
            apply List.mem_cons_self
          rw [List.map_cons, PtrChain.head, Kmalloc.exactFitSearch,
            if_neg (h.inv.addr_ne_zero hc)]
          apply Returns.bind (isExactMatch_returns h hc hsize)
          rintro _ s₁ ⟨rfl, -, h₁⟩
          rw [Heap.rebin]
          by_cases hex : Exact size c
          · simp only [hex, decide_true, ↓reduceIte]
            apply Returns.pure
            refine ⟨rfl, h₁, ?_⟩
            intro d hd
            cases hd
            apply hmem
          · simp only [hex, decide_false, Bool.false_eq_true, ↓reduceIte]
            apply returns_loadPtr
            rw [h₁.load_next (hl.trans (List.nil_append _).symm)]
            apply Returns.bind (h₁.unlinkChunk hmem)
            rintro _ s₂ ⟨rfl, h₂⟩
            apply Returns.bind h₂.binDirty
            intro _ s₃ h₃
            apply ih h₃ _ (Nat.lt_of_succ_lt_succ hn)
            have hidx := getBinIndex_bounds (h.inv.sized c hc).1
            rw [Heap.binDirty, Heap.lists_setList, if_neg, Heap.unlink]
            · simp only [hl]
              apply List.erase_cons_head
            · intro heq
              injection heq with hi
              omega

/-- The scan of the clean bins. -/
theorem Good.scanCleanBins {n i : Nat} (h : Good L H X s) (hi : i + n ≤ maxBins) :
  Returns s (Kmalloc.scanCleanBins size n i) fun r s' =>
    r = addrOf (H.firstFit size ((List.range' i n).map .clean)) ∧ Good L H X s'
  := by
  induction n generalizing i s with
  | zero => refine ⟨_, _, rfl, rfl, h⟩
  | succ n ih =>
      have hb : i < maxBins := by omega
      rw [Kmalloc.scanCleanBins]
      apply Returns.bind (getCleanBin_returns h hb)
      rintro _ s₁ ⟨rfl, -, h₁⟩
      apply returns_loadPtr
      rw [h₁.load_list (b := .clean i) hb]
      apply Returns.bind (h₁.firstFitSearch (b := .clean i) (List.nil_append _).symm
        (h₁.inv.sound.length_lt _))
      rintro _ s₂ ⟨rfl, h₂⟩
      rw [List.range'_succ, List.map_cons, Heap.firstFit, List.findSome?_cons]
      cases hfind : (H.lists (Bin.clean i)).find? fun c => size ≤ c.size with
      | none =>
          simp only [addrOf_none, ne_eq, not_true_eq_false, ↓reduceIte]
          apply ih h₂ (by omega)
      | some c =>
          have hc := (h.inv.listed _ c (List.mem_of_find?_eq_some hfind)).1
          have hc0 := h.inv.addr_ne_zero hc
          simp only [addrOf_some, ne_eq, hc0, not_false_eq_true, ↓reduceIte]
          apply Returns.pure
          refine ⟨rfl, h₂⟩

/-! ### `allocateChunk` -/

/-- A chunk that is found on a clean list is taken off it and split. -/
theorem Good.takeClean {i : Nat} {c : Chunk} (h : Good L H X s) (hsize : Padded size)
    (hc : c ∈ H.lists (.clean i)) (hle : size ≤ c.size) :
  Returns s (Kmalloc.unlinkChunk c.addr >>= fun chunk => Kmalloc.allocateSplit chunk size) fun r s' =>
    r = ((H.unlink c).allocateSplit c size).1.addr
      ∧ Good L ((H.unlink c).allocateSplit c size).2
        (((H.unlink c).allocateSplit c size).1 :: X) s'
  := by
  apply Returns.bind (h.unlinkChunk hc)
  rintro _ s₁ ⟨rfl, h₁⟩
  apply h₁.allocateSplit hsize.min hsize.mod hle (h.inv.noClean_unlink hc)

/-- The result of a search in the clean bins, and what becomes of the heap. -/
def Heap.takeFit (size : Nat) (o : Option Chunk) (H : Heap) : Option Chunk × Heap :=
  match o with
  | some c => (some ((H.unlink c).allocateSplit c size).1, ((H.unlink c).allocateSplit c size).2)
  | none => (none, H)

theorem Heap.mem_of_firstFit {bs : List Bin} {c : Chunk} (h : H.firstFit size bs = some c) :
  (∃ b ∈ bs, c ∈ H.lists b) ∧ size ≤ c.size
  := by
  obtain ⟨b, hb, hfind⟩ := List.exists_of_findSome?_eq_some h
  refine ⟨⟨b, hb, List.mem_of_find?_eq_some hfind⟩, ?_⟩
  have := List.find?_some hfind
  simpa using this

/-- The steps of `allocateChunk` on the clean bins. -/
theorem Good.allocateFromClean (h : Good L H X s) (hsize : Padded size) :
  Returns s (Kmalloc.allocateFromClean size) fun r s' =>
    r = addrOf (H.takeFit size (H.firstFit size (Heap.cleanBins size))).1
      ∧ Good L (H.takeFit size (H.firstFit size (Heap.cleanBins size))).2
        ((H.takeFit size (H.firstFit size (Heap.cleanBins size))).1.toList ++ X) s'
  := by
  have hidx := getBinIndex_bounds hsize.min
  have hfirst : getBinIndex size + 1 + (maxBins - (getBinIndex size + 1)) ≤ maxBins := by
    rw [maxBins]
    omega
  rw [Heap.cleanBins, Heap.firstFit, List.findSome?_cons, List.findSome?_cons]
  apply Returns.bind (getCleanBin_returns (i := 0) h (by decide))
  rintro _ s₁ ⟨rfl, -, h₁⟩
  apply returns_loadPtr
  rw [h₁.load_list (b := .clean 0) (by decide)]
  apply Returns.bind (h₁.firstFitSearch (b := .clean 0) (List.nil_append _).symm
    (h₁.inv.sound.length_lt _))
  rintro _ s₂ ⟨rfl, h₂⟩
  cases hrem : (H.lists (.clean 0)).find? fun c => size ≤ c.size with
  | some c =>
      have hc := List.mem_of_find?_eq_some hrem
      have hle : size ≤ c.size := by simpa using List.find?_some hrem
      rw [if_pos (show addrOf (some c) ≠ 0 from
        h.inv.addr_ne_zero (h.inv.listed _ c hc).1)]
      apply h₂.takeClean hsize hc hle
  | none =>
      rw [if_neg (by simp)]
      apply Returns.bind (getCleanBin_returns (i := getBinIndex size) h₂ (by rw [maxBins]; omega))
      rintro _ s₃ ⟨rfl, -, h₃⟩
      apply returns_loadPtr
      rw [h₃.load_list (b := .clean (getBinIndex size)) (by simp only [Bin.index, maxBins]; omega)]
      apply Returns.bind (h₃.firstFitSearch (b := .clean (getBinIndex size)) (List.nil_append _).symm
        (h₃.inv.sound.length_lt _))
      rintro _ s₄ ⟨rfl, h₄⟩
      cases hown : (H.lists (.clean (getBinIndex size))).find? fun c => size ≤ c.size with
      | some c =>
          have hc := List.mem_of_find?_eq_some hown
          have hle : size ≤ c.size := by simpa using List.find?_some hown
          rw [if_pos (show addrOf (some c) ≠ 0 from
            h.inv.addr_ne_zero (h.inv.listed _ c hc).1)]
          apply h₄.takeClean hsize hc hle
      | none =>
          rw [if_neg (by simp)]
          apply Returns.bind (h₄.scanCleanBins hfirst)
          rintro _ s₅ ⟨rfl, h₅⟩
          cases hscan : H.firstFit size ((List.range' (getBinIndex size + 1)
              (maxBins - (getBinIndex size + 1))).map .clean) with
          | some c =>
              obtain ⟨⟨b, hb, hc⟩, hle⟩ := Heap.mem_of_firstFit hscan
              obtain ⟨i, -, rfl⟩ := List.mem_map.mp hb
              rw [if_pos (show addrOf (some c) ≠ 0 from
                h.inv.addr_ne_zero (h.inv.listed _ c hc).1)]
              rw [Heap.firstFit] at hscan
              simp only [hscan]
              apply h₅.takeClean hsize hc hle
          | none =>
              rw [if_neg (by simp)]
              apply Returns.bind (h₅.scanCleanBins hfirst)
              rintro _ s₆ ⟨rfl, h₆⟩
              rw [hscan, if_neg (by simp)]
              rw [Heap.firstFit] at hscan
              simp only [hscan]
              apply Returns.pure
              refine ⟨rfl, h₆⟩

/-- The test of the chunk freed last. -/
theorem Good.matchRecent (h : Good L H X s) (hsize : Padded size) :
  Returns s (isExactMatch (PtrChain.head ((H.lists .recent).map Chunk.addr)) size) fun r s' =>
    r = ((H.lists .recent).head?.filter (Exact size ·)).isSome ∧ Good L H X s'
  := by
  cases hl : H.lists .recent with
  | nil => refine ⟨_, _, rfl, rfl, h⟩
  | cons c l =>
      have hc := mem_chunks_of_list h (hl.trans (List.nil_append _).symm)
      apply Returns.mono (isExactMatch_returns h hc hsize)
      rintro _ s' ⟨rfl, -, h'⟩
      refine ⟨?_, h'⟩
      by_cases hex : Exact size c
      · simp [hex]
      · simp [hex]

/-- `allocateChunk` does what `Heap.allocate` does. -/
theorem Good.allocateChunk (h : Good L H X s) (hsize : Padded size) :
  Returns s (Kmalloc.allocateChunk size) fun r s' =>
    r = addrOf (H.allocate size).1 ∧ Good L (H.allocate size).2 ((H.allocate size).1.toList ++ X) s'
  := by
  have hidx := getBinIndex_bounds hsize.min
  have hbin : getBinIndex size < maxBins := by
    rw [maxBins]
    omega
  apply Returns.bind (getDirtyBin_returns (i := 0) h (by decide))
  rintro _ s₁ ⟨rfl, -, h₁⟩
  apply returns_loadPtr
  rw [h₁.load_list (b := .dirty 0) (by decide)]
  apply Returns.bind (h₁.matchRecent hsize)
  rintro _ s₂ ⟨rfl, h₂⟩
  rw [Heap.allocate]
  cases hrecent : (H.lists .recent).head?.filter (Exact size ·) with
  | some c =>
      obtain ⟨hhead, -⟩ := Option.filter_eq_some_iff.mp hrecent
      have hc : c ∈ H.lists .recent := List.mem_of_mem_head? hhead
      have haddr : PtrChain.head ((H.lists (.dirty 0)).map Chunk.addr) = c.addr := by
        apply head_eq_of_mem
        rw [List.head?_map, hhead]
        rfl
      rw [haddr]
      apply Returns.mono (h₂.unlinkChunk hc)
      rintro _ s' ⟨rfl, h'⟩
      refine ⟨rfl, h'⟩
  | none =>
      apply Returns.bind (getDirtyBin_returns h₂ hbin)
      rintro _ s₃ ⟨rfl, -, h₃⟩
      apply returns_loadPtr
      rw [h₃.load_list (b := .dirty (getBinIndex size)) hbin]
      apply Returns.bind (h₃.exactFitSearch (b := .dirty (getBinIndex size)) hsize
        (List.nil_append _).symm (h₃.inv.sound.length_lt _))
      rintro _ s₄ ⟨rfl, h₄⟩
      cases hdirty : (H.lists (.dirty (getBinIndex size))).find? (Exact size ·) with
      | some c =>
          have hc := List.mem_of_find?_eq_some hdirty
          rw [if_pos (show addrOf (some c) ≠ 0 from
            h.inv.addr_ne_zero (h.inv.listed _ c hc).1)]
          apply Returns.mono (h₄.unlinkChunk hc)
          rintro _ s' ⟨rfl, h'⟩
          refine ⟨rfl, h'⟩
      | none =>
          rw [if_neg (by simp)]
          apply Returns.bind (getDirtyBin_returns (i := 0) h₄ (by decide))
          rintro _ s₅ ⟨rfl, -, h₅⟩
          apply returns_loadPtr
          rw [h₅.load_list (b := .dirty 0) (by decide)]
          apply Returns.bind (h₅.exactFitRebin hsize rfl (h₅.inv.sound.length_lt _))
          rintro _ s₆ ⟨rfl, h₆, hmem⟩
          cases hrebin : H.rebin size (H.lists .recent) with
          | mk o H' =>
              rw [hrebin] at h₆ hmem
              cases o with
              | some c =>
                  have hc := hmem c rfl
                  simp only
                  rw [if_pos (show addrOf (some c) ≠ 0 from
                    h₆.inv.addr_ne_zero (h₆.inv.listed _ c hc).1)]
                  apply Returns.mono (h₆.unlinkChunk hc)
                  rintro _ s' ⟨rfl, h'⟩
                  refine ⟨rfl, h'⟩
              | none =>
                  simp only
                  rw [if_neg (by simp)]
                  apply Returns.mono (h₆.allocateFromClean hsize)
                  rintro _ s' ⟨rfl, h'⟩
                  cases hfit : H'.firstFit size (Heap.cleanBins size) with
                  | some c =>
                      rw [hfit] at h'
                      refine ⟨rfl, h'⟩
                  | none =>
                      rw [hfit] at h'
                      refine ⟨rfl, h'⟩

/-- The heap after an allocation is in order. -/
theorem Good.inv_allocate (h : Good L H X s) (hsize : Padded size) :
  (H.allocate size).2.Inv L ((H.allocate size).1.toList ++ X)
  := by
  obtain ⟨_, _, -, -, h'⟩ := h.allocateChunk hsize
  apply h'.inv

/-! ### What an allocation leaves as it was -/

/-- The heap `H'` has the blocks of `H`. -/
structure Heap.SameBlocks (H H' : Heap) : Prop where
  chunks : ∀ c, c.used ≠ none → (c ∈ H'.chunks ↔ c ∈ H.chunks)
  data : H'.data = H.data

theorem Heap.sameBlocks_of_eq {H' : Heap} (hchunks : H'.chunks = H.chunks)
    (hdata : H'.data = H.data) :
  H.SameBlocks H'
  := by
  refine ⟨?_, hdata⟩
  intro c _
  rw [hchunks]

theorem Heap.SameBlocks.refl (H : Heap) :
  H.SameBlocks H
  := Heap.sameBlocks_of_eq rfl rfl

theorem Heap.sameBlocks_unlink (H : Heap) (c : Chunk) :
  H.SameBlocks (H.unlink c)
  := Heap.sameBlocks_of_eq rfl rfl

theorem Heap.sameBlocks_push (H : Heap) (b : Bin) (c : Chunk) :
  H.SameBlocks (H.push b c)
  := Heap.sameBlocks_of_eq rfl rfl

theorem Heap.SameBlocks.trans {H H' H'' : Heap} (h : H.SameBlocks H') (h' : H'.SameBlocks H'') :
  H.SameBlocks H''
  := ⟨fun c hc => (h'.chunks c hc).trans (h.chunks c hc), h'.data.trans h.data⟩

theorem Heap.sameBlocks_split {c : Chunk} (n : Nat) (hfree : c.used = none) :
  H.SameBlocks (H.split c n)
  where
  chunks := by
    intro d hd
    rw [Heap.split, mem_replace]
    constructor
    · rintro (⟨hmem, -⟩ | ⟨-, hmem⟩)
      · apply hmem
      · simp only [List.mem_cons, List.not_mem_nil, or_false] at hmem
        rcases hmem with rfl | rfl
        · apply absurd rfl hd
        · apply absurd rfl hd
    · intro hmem
      left
      refine ⟨hmem, ?_⟩
      rintro rfl
      apply hd hfree
  data := rfl

theorem Heap.sameBlocks_preallocate (n : Nat) {c : Chunk} (hfree : c.used = none) :
  H.SameBlocks (H.preallocate size n c).2
  := by
  induction n generalizing c H with
  | zero => apply Heap.SameBlocks.refl
  | succ n ih =>
      rw [Heap.preallocate]
      split
      · apply (Heap.sameBlocks_split size hfree).trans
        apply (Heap.sameBlocks_push _ .recent (c.front size)).trans (ih rfl)
      · apply Heap.SameBlocks.refl

theorem Heap.sameBlocks_allocateSplit {c : Chunk} (hfree : c.used = none) :
  H.SameBlocks (H.allocateSplit c size).2
  := by
  have hrest : (c.rest size).used = none := rfl
  have hsplit := Heap.sameBlocks_split (H := H) size hfree
  rw [Heap.allocateSplit]
  split
  · apply Heap.SameBlocks.refl
  · by_cases hlast : H.lastAllocSize = size
    · simp only [hlast, ↓reduceIte]
      have hpre : (H.split c size).SameBlocks
          ((H.split c size).preallocate size maxPreAllocations (c.rest size)).2 :=
        Heap.sameBlocks_preallocate maxPreAllocations hrest
      apply (hsplit.trans hpre).trans (Heap.sameBlocks_push _ _ _)
    · simp only [hlast, ↓reduceIte]
      apply hsplit.trans (Heap.sameBlocks_push _ _ _)

theorem Heap.sameBlocks_rebin (l : List Chunk) :
  H.SameBlocks (H.rebin size l).2
  := by
  induction l generalizing H with
  | nil => apply Heap.SameBlocks.refl
  | cons c l ih =>
      rw [Heap.rebin]
      split
      · apply Heap.SameBlocks.refl
      · have hbin : H.SameBlocks ((H.unlink c).binDirty c) := Heap.sameBlocks_of_eq rfl rfl
        apply hbin.trans ih

/-- The chunks that are listed after rebinning were listed before. -/
theorem Heap.mem_rebin {l : List Chunk} {b : Bin} {d : Chunk}
    (hd : d ∈ (H.rebin size l).2.lists b) :
  d ∈ l ∨ ∃ b', d ∈ H.lists b'
  := by
  induction l generalizing H with
  | nil =>
      right
      use b
      apply hd
  | cons c l ih =>
      rw [Heap.rebin] at hd
      split at hd
      · right
        refine ⟨b, hd⟩
      · rcases ih hd with hl | ⟨b', hb'⟩
        · left
          apply List.mem_cons_of_mem _ hl
        · rw [Heap.binDirty, Heap.lists_setList] at hb'
          split at hb'
          · rcases Heap.Inv.mem_insertByAddr.mp hb' with rfl | hb'
            · left
              apply List.mem_cons_self
            · right
              refine ⟨_, List.mem_of_mem_erase hb'⟩
          · right
            refine ⟨_, List.mem_of_mem_erase hb'⟩

/-- The chunk found by rebinning is an exact match. -/
theorem Heap.exact_of_rebin {l : List Chunk} {c : Chunk} (h : (H.rebin size l).1 = some c) :
  Exact size c
  := by
  induction l generalizing H with
  | nil => cases h
  | cons d l ih =>
      rw [Heap.rebin] at h
      split at h
      case isTrue hex =>
        cases h
        apply hex
      case isFalse => apply ih h

/-- An allocation gives no block away and changes no byte of a client. -/
theorem Heap.sameBlocks_allocate (h : H.Inv L X) :
  H.SameBlocks (H.allocate size).2
  := by
  rw [Heap.allocate]
  split
  · apply Heap.sameBlocks_unlink
  · split
    · apply Heap.sameBlocks_unlink
    · have hrebin : H.SameBlocks (H.rebin size (H.lists .recent)).2 :=
        Heap.sameBlocks_rebin (H.lists .recent)
      have hlisted : ∀ b, ∀ d ∈ (H.rebin size (H.lists .recent)).2.lists b, d.used = none := by
        intro b d hd
        rcases Heap.mem_rebin hd with hl | ⟨b', hb'⟩
        · apply (h.listed _ d hl).2
        · apply (h.listed b' d hb').2
      split
      case h_1 heq =>
        rw [heq] at hrebin
        apply hrebin.trans (Heap.sameBlocks_unlink _ _)
      case h_2 H' heq =>
        rw [heq] at hrebin hlisted
        apply hrebin.trans
        split
        case h_1 c hfit =>
          obtain ⟨⟨b, -, hc⟩, -⟩ := Heap.mem_of_firstFit hfit
          apply (Heap.sameBlocks_unlink H' c).trans
          apply Heap.sameBlocks_allocateSplit (hlisted b c hc)
        case h_2 => apply Heap.SameBlocks.refl

/-- The chunk that is allocated has the size asked for, or a little more. -/
theorem Heap.exact_of_allocate {c : Chunk} (h : (H.allocate size).1 = some c) :
  Exact size c
  := by
  have hsplit : ∀ {H' : Heap} {d : Chunk}, size ≤ d.size →
      Exact size (H'.allocateSplit d size).1 := by
    intro H' d hd
    rw [Heap.allocateSplit]
    split
    case isTrue hlt => refine ⟨hd, Nat.le_of_lt hlt⟩
    case isFalse => refine ⟨Nat.le_refl size, Nat.le_add_right size _⟩
  rw [Heap.allocate] at h
  split at h
  case h_1 hrecent =>
    cases h
    have hex := (Option.filter_eq_some_iff.mp hrecent).2
    apply of_decide_eq_true hex
  · split at h
    case h_1 hdirty =>
      cases h
      have hex := List.find?_some hdirty
      apply of_decide_eq_true hex
    · split at h
      case h_1 heq =>
        cases h
        apply Heap.exact_of_rebin (congrArg Prod.fst heq)
      case h_2 heq =>
        split at h
        case h_1 hfit =>
          cases h
          apply hsplit (Heap.mem_of_firstFit hfit).2
        case h_2 => cases h

theorem Heap.size_le_of_allocate {c : Chunk} (h : (H.allocate size).1 = some c) :
  size ≤ c.size
  := (Heap.exact_of_allocate h).1

end Kmalloc
