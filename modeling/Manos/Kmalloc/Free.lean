import Manos.Kmalloc.Bitmap
import Manos.Kmalloc.Split

/-!
# kfree

`__kfree` on the pointer of a block: the checks of `assertChunk` on the neighbours of its
chunk pass, except when the chunk ends the heap and the heap ends before the memory does,
and the block is taken back as `Heap.kfree` says.
-/

open ByteMem PtrChain Tiling

namespace Kmalloc

open Exec

variable {L : Layout} {X : List Chunk} {H : Heap} {s : Alloc} {c : Chunk}

/-! ### The neighbours -/

theorem Keeps.good {s' : Alloc} (k : Keeps L s s') (hm : s'.mem = s.mem) (h : Good L H X s) :
  Good L H X s'
  where
  inv := h.inv
  glob := k.glob ▸ h.glob
  rep := hm ▸ h.rep
  log := k.log h.log

/-- The checks of `assertChunk` on a chunk of the heap pass. -/
theorem Good.assertNeighbour {who : String} {beside : ChunkTag} (h : Good L H X s)
    (hc : c ∈ H.chunks) (hsize : beside.readSize = c.size) (hfree : beside.free = c.used.isNone) :
  Returns s (assertNeighbour who c.addr beside) fun _ s' => s'.mem = s.mem ∧ Good L H X s'
  := by
  have hL := L.bounds
  have hpc := h.inv.place hc
  have hpay : getPayload c.addr = c.addr + 4 :=
    Word32.add_of_lt (show c.addr + 4 < 2 ^ 32 by omega)
  apply Returns.bind (readTag_returns h hc)
  rintro tag s₁ ⟨⟨ht, hf⟩, hm₁, h₁⟩
  apply Returns.bind (getFooter_returns h₁ hc)
  rintro _ s₂ ⟨rfl, hm₂, h₂⟩
  apply Returns.bind (readFooter_returns h₂ hc)
  rintro footer s₃ ⟨⟨ht', hf'⟩, hm₃, h₃⟩
  apply Returns.assert (ht.trans ht'.symm)
  apply Returns.assert (ht.trans hsize.symm)
  apply Returns.assert (hf.trans hf'.symm)
  apply Returns.assert (hf.trans hfree.symm)
  rw [hpay]
  apply Returns.bind (checkBitmap_returns h₃.glob (h.inv.sound.mapped hc))
  rintro _ s₄ ⟨rfl, hm₄, k₄⟩
  have hor : beside.free = true ∨ bitAt L s₃.mem (L.slot (c.addr + 4)) = true := by
    rw [h₃.bitAt_chunk hc, hfree]
    cases c.used with
    | none =>
        left
        rfl
    | some n =>
        right
        rfl
  refine ⟨_, _, assert_pos hor _ _, ?_, k₄.good hm₄ h₃⟩
  rw [hm₄, hm₃, hm₂, hm₁]

/-- The state after `assertChunk` has read the tag of the chunk at `a` and those next to it. -/
def Alloc.readTags (a : Nat) (s : Alloc) : Alloc :=
  let succ := Word32.add a (tagAt s.mem a).readSize
  let pred := getTagPred a
  { s with log := [.tag a, .tag a, .tag pred, .tag succ, .tag a, .tag pred] ++ s.log }

/-- The checks of `assertChunk` on the neighbours of the chunk at `a`, which depend on the
tags next to the chunk in the state `s`. -/
def assertNeighbours (s : Alloc) (a : Nat) : M Unit := do
  let predTag := tagAt s.mem (getTagPred a)
  let succ := Word32.add a (tagAt s.mem a).readSize
  Exec.when (¬ s.glob.heap = a)
    (assertNeighbour "pred" (Word32.sub a predTag.readSize) predTag)
  Exec.when (¬ succ = s.glob.ramHighAddress) (assertNeighbour "succ" succ (tagAt s.mem succ))

/-- `assertChunk` reads tags, and then checks the neighbours. -/
theorem assertChunk_apply (a : Nat) (s : Alloc) :
  assertChunk a s = assertNeighbours s a (s.readTags a)
  := rfl

/-- The tags that `assertChunk` reads at a chunk of the heap are in range. -/
theorem Good.readTags (h : Good L H X s) (hc : c ∈ H.chunks) :
  Good L H X (s.readTags c.addr)
  := by
  have hL := L.bounds
  have hpc := h.inv.place hc
  have hpred : getTagPred c.addr = c.addr - 4 :=
    Word32.sub_of_le (show 4 ≤ c.addr by omega) (by omega)
  have hsucc : Word32.add c.addr c.size = c.addr + c.size := Word32.add_of_lt (by omega)
  refine ⟨h.inv, h.glob, h.rep, ?_⟩
  intro x hx
  have hcases : x = .tag c.addr ∨ x = .tag (c.addr - 4) ∨ x = .tag (c.addr + c.size) ∨ x ∈ s.log
      := by
    simp only [Alloc.readTags, (h.rep.head c hc).1, hpred, hsucc, List.mem_append, List.mem_cons,
      List.not_mem_nil, or_false] at hx
    rcases hx with (h | h | h | h | h | h) | h <;> simp only [h, true_or, or_true]
  rcases hcases with rfl | rfl | rfl | hx
  · simp only [Access.InRange]
    omega
  · simp only [Access.InRange]
    omega
  · simp only [Access.InRange]
    omega
  · apply h.log x hx

/-- `assertChunk` on a chunk of the heap, which is not the last one of a heap that ends
before the memory does. -/
theorem Good.assertChunk (h : Good L H X s) (hc : c ∈ H.chunks)
    (hlast : c.addr + c.size = L.heapEnd → L.heapEnd = L.sdramEnd) :
  Returns s (assertChunk c.addr) fun _ s' => s'.mem = s.mem ∧ Good L H X s'
  := by
  have hL := L.bounds
  have hpc := h.inv.place hc
  have hpred : getTagPred c.addr = c.addr - 4 :=
    Word32.sub_of_le (show 4 ≤ c.addr by omega) (by omega)
  have hsucc : Word32.add c.addr c.size = c.addr + c.size := Word32.add_of_lt (by omega)
  have h₁ := h.readTags hc
  rw [Returns, assertChunk_apply, assertNeighbours, h.glob.heap, h.glob.high, hpred,
    (h.rep.head c hc).1, hsucc]
  have hpredWhen : Returns (s.readTags c.addr) (Exec.when (¬ L.heap = c.addr)
      (Kmalloc.assertNeighbour "pred" (Word32.sub c.addr (tagAt s.mem (c.addr - 4)).readSize)
        (tagAt s.mem (c.addr - 4)))) fun _ s' => s'.mem = s.mem ∧ Good L H X s' := by
    by_cases hfirst : L.heap = c.addr
    · rw [when_neg (not_not_intro hfirst)]
      apply Returns.pure
      refine ⟨rfl, h₁⟩
    · obtain ⟨d, hd, hdc⟩ := h.inv.tiles.exists_pred hc (Ne.symm hfirst)
      have hpd := h.inv.place hd
      have hfoot := h.rep.foot d hd
      rw [hdc] at hfoot
      rw [when_pos hfirst, hfoot.1, Word32.sub_of_le (by omega) (by omega),
        show c.addr - d.size = d.addr by omega]
      apply h₁.assertNeighbour hd hfoot.1 hfoot.2
  apply Returns.bind hpredWhen
  rintro _ s₂ ⟨hm₂, h₂⟩
  by_cases hend : c.addr + c.size = L.sdramEnd
  · rw [when_neg (not_not_intro hend)]
    apply Returns.pure
    refine ⟨hm₂, h₂⟩
  · have hne : c.addr + c.size ≠ L.heapEnd := by
      intro heq
      have := hlast heq
      omega
    obtain ⟨d, hd, hdc⟩ := h.inv.tiles.exists_succ hc hne
    have hhead := h.rep.head d hd
    rw [when_pos hend, ← hdc]
    apply Returns.mono (h₂.assertNeighbour hd hhead.1 hhead.2)
    rintro _ s' ⟨hm', h'⟩
    refine ⟨hm'.trans hm₂, h'⟩

/-! ### Taking a block back -/

/-- The memory after the chunk of a block is taken back. -/
theorem Rep.release {n : Nat} {m m₁ m₂ : ByteMem} (h : Rep L H X m) (hI : H.Inv L X)
    (hc : c ∈ H.chunks) (hn : c.used = some n)
    (h₁ : Initialised m m₁ c.addr c.size)
    (h₂ : m₂ = m₁.write (L.sdramStart + 1028 + L.slot (c.addr + 4) / 8)
      (m₁ (L.sdramStart + 1028 + L.slot (c.addr + 4) / 8)
        &&& ~~~(1#8 <<< (7 - L.slot (c.addr + 4) % 8)))) :
  Rep L (H.release c) (c.freed :: X) m₂
  := by
  have hL := L.bounds
  have hpc := hI.place hc
  have hslot := hI.sound.slot_lt hc
  have hoff : ∀ b, c ∉ H.lists b := by
    intro b hb
    have := (hI.listed b c hb).2
    rw [hn] at this
    cases this
  have hbits : ∀ x, x < L.sdramStart + 1028 ∨ L.heap ≤ x → m₂ x = m₁ x := by
    intro x hx
    rw [h₂, write_apply, if_neg (by omega)]
  have hout : ∀ x, x < L.sdramStart + 1028 ∨ L.heap ≤ x → x < c.addr ∨ c.addr + c.size ≤ x →
      m₂ x = m x := by
    intro x hx hx'
    rw [hbits x hx, h₁.outside x hx']
  apply h.replace hI (H.release c) rfl rfl hc hoff
  · intro x hx hx'
    apply hout x (by omega) (by omega)
  · intro x hx hx' hx''
    apply hout x (by omega) hx''
  · rw [show (H.release c).lastAllocSize = H.lastAllocSize from rfl, ← h.last]
    apply load32_congr
    intro x hx hx'
    apply hout x (by omega) (by omega)
  · intro d hd
    rw [List.mem_singleton.mp hd]
    constructor
    · apply h₁.head.congr
      intro x hx hx'
      apply hbits x
      omega
    · apply h₁.foot.congr
      intro x hx hx'
      apply hbits x
      omega
  · intro d hd
    rcases List.mem_cons.mp hd with rfl | hd'
    · right
      apply h₁.unlinked.congr
      intro x hx hx'
      apply hbits x
      omega
    · left
      refine ⟨hd', ?_⟩
      rintro rfl
      have := (hI.flight d hd').2.1
      rw [hn] at this
      cases this
  · intro i hi
    have hbit : bitAt L m₂ i = (bitAt L m i && !decide (i = L.slot (c.addr + 4))) := by
      have h₃ : bitAt L m₁ i = bitAt L m i := by
        rw [bitAt, bitAt, h₁.outside _ (by omega)]
      rw [h₂, bitAt_clear, h₃]
    rw [hbit, Bool.and_eq_true, h.bitmap i hi]
    constructor
    · rintro ⟨⟨d, hd, hd', hdi⟩, hne⟩
      refine ⟨d, mem_replace.mpr (.inl ⟨hd, ?_⟩), hd', hdi⟩
      rintro rfl
      simp [hdi] at hne
    · rintro ⟨d, hd, hd', hdi⟩
      rcases mem_replace.mp hd with ⟨hd, hne⟩ | ⟨-, hd⟩
      · refine ⟨⟨d, hd, hd', hdi⟩, ?_⟩
        simp only [Bool.not_eq_eq_eq_not, Bool.not_true, decide_eq_false_iff_not]
        rintro rfl
        apply hne (hI.sound.slot_inj hd hc hdi)
      · rw [List.mem_singleton.mp hd] at hd'
        apply absurd rfl hd'
  · intro x hx
    have hunused : ∀ k ∈ c.freed.used, ¬ (c.freed.addr + 4 ≤ x ∧ x < c.freed.addr + 4 + k) := by
      rintro k ⟨⟩
    obtain ⟨hown, hx₁, hx₂⟩ := hI.owned_of_replace hc rfl hunused hx
    rw [show (H.release c).data = H.data from rfl, hout x (by omega) hx₁, h.data x hown]

/-- `releaseChunk` takes a block back and puts its chunk on the list of recent chunks. -/
theorem Good.releaseChunk {n : Nat} (h : Good L H X s) (hc : c ∈ H.chunks)
    (hn : c.used = some n) :
  Returns s (releaseChunk c.addr (c.addr + 4)) fun _ s' => Good L (H.kfree c) X s'
  := by
  have hL := L.bounds
  have hpc := h.inv.place hc
  have hr₁ := h.inv.tag_inRange hc (Nat.le_refl c.addr) (by omega)
  have hr₂ := h.inv.tag_inRange (a := c.addr + c.size - 4) hc (by omega) (by omega)
  apply Returns.bind (getSize_returns h hc)
  rintro _ s₁ ⟨rfl, hm₁, h₁⟩
  apply Returns.modify
  intro s₀ hs₀
  have hm₀ : s₀.mem = s₁.mem := by rw [hs₀]
  have k₀ : Keeps L s₁ s₀ := by
    rw [hs₀]
    refine ⟨rfl, fun hlog => hlog⟩
  have hsize₀ := (h.rep.head c hc).1
  have hsize₀' := (h.rep.foot c hc).1
  rw [← hm₁, ← hm₀] at hsize₀ hsize₀'
  apply returns_updateTag L hr₁
  intro s₂ k₂ ht₂ ho₂
  apply returns_updateTag L hr₁
  intro s₃ k₃ ht₃ ho₃
  have hs₃ : (tagAt s₃.mem c.addr).readSize = c.size := by
    rw [ht₃, ChunkTag.readSize_writeFree, ht₂, ChunkTag.readSize_writePid, hsize₀]
  refine returns_getFooter L c.size hs₃ (by omega) (by omega) hr₁ ?_
  intro s₄ k₄ hm₄
  apply returns_updateTag L hr₂
  intro s₅ k₅ ht₅ ho₅
  rw [hm₄] at ht₅ ho₅
  have hs₅ : tagAt s₅.mem c.addr = tagAt s₃.mem c.addr := by
    apply tagAt_congr
    intro x hx hx'
    apply ho₅ x
    omega
  refine returns_getFooter L c.size (by rw [hs₅, hs₃]) (by omega) (by omega) hr₁ ?_
  intro s₆ k₆ hm₆
  apply returns_updateTag L hr₂
  intro s₇ k₇ ht₇ ho₇
  rw [hm₆] at ht₇ ho₇
  apply returns_storeNull L
  intro s₈ k₈ hp₈ ho₈
  apply returns_storeNull L
  intro s₉ k₉ hp₉ ho₉
  simp only [prevField, nextField] at hp₈ ho₈ hp₉ ho₉
  have hhead : tagAt s₉.mem c.addr = tagAt s₃.mem c.addr := by
    rw [← hs₅]
    apply tagAt_congr
    intro x hx hx'
    rw [ho₉ x (by omega), ho₈ x (by omega), ho₇ x (by omega)]
  have hfoot : tagAt s₉.mem (c.addr + c.size - 4) = tagAt s₇.mem (c.addr + c.size - 4) := by
    apply tagAt_congr
    intro x hx hx'
    rw [ho₉ x (by omega), ho₈ x (by omega)]
  have hfoot₀ : tagAt s₃.mem (c.addr + c.size - 4) = tagAt s₀.mem (c.addr + c.size - 4) := by
    apply tagAt_congr
    intro x hx hx'
    rw [ho₃ x (by omega), ho₂ x (by omega)]
  have hinit : Initialised s.mem s₉.mem c.addr c.size := by
    rw [← hm₁, ← hm₀]
    refine ⟨⟨?_, ?_⟩, ⟨?_, ?_⟩, ⟨?_, hp₉⟩, ?_⟩
    · rw [hhead, hs₃]
    · rw [hhead, ht₃, ChunkTag.free_writeFree]
    · rw [hfoot, ht₇, ChunkTag.readSize_writeFree, ht₅, ChunkTag.readSize_writePid, hfoot₀,
        hsize₀']
    · rw [hfoot, ht₇, ChunkTag.free_writeFree]
    · rw [← hp₈]
      apply load32_congr
      intro x hx hx'
      apply ho₉ x
      omega
    · intro x hx
      rw [ho₉ x (by omega), ho₈ x (by omega), ho₇ x (by omega), ho₅ x (by omega),
        ho₃ x (by omega), ho₂ x (by omega)]
  have k₉' : Keeps L s₁ s₉ :=
    k₀.trans (k₂.trans (k₃.trans (k₄.trans (k₅.trans (k₆.trans (k₇.trans (k₈.trans k₉)))))))
  have hg₉ : GlobalsOf L s₉.glob := k₉'.glob ▸ h₁.glob
  apply Returns.bind (updateBitmap_returns _ hg₉ (h.inv.sound.mapped hc))
  rintro _ s₁₀ ⟨hm₁₀, k₁₀⟩
  have hgood : Good L (H.release c) (c.freed :: X) s₁₀ := by
    constructor
    · apply h.inv.release hc hn
    · rw [k₁₀.glob]
      apply hg₉
    · apply h.rep.release h.inv hc hn hinit hm₁₀
    · apply k₁₀.log (k₉'.log h₁.log)
  apply hgood.binRecent

/-- On the pointer of a block `__kfree` comes to `assertChunk`. -/
theorem Good.kfree_eq {n : Nat} (h : Good L H X s) (hc : c ∈ H.chunks) (hn : c.used = some n) :
  ∃ s', s'.mem = s.mem ∧ Good L H X s' ∧ __kfree (c.addr + 4) s =
    (do Kmalloc.assertChunk c.addr; Kmalloc.releaseChunk c.addr (c.addr + 4)) s'
  := by
  have hL := L.bounds
  have hpc := h.inv.place hc
  have hac := h.inv.align hc
  have hm := h.inv.sound.mapped hc
  have hbit : bitAt L s.mem (L.slot (c.addr + 4)) = true := by
    rw [h.bitAt_chunk hc, hn]
    rfl
  have hchunk : Word32.sub (c.addr + 4) sizeofChunkTag = c.addr :=
    Word32.sub_of_le (show 4 ≤ c.addr + 4 by omega) (by omega)
  have hzone : c.addr + 4 ≥ s.glob.heap ∧ c.addr + 4 ≤ s.glob.ramHighAddress := by
    rw [h.glob.heap, h.glob.high]
    omega
  obtain ⟨_, s₁, hx₁, rfl, hm₁, k₁⟩ := checkBitmap_returns h.glob hm
  have h₁ := k₁.good hm₁ h
  rw [← k₁.glob] at hzone
  obtain ⟨_, s₂, hx₂, rfl, hm₂, k₂⟩ := checkBitmap_returns h₁.glob hm
  rw [hm₁] at hx₂
  refine ⟨s₂, hm₂.trans hm₁, k₂.good hm₂ h₁, ?_⟩
  rw [__kfree, if_neg (by omega), if_neg (by rw [dwordBytes]; omega), bind_done hx₁,
    bind_done (assert_pos hbit _ _), bind_done (get_apply s₁), bind_done (assert_pos hzone _ _),
    bind_done hx₂, when_pos hbit, hchunk]

/-- `__kfree` on the pointer of a block. -/
theorem Good.kfree {n : Nat} (h : Good L H X s) (hc : c ∈ H.chunks) (hn : c.used = some n)
    (hlast : c.addr + c.size = L.heapEnd → L.heapEnd = L.sdramEnd) :
  Returns s (__kfree (c.addr + 4)) fun _ s' => Good L (H.kfree c) X s'
  := by
  obtain ⟨s₁, -, h₁, heq⟩ := h.kfree_eq hc hn
  rw [Returns, heq]
  apply Returns.bind (h₁.assertChunk hc hlast)
  rintro _ s₂ ⟨-, h₂⟩
  apply h₂.releaseChunk hc hn

end Kmalloc
