import Manos.Kmalloc.Coalesce

/-!
# In the middle of a merge

While two or three chunks are merged the tags do not agree, but the lists stay lists of the chunks
there were.  `Midway L H X z s` says what holds then: the lists are those of `H`, and the tags of its
chunks hold the sizes `z`, which each step of the merge changes at one tag.
-/

open ByteMem PtrChain Tiling

namespace Kmalloc

open Exec

variable {L : Layout} {X : List Chunk} {H : Heap} {s : Alloc} {b : Bin} {c d : Chunk}
  {z : Nat → Nat} {a k n : Nat}

/-! ### Tags and links -/

/-- The words of the tags at both ends of the chunks. -/
def TagWord (H : Heap) (a : Nat) : Prop := ∃ c ∈ H.chunks, a = c.addr ∨ a = c.addr + c.size - 4

theorem Heap.Sound.tagWord_bounds (h : H.Sound L X) (ha : TagWord H a) :
  a % 4 = 0 ∧ L.heap ≤ a ∧ a + 4 ≤ L.heapEnd
  := by
  have hL := L.bounds
  obtain ⟨c, hc, hac⟩ := ha
  have hpc := h.place hc
  have hmod := h.align hc
  omega

/-- The bytes of a tag are not those of links. -/
theorem Heap.Sound.tagWord_not_link {x : Nat} (h : H.Sound L X) (ha : TagWord H a) (hx : a ≤ x)
    (hx' : x < a + 4) :
  ¬ LinkByte L H x
  := by
  have hL := L.bounds
  obtain ⟨c, hc, hac⟩ := ha
  have hpc := h.place hc
  rintro (hbin | ⟨d, hd, -, hlow, hhigh⟩)
  · omega
  · have hpd := h.place hd
    by_cases hcd : c = d
    · subst hcd
      omega
    · have := h.apart hc hd hcd
      omega

/-- The bytes of a link word. -/
theorem LinkWord.byte {w x : Nat} (hw : LinkWord L H w) (hx : w ≤ x) (hx' : x < w + 4) :
  LinkByte L H x
  := by
  rcases hw with hbin | ⟨d, hd, hfree, hwd⟩
  · left
    omega
  · right
    refine ⟨d, hd, hfree, ?_⟩
    omega

/-- The links are the same in a memory with the same link words. -/
theorem Linked.frame {m m' : ByteMem} (h : Linked L H X m) (hS : H.Sound L X)
    (hw : ∀ w, LinkWord L H w → m'.load32 w = m.load32 w) :
  Linked L H X m'
  where
  chain := by
    intro b hb
    apply (h.chain b hb).frame
    intro w hmem
    apply hw w (linkWord_of_mem_words hS hb hmem)
  unlinked := by
    intro c hc
    obtain ⟨hcH, hfree, -⟩ := hS.flight c hc
    obtain ⟨hprev, hnext⟩ := h.unlinked c hc
    constructor
    · rw [hw _ (.inr ⟨c, hcH, hfree, .inl rfl⟩), hprev]
    · rw [hw _ (.inr ⟨c, hcH, hfree, .inr rfl⟩), hnext]

/-- The state in the middle of a merge: the lists are those of `H`, and the tags of its chunks hold
the sizes `z`. -/
structure Midway (L : Layout) (H : Heap) (X : List Chunk) (z : Nat → Nat) (s : Alloc) : Prop where
  glob : GlobalsOf L s.glob
  sound : H.Sound L X
  linked : Linked L H X s.mem
  sizes : ∀ a, TagWord H a → sizeAt s.mem a = z a

theorem Shows.midway (hg : GlobalsOf L s.glob) (h : Shows L H s.mem) :
  Midway L H [] (sizeAt s.mem) s
  := ⟨hg, h.sound, h.linked, fun _ _ => rfl⟩

namespace Midway

/-- Reading changes nothing. -/
theorem read (h : Midway L H X z s) (log : List Access) :
  Midway L H X z { s with log := log }
  := ⟨h.glob, h.sound, h.linked, h.sizes⟩

/-- The size of a tag is read. -/
theorem getSize (h : Midway L H X z s) (ha : TagWord H a) (hn : z a = n) :
  ∃ s', Kmalloc.getSize a s = .done n s' ∧ Midway L H X z s'
  := by
  refine ⟨_, ?_, h.read (.tag a :: s.log)⟩
  rw [getSize_apply, ← hn, ← h.sizes a ha]
  rfl

theorem getFooter (h : Midway L H X z s) (ha : TagWord H a) (hn : z a = n) (hlo : 4 ≤ n + a)
    (hlt : a + n < 2 ^ 32) :
  ∃ s', Kmalloc.getFooter a s = .done (a + n - 4) s' ∧ Midway L H X z s'
  := by
  have hfoot : Word32.sub (Word32.add a (sizeAt s.mem a)) sizeofChunkTag = a + n - 4 := by
    rw [h.sizes a ha, hn, Word32.add_of_lt hlt, sizeofChunkTag,
      Word32.sub_of_le (by omega) (by omega)]
  refine ⟨_, ?_, h.read (.tag a :: s.log)⟩
  rw [getFooter_apply, ← hfoot]
  rfl

theorem getPred (h : Midway L H X z s) (ha : TagWord H (a - 4)) (hn : z (a - 4) = n)
    (h4 : 4 ≤ a) (hle : n ≤ a) (hlt : a < 2 ^ 32) :
  ∃ s', Kmalloc.getPred a s = .done (a - n) s' ∧ Midway L H X z s'
  := by
  have htag : getTagPred a = a - 4 := Word32.sub_of_le h4 hlt
  have hpred : Word32.sub a (sizeAt s.mem (getTagPred a)) = a - n := by
    rw [htag, h.sizes _ ha, hn, Word32.sub_of_le hle hlt]
  refine ⟨_, ?_, h.read (.tag (getTagPred a) :: s.log)⟩
  rw [← hpred]
  rfl

theorem getSucc (h : Midway L H X z s) (ha : TagWord H a) (hn : z a = n) (hlt : a + n < 2 ^ 32) :
  ∃ s', Kmalloc.getSucc a s = .done (a + n) s' ∧ Midway L H X z s'
  := by
  have hsucc : Word32.add a (sizeAt s.mem a) = a + n := by
    rw [h.sizes a ha, hn, Word32.add_of_lt hlt]
  refine ⟨_, ?_, h.read (.tag a :: s.log)⟩
  rw [← hsucc]
  rfl

/-- A tag is written. -/
theorem updateTag (h : Midway L H X z s) {f : ChunkTag → ChunkTag} (ha : TagWord H a)
    (hf : ∀ t : ChunkTag, t.readSize = z a → (f t).readSize = k) :
  ∃ s', Kmalloc.updateTag a f s = .done () s' ∧ Midway L H X (Function.update z a k) s'
  := by
  refine ⟨_, rfl, h.glob, h.sound, ?_, ?_⟩
  · apply h.linked.frame h.sound
    intro w hw
    apply load32_congr
    intro x hx hx'
    apply store32_apply_of_outside
    by_contra hin
    apply h.sound.tagWord_not_link ha _ _ (hw.byte hx hx')
    · omega
    · omega
  · intro a' ha'
    rw [Function.update_apply]
    split
    case isTrue heq =>
      rw [heq]
      change (tagAt _ a).readSize = k
      rw [tagAt_store32]
      apply hf _ (h.sizes a ha)
    case isFalse hne =>
      have h₁ := h.sound.tagWord_bounds ha
      have h₂ := h.sound.tagWord_bounds ha'
      rw [← h.sizes a' ha', sizeAt, sizeAt]
      congr 1
      apply tagAt_congr
      intro x hx hx'
      apply store32_apply_of_outside
      omega

/-- `writeSize` on a tag. -/
theorem writeSize (h : Midway L H X z s) (ha : TagWord H a) (h8 : n % 8 = 0) (hlt : n < 2 ^ 27) :
  ∃ s', Kmalloc.updateTag a (ChunkTag.writeSize n) s = .done () s'
    ∧ Midway L H X (Function.update z a n) s'
  := by
  apply h.updateTag ha
  intro t _
  apply t.readSize_writeSize h8 hlt

theorem zeroTag (h : Midway L H X z s) (ha : TagWord H a) :
  ∃ s', Kmalloc.zeroTag a s = .done () s' ∧ Midway L H X (Function.update z a 0) s'
  := by
  apply h.updateTag ha
  intro t _
  rfl

/-- `zeroFooter` leaves a footer of size zero. -/
theorem zeroFooter (h : Midway L H X z s) (hd : TagWord H a) (hn : z a = n) (hlo : 4 ≤ n + a)
    (hlt : a + n < 2 ^ 32) (ha : TagWord H (a + n - 4)) (hne : a ≠ a + n - 4) :
  ∃ s', Kmalloc.zeroFooter a s = .done () s'
    ∧ Midway L H X (Function.update z (a + n - 4) 0) s'
  := by
  obtain ⟨s₁, hx₁, h₁⟩ := h.getFooter hd hn hlo hlt
  obtain ⟨s₂, hx₂, h₂⟩ := h₁.writeSize ha rfl (show 0 < 2 ^ 27 by decide)
  have hn₂ : Function.update z (a + n - 4) 0 a = n := by
    rw [Function.update_of_ne hne, hn]
  obtain ⟨s₃, hx₃, h₃⟩ := h₂.getFooter hd hn₂ hlo hlt
  obtain ⟨s₄, hx₄, h₄⟩ := h₃.updateTag (f := ChunkTag.writeFree false) (k := 0) ha (by
    intro t ht
    rw [ChunkTag.readSize_writeFree, ht, Function.update_self])
  rw [Function.update_idem] at h₄
  refine ⟨s₄, ?_, h₄⟩
  rw [Kmalloc.zeroFooter, bind_done hx₁, bind_done hx₂, bind_done hx₃, hx₄]

/-- Links are written. -/
theorem relink {H' : Heap} {X' : List Chunk} {m' : ByteMem} (h : Midway L H X z s)
    (hm : Relinked L H s.mem m') (hS : H'.Sound L X') (hl : Linked L H' X' m')
    (hchunks : H'.chunks = H.chunks) :
  Midway L H' X' z { s with mem := m' }
  where
  glob := h.glob
  sound := hS
  linked := hl
  sizes := by
    intro a ha
    have ha' : TagWord H a := by
      rw [TagWord, hchunks] at ha
      apply ha
    rw [← h.sizes a ha', sizeAt, sizeAt]
    congr 1
    apply tagAt_congr
    intro x hx hx'
    apply hm
    apply h.sound.tagWord_not_link ha' hx hx'

theorem unlinkChunk (h : Midway L H X z s) (hc : c ∈ H.lists b) :
  ∃ s', Kmalloc.unlinkChunk c.addr s = .done c.addr s' ∧ Midway L (H.unlink c) (c :: X) z s'
  := by
  obtain ⟨m', hx, hm, hl⟩ := h.linked.unlinkChunk h.sound hc
  refine ⟨_, hx, ?_⟩
  apply h.relink hm (h.sound.unlink hc) hl rfl

/-- Mode `BinClean` of `binChunk`, by the size that the tag of the chunk holds. -/
theorem binClean (h : Midway L H (c :: X) z s) (hn : z c.addr = n) (hmin : minAllocBytes ≤ n) :
  ∃ s', binChunk c.addr .binClean s = .done () s'
    ∧ Midway L (H.setList (.clean (getBinIndex n))
      (Heap.insertByAddr c (H.lists (.clean (getBinIndex n))))) X z s'
  := by
  obtain ⟨hc, -, hoff⟩ := h.sound.flight c List.mem_cons_self
  have hidx : (Bin.clean (getBinIndex n)).index < maxBins := by
    have := getBinIndex_bounds hmin
    rw [Bin.index, maxBins]
    omega
  obtain ⟨s₁, hx₁, h₁⟩ := h.getSize ⟨c, hc, .inl rfl⟩ hn
  have hbin := getCleanBin_apply h₁.glob hidx
  obtain ⟨m', hx, hm, hl⟩ := (h₁.read _).linked.binSorted h₁.sound hidx
  refine ⟨_, ?_, (h₁.read _).relink hm (h₁.sound.setList ?_ ?_ hidx) hl rfl⟩
  · rw [binChunk, bind_done (h.linked.isUnlinked h.sound), bind_done (assert_pos rfl _ _),
      bind_done hx₁]
    exact (bind_done hbin).trans hx
  · intro d
    apply Heap.Inv.mem_insertByAddr
  · apply Heap.Inv.nodup_insertByAddr (hoff _) (h.sound.nodup _)

/-! ### Rules -/

section

variable {α : Type} {Q : α → Alloc → Prop} {f : Unit → M α} {msg : String}

/-- The bitmap is looked up for an assertion. -/
theorem ensures_notSet (h : Midway L H X z s) (a : Nat)
    (hf : ∀ s', Midway L H X z s' → Ensures s' (f ()) Q) :
  Ensures s (checkBitmap a >>= fun set => Exec.assert (set = false) msg >>= f) Q
  := by
  apply Ensures.step (show checkBitmap a s = .done _ _ from rfl)
  apply Ensures.assert
  intro _
  apply hf _ (h.read _)

/-- A free bit is read for an assertion. -/
theorem ensures_free (h : Midway L H X z s) (a : Nat)
    (hf : ∀ s', Midway L H X z s' → Ensures s' (f ()) Q) :
  Ensures s (readTag a >>= fun tag => Exec.assert (tag.free = true) msg >>= f) Q
  := by
  apply Ensures.step (readTag_apply a s)
  apply Ensures.assert
  intro _
  apply hf _ (h.read _)

/-- The size `n` of a merged chunk is written to its header at `a`, and from there to the footer of
the chunk at `d`. -/
theorem ensures_resize {d e : Nat} (h : Midway L H X z s) (ha : TagWord H a) (hd : TagWord H d)
    (hk : Function.update z a n d = k) (he : TagWord H e) (hek : d + k - 4 = e) (h4 : 4 ≤ k)
    (hlt : d + k < 2 ^ 32) (h8 : n % 8 = 0) (hn : n < 2 ^ 27)
    (hf : ∀ s', Midway L H X (Function.update (Function.update z a n) e n) s' →
      Ensures s' (f ()) Q) :
  Ensures s (Kmalloc.updateTag a (ChunkTag.writeSize n) >>= fun _ => Kmalloc.getSize a >>= fun size =>
    Kmalloc.getFooter d >>= fun foot => Kmalloc.updateTag foot (ChunkTag.writeSize size) >>= f) Q
  := by
  obtain ⟨s₁, hx₁, h₁⟩ := h.writeSize ha h8 hn
  apply Ensures.step hx₁
  obtain ⟨s₂, hx₂, h₂⟩ := h₁.getSize ha (Function.update_self ..)
  apply Ensures.step hx₂
  obtain ⟨s₃, hx₃, h₃⟩ := h₂.getFooter hd hk (by omega) hlt
  rw [hek] at hx₃
  apply Ensures.step hx₃
  obtain ⟨s₄, hx₄, h₄⟩ := h₃.writeSize he h8 hn
  apply Ensures.step hx₄
  apply hf s₄ h₄

end

end Midway

end Kmalloc
