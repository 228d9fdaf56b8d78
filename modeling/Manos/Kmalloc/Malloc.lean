import Manos.Kmalloc.Allocate
import Manos.Kmalloc.Bitmap
import Manos.Kmalloc.Init

/-!
# kmalloc

`initRam` leaves the memory of the heap with a single chunk, and `__kmalloc` gives out the
chunk it has allocated: it does what `Heap.kmalloc` does.
-/

open ByteMem PtrChain Tiling

namespace Kmalloc

open Exec

variable {L : Layout} {X : List Chunk} {H : Heap} {s : Alloc}

/-! ### Taking possession of a chunk -/

/-- The memory `m'` is `m` with tags at both ends of a chunk rewritten. -/
structure Retagged (m m' : ByteMem) (a size : Nat) (free : Bool) : Prop where
  head : TagIs m' a size free
  foot : TagIs m' (a + size - 4) size free
  outside : ∀ x, (x < a ∨ a + 4 ≤ x) → (x < a + size - 4 ∨ a + size ≤ x) → m' x = m x

/-- No bit of the bitmap is set along a free chunk on no list. -/
theorem Good.bitAt_probe {c : Chunk} {a : Nat} (h : Good L H (c :: X) s) (hlow : c.addr + 4 ≤ a)
    (hhigh : a + 4 < c.addr + c.size) (h8 : a % 8 = 0) :
  bitAt L s.mem (L.slot a) = false
  := by
  obtain ⟨hc, hfree, -⟩ := h.inv.flight c List.mem_cons_self
  have hL := L.bounds
  have hpc := h.inv.place hc
  have hac := h.inv.align hc
  have hm : L.Mapped a := by
    constructor
    · omega
    · omega
  apply Bool.eq_false_iff.mpr
  intro hbit
  obtain ⟨d, hd, hd', hslot⟩ := (h.rep.bitmap _ hm.slot_lt).mp hbit
  have hne : d ≠ c := by
    rintro rfl
    apply hd' hfree
  have hpd := h.inv.place hd
  have had := h.inv.align hd
  have := h.inv.apart hd hc hne
  simp only [Layout.slot] at hslot
  omega

/-- The loop that looks up the bitmap along a chunk passes when no bit is set. -/
theorem probeBitmap_returns {n a stop : Nat} (hg : GlobalsOf L s.glob)
    (hbits : ∀ i, a ≤ i → i < stop → i % 8 = 0 → L.Mapped i ∧ bitAt L s.mem (L.slot i) = false)
    (h8 : a % 8 = 0) (hstop : stop + 4 ≤ L.heapEnd) (hn : stop ≤ a + 16 * n) :
  Returns s (probeBitmap (n + 1) a stop) fun _ s' => s'.mem = s.mem ∧ Keeps L s s'
  := by
  have hL := L.bounds
  induction n generalizing a s with
  | zero =>
      rw [probeBitmap, if_neg (by omega)]
      apply Returns.pure
      refine ⟨rfl, Keeps.refl L s⟩
  | succ n ih =>
      rw [probeBitmap]
      split
      case isFalse =>
        apply Returns.pure
        refine ⟨rfl, Keeps.refl L s⟩
      case isTrue hlt =>
        obtain ⟨hm, hbit⟩ := hbits a (Nat.le_refl a) hlt h8
        have hslot := hm.slot_lt
        apply Returns.step (checkBitmap_apply hg hm)
        apply Returns.assert hbit
        rw [minAllocBytes, Word32.add_of_lt (by omega)]
        apply Returns.mono
        · apply ih
          · apply hg
          · intro i hi hi' hi8
            apply hbits i (by omega) hi' hi8
          · omega
          · omega
        · rintro _ s' ⟨hmem, hk⟩
          refine ⟨hmem, Keeps.trans ?_ hk⟩
          apply keeps_record
          simp only [Access.InRange]
          omega

/-- The memory after a free chunk is given out. -/
theorem Rep.claim {c : Chunk} {n : Nat} {m m₁ m₂ : ByteMem} (h : Rep L H (c :: X) m)
    (hI : H.Inv L (c :: X)) (hn : n + 8 ≤ c.size)
    (h₁ : Retagged (m.store32 L.sdramStart c.size) m₁ c.addr c.size false)
    (h₂ : m₂ = m₁.write (L.sdramStart + 1028 + L.slot (c.addr + 4) / 8)
      (m₁ (L.sdramStart + 1028 + L.slot (c.addr + 4) / 8)
        ||| 1#8 <<< (7 - L.slot (c.addr + 4) % 8))) :
  Rep L (H.claim c n) X (m₂.fill (c.addr + 4) n 0)
  := by
  have hL := L.bounds
  obtain ⟨hc, hfree, hoff⟩ := hI.flight c List.mem_cons_self
  obtain ⟨hcX, -⟩ := List.nodup_cons.mp hI.fresh
  have hpc := hI.place hc
  have hslot := hI.sound.slot_lt hc
  -- the bytes outside of the chunk, of the bitmap and of the first word are as before
  have hout : ∀ x, (x < c.addr ∨ c.addr + c.size ≤ x) →
      (x < L.sdramStart ∨ L.sdramStart + 4 ≤ x) → (x < L.sdramStart + 1028 ∨ L.heap ≤ x) →
      m₂.fill (c.addr + 4) n 0 x = m x := by
    intro x hx hfirst hbits
    rw [fill_apply, if_neg (by omega), h₂, write_apply, if_neg (by omega),
      h₁.outside x (by omega) (by omega), store32_apply_of_outside (by omega)]
  have hfoot : ∀ x, (x < c.addr + 4 ∨ c.addr + 4 + n ≤ x) → L.heap ≤ x →
      m₂.fill (c.addr + 4) n 0 x = m₁ x := by
    intro x hx hheap
    rw [fill_apply, if_neg (by omega), h₂, write_apply, if_neg (by omega)]
  apply h.replace hI (H.claim c n) rfl rfl hc hoff
  · intro x hx hx'
    apply hout x (by omega) (by omega) (by omega)
  · intro x hx hx' hx''
    apply hout x hx'' (by omega) (by omega)
  · have hlast : (H.claim c n).lastAllocSize = c.size := rfl
    rw [hlast, load32_fill_of_apart (by omega), h₂, load32_write_of_outside (by omega),
      load32_congr (m := m.store32 L.sdramStart c.size), load32_store32,
      Nat.mod_eq_of_lt (by omega)]
    intro x hx hx'
    apply h₁.outside x (by omega) (by omega)
  · intro d hd
    rw [List.mem_singleton.mp hd]
    constructor
    · apply h₁.head.congr
      intro x hx hx'
      apply hfoot x (by omega) (by omega)
    · apply h₁.foot.congr
      intro x hx hx'
      apply hfoot x (by omega) (by omega)
  · intro d hd
    left
    refine ⟨List.mem_cons_of_mem _ hd, ?_⟩
    rintro rfl
    apply hcX hd
  · intro i hi
    have hbit : bitAt L (m₂.fill (c.addr + 4) n 0) i =
        (bitAt L m i || decide (i = L.slot (c.addr + 4))) := by
      have h₃ : bitAt L (m₂.fill (c.addr + 4) n 0) i = bitAt L m₂ i := by
        rw [bitAt, bitAt, fill_apply, if_neg (by omega)]
      have h₄ : bitAt L m₁ i = bitAt L m i := by
        rw [bitAt, bitAt, h₁.outside _ (by omega) (by omega),
          store32_apply_of_outside (by omega)]
      rw [h₃, h₂, bitAt_set, h₄]
    rw [hbit, Bool.or_eq_true, decide_eq_true_eq, h.bitmap i hi]
    constructor
    · rintro (⟨d, hd, hd', hslot⟩ | rfl)
      · refine ⟨d, mem_replace.mpr (.inl ⟨hd, ?_⟩), hd', hslot⟩
        rintro rfl
        apply hd' hfree
      · refine ⟨c.claimed n, mem_replace.mpr (.inr ⟨hc, List.mem_singleton_self _⟩), ?_, rfl⟩
        apply Option.some_ne_none
    · rintro ⟨d, hd, hd', hslot⟩
      rcases mem_replace.mp hd with ⟨hd, -⟩ | ⟨-, hd⟩
      · left
        use d
      · right
        rw [List.mem_singleton.mp hd] at hslot
        apply hslot.symm
  · intro x hx
    have hdata : (H.claim c n).data = H.data.fill (c.addr + 4) n 0 := rfl
    rw [hdata, fill_apply H.data]
    by_cases hblock : c.addr + 4 ≤ x ∧ x < c.addr + 4 + n
    · rw [if_pos hblock, fill_apply, if_pos hblock]
    · rw [if_neg hblock]
      have houtside : ∀ k ∈ (c.claimed n).used,
          ¬ ((c.claimed n).addr + 4 ≤ x ∧ x < (c.claimed n).addr + 4 + k) := by
        rintro k ⟨⟩
        exact hblock
      obtain ⟨hown, hx₁, hx₂⟩ := hI.owned_of_replace hc rfl houtside hx
      rw [hout x hx₁ (by omega) (by omega), h.data x hown]

/-- The memory after the chunk of `size` bytes at `c` was claimed for a block: outside the chunk only
the size of the last allocation and the bit for the block have changed. -/
structure Claimed (L : Layout) (m m' : ByteMem) (c size : Nat) : Prop where
  same : ∀ x, (x < c ∨ c + size ≤ x) → (x < L.sdramStart ∨ L.sdramStart + 4 ≤ x) →
    x ≠ L.sdramStart + 1028 + L.slot (c + 4) / 8 → m' x = m x
  bit : m' (L.sdramStart + 1028 + L.slot (c + 4) / 8) =
    m (L.sdramStart + 1028 + L.slot (c + 4) / 8) ||| 1#8 <<< (7 - L.slot (c + 4) % 8)

/-- `__kmalloc` gives out the chunk it has allocated. -/
theorem Good.claimChunk {c : Chunk} {n : Nat} (pid : Int) (h : Good L H (c :: X) s)
    (hn : n + 8 ≤ c.size) :
  Returns s (claimChunk c.addr n pid) fun r s' => (r = c.addr + 4 ∧ Good L (H.claim c n) X s')
    ∧ Claimed L s.mem s'.mem c.addr c.size
  := by
  have hL := L.bounds
  obtain ⟨hc, hfree, -⟩ := h.inv.flight c List.mem_cons_self
  have hpc := h.inv.place hc
  have hac := h.inv.align hc
  have hpay : getPayload c.addr = c.addr + 4 :=
    Word32.add_of_lt (show c.addr + 4 < 2 ^ 32 by omega)
  have hm := h.inv.sound.mapped hc
  have hr₁ := h.inv.tag_inRange hc (Nat.le_refl c.addr) (by omega)
  have hr₂ := h.inv.tag_inRange (a := c.addr + c.size - 4) hc (by omega) (by omega)
  rw [Kmalloc.claimChunk, hpay]
  apply Returns.get
  apply Returns.bind (getSize_returns h hc)
  rintro _ s₁ ⟨rfl, hm₁, h₁⟩
  rw [h.glob.header]
  apply returns_store L
  intro s₀ k₀ hm₀
  -- the tags of the chunk after the store of the last size
  have hhead₀ : tagAt s₀.mem c.addr = tagAt s₁.mem c.addr := by
    rw [hm₀]
    apply tagAt_congr
    intro x hx hx'
    apply store32_apply_of_outside
    omega
  have hfoot₀ : tagAt s₀.mem (c.addr + c.size - 4) = tagAt s₁.mem (c.addr + c.size - 4) := by
    rw [hm₀]
    apply tagAt_congr
    intro x hx hx'
    apply store32_apply_of_outside
    omega
  have hsize₀ := (h₁.rep.head c hc).1
  have hsize₀' := (h₁.rep.foot c hc).1
  apply returns_updateTag L hr₁
  intro s₂ k₂ ht₂ ho₂
  have hs₂ : (tagAt s₂.mem c.addr).readSize = c.size := by
    rw [ht₂, ChunkTag.readSize_writePid, hhead₀, hsize₀]
  refine returns_getFooter L c.size hs₂ (by omega) (by omega) hr₁ ?_
  intro s₃ k₃ hm₃
  apply returns_updateTag L hr₂
  intro s₄ k₄ ht₄ ho₄
  rw [hm₃] at ht₄ ho₄
  apply returns_updateTag L hr₁
  intro s₅ k₅ ht₅ ho₅
  have hs₅ : (tagAt s₅.mem c.addr).readSize = c.size := by
    rw [ht₅, ChunkTag.readSize_writeFree, ← hs₂]
    congr 1
    apply tagAt_congr
    intro x hx hx'
    apply ho₄ x
    omega
  refine returns_getFooter L c.size hs₅ (by omega) (by omega) hr₁ ?_
  intro s₆ k₆ hm₆
  apply returns_updateTag L hr₂
  intro s₇ k₇ ht₇ ho₇
  rw [hm₆] at ht₇ ho₇
  have hfoot : tagAt s₅.mem (c.addr + c.size - 4) = tagAt s₄.mem (c.addr + c.size - 4)
      ∧ tagAt s₂.mem (c.addr + c.size - 4) = tagAt s₁.mem (c.addr + c.size - 4) := by
    constructor
    · apply tagAt_congr
      intro x hx hx'
      apply ho₅ x
      omega
    · rw [← hfoot₀]
      apply tagAt_congr
      intro x hx hx'
      apply ho₂ x
      omega
  have hhead : tagAt s₇.mem c.addr = tagAt s₅.mem c.addr := by
    apply tagAt_congr
    intro x hx hx'
    apply ho₇ x
    omega
  have hretag : Retagged (s.mem.store32 L.sdramStart c.size) s₇.mem c.addr c.size false := by
    rw [← hm₁, ← hm₀]
    refine ⟨⟨?_, ?_⟩, ⟨?_, ?_⟩, ?_⟩
    · rw [hhead, hs₅]
    · rw [hhead, ht₅, ChunkTag.free_writeFree]
    · rw [ht₇, ChunkTag.readSize_writeFree, hfoot.1, ht₄, ChunkTag.readSize_writePid, hfoot.2,
        hsize₀']
    · rw [ht₇, ChunkTag.free_writeFree]
    · intro x hx hx'
      rw [ho₇ x (by omega), ho₅ x (by omega), ho₄ x (by omega), ho₂ x (by omega)]
  have k₇ : Keeps L s₁ s₇ := k₀.trans (k₂.trans (k₃.trans (k₄.trans (k₅.trans (k₆.trans k₇)))))
  have hg₇ : GlobalsOf L s₇.glob := k₇.glob ▸ h₁.glob
  -- the bitmap is that of the heap before
  have hbits : ∀ i, bitAt L s₇.mem i = bitAt L s.mem i ∨ L.heap ≤ L.sdramStart + 1028 + i / 8 := by
    intro i
    by_cases hi : L.heap ≤ L.sdramStart + 1028 + i / 8
    · right
      apply hi
    · left
      rw [bitAt, bitAt, hretag.outside _ (by omega) (by omega), store32_apply_of_outside (by omega)]
  have hprobe : ∀ i, c.addr + 4 ≤ i → i < c.addr + 4 + n ∨ i = c.addr + 4 → i % 8 = 0 →
      L.Mapped i ∧ bitAt L s₇.mem (L.slot i) = false := by
    intro i hi hi' hi8
    have hmi : L.Mapped i := by
      constructor
      · omega
      · omega
    refine ⟨hmi, ?_⟩
    have hslot := hmi.slot_lt
    rcases hbits (L.slot i) with hb | hb
    · rw [hb, h.bitAt_probe hi (by omega) hi8]
    · omega
  have hfirst := hprobe (c.addr + 4) (Nat.le_refl _) (.inr rfl) (by omega)
  apply Returns.bind (checkBitmap_returns hg₇ hm)
  rintro _ s₁₁ ⟨rfl, hm₁₁, k₁₁⟩
  have hg₁₁ : GlobalsOf L s₁₁.glob := k₁₁.glob ▸ hg₇
  apply Returns.assert hfirst.2
  have hstop : Word32.add (c.addr + 4) n = c.addr + 4 + n := Word32.add_of_lt (by omega)
  rw [hstop]
  apply Returns.bind (probeBitmap_returns (L := L) (n := 2 ^ 28) hg₁₁ (by
    intro i hi hi' hi8
    rw [hm₁₁]
    apply hprobe i hi (.inl hi') hi8) (by omega) (by omega) (by omega))
  rintro _ s₈ ⟨hm₈, k₈⟩
  rw [hm₁₁] at hm₈
  have hg₈ : GlobalsOf L s₈.glob := k₈.glob ▸ hg₁₁
  apply Returns.bind (updateBitmap_returns _ hg₈ hm)
  rintro _ s₉ ⟨hm₉, k₉⟩
  rw [hm₈] at hm₉
  have hrep := h.rep.claim h.inv hn hretag hm₉
  have hs₉ : (tagAt s₉.mem c.addr).readSize = c.size := by
    rw [← hs₅, ← hhead]
    congr 1
    apply tagAt_congr
    intro x hx hx'
    rw [hm₉, write_apply, if_neg]
    have := hm.slot_lt
    omega
  refine returns_getSize L c.size hs₉ hr₁ ?_
  intro s₁₀ k₁₀ hm₁₀
  -- what the stores and the clearing leave of the memory outside the chunk
  have hcleared : ∀ x, (x < c.addr ∨ c.addr + c.size ≤ x) →
      kmemset s₁₀.mem (c.addr + 4) 0 n x = s₉.mem x := by
    intro x hx
    rw [kmemset_eq_fill, hm₁₀, fill_apply, if_neg (by omega)]
  have hbyte := hm.slot_lt
  refine ⟨_, _, rfl, ⟨rfl, h.inv.claim hn, ?_, ?_, ?_⟩, ?_, ?_⟩
  · have hg := (k₇.trans (k₁₁.trans (k₈.trans (k₉.trans k₁₀)))).glob
    change GlobalsOf L s₁₀.glob
    rw [hg]
    apply h₁.glob
  · change Rep L (H.claim c n) X (kmemset s₁₀.mem (c.addr + 4) 0 n)
    rw [kmemset_eq_fill, hm₁₀]
    apply hrep
  · apply (k₇.trans (k₁₁.trans (k₈.trans (k₉.trans k₁₀)))).log h₁.log
  · intro x hx hfirst hbit
    refine (hcleared x hx).trans ?_
    rw [hm₉, write_apply, if_neg hbit, hretag.outside x (by omega) (by omega),
      store32_apply_of_outside (by omega)]
  · refine (hcleared _ (by omega)).trans ?_
    rw [hm₉, write_apply, if_pos rfl, hretag.outside _ (by omega) (by omega),
      store32_apply_of_outside (by omega)]

/-! ### `__kmalloc` -/

/-- The size of the chunk that is asked for a block of `n` bytes. -/
theorem chunkSizeFor_eq {n : Nat} (hn : n + 15 < 2 ^ 32) :
  chunkSizeFor n = max 16 ((n + 15) / 8 * 8)
  := by
  have hnew : Word32.add n (2 * sizeofChunkTag) = n + 8 :=
    Word32.add_of_lt (show n + 8 < 2 ^ 32 by omega)
  have hmin : (if n + 8 < minAllocBytes then
      Word32.add (n + 8) (Word32.sub minAllocBytes (n + 8)) else n + 8) = max 16 (n + 8) := by
    rw [minAllocBytes]
    split
    case isTrue hlt =>
      rw [Word32.sub_of_le (by omega) (by omega), Word32.add_of_lt (by omega)]
      omega
    case isFalse => omega
  have hpad : dwordPad (max 16 (n + 8)) = (max 16 (n + 8) + 7) / 8 * 8 := by
    rw [dwordPad, dwordBytes, Word32.add_of_lt (by omega)]
  calc chunkSizeFor n = dwordPad (max 16 (n + 8)) := by
        rw [← hmin, ← hnew]
        rfl
    _ = (max 16 (n + 8) + 7) / 8 * 8 := hpad
    _ = max 16 ((n + 15) / 8 * 8) := by omega

theorem padded_chunkSizeFor {n : Nat} (hn : n + 15 < 2 ^ 32) :
  Padded (chunkSizeFor n) ∧ n + 8 ≤ chunkSizeFor n
  := by
  rw [chunkSizeFor_eq hn]
  refine ⟨⟨?_, ?_, ?_⟩, ?_⟩
  all_goals omega

/-- `__kmalloc` on an initialised allocator does what `Heap.kmalloc` does. -/
theorem Good.kmalloc {n : Nat} (pid : Int) (h : Good L H [] s) (hn : n + 15 < 2 ^ 32) :
  Returns s (__kmalloc L n pid) fun r s' =>
    r = (H.kmalloc n (chunkSizeFor n)).1 ∧ Good L (H.kmalloc n (chunkSizeFor n)).2 [] s'
  := by
  obtain ⟨hpadded, hroom⟩ := padded_chunkSizeFor hn
  apply Returns.step h.initRam
  apply Returns.bind (h.allocateChunk hpadded)
  rintro _ s₁ ⟨rfl, h₁⟩
  rw [Heap.kmalloc]
  cases hall : H.allocate (chunkSizeFor n) with
  | mk o H' =>
      rw [hall] at h₁
      cases o with
      | none =>
          simp only [addrOf_none, ne_eq, not_true_eq_false, ↓reduceIte]
          refine ⟨_, _, rfl, rfl, h₁.inv, h₁.glob, h₁.rep, h₁.log⟩
      | some c =>
          have hc0 := h₁.inv.addr_ne_zero (h₁.inv.flight c List.mem_cons_self).1
          have hle := Heap.size_le_of_allocate (H := H) (congrArg Prod.fst hall)
          simp only [addrOf_some, ne_eq, hc0, not_false_eq_true, ↓reduceIte]
          exact (h₁.claimChunk pid (by omega)).mono fun _ _ hclaim => hclaim.1

end Kmalloc
