import Manos.Kmalloc.Binning

/-!
# Writing tags

What an assignment to fields of a tag leaves in the memory, and what a memory represents
after a chunk on no list is written: everything but that chunk is as before.
-/

open ByteMem PtrChain Tiling

namespace Kmalloc

open Exec

/-! ### Tags as words -/

namespace ChunkTag

theorem toWord_lt (t : ChunkTag) :
  t.toWord < 2 ^ 32
  := by
  have h₁ := t.size.isLt
  have h₂ := t.pid.isLt
  rw [toWord]
  split <;> omega

/-- A tag is the one its word holds. -/
theorem ofWord_toWord (t : ChunkTag) :
  ofWord t.toWord = t
  := by
  obtain ⟨size, pid, free⟩ := t
  have h₁ := size.isLt
  have h₂ := pid.isLt
  have hword : toWord ⟨size, pid, free⟩ =
      size.toNat + 2 ^ 24 * pid.toNat + 2 ^ 31 * (if free then 1 else 0) := rfl
  rw [hword, ofWord, mk.injEq]
  refine ⟨?_, ?_, ?_⟩
  · apply BitVec.eq_of_toNat_eq
    rw [BitVec.toNat_ofNat]
    split <;> omega
  · apply BitVec.eq_of_toNat_eq
    rw [BitVec.toNat_ofNat]
    split <;> omega
  · cases free with
    | true =>
        simp only [↓reduceIte, decide_eq_true_eq]
        omega
    | false =>
        simp only [Bool.false_eq_true, ↓reduceIte, decide_eq_false_iff_not]
        omega

@[simp]
theorem readSize_writeFree (t : ChunkTag) (b : Bool) :
  (t.writeFree b).readSize = t.readSize
  := rfl

@[simp]
theorem readSize_writePid (t : ChunkTag) (pid : Int) :
  (t.writePid pid).readSize = t.readSize
  := rfl

@[simp]
theorem free_writeFree (t : ChunkTag) (b : Bool) :
  (t.writeFree b).free = b
  := rfl

/-- The size written to a tag, when it fits the size field. -/
theorem readSize_writeSize (t : ChunkTag) {sz : Nat} (h8 : sz % 8 = 0) (hlt : sz < 2 ^ 27) :
  (t.writeSize sz).readSize = sz
  := by
  simp only [writeSize, readSize, BitVec.toNat_ofNat]
  omega

/-- The size written to a tag loses its low three bits. -/
theorem readSize_writeSize_div (t : ChunkTag) {sz : Nat} (hlt : sz < 2 ^ 27) :
  (t.writeSize sz).readSize = sz / 8 * 8
  := by
  simp only [writeSize, readSize, BitVec.toNat_ofNat]
  omega

end ChunkTag

/-- A tag depends on its four bytes. -/
theorem tagAt_congr {m m' : ByteMem} {a : Nat} (h : ∀ x, a ≤ x → x < a + 4 → m' x = m x) :
  tagAt m' a = tagAt m a
  := by
  rw [tagAt, tagAt, load32_congr h]

theorem tagAt_store32 (m : ByteMem) (a : Nat) (t : ChunkTag) :
  tagAt (m.store32 a t.toWord) a = t
  := by
  rw [tagAt, load32_store32, Nat.mod_eq_of_lt t.toWord_lt, t.ofWord_toWord]

/-! ### Rules -/

/-- The memory `m'` is `m` outside of the `n` bytes from `a` on. -/
def SameOutside (m m' : ByteMem) (a n : Nat) : Prop := ∀ x, x < a ∨ a + n ≤ x → m' x = m x

/-- The state `s'` after accesses in range that change no global variable. -/
structure Keeps (L : Layout) (s s' : Alloc) : Prop where
  glob : s'.glob = s.glob
  log : (∀ x ∈ s.log, x.InRange L) → ∀ x ∈ s'.log, x.InRange L

theorem Keeps.refl (L : Layout) (s : Alloc) :
  Keeps L s s
  := ⟨rfl, fun h => h⟩

theorem Keeps.trans {L : Layout} {s s' s'' : Alloc} (h : Keeps L s s') (h' : Keeps L s' s'') :
  Keeps L s s''
  := ⟨h'.glob.trans h.glob, fun hlog => h'.log (h.log hlog)⟩

theorem keeps_record {L : Layout} {x : Access} (hx : x.InRange L) (s : Alloc) (m : ByteMem) :
  Keeps L s { s with mem := m, log := x :: s.log }
  where
  glob := rfl
  log := by
    intro hlog y hy
    rcases List.mem_cons.mp hy with rfl | hy
    · apply hx
    · apply hlog y hy

section

variable (L : Layout) {s : Alloc} {α : Type} {Q : α → Alloc → Prop} {a : Nat}

theorem returns_updateTag {f : ChunkTag → ChunkTag} {g : Unit → M α}
    (ha : (Access.tag a).InRange L)
    (h : ∀ s', Keeps L s s' → tagAt s'.mem a = f (tagAt s.mem a) →
      SameOutside s.mem s'.mem a 4 → Returns s' (g ()) Q) :
  Returns s (updateTag a f >>= g) Q
  := by
  apply h
  · apply keeps_record ha
  · apply tagAt_store32
  · intro x hx
    apply store32_apply_of_outside hx

theorem returns_store {w : Nat} {g : Unit → M α}
    (h : ∀ s', Keeps L s s' → s'.mem = s.mem.store32 a w → Returns s' (g ()) Q) :
  Returns s (storePtr a w >>= g) Q
  := by
  apply h
  · refine ⟨rfl, fun h => h⟩
  · rfl

theorem returns_storeNull {g : Unit → M α}
    (h : ∀ s', Keeps L s s' → s'.mem.load32 a = 0 → SameOutside s.mem s'.mem a 4 →
      Returns s' (g ()) Q) :
  Returns s (storePtr a 0 >>= g) Q
  := by
  apply h
  · refine ⟨rfl, fun h => h⟩
  · apply load32_store32
  · intro x hx
    apply store32_apply_of_outside hx

theorem readTag_apply (a : Nat) (s : Alloc) :
  readTag a s = .done (tagAt s.mem a) { s with log := .tag a :: s.log }
  := rfl

theorem getSize_apply (a : Nat) (s : Alloc) :
  getSize a s = .done (tagAt s.mem a).readSize { s with log := .tag a :: s.log }
  := rfl

theorem returns_getSize (size : Nat) {g : Nat → M α} (hsize : (tagAt s.mem a).readSize = size)
    (ha : (Access.tag a).InRange L)
    (h : ∀ s', Keeps L s s' → s'.mem = s.mem → Returns s' (g size) Q) :
  Returns s (getSize a >>= g) Q
  := by
  apply Returns.step (getSize_apply a s)
  rw [hsize]
  apply h
  · apply keeps_record ha
  · rfl

theorem getFooter_apply (a : Nat) (s : Alloc) :
  getFooter a s = .done (Word32.sub (Word32.add a (tagAt s.mem a).readSize) sizeofChunkTag)
    { s with log := .tag a :: s.log }
  := rfl

theorem returns_getFooter (size : Nat) {g : Nat → M α} (hsize : (tagAt s.mem a).readSize = size)
    (h4 : 4 ≤ size) (hlt : a + size < 2 ^ 32) (ha : (Access.tag a).InRange L)
    (h : ∀ s', Keeps L s s' → s'.mem = s.mem → Returns s' (g (a + size - 4)) Q) :
  Returns s (getFooter a >>= g) Q
  := by
  have hfoot : Word32.sub (Word32.add a size) sizeofChunkTag = a + size - 4 := by
    rw [Word32.add_of_lt hlt, sizeofChunkTag, Word32.sub_of_le (by omega) hlt]
  apply Returns.step (getFooter_apply a s)
  rw [hsize, hfoot]
  apply h
  · apply keeps_record ha
  · rfl

end

/-! ### Tags of chunks -/

section

variable {L : Layout} {X : List Chunk} {H : Heap} {s : Alloc} {c : Chunk}

/-- The footer of a chunk. -/
theorem getFooter_returns (h : Good L H X s) (hc : c ∈ H.chunks) :
  Returns s (getFooter c.addr) fun a s' =>
    a = c.addr + c.size - 4 ∧ s'.mem = s.mem ∧ Good L H X s'
  := by
  have hL := L.bounds
  have hpc := h.inv.place hc
  refine ⟨_, _, getFooter_apply c.addr s, ?_, rfl, ?_⟩
  · rw [(h.rep.head c hc).1, Word32.add_of_lt (by omega), sizeofChunkTag,
      Word32.sub_of_le (by omega) (by omega)]
  · apply h.record (h.inv.tag_inRange hc (by omega) (by omega))

/-- The tag at the start of a chunk. -/
theorem readTag_returns (h : Good L H X s) (hc : c ∈ H.chunks) :
  Returns s (readTag c.addr) fun t s' =>
    (t.readSize = c.size ∧ t.free = c.used.isNone) ∧ s'.mem = s.mem ∧ Good L H X s'
  := by
  have hpc := h.inv.place hc
  refine ⟨_, _, rfl, h.rep.head c hc, rfl, ?_⟩
  apply h.record (h.inv.tag_inRange hc (by omega) (by omega))

/-- The tag at the end of a chunk. -/
theorem readFooter_returns (h : Good L H X s) (hc : c ∈ H.chunks) :
  Returns s (readTag (c.addr + c.size - 4)) fun t s' =>
    (t.readSize = c.size ∧ t.free = c.used.isNone) ∧ s'.mem = s.mem ∧ Good L H X s'
  := by
  have hpc := h.inv.place hc
  refine ⟨_, _, rfl, h.rep.foot c hc, rfl, ?_⟩
  apply h.record (h.inv.tag_inRange hc (by omega) (by omega))

end

/-! ### Replacing a chunk in memory -/

section

variable {L : Layout} {X : List Chunk} {H : Heap} {c : Chunk}

/-- What a memory represents after a chunk on no list is replaced: its tags, the bitmap and
the bytes of the clients have to be accounted for. -/
theorem Rep.replace {m m' : ByteMem} {X' cs : List Chunk} (h : Rep L H X m) (hI : H.Inv L X)
    (H' : Heap) (hchunks : H'.chunks = Tiling.replace c cs H.chunks) (hlists : H'.lists = H.lists)
    (hc : c ∈ H.chunks) (hoff : ∀ b, c ∉ H.lists b)
    (hbins : ∀ x, L.sdramStart + 4 ≤ x → x < L.sdramStart + 1028 → m' x = m x)
    (hheap : ∀ x, L.heap ≤ x → x < L.heapEnd → x < c.addr ∨ c.addr + c.size ≤ x → m' x = m x)
    (hlast : m'.load32 L.sdramStart = H'.lastAllocSize)
    (htags : ∀ d ∈ cs, TagIs m' d.addr d.size d.used.isNone
      ∧ TagIs m' (d.addr + d.size - 4) d.size d.used.isNone)
    (hX : ∀ d ∈ X', (d ∈ X ∧ d ≠ c) ∨ Unlinked m' d.addr)
    (hbitmap : ∀ i, i < 8 * L.bitmapSize →
      (bitAt L m' i = true ↔ ∃ d ∈ H'.chunks, d.used ≠ none ∧ L.slot (d.addr + 4) = i))
    (hdata : ∀ x, H'.Owned L x → m' x = H'.data x) :
  Rep L H' X' m'
  := by
  have hL := L.bounds
  -- a word of another chunk is as before
  have hother : ∀ d ∈ H.chunks, d ≠ c → ∀ x, d.addr ≤ x → x < d.addr + d.size → m' x = m x := by
    intro d hd hne x hx hx'
    have hpd := hI.place hd
    have := hI.apart hd hc hne
    apply hheap x (by omega) (by omega) (by omega)
  constructor
  case last => apply hlast
  case head =>
    intro d hd
    rw [hchunks] at hd
    rcases mem_replace.mp hd with ⟨hd, hne⟩ | ⟨-, hd⟩
    · have hpd := hI.place hd
      apply (h.head d hd).congr
      intro x h₁ h₂
      apply hother d hd hne x (by omega) (by omega)
    · apply (htags d hd).1
  case foot =>
    intro d hd
    rw [hchunks] at hd
    rcases mem_replace.mp hd with ⟨hd, hne⟩ | ⟨-, hd⟩
    · have hpd := hI.place hd
      apply (h.foot d hd).congr
      intro x h₁ h₂
      apply hother d hd hne x (by omega) (by omega)
    · apply (htags d hd).2
  case chain =>
    intro b hb
    rw [hlists]
    apply (h.chain b hb).frame
    intro w hw
    apply load32_congr
    intro x h₁ h₂
    rcases mem_words_list.mp hw with rfl | ⟨d, hd, hwd⟩
    · have := Bin.addr_bounds L hb
      apply hbins x (by omega) (by omega)
    · have hd' := (hI.listed b d hd).1
      have hpd := hI.place hd'
      apply hother d hd' _ x (by omega) (by omega)
      rintro rfl
      apply hoff b hd
  case unlinked =>
    intro d hd
    rcases hX d hd with ⟨hdX, hne⟩ | hu
    · have hd' := (hI.flight d hdX).1
      have hpd := hI.place hd'
      apply (h.unlinked d hdX).congr
      intro x h₁ h₂
      apply hother d hd' hne x (by omega) (by omega)
    · apply hu
  case bitmap => apply hbitmap
  case data => apply hdata

/-- The bitmap after a change of chunks that keeps the allocated ones. -/
theorem Rep.bitmap_of_same {m m' : ByteMem} {cs : List Chunk} (h : Rep L H X m) (H' : Heap)
    (hchunks : H'.chunks = Tiling.replace c cs H.chunks) (hfree : c.used = none)
    (hcs : ∀ d ∈ cs, d.used = none)
    (hm : ∀ x, L.sdramStart + 1028 ≤ x → x < L.heap → m' x = m x) {i : Nat}
    (hi : i < 8 * L.bitmapSize) :
  bitAt L m' i = true ↔ ∃ d ∈ H'.chunks, d.used ≠ none ∧ L.slot (d.addr + 4) = i
  := by
  have hL := L.bounds
  rw [bitAt, hm _ (by omega) (by omega)]
  change bitAt L m i = true ↔ _
  rw [h.bitmap i hi, hchunks]
  constructor
  · rintro ⟨d, hd, hused, hslot⟩
    refine ⟨d, mem_replace.mpr (.inl ⟨hd, ?_⟩), hused, hslot⟩
    rintro rfl
    apply hused hfree
  · rintro ⟨d, hd, hused, hslot⟩
    rcases mem_replace.mp hd with ⟨hd, -⟩ | ⟨-, hd⟩
    · use d
    · apply absurd (hcs d hd) hused

/-- Who owns a byte after a free chunk is replaced by free ones. -/
theorem owned_of_replace_free {cs : List Chunk} {x : Nat} {H' : Heap}
    (hchunks : H'.chunks = Tiling.replace c cs H.chunks) (hcs : ∀ d ∈ cs, d.used = none)
    (hx : H'.Owned L x) :
  H.Owned L x
  := by
  rcases hx with hx | hx | ⟨d, hd, n, hn, hx⟩
  · left
    apply hx
  · right
    left
    apply hx
  · right
    right
    rw [hchunks] at hd
    rcases mem_replace.mp hd with ⟨hd, -⟩ | ⟨-, hd⟩
    · use d, hd, n, hn
    · rw [hcs d hd] at hn
      cases hn

/-- A byte that is owned after a chunk is replaced, and not in the new block, was owned. -/
theorem Heap.Inv.owned_of_replace {d : Chunk} {x : Nat} {H' : Heap} (h : H.Inv L X)
    (hc : c ∈ H.chunks) (hchunks : H'.chunks = Tiling.replace c [d] H.chunks)
    (hd : ∀ n ∈ d.used, ¬ (d.addr + 4 ≤ x ∧ x < d.addr + 4 + n)) (hx : H'.Owned L x) :
  H.Owned L x ∧ (x < c.addr ∨ c.addr + c.size ≤ x) ∧ (x < L.sdramStart ∨ L.heap ≤ x)
  := by
  have hL := L.bounds
  have hpc := h.place hc
  rcases hx with hx | hx | ⟨e, he, n, hn, hx⟩
  · refine ⟨.inl hx, by omega, by omega⟩
  · refine ⟨.inr (.inl hx), by omega, by omega⟩
  · rw [hchunks] at he
    rcases mem_replace.mp he with ⟨he, hne⟩ | ⟨-, he⟩
    · have hapart := h.apart he hc hne
      have hbounds := h.block_bounds he hn
      refine ⟨.inr (.inr ⟨e, he, n, hn, hx⟩), by omega, by omega⟩
    · rw [List.mem_singleton.mp he] at hn hx
      apply absurd hx (hd n hn)

end

end Kmalloc
