import Manos.Kmalloc.Lists

/-!
# Binning chunks

`binChunk` puts a chunk on the list its mode asks for.  Each of the ways in which it edits
a list leaves the words of an insertion at some place of the list.
-/

open ByteMem PtrChain Tiling

namespace Kmalloc

open Exec

variable {L : Layout} {X : List Chunk} {H : Heap} {s : Alloc}

/-! ### Inserting a chunk -/

/-- The memory `m'` is `m` with the chunk at `c` put between the pointer at `p` and the
chunk at `n`. -/
structure Inserted (L : Layout) (H : Heap) (m m' : ByteMem) (c p n : Nat) : Prop where
  word : ∀ w, w % 4 = 0 → m'.load32 w =
    if w = c + 8 then n else if w = c + 4 then p else if n ≠ 0 ∧ w = n + 4 then c + 8
    else if w = p then c else m.load32 w
  relinked : Relinked L H m m'

/-- A chunk put into a list at some place. -/
theorem Linked.insert {b : Bin} {c : Chunk} {l₁ l₂ : List Chunk} {m m' : ByteMem}
    (h : Linked L H (c :: X) m) (hS : H.Sound L (c :: X)) (hb : b.index < maxBins)
    (hl : H.lists b = l₁ ++ l₂)
    (hm : Inserted L H m m' c.addr (slot 8 (b.addr L) (l₁.map Chunk.addr))
      (PtrChain.head (l₂.map Chunk.addr))) :
  Linked L (H.setList b (l₁ ++ c :: l₂)) X m'
  := by
  obtain ⟨hcX, -⟩ := List.nodup_cons.mp hS.fresh
  obtain ⟨hc, hfree, hoff⟩ := hS.flight c List.mem_cons_self
  have hpc := hS.place hc
  have hac := hS.align hc
  have hne := hS.listed_ne hl (hoff b)
  have hseam := hS.seam hb hc hne
  obtain ⟨hpw, hnw⟩ := mem_words_seam L b l₁ l₂
  rw [← hl] at hpw hnw
  have hchain := h.chain b hb
  have hnd := hS.words_nodup hb
  set p := slot 8 (b.addr L) (l₁.map Chunk.addr) with hp
  set n := PtrChain.head (l₂.map Chunk.addr) with hn
  have hld := hm.word
  apply h.setList hS hb hc
  · intro b' _
    apply hoff b'
  · intro w hw hwb hw4 hw8
    rw [hld w hw, if_neg hw8, if_neg hw4, if_neg, if_neg]
    · rintro rfl
      apply hwb hpw
    · rintro ⟨h0, rfl⟩
      apply hwb (hnw h0)
  · rw [hl, List.map_append] at hchain hnd
    rw [List.map_append, List.map_cons]
    apply hchain.insert hnd
    · change m'.load32 p = c.addr
      rw [hld p hseam.p4, if_neg hseam.pc8, if_neg hseam.pc4, if_neg, if_pos rfl]
      rintro ⟨-, hpn⟩
      apply hseam.pn4 hpn
    · rw [hld _ (by omega), if_neg (by omega), if_pos rfl]
    · rw [hld _ (by omega), if_pos rfl]
    · intro z hz
      have hzn : n = z := head_eq_of_mem hz
      have hz0 : z ≠ 0 := hS.head?_ne_zero (fun d hd => (hne d (.inr hd)).1) hz
      have h₁ := hseam.n4
      have h₂ := hseam.nc
      have h₃ := hseam.nc4
      rw [hld _ (by omega), if_neg (by omega), if_neg (by omega), if_pos ⟨by omega, by omega⟩]
    · intro w hw hwp hwz
      rw [← List.map_append, ← hl] at hw
      have hw4 := (hS.word_bounds hb hw).1
      have hwc : w ≠ c.addr + 4 ∧ w ≠ c.addr + 8 := by
        rcases mem_words_list.mp hw with rfl | ⟨d, hd, hwd⟩
        · have := Bin.addr_bounds L hb
          have := L.bounds
          omega
        · have hdc := hne d (by
            rw [hl] at hd
            apply List.mem_append.mp hd)
          have h₁ := hS.align hdc.1
          have h₂ : d.addr ≠ c.addr := by
            intro heq
            apply hdc.2 (hS.eq_of_addr hdc.1 hc heq)
          omega
      rw [hld w hw4, if_neg hwc.2, if_neg hwc.1, if_neg, if_neg hwp]
      rintro ⟨h0, hwn⟩
      apply hwz n (head_mem_head? h0) hwn
  · intro d hd
    right
    refine ⟨List.mem_cons_of_mem _ hd, ?_⟩
    rintro rfl
    apply hcX hd

/-! ### The three ways to insert a chunk -/

/-- What an insertion of the chunk at `c`, between the pointer at `p` and the chunk at `n`,
finds in the memory. -/
structure Insertion (L : Layout) (H : Heap) (m : ByteMem) (c p n : Nat) : Prop where
  seam : Seam c p n
  align : c % 4 = 0
  pos : 0 < c
  lt : c + 8 < 2 ^ 32
  pointer : LinkWord L H p
  behind : n ≠ 0 → LinkWord L H (n + 4)
  prev : LinkWord L H (c + 4)
  next : LinkWord L H (c + 8)
  load : m.load32 p = n
  back : n ≠ 0 → m.load32 (n + 4) = p
  unlinked : m.load32 (c + 8) = 0

theorem Linked.insertion {b : Bin} {c : Chunk} {l₁ l₂ : List Chunk} {m : ByteMem}
    (h : Linked L H (c :: X) m) (hS : H.Sound L (c :: X)) (hb : b.index < maxBins)
    (hl : H.lists b = l₁ ++ l₂) :
  Insertion L H m c.addr (slot 8 (b.addr L) (l₁.map Chunk.addr))
    (PtrChain.head (l₂.map Chunk.addr))
  := by
  obtain ⟨hc, hfree, hoff⟩ := hS.flight c List.mem_cons_self
  have hL := L.bounds
  have hpc := hS.place hc
  have hac := hS.align hc
  obtain ⟨hpw, hnw⟩ := mem_words_seam L b l₁ l₂
  rw [← hl] at hpw hnw
  have hchain := h.chain b hb
  rw [hl, List.map_append] at hchain
  constructor
  case seam =>
    apply hS.seam hb hc
    apply hS.listed_ne hl (hoff b)
  case align => omega
  case pos => omega
  case lt => omega
  case pointer => apply linkWord_of_mem_words hS hb hpw
  case behind =>
    intro h0
    apply linkWord_of_mem_words hS hb (hnw h0)
  case prev =>
    right
    refine ⟨c, hc, hfree, .inl rfl⟩
  case next =>
    right
    refine ⟨c, hc, hfree, .inr rfl⟩
  case load => apply hchain.load_slot
  case back =>
    intro h0
    cases l₂ with
    | nil => apply absurd rfl h0
    | cons d l₂ => apply hchain.load_back
  case unlinked => apply (h.unlinked c List.mem_cons_self).2

namespace Insertion

variable {c p n : Nat}

/-- The memory after the chunk at `c` is put before the chunk at `n`. -/
def beforeMem (m : ByteMem) (c p n : Nat) : ByteMem :=
  (((m.store32 (c + 4) p).store32 p c).store32 (c + 8) n).store32 (n + 4) (c + 8)

theorem insertChunkBefore_returns (h : Insertion L H s.mem c p n) (hn : n ≠ 0) :
  insertChunkBefore n c s = .done () { s with mem := beforeMem s.mem c p n }
  := by
  have hp : p ≠ 0 := Nat.ne_of_gt h.seam.p0
  have hc : c ≠ 0 := Nat.ne_of_gt h.pos
  simp only [insertChunkBefore, bind_apply, assert_pos hn, assert_pos hc, loadPtr, prevField,
    nextField, h.back hn, assert_pos hp, storePtr, modify_apply, beforeMem]

theorem before {m : ByteMem} (h : Insertion L H m c p n) (hn : n ≠ 0) :
  Inserted L H m (beforeMem m c p n) c p n
  where
  word := by
    intro w hw
    obtain ⟨p4, n4, p0, plt, nlt, pc4, pc8, pn4, nc, nc4⟩ := h.seam
    have hc := h.align
    have hlt := h.lt
    rw [beforeMem, load32_store32_aligned (by omega) hw (by omega),
      load32_store32_aligned (by omega) hw nlt, load32_store32_aligned p4 hw (by omega),
      load32_store32_aligned (by omega) hw plt]
    split_ifs
    all_goals first | rfl | omega
  relinked :=
    ((((Relinked.refl L H m).store h.prev).store h.pointer).store h.next).store (h.behind hn)

/-- The memory after the chunk at `c` is put behind the chunk with the last pointer of a
list. -/
def afterMem (m : ByteMem) (c p : Nat) : ByteMem :=
  ((m.store32 (c + 8) 0).store32 p c).store32 (c + 4) p

theorem insertChunkAfter_returns {d : Nat} (h : Insertion L H s.mem c (d + 8) 0) (hd : d ≠ 0) :
  insertChunkAfter d c s = .done () { s with mem := afterMem s.mem c (d + 8) }
  := by
  have hc : c ≠ 0 := Nat.ne_of_gt h.pos
  simp only [insertChunkAfter, bind_apply, assert_pos hd, assert_pos hc, loadPtr, prevField,
    nextField, h.load, storePtr, modify_apply, ne_eq, not_true_eq_false, not_false_eq_true,
    when_neg, pure_apply, afterMem]

theorem after {m : ByteMem} (h : Insertion L H m c p 0) :
  Inserted L H m (afterMem m c p) c p 0
  where
  word := by
    intro w hw
    obtain ⟨p4, n4, p0, plt, nlt, pc4, pc8, pn4, nc, nc4⟩ := h.seam
    have hc := h.align
    have hlt := h.lt
    rw [afterMem, load32_store32_aligned (by omega) hw plt,
      load32_store32_aligned p4 hw (by omega), load32_store32_aligned (by omega) hw (by omega)]
    split_ifs
    all_goals first | rfl | omega
  relinked := (((Relinked.refl L H m).store h.next).store h.pointer).store h.prev

/-- The memory after the chunk at `c` is put on an empty list. -/
def firstMem (m : ByteMem) (c p : Nat) : ByteMem := (m.store32 p c).store32 (c + 4) p

theorem first {m : ByteMem} (h : Insertion L H m c p 0) :
  Inserted L H m (firstMem m c p) c p 0
  where
  word := by
    intro w hw
    obtain ⟨p4, n4, p0, plt, nlt, pc4, pc8, pn4, nc, nc4⟩ := h.seam
    have hc := h.align
    have hlt := h.lt
    have hnext := h.unlinked
    rw [firstMem, load32_store32_aligned (by omega) hw plt,
      load32_store32_aligned p4 hw (by omega)]
    split_ifs
    all_goals first | rfl | omega | (subst w; omega)
  relinked := ((Relinked.refl L H m).store h.pointer).store h.prev

end Insertion

/-! ### Looking up bins -/

theorem getDirtyBin_returns {i : Nat} (h : Good L H X s) (hi : i < maxBins) :
  Returns s (getDirtyBin i) fun a s' =>
    a = (Bin.dirty i).addr L ∧ s'.mem = s.mem ∧ Good L H X s'
  := by
  refine ⟨_, _, rfl, ?_, rfl, h.record hi⟩
  have hL := L.bounds
  simp only [maxBins] at hi
  rw [h.glob.header, dirtyField, Word32.add_of_lt (by omega), Bin.addr]
  omega

theorem getCleanBin_apply {i : Nat} (hg : GlobalsOf L s.glob) (hi : i < maxBins) :
  getCleanBin i s = .done ((Bin.clean i).addr L) { s with log := .bin i :: s.log }
  := by
  have hL := L.bounds
  simp only [maxBins] at hi
  have haddr : cleanField s.glob.header i = (Bin.clean i).addr L := by
    rw [hg.header, cleanField, Word32.add_of_lt (by omega), Bin.addr]
    omega
  rw [← haddr]
  rfl

theorem getCleanBin_returns {i : Nat} (h : Good L H X s) (hi : i < maxBins) :
  Returns s (getCleanBin i) fun a s' =>
    a = (Bin.clean i).addr L ∧ s'.mem = s.mem ∧ Good L H X s'
  := by
  refine ⟨_, _, getCleanBin_apply h.glob hi, rfl, rfl, h.record hi⟩

/-- The first pointer of a list is the address of its first chunk. -/
theorem Good.load_list {b : Bin} (h : Good L H X s) (hb : b.index < maxBins) :
  s.mem.load32 (b.addr L) = PtrChain.head ((H.lists b).map Chunk.addr)
  := (h.rep.chain b hb).load

/-! ### The modes of `binChunk` -/

variable {b : Bin} {c : Chunk} {l₁ l₂ : List Chunk}

/-- The loop of `binChunk` puts a chunk in its place in what is left of a list, and writes links
only. -/
theorem Linked.insertChunkSorted {d : Chunk} {n : Nat} (h : Linked L H (c :: X) s.mem)
    (hS : H.Sound L (c :: X)) (hb : b.index < maxBins) (hl : H.lists b = l₁ ++ d :: l₂)
    (hn : l₂.length < n) :
  ∃ m', insertChunkSorted c.addr n d.addr s = .done () { s with mem := m' }
    ∧ Relinked L H s.mem m'
    ∧ Linked L (H.setList b (l₁ ++ Heap.insertByAddr c (d :: l₂))) X m'
  := by
  induction n generalizing l₁ d l₂ with
  | zero => cases hn
  | succ n ih =>
      have hd : d ∈ H.chunks := by
        apply (hS.listed b d _).1
        rw [hl]
        simp
      have hd0 := hS.addr_ne_zero hd
      rw [Kmalloc.insertChunkSorted, if_neg hd0]
      rw [Heap.insertByAddr]
      split
      case isTrue hlt =>
        have hins := h.insertion hS hb hl
        refine ⟨_, hins.insertChunkBefore_returns hd0, (hins.before hd0).relinked, ?_⟩
        apply h.insert hS hb hl (hins.before hd0)
      case isFalse hlt =>
        have hchain := h.chain b hb
        rw [hl, List.map_append, List.map_cons] at hchain
        have hnext : loadPtr (nextField d.addr) s
            = .done (PtrChain.head (l₂.map Chunk.addr)) s := by
          rw [loadPtr, nextField, hchain.load_next]
        rw [bind_done hnext]
        cases l₂ with
        | nil =>
            have hl' : H.lists b = (l₁ ++ [d]) ++ [] := by rw [hl, List.append_nil]
            have hins := h.insertion hS hb hl'
            have hslot : slot 8 (b.addr L) ((l₁ ++ [d]).map Chunk.addr) = d.addr + 8 := by
              rw [List.map_append, slot_append]
              rfl
            have hlinked := h.insert hS hb hl' hins.after
            rw [hslot] at hins hlinked
            refine ⟨_, hins.insertChunkAfter_returns hd0, hins.after.relinked, ?_⟩
            rw [List.append_assoc] at hlinked
            apply hlinked
        | cons e l₂ =>
            have he : e ∈ H.chunks := by
              apply (hS.listed b e _).1
              rw [hl]
              simp
            have hl' : H.lists b = (l₁ ++ [d]) ++ e :: l₂ := by
              rw [hl, List.append_assoc]
              rfl
            have he0 := hS.addr_ne_zero he
            have hstep := ih hl' (Nat.lt_of_succ_lt_succ hn)
            simp only [List.append_assoc, List.singleton_append] at hstep
            rw [List.map_cons, PtrChain.head, if_neg he0]
            apply hstep

/-- A list of chunks is shorter than the bound on the loops over lists. -/
theorem Heap.Sound.length_lt (h : H.Sound L X) (b : Bin) :
  (H.lists b).length < listBound
  := by
  have hL := L.bounds
  have hlen := h.tiles.length_le (fun c hc => (h.sized c hc).1)
  have hsub : (H.lists b).length ≤ H.chunks.length := by
    apply (h.nodup b).length_le_of_subset
    intro c hc
    apply (h.listed b c hc).1
  rw [listBound]
  omega

/-- The cases `BinDirty` and `BinClean` of `binChunk`, which write links only. -/
theorem Linked.binSorted (h : Linked L H (c :: X) s.mem) (hS : H.Sound L (c :: X))
    (hb : b.index < maxBins) :
  ∃ m', binSorted (b.addr L) c.addr s = .done () { s with mem := m' } ∧ Relinked L H s.mem m'
    ∧ Linked L (H.setList b (Heap.insertByAddr c (H.lists b))) X m'
  := by
  have hload : loadPtr (b.addr L) s = .done (PtrChain.head ((H.lists b).map Chunk.addr)) s := by
    rw [loadPtr, (h.chain b hb).load]
  rw [Kmalloc.binSorted, bind_done hload]
  cases hl : H.lists b with
  | nil =>
      have hins := h.insertion hS hb (hl.trans (List.nil_append _).symm)
      refine ⟨_, rfl, hins.first.relinked, ?_⟩
      apply h.insert hS hb (hl.trans (List.nil_append _).symm) hins.first
  | cons d l =>
      have hlen := hS.length_lt b
      rw [hl] at hlen
      have hd : d ∈ H.chunks := by
        apply (hS.listed b d _).1
        rw [hl]
        apply List.mem_cons_self
      have hd0 := hS.addr_ne_zero hd
      rw [List.map_cons, PtrChain.head, if_neg hd0]
      apply h.insertChunkSorted hS hb (hl.trans (List.nil_append _).symm)
      apply Nat.lt_trans (Nat.lt_succ_self _) hlen

/-- The state after a chunk is put on a list by writing links. -/
theorem Good.relinked {m' : ByteMem} {l : List Chunk} (h : Good L H (c :: X) s)
    (hI : Heap.Inv L X (H.setList b l)) (hm : Relinked L H s.mem m')
    (hl : Linked L (H.setList b l) X m') :
  Good L (H.setList b l) X { s with mem := m' }
  where
  inv := hI
  glob := h.glob
  rep := h.rep.relink h.inv hm _ rfl rfl rfl hl.chain hl.unlinked
  log := h.log

/-- The state after an insertion. -/
theorem Good.inserted {m' : ByteMem} (h : Good L H (c :: X) s) (hb : b.index < maxBins)
    (hl : H.lists b = l₁ ++ l₂) (hI : Heap.Inv L X (H.setList b (l₁ ++ c :: l₂)))
    (hm : Inserted L H s.mem m' c.addr (slot 8 (b.addr L) (l₁.map Chunk.addr))
      (PtrChain.head (l₂.map Chunk.addr))) :
  Good L (H.setList b (l₁ ++ c :: l₂)) X { s with mem := m' }
  := h.relinked hI hm.relinked (h.rep.linked.insert h.inv.sound hb hl hm)

/-- The cases `BinDirty` and `BinClean` of `binChunk`. -/
theorem Good.binSorted (h : Good L H (c :: X) s) (hb : b.index < maxBins)
    (hI : Heap.Inv L X (H.setList b (Heap.insertByAddr c (H.lists b)))) :
  Returns s (binSorted (b.addr L) c.addr) fun _ s' =>
    Good L (H.setList b (Heap.insertByAddr c (H.lists b))) X s'
  := by
  obtain ⟨m', hrun, hm, hl⟩ := h.rep.linked.binSorted h.inv.sound hb
  refine ⟨_, _, hrun, ?_⟩
  apply h.relinked hI hm hl

/-- A chunk on no list passes the first check of `binChunk`. -/
theorem Linked.isUnlinked (h : Linked L H (c :: X) s.mem) (hS : H.Sound L (c :: X)) :
  isUnlinked c.addr s = .done true s
  := by
  obtain ⟨hprev, hnext⟩ := h.unlinked c List.mem_cons_self
  have hc0 := hS.addr_ne_zero (hS.flight c List.mem_cons_self).1
  simp [Kmalloc.isUnlinked, bind_apply, loadPtr, prevField, nextField, hprev, hnext, hc0]

theorem Good.isUnlinked (h : Good L H (c :: X) s) :
  Returns s (isUnlinked c.addr) fun a s' => a = true ∧ s' = s
  := ⟨_, _, h.rep.linked.isUnlinked h.inv.sound, rfl, rfl⟩

/-- Mode `BinDirty`. -/
theorem Good.binDirty (h : Good L H (c :: X) s) :
  Returns s (binChunk c.addr .binDirty) fun _ s' => Good L (H.binDirty c) X s'
  := by
  have hc := (h.inv.flight c List.mem_cons_self).1
  have hidx : getBinIndex c.size < maxBins := by
    have := getBinIndex_bounds (h.inv.sized c hc).1
    rw [maxBins]
    omega
  apply Returns.bind h.isUnlinked
  rintro _ _ ⟨rfl, rfl⟩
  apply Returns.assert rfl
  apply Returns.bind (getSize_returns h hc)
  rintro _ s₂ ⟨rfl, -, h₂⟩
  apply Returns.bind (getDirtyBin_returns h₂ hidx)
  rintro _ s₃ ⟨rfl, -, h₃⟩
  apply h₃.binSorted (b := .dirty (getBinIndex c.size)) hidx h₃.inv.binDirty

/-- Mode `BinRecent`. -/
theorem Good.binRecent (h : Good L H (c :: X) s) :
  Returns s (binChunk c.addr .binRecent) fun _ s' => Good L (H.push .recent c) X s'
  := by
  have hc := (h.inv.flight c List.mem_cons_self).1
  have hidx : Bin.recent.index < maxBins := by decide
  apply Returns.bind h.isUnlinked
  rintro _ _ ⟨rfl, rfl⟩
  apply Returns.assert rfl
  apply Returns.bind (getSize_returns h hc)
  rintro _ s₂ ⟨rfl, -, h₂⟩
  apply Returns.bind (getDirtyBin_returns (i := 0) h₂ (by decide))
  rintro _ s₃ ⟨rfl, -, h₃⟩
  apply returns_loadPtr
  rw [h₃.load_list hidx]
  have hI := h₃.inv.pushRecent
  rw [Heap.push] at hI ⊢
  cases hl : H.lists .recent with
  | nil =>
      rw [hl] at hI
      have hins := h₃.rep.linked.insertion h₃.inv.sound hidx (hl.trans (List.nil_append _).symm)
      refine ⟨_, _, rfl, ?_⟩
      apply h₃.inserted hidx (hl.trans (List.nil_append _).symm) hI hins.first
  | cons d l =>
      rw [hl] at hI
      have hd : d ∈ H.chunks := by
        apply (h₃.inv.listed .recent d _).1
        rw [hl]
        apply List.mem_cons_self
      have hd0 := h₃.inv.addr_ne_zero hd
      have hins := h₃.rep.linked.insertion h₃.inv.sound hidx (hl.trans (List.nil_append _).symm)
      change Returns s₃ (if d.addr = 0 then _ else _) _
      rw [if_neg hd0]
      refine ⟨_, _, hins.insertChunkBefore_returns hd0, ?_⟩
      apply h₃.inserted hidx (hl.trans (List.nil_append _).symm) hI (hins.before hd0)

/-- Mode `BinLastSplitRem`: when there is no clean chunk the list is empty. -/
theorem Good.binLastSplitRem (h : Good L H (c :: X) s) (hclean : H.NoClean) :
  Returns s (binChunk c.addr .binLastSplitRem) fun _ s' => Good L (H.push .remainder c) X s'
  := by
  have hc := (h.inv.flight c List.mem_cons_self).1
  have hidx : Bin.remainder.index < maxBins := by decide
  apply Returns.bind h.isUnlinked
  rintro _ _ ⟨rfl, rfl⟩
  apply Returns.assert rfl
  apply Returns.bind (getSize_returns h hc)
  rintro _ s₂ ⟨rfl, -, h₂⟩
  apply Returns.bind (getCleanBin_returns (i := 0) h₂ (by decide))
  rintro _ s₃ ⟨rfl, -, h₃⟩
  apply returns_loadPtr
  have hl : H.lists .remainder = [] := hclean 0
  rw [h₃.load_list hidx, hl]
  have hI := h₃.inv.pushRemainder hclean
  rw [Heap.push, hl] at hI ⊢
  have hins := h₃.rep.linked.insertion h₃.inv.sound hidx (hl.trans (List.nil_append _).symm)
  apply Returns.assert rfl
  refine ⟨_, _, rfl, ?_⟩
  apply h₃.inserted hidx (hl.trans (List.nil_append _).symm) hI hins.first

end Kmalloc
