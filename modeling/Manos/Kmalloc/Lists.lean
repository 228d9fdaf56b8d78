import Manos.Kmalloc.Rep

/-!
# Lists of free chunks

`unlinkChunk` takes a chunk off its list and `binChunk` puts one on a list: on memories
that represent heaps they do what `Heap.unlink`, `Heap.push` and `Heap.binDirty` do.  Both
write link words only, so everything else that a memory represents stays as it is.
-/

open ByteMem PtrChain Tiling

namespace Kmalloc

open Exec

variable {L : Layout} {X : List Chunk} {H : Heap} {s : Alloc}

/-! ### Rules for the accesses -/

theorem returns_loadPtr {α : Type} {a : Nat} {f : Nat → M α} {Q : α → Alloc → Prop}
    (h : Returns s (f (s.mem.load32 a)) Q) :
  Returns s (loadPtr a >>= f) Q
  := h

/-- Reading the tag of a chunk of a heap. -/
theorem Good.record (h : Good L H X s) {x : Access} (hx : x.InRange L) :
  Good L H X { s with log := x :: s.log }
  where
  inv := h.inv
  glob := h.glob
  rep := h.rep
  log := by
    intro y hy
    rcases List.mem_cons.mp hy with rfl | hy
    · apply hx
    · apply h.log y hy

/-- The tags of a chunk are in the memory. -/
theorem Heap.Inv.tag_inRange {c : Chunk} {a : Nat} (h : H.Inv L X) (hc : c ∈ H.chunks)
    (ha : c.addr ≤ a) (ha' : a + 4 ≤ c.addr + c.size) :
  (Access.tag a).InRange L
  := by
  have hL := L.bounds
  have h₁ := h.place hc
  simp only [Access.InRange]
  omega

/-- The size of a chunk is read from its tag. -/
theorem getSize_returns {c : Chunk} (h : Good L H X s) (hc : c ∈ H.chunks) :
  Returns s (getSize c.addr) fun a s' => a = c.size ∧ s'.mem = s.mem ∧ Good L H X s'
  := by
  refine ⟨_, _, rfl, (h.rep.head c hc).1, rfl, ?_⟩
  apply h.record
  have := h.inv.place hc
  apply h.inv.tag_inRange hc (Nat.le_refl _) (by omega)

/-! ### Memories that differ in links -/

/-- The bytes of the pointers of the bins and of the links of free chunks. -/
def LinkByte (L : Layout) (H : Heap) (x : Nat) : Prop :=
  (L.sdramStart + 4 ≤ x ∧ x < L.sdramStart + 1028)
    ∨ ∃ c ∈ H.chunks, c.used = none ∧ c.addr + 4 ≤ x ∧ x < c.addr + 12

/-- The words of the pointers of the bins and of the links of free chunks. -/
def LinkWord (L : Layout) (H : Heap) (a : Nat) : Prop :=
  (L.sdramStart + 4 ≤ a ∧ a + 4 ≤ L.sdramStart + 1028)
    ∨ ∃ c ∈ H.chunks, c.used = none ∧ (a = c.addr + 4 ∨ a = c.addr + 8)

/-- The memories `m` and `m'` differ in link words only. -/
def Relinked (L : Layout) (H : Heap) (m m' : ByteMem) : Prop := ∀ x, ¬ LinkByte L H x → m' x = m x

theorem Relinked.refl (L : Layout) (H : Heap) (m : ByteMem) :
  Relinked L H m m
  := fun _ _ => rfl

theorem Relinked.store {m m' : ByteMem} {a w : Nat} (h : Relinked L H m m')
    (ha : LinkWord L H a) :
  Relinked L H m (m'.store32 a w)
  := by
  intro x hx
  rw [← h x hx]
  apply store32_apply_of_outside
  by_contra hin
  apply hx
  rcases ha with hbin | ⟨c, hc, hfree, hlink⟩
  · left
    omega
  · right
    refine ⟨c, hc, hfree, ?_⟩
    omega

theorem linkWord_of_mem_words {b : Bin} {w : Nat} (h : H.Sound L X) (hb : b.index < maxBins)
    (hw : w ∈ words 4 8 (b.addr L) ((H.lists b).map Chunk.addr)) :
  LinkWord L H w
  := by
  rcases mem_words_list.mp hw with rfl | ⟨c, hc, hwc⟩
  · left
    apply Bin.addr_bounds L hb
  · right
    obtain ⟨h₁, h₂⟩ := h.listed b c hc
    use c

/-- What a memory represents besides its lists is the same after a change of links. -/
theorem Rep.relink {m m' : ByteMem} {X' : List Chunk} (h : Rep L H X m) (hI : H.Inv L X)
    (hm : Relinked L H m m') (H' : Heap) (hchunks : H'.chunks = H.chunks)
    (hlast : H'.lastAllocSize = H.lastAllocSize) (hdata : H'.data = H.data)
    (hchain : ∀ b : Bin, b.index < maxBins →
      Chain 4 8 m'.load32 (b.addr L) ((H'.lists b).map Chunk.addr))
    (hX : ∀ c ∈ X', Unlinked m' c.addr) :
  Rep L H' X' m'
  := by
  have hL := L.bounds
  -- the bytes of a tag, of the bitmap and of a block are not those of links
  have hfar : ∀ x, (∀ c ∈ H.chunks, c.used = none → ¬ (c.addr + 4 ≤ x ∧ x < c.addr + 12)) →
      (x < L.sdramStart + 4 ∨ L.sdramStart + 1028 ≤ x) → m' x = m x := by
    intro x hx hx'
    apply hm
    rintro (hbin | ⟨c, hc, hfree, hc'⟩)
    · omega
    · apply hx c hc hfree hc'
  have htag : ∀ c ∈ H.chunks, ∀ x, (c.addr ≤ x ∧ x < c.addr + 4)
      ∨ (c.addr + c.size - 4 ≤ x ∧ x < c.addr + c.size) → m' x = m x := by
    intro c hc x hx
    have hp := hI.place hc
    apply hfar
    · intro d hd hfree hd'
      have hpd := hI.place hd
      by_cases heq : c = d
      · subst heq
        omega
      · have := hI.apart hc hd heq
        omega
    · omega
  constructor
  case last =>
    rw [hlast, ← h.last]
    apply load32_congr
    intro x h₁ h₂
    apply hfar
    · intro c hc _ hc'
      have := hI.place hc
      omega
    · omega
  case head =>
    intro c hc
    rw [hchunks] at hc
    apply (h.head c hc).congr
    intro x h₁ h₂
    apply htag c hc x
    left
    omega
  case foot =>
    intro c hc
    rw [hchunks] at hc
    have hp := hI.place hc
    apply (h.foot c hc).congr
    intro x h₁ h₂
    apply htag c hc x
    right
    omega
  case chain => apply hchain
  case unlinked => apply hX
  case bitmap =>
    intro i hi
    rw [hchunks, ← h.bitmap i hi, bitAt, bitAt, hfar]
    · intro c hc _ hc'
      have := hI.place hc
      omega
    · omega
  case data =>
    intro x hx
    have hx' : H.Owned L x := by
      rw [Heap.Owned, hchunks] at hx
      apply hx
    rw [hdata, ← h.data x hx']
    apply hfar
    · intro c hc hfree hc'
      have := hI.place hc
      apply hI.not_owned hc hfree (by omega) (by omega) hx'
    · rcases hx' with h₁ | h₁ | ⟨c, hc, n, hn, h₁, h₂⟩
      · omega
      · omega
      · have := hI.block_bounds hc hn
        omega

/-- The links in the memory `m` are those of the lists of `H`, and those of the chunks `X` are
null. -/
structure Linked (L : Layout) (H : Heap) (X : List Chunk) (m : ByteMem) : Prop where
  chain : ∀ b : Bin, b.index < maxBins →
    Chain 4 8 m.load32 (b.addr L) ((H.lists b).map Chunk.addr)
  unlinked : ∀ c ∈ X, Unlinked m c.addr

theorem Rep.linked {m : ByteMem} (h : Rep L H X m) :
  Linked L H X m
  := ⟨h.chain, h.unlinked⟩

/-- The lists after the list `b` gets or loses the chunk `c`. -/
theorem Linked.setList {m m' : ByteMem} {X' l : List Chunk} {b : Bin} {c : Chunk}
    (h : Linked L H X m) (hS : H.Sound L X) (hb : b.index < maxBins) (hc : c ∈ H.chunks)
    (hoff : ∀ b', b' ≠ b → c ∉ H.lists b')
    (hld : ∀ w, w % 4 = 0 → w ∉ words 4 8 (b.addr L) ((H.lists b).map Chunk.addr) →
      w ≠ c.addr + 4 → w ≠ c.addr + 8 → m'.load32 w = m.load32 w)
    (hchain : Chain 4 8 m'.load32 (b.addr L) (l.map Chunk.addr))
    (hX : ∀ d ∈ X', (d = c ∧ Unlinked m' c.addr) ∨ (d ∈ X ∧ d ≠ c)) :
  Linked L (H.setList b l) X' m'
  := by
  have hL := L.bounds
  have hpc := hS.place hc
  have hac := hS.align hc
  -- the links of a chunk `d` on another list, or on none, are as before
  have hother : ∀ d ∈ H.chunks, d ≠ c → d ∉ H.lists b → ∀ w, w = d.addr + 4 ∨ w = d.addr + 8 →
      m'.load32 w = m.load32 w := by
    intro d hd hne hdb w hw
    have hpd := hS.place hd
    have had := hS.align hd
    have haddr : d.addr ≠ c.addr := by
      intro heq
      apply hne (hS.eq_of_addr hd hc heq)
    apply hld w (by omega)
    · intro hmem
      rcases mem_words_list.mp hmem with hwb | ⟨e, he, hwe⟩
      · have := Bin.addr_bounds L hb
        omega
      · have he' := (hS.listed b e he).1
        have hae := hS.align he'
        have heq : d = e := by
          apply hS.eq_of_addr hd he'
          omega
        subst heq
        apply hdb he
    · omega
    · omega
  constructor
  case chain =>
    intro b' hb'
    rw [Heap.lists_setList]
    split
    case isTrue heq =>
      rw [heq]
      apply hchain
    case isFalse hne =>
      apply (h.chain b' hb').frame
      intro w hw
      rcases mem_words_list.mp hw with rfl | ⟨d, hd, hwd⟩
      · have hbb := Bin.addr_bounds L hb'
        have hba := Bin.addr_align L b'
        apply hld _ hba
        · intro hmem
          apply hS.words_disjoint hb' hb hne hw hmem
        · omega
        · omega
      · apply hother d (hS.listed b' d hd).1 _ _ w hwd
        · rintro rfl
          apply hoff b' hne hd
        · intro hdb
          apply hne (hS.distinct b' b d hd hdb)
  case unlinked =>
    intro d hd
    rcases hX d hd with ⟨rfl, hu⟩ | ⟨hdX, hne⟩
    · apply hu
    · obtain ⟨h₁, h₂, h₃⟩ := hS.flight d hdX
      obtain ⟨hprev, hnext⟩ := h.unlinked d hdX
      constructor
      · rw [hother d h₁ hne (h₃ b) _ (.inl rfl), hprev]
      · rw [hother d h₁ hne (h₃ b) _ (.inr rfl), hnext]

/-- The pointer behind a part of a list of chunks. -/
theorem slot_cases {p : Nat} (l : List Chunk) :
  slot 8 p (l.map Chunk.addr) = p ∨ ∃ c ∈ l, slot 8 p (l.map Chunk.addr) = c.addr + 8
  := by
  induction l generalizing p with
  | nil =>
      left
      rfl
  | cons c l ih =>
      right
      rw [List.map_cons, slot]
      rcases ih (p := c.addr + 8) with heq | ⟨d, hd, heq⟩
      · use c, List.mem_cons_self
      · use d, List.mem_cons_of_mem _ hd

/-! ### The seam of an edit -/

/-- What the pointer at `p` and the chunk at `n` on the two sides of an edit are to the chunk
at `c` that is edited in or out. -/
structure Seam (c p n : Nat) : Prop where
  p4 : p % 4 = 0
  n4 : n % 4 = 0
  p0 : 0 < p
  plt : p < 2 ^ 32
  nlt : n < 2 ^ 32
  pc4 : p ≠ c + 4
  pc8 : p ≠ c + 8
  pn4 : p ≠ n + 4
  nc : n ≠ c
  nc4 : n ≠ c + 4

/-- The chunks on the two sides of a place in a list that a chunk is not on. -/
theorem Heap.Sound.listed_ne {b : Bin} {c : Chunk} {l₁ l₂ : List Chunk} (h : H.Sound L X)
    (hl : H.lists b = l₁ ++ l₂) (hoff : c ∉ H.lists b) (d : Chunk) (hd : d ∈ l₁ ∨ d ∈ l₂) :
  d ∈ H.chunks ∧ d ≠ c
  := by
  have hdl : d ∈ H.lists b := by
    rw [hl]
    apply List.mem_append.mpr hd
  refine ⟨(h.listed b d hdl).1, ?_⟩
  rintro rfl
  apply hoff hdl

/-- The two sides of an edit of the list `b` at the chunk `c`. -/
theorem Heap.Sound.seam {b : Bin} {c : Chunk} {l₁ l₂ : List Chunk} (h : H.Sound L X)
    (hb : b.index < maxBins) (hc : c ∈ H.chunks)
    (hne : ∀ d, d ∈ l₁ ∨ d ∈ l₂ → d ∈ H.chunks ∧ d ≠ c) :
  Seam c.addr (slot 8 (b.addr L) (l₁.map Chunk.addr)) (PtrChain.head (l₂.map Chunk.addr))
  := by
  have hL := L.bounds
  have hpc := h.place hc
  have hac := h.align hc
  have hbb := Bin.addr_bounds L hb
  have hba := Bin.addr_align L b
  have haddr : ∀ d, d ∈ l₁ ∨ d ∈ l₂ → d.addr ≠ c.addr := by
    intro d hd heq
    apply (hne d hd).2 (h.eq_of_addr (hne d hd).1 hc heq)
  have hn : PtrChain.head (l₂.map Chunk.addr) = 0 ∨
      ∃ d ∈ l₂, PtrChain.head (l₂.map Chunk.addr) = d.addr := by
    cases l₂ with
    | nil =>
        left
        rfl
    | cons d l₂ =>
        right
        use d, List.mem_cons_self
        rfl
  have hp := slot_cases (p := b.addr L) l₁
  generalize slot 8 (b.addr L) (l₁.map Chunk.addr) = p at hp ⊢
  generalize PtrChain.head (l₂.map Chunk.addr) = n at hn ⊢
  have hp' : p = b.addr L ∨ (p % 8 = 4 ∧ L.heap ≤ p ∧ p < L.heapEnd ∧ p ≠ c.addr + 8) := by
    rcases hp with heq | ⟨d, hd, heq⟩
    · left
      apply heq
    · right
      have h₁ := h.place (hne d (.inl hd)).1
      have h₂ := h.align (hne d (.inl hd)).1
      have h₃ := haddr d (.inl hd)
      omega
  have hn' : n = 0 ∨ (n % 8 = 4 ∧ L.heap ≤ n ∧ n < L.heapEnd ∧ n ≠ c.addr) := by
    rcases hn with heq | ⟨d, hd, heq⟩
    · left
      apply heq
    · right
      have h₁ := h.place (hne d (.inr hd)).1
      have h₂ := h.align (hne d (.inr hd)).1
      have h₃ := haddr d (.inr hd)
      omega
  constructor
  all_goals omega

/-- The pointer and the chunk of a seam have words of the list, if there is a chunk. -/
theorem mem_words_seam (L : Layout) (b : Bin) (l₁ l₂ : List Chunk) :
  slot 8 (b.addr L) (l₁.map Chunk.addr) ∈ words 4 8 (b.addr L) ((l₁ ++ l₂).map Chunk.addr)
    ∧ (PtrChain.head (l₂.map Chunk.addr) ≠ 0 → PtrChain.head (l₂.map Chunk.addr) + 4 ∈
      words 4 8 (b.addr L) ((l₁ ++ l₂).map Chunk.addr))
  := by
  constructor
  · rw [List.map_append]
    apply slot_mem_words
  · intro h0
    cases l₂ with
    | nil => apply absurd rfl h0
    | cons d l₂ =>
        apply mem_words.mpr
        right
        use d.addr
        constructor
        · simp
        · left
          rfl

/-! ### Taking a chunk off its list -/

/-- The memory after a chunk at `c`, between the pointer at `p` and the chunk at `n`, is
unlinked. -/
def unlinkedMem (m : ByteMem) (c p n : Nat) : ByteMem :=
  let m := m.store32 p n
  let m := if n = 0 then m else m.store32 (n + 4) p
  (m.store32 (c + 4) 0).store32 (c + 8) 0

theorem load32_unlinkedMem {m : ByteMem} {c p n w : Nat} (hs : Seam c p n) (hc : c % 4 = 0)
    (hw : w % 4 = 0) :
  (unlinkedMem m c p n).load32 w =
    if w = c + 8 then 0 else if w = c + 4 then 0 else if n ≠ 0 ∧ w = n + 4 then p
    else if w = p then n else m.load32 w
  := by
  have hn4 := hs.n4
  have hfirst : load32 (if n = 0 then m.store32 p n else (m.store32 p n).store32 (n + 4) p) w =
      if n ≠ 0 ∧ w = n + 4 then p else if w = p then n else m.load32 w := by
    by_cases h0 : n = 0
    · rw [if_pos h0, load32_store32_aligned hs.p4 hw hs.nlt]
      simp only [h0, ne_eq, not_true_eq_false, false_and, ↓reduceIte]
    · rw [if_neg h0, load32_store32_aligned (by omega) hw hs.plt,
        load32_store32_aligned hs.p4 hw hs.nlt]
      simp only [h0, ne_eq, not_false_eq_true, true_and]
  rw [unlinkedMem, load32_store32_aligned (by omega) hw (by decide),
    load32_store32_aligned (by omega) hw (by decide), hfirst]

theorem unlinkChunk_returns {c p n : Nat} (hs : Seam c p n) (hc : c % 4 = 0) (hc0 : c ≠ 0)
    (hprev : s.mem.load32 (c + 4) = p) (hnext : s.mem.load32 (c + 8) = n) :
  unlinkChunk c s = .done c { s with mem := unlinkedMem s.mem c p n }
  := by
  have hp0 : p ≠ 0 := Nat.ne_of_gt hs.p0
  have h₁ : (s.mem.store32 p n).load32 (c + 4) = p := by
    rw [load32_store32_aligned hs.p4 (by omega) hs.nlt, if_neg (Ne.symm hs.pc4), hprev]
  have h₂ : (s.mem.store32 p n).load32 (c + 8) = n := by
    rw [load32_store32_aligned hs.p4 (by omega) hs.nlt, if_neg (Ne.symm hs.pc8), hnext]
  simp only [unlinkChunk, removeChunk, bind_apply, loadPtr, prevField, nextField, hprev, hnext,
    hp0, ne_eq, not_false_eq_true, true_or, ↓reduceIte, hc0, assert_pos, storePtr, modify_apply,
    h₂, unlinkedMem]
  by_cases h0 : n = 0
  · simp [h0]
  · simp [h0, bind_apply, loadPtr, h₁]

theorem Heap.Sound.unlink_eq_setList {b : Bin} {c : Chunk} (h : H.Sound L X) (hc : c ∈ H.lists b) :
  H.unlink c = H.setList b ((H.lists b).erase c)
  := by
  have hlists : (H.unlink c).lists = (H.setList b ((H.lists b).erase c)).lists := by
    funext b'
    rw [lists_setList, Heap.unlink]
    split
    case isTrue heq => rw [heq]
    case isFalse hne =>
      apply List.erase_of_not_mem
      intro hmem
      apply hne (h.distinct b' b c hmem hc)
  rw [Heap.unlink, Heap.setList] at hlists ⊢
  rw [Heap.mk.injEq]
  refine ⟨rfl, hlists, rfl, rfl⟩

/-- A list around one of its chunks. -/
theorem Heap.Sound.list_split {b : Bin} {c : Chunk} (h : H.Sound L X) (hc : c ∈ H.lists b) :
  ∃ l₁ l₂, H.lists b = l₁ ++ c :: l₂ ∧ (H.lists b).erase c = l₁ ++ l₂
    ∧ ∀ d, d ∈ l₁ ∨ d ∈ l₂ → d ∈ H.chunks ∧ d ≠ c
  := by
  obtain ⟨l₁, l₂, hl⟩ := List.append_of_mem hc
  have hnd := h.nodup b
  have herase : (H.lists b).erase c = l₁ ++ l₂ := by
    rw [hl] at hnd ⊢
    have hc₁ : c ∉ l₁ := by
      intro hmem
      apply List.disjoint_of_nodup_append hnd hmem List.mem_cons_self
    rw [List.erase_append_right _ hc₁, List.erase_cons_head]
  refine ⟨l₁, l₂, hl, herase, ?_⟩
  intro d hd
  have hmem : d ∈ (H.lists b).erase c := by
    rw [herase]
    apply List.mem_append.mpr hd
  obtain ⟨hdc, hdl⟩ := (List.Nodup.mem_erase_iff hnd).mp hmem
  refine ⟨(h.listed b d hdl).1, hdc⟩

/-- `unlinkChunk` takes a chunk off its list and writes links only. -/
theorem Linked.unlinkChunk {b : Bin} {c : Chunk} (h : Linked L H X s.mem) (hS : H.Sound L X)
    (hc : c ∈ H.lists b) :
  ∃ m', unlinkChunk c.addr s = .done c.addr { s with mem := m' } ∧ Relinked L H s.mem m'
    ∧ Linked L (H.unlink c) (c :: X) m'
  := by
  obtain ⟨hcH, hfree⟩ := hS.listed b c hc
  have hb := hS.index b c hc
  have hpc := hS.place hcH
  have hac := hS.align hcH
  have hnd := hS.words_nodup hb
  have hchain := h.chain b hb
  obtain ⟨l₁, l₂, hl, herase, hne⟩ := hS.list_split hc
  have hseam := hS.seam hb hcH hne
  have hwords : ∀ w ∈ words 4 8 (b.addr L) ((l₁ ++ l₂).map Chunk.addr),
      w ∈ words 4 8 (b.addr L) ((H.lists b).map Chunk.addr) := by
    intro w hw
    rw [hl]
    apply mem_words.mpr
    rcases mem_words.mp hw with hw | ⟨x, hx, hw⟩
    · left
      apply hw
    · right
      use x
      simp only [List.map_append, List.mem_append, List.map_cons, List.mem_cons] at hx ⊢
      tauto
  obtain ⟨hpw, hnw⟩ := mem_words_seam L b l₁ l₂
  rw [hl, List.map_append, List.map_cons] at hchain hnd
  set p := slot 8 (b.addr L) (l₁.map Chunk.addr) with hp
  set n := PtrChain.head (l₂.map Chunk.addr) with hn
  have hrun := unlinkChunk_returns hseam (by omega) (by omega) hchain.load_back hchain.load_next
  have hld : ∀ w, w % 4 = 0 → (unlinkedMem s.mem c.addr p n).load32 w = _ := fun w hw =>
    load32_unlinkedMem hseam (by omega) hw
  have hcw : ∀ w, w = c.addr + 4 ∨ w = c.addr + 8 → LinkWord L H w := by
    intro w hw
    right
    use c
  refine ⟨_, hrun, ?_, ?_⟩
  · rw [unlinkedMem]
    apply Relinked.store _ (hcw _ (.inr rfl))
    apply Relinked.store _ (hcw _ (.inl rfl))
    have hfirst : Relinked L H s.mem (s.mem.store32 p n) :=
      (Relinked.refl L H s.mem).store (linkWord_of_mem_words hS hb (hwords p hpw))
    split
    · apply hfirst
    case isFalse h0 =>
      apply hfirst.store (linkWord_of_mem_words hS hb (hwords _ (hnw h0)))
  rw [hS.unlink_eq_setList hc, herase]
  apply h.setList hS hb hcH
  · intro b' hb' hmem
    apply hb' (hS.distinct b' b c hmem hc)
  · intro w hw hwb hw4 hw8
    rw [hld w hw, if_neg hw8, if_neg hw4, if_neg, if_neg]
    · rintro rfl
      apply hwb (hwords _ hpw)
    · rintro ⟨h0, rfl⟩
      apply hwb (hwords _ (hnw h0))
  · rw [List.map_append]
    apply hchain.remove hnd
    · change (unlinkedMem s.mem c.addr p n).load32 p = n
      rw [hld p hseam.p4, if_neg hseam.pc8, if_neg hseam.pc4, if_neg, if_pos rfl]
      rintro ⟨-, hpn⟩
      apply hseam.pn4 hpn
    · intro z hz
      have hzn : n = z := head_eq_of_mem hz
      have hz0 : z ≠ 0 := hS.head?_ne_zero (fun d hd => (hne d (.inr hd)).1) hz
      have h₁ := hseam.n4
      have h₂ := hseam.nc
      have h₃ := hseam.nc4
      rw [hld _ (by omega), if_neg (by omega), if_neg (by omega), if_pos ⟨by omega, by omega⟩]
    · intro w hw hwp hw4 hw8 hwz
      rw [← List.map_cons, ← List.map_append, ← hl] at hw
      rw [hld w (hS.word_bounds hb hw).1, if_neg hw8, if_neg hw4, if_neg, if_neg hwp]
      rintro ⟨h0, hwn⟩
      apply hwz n (head_mem_head? h0) hwn
  · intro d hd
    rcases List.mem_cons.mp hd with rfl | hdX
    · left
      refine ⟨rfl, ?_, ?_⟩
      · rw [hld _ (by omega), if_neg (by omega), if_pos rfl]
      · rw [hld _ (by omega), if_pos rfl]
    · right
      refine ⟨hdX, ?_⟩
      rintro rfl
      apply (hS.flight d hdX).2.2 b hc

/-- `unlinkChunk` takes a chunk off its list. -/
theorem Good.unlinkChunk {b : Bin} {c : Chunk} (h : Good L H X s) (hc : c ∈ H.lists b) :
  Returns s (unlinkChunk c.addr) fun a s' => a = c.addr ∧ Good L (H.unlink c) (c :: X) s'
  := by
  obtain ⟨m', hrun, hm, hl⟩ := h.rep.linked.unlinkChunk h.inv.sound hc
  refine ⟨_, _, hrun, rfl, h.inv.unlink hc, h.glob, ?_, h.log⟩
  apply h.rep.relink h.inv hm (H.unlink c) rfl rfl rfl hl.chain hl.unlinked

end Kmalloc
