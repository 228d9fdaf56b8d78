import Manos.Kmalloc.Refusal
import Manos.Kmalloc.Accounting

/-!
# Coalescing where nothing is free beside

What `coalesce` is to do is stated on memories that show a sound heap: tags at both ends of the
chunks, lists of any length, and the bitmap.  A chunk is isolated when neither of the words next to
it is marked free.  On a list of isolated chunks `coalesce` reads and returns.
-/

open ByteMem PtrChain Tiling

namespace Kmalloc

open Exec

/-! ### Memories and heaps -/

/-- The memory `m` shows the sound heap `H`. -/
structure Shows (L : Layout) (H : Heap) (m : ByteMem) : Prop where
  sound : H.Sound L []
  head : ∀ c ∈ H.chunks, TagIs m c.addr c.size c.used.isNone
  foot : ∀ c ∈ H.chunks, TagIs m (c.addr + c.size - 4) c.size c.used.isNone
  linked : Linked L H [] m
  bitmap : ∀ i, i < 8 * L.bitmapSize →
    (bitAt L m i = true ↔ ∃ c ∈ H.chunks, c.used ≠ none ∧ L.slot (c.addr + 4) = i)

/-- The bytes of the free chunks. -/
def Heap.freeBytes (H : Heap) : Nat :=
  ((H.chunks.filter fun c => c.used.isNone).map Chunk.size).sum

/-- The chunk `c` lies inside the chunk `e`. -/
def Chunk.Within (c e : Chunk) : Prop := e.addr ≤ c.addr ∧ c.addr + c.size ≤ e.addr + e.size

/-- One of the chunks starts where the other ends. -/
def Chunk.Beside (c d : Chunk) : Prop := d.addr + d.size = c.addr ∨ c.addr + c.size = d.addr

/-- What is left of the heap `H` in the memory `m` after the chunks `l` are coalesced: the heap
`H'` in the memory `m'`. -/
structure Coalesced (L : Layout) (l : List Chunk) (H : Heap) (m : ByteMem) (H' : Heap)
    (m' : ByteMem) : Prop where
  shows : Shows L H' m'
  allocated : ∀ c, c.used ≠ none → (c ∈ H'.chunks ↔ c ∈ H.chunks)
  blocks : ∀ c ∈ H.chunks, c.used ≠ none → ∀ x, c.addr ≤ x → x < c.addr + c.size → m' x = m x
  free : H'.freeBytes = H.freeBytes
  merged : ∀ c ∈ l, ∀ d ∈ H.chunks, d.used = none → c.Beside d →
    ∃ e ∈ H'.chunks, e.used = none ∧ c.Within e ∧ d.Within e

/-- `coalesce` on the list `b` of the heap `H` leaves the heap in order. -/
def Coalesces (L : Layout) (H : Heap) (b : Bin) (s : Alloc) : Prop :=
  Returns s (coalesce (s.mem.load32 (b.addr L))) fun _ s' =>
    ∃ H', Coalesced L (H.lists b) H s.mem H' s'.mem

/-- Neither the word before the chunk nor the word behind it is marked free. -/
def Isolated (m : ByteMem) (c : Chunk) : Prop :=
  (tagAt m (c.addr - 4)).free = false ∧ (tagAt m (c.addr + c.size)).free = false

variable {L : Layout} {H : Heap} {s : Alloc} {b : Bin} {c d : Chunk}

/-- The allocator's heaps are shown by its memory. -/
theorem Good.shows (h : Good L H [] s) :
  Shows L H s.mem
  where
  sound := h.inv.sound
  head := h.rep.head
  foot := h.rep.foot
  linked := h.rep.linked
  bitmap := h.rep.bitmap

/-- The bit of a free chunk is clear. -/
theorem Shows.bitAt_free {m : ByteMem} (h : Shows L H m) (hc : c ∈ H.chunks)
    (hfree : c.used = none) :
  bitAt L m (L.slot (c.addr + 4)) = false
  := by
  apply Bool.eq_false_iff.mpr
  intro hbit
  obtain ⟨d, hd, hused, hslot⟩ := (h.bitmap _ (h.sound.slot_lt hc)).mp hbit
  rw [h.sound.slot_inj hd hc hslot] at hused
  apply hused hfree

/-- A free chunk beside an isolated chunk would mark it. -/
theorem Shows.not_beside {m : ByteMem} (h : Shows L H m) (hc : Isolated m c)
    (hd : d ∈ H.chunks) (hfree : d.used = none) :
  ¬ c.Beside d
  := by
  rintro (hbefore | hbehind)
  · have hfoot := (h.foot d hd).2
    rw [hbefore, hc.1, hfree] at hfoot
    cases hfoot
  · have hhead := (h.head d hd).2
    rw [← hbehind, hc.2, hfree] at hhead
    cases hhead

/-! ### The words around a chunk -/

theorem Heap.Sound.payload_eq (h : H.Sound L []) (hc : c ∈ H.chunks) :
  getPayload c.addr = c.addr + 4
  := by
  have hL := L.bounds
  have hpc := h.place hc
  apply Word32.add_of_lt
  rw [sizeofChunkTag]
  omega

theorem Heap.Sound.tagPred_eq (h : H.Sound L []) (hc : c ∈ H.chunks) :
  getTagPred c.addr = c.addr - 4
  := by
  have hL := L.bounds
  have hpc := h.place hc
  apply Word32.sub_of_le
  · rw [sizeofChunkTag]
    omega
  · omega

theorem getSucc_apply (a : Nat) (s : Alloc) :
  getSucc a s = .done (Word32.add a (tagAt s.mem a).readSize)
    { s with log := .tag a :: s.log }
  := rfl

theorem Shows.succ_eq {m : ByteMem} (h : Shows L H m) (hc : c ∈ H.chunks) :
  Word32.add c.addr (tagAt m c.addr).readSize = c.addr + c.size
  := by
  have hL := L.bounds
  have hpc := h.sound.place hc
  rw [(h.head c hc).1]
  apply Word32.add_of_lt (by omega)

/-! ### Isolated chunks -/

/-- What a turn of the loop of `coalesce` finds on a free chunk. -/
theorem Shows.coalesceChunk_eq (hg : GlobalsOf L s.glob) (h : Shows L H s.mem)
    (hc : c ∈ H.chunks) (hfree : c.used = none) :
  ∃ s', s'.mem = s.mem ∧ s'.glob = s.glob ∧ coalesceChunk c.addr s =
    (coalesceCases c.addr (tagAt s.mem (c.addr - 4)).free (tagAt s.mem (c.addr + c.size)).free
      >>= fun _ => pure (s.mem.load32 (c.addr + 8))) s'
  := by
  have hset := checkBitmap_apply hg (h.sound.mapped hc)
  rw [h.bitAt_free hc hfree] at hset
  let log := Access.tag (c.addr + c.size) :: Access.tag c.addr :: Access.tag (c.addr - 4) ::
    Access.bitmap (L.slot (c.addr + 4) / 8) :: s.log
  refine ⟨{ s with log := log }, rfl, rfl, ?_⟩
  rw [coalesceChunk, bind_done (show loadPtr (nextField c.addr) s = .done _ s from rfl),
    h.sound.payload_eq hc, bind_done hset, bind_done (assert_pos rfl _ _),
    h.sound.tagPred_eq hc, bind_done (readTag_apply _ _), bind_done (getSucc_apply _ _),
    h.succ_eq hc, bind_done (readTag_apply _ _)]
  rfl

/-- A turn on an isolated chunk reads. -/
theorem Shows.coalesceChunk_isolated (hg : GlobalsOf L s.glob) (h : Shows L H s.mem)
    (hc : c ∈ H.chunks) (hfree : c.used = none) (hiso : Isolated s.mem c) :
  ∃ s', s'.mem = s.mem ∧ s'.glob = s.glob
    ∧ coalesceChunk c.addr s = .done (s.mem.load32 (c.addr + 8)) s'
  := by
  obtain ⟨s', hm, hglob, hx⟩ := h.coalesceChunk_eq hg hc hfree
  refine ⟨s', hm, hglob, ?_⟩
  rw [hx, hiso.1, hiso.2]
  rfl

/-- The turns on isolated chunks of a list come to the chunk behind them. -/
theorem Shows.coalesceFrom_isolated {l₁ l l₂ : List Chunk} (n : Nat) (hg : GlobalsOf L s.glob)
    (h : Shows L H s.mem) (hb : b.index < maxBins) (hl : H.lists b = l₁ ++ (l ++ l₂))
    (hiso : ∀ d ∈ l, Isolated s.mem d) :
  ∃ s', s'.mem = s.mem ∧ s'.glob = s.glob
    ∧ coalesceFrom (n + l.length) (PtrChain.head ((l ++ l₂).map Chunk.addr)) s
      = coalesceFrom n (PtrChain.head (l₂.map Chunk.addr)) s'
  := by
  induction l generalizing l₁ s with
  | nil => refine ⟨s, rfl, rfl, rfl⟩
  | cons c l ih =>
      have hmem : c ∈ H.lists b := by
        rw [hl]
        simp
      obtain ⟨hc, hfree⟩ := h.sound.listed b c hmem
      have hc0 := h.sound.addr_ne_zero hc
      obtain ⟨s₁, hm₁, hg₁, hx⟩ :=
        h.coalesceChunk_isolated hg hc hfree (hiso c List.mem_cons_self)
      have hchain := h.linked.chain b hb
      rw [hl, List.cons_append, List.map_append, List.map_cons] at hchain
      rw [hchain.load_next] at hx
      have hl' : H.lists b = (l₁ ++ [c]) ++ (l ++ l₂) := by
        rw [hl, List.append_assoc]
        rfl
      rw [← hm₁] at h hiso
      rw [← hg₁] at hg
      obtain ⟨s', hm', hg', hrun⟩ :=
        ih hg h hl' fun d hd => hiso d (List.mem_cons_of_mem _ hd)
      refine ⟨s', hm'.trans hm₁, hg'.trans hg₁, ?_⟩
      rw [← hrun]
      rw [List.cons_append, List.map_cons, PtrChain.head, List.length_cons, ← Nat.add_assoc,
        coalesceFrom, if_neg hc0, bind_done hx]

/-- A heap without free neighbours is as `coalesce` should leave it. -/
theorem Shows.coalesced {m : ByteMem} (h : Shows L H m)
    (hiso : ∀ c ∈ H.lists b, Isolated m c) :
  Coalesced L (H.lists b) H m H m
  where
  shows := h
  allocated := fun _ _ => Iff.rfl
  blocks := fun _ _ _ _ _ _ => rfl
  free := rfl
  merged := by
    intro c hc d hd hfree hbeside
    apply absurd hbeside (h.not_beside (hiso c hc) hd hfree)

/-- On a list of isolated chunks `coalesce` leaves the heap as it is. -/
theorem Shows.coalesces (hg : GlobalsOf L s.glob) (h : Shows L H s.mem)
    (hb : b.index < maxBins) (hiso : ∀ c ∈ H.lists b, Isolated s.mem c) :
  Coalesces L H b s
  := by
  have hlen := h.sound.length_lt b
  obtain ⟨n, hn⟩ := Nat.exists_eq_add_of_lt hlen
  have hl : H.lists b = [] ++ (H.lists b ++ []) := by simp
  obtain ⟨s', hm', -, hrun⟩ := h.coalesceFrom_isolated (n + 1) hg hb hl hiso
  rw [List.append_nil] at hrun
  have hbound : listBound = n + 1 + (H.lists b).length := by omega
  refine ⟨(), s', ?_, H, ?_⟩
  · rw [(h.linked.chain b hb).load, coalesce, hbound, hrun]
    rfl
  · rw [hm']
    apply h.coalesced hiso

end Kmalloc
