import Manos.Kmalloc.Run

/-!
# Assertions of the allocator

On the two platforms no assertion of the allocator fails and every tag it reads is in the
memory, in every call of a run that frees no block at the end of a heap that ends before
the memory does.  `assertChunk` takes the chunk whose end is `ramHighAddress` for the last
one; on the layouts of `ram.h` the heap ends four bytes before that, the last chunk is not
recognised, and what follows it is read as a chunk.
-/

open ByteMem Run

namespace Kmalloc

open Exec

/-! ### Calls -/

/-- Every chunk tag that was read or written is inside the memory. -/
def TagsInRange (L : Layout) (s : Alloc) : Prop :=
  ∀ a, .tag a ∈ s.log → (Access.tag a).InRange L

/-- The call that `e` makes in the state `S` returns, so that no assertion in it fails, and
every chunk tag it reads is inside the memory. -/
def Sound (L : Layout) (S : Sys) : Event → Prop
  | .alloc q n => Returns S.alloc.start (q.run L n) fun _ s' => TagsInRange L s'
  | .free f p => Returns S.alloc.start (f.run p) fun _ s' => TagsInRange L s'
  | .store _ _ => True

variable {L : Layout} {S : Sys}

theorem Good.tagsInRange {X : List Chunk} {H : Heap} {s : Alloc} (h : Good L H X s) :
  TagsInRange L s
  := by
  intro a ha
  apply h.log _ ha

/-- In a state that satisfies the invariant of the system a call is sound. -/
theorem SysInv.sound {e : Event} (h : SysInv L S) (he : Allowed S e) (hC : FreesInner L S e) :
  Sound L S e
  := by
  cases e with
  | alloc q n =>
      apply Returns.mono (h.request q he)
      rintro _ _ ⟨_, hg⟩
      apply hg.good.tagsInRange
  | free f p =>
      rcases he with rfl | ⟨n, hp⟩
      · refine ⟨(), S.alloc.start, ?_, ?_⟩
        · rw [f.run_eq, kfree_null]
        · intro a ha
          cases ha
      · apply Returns.mono (h.release f hp hC)
        rintro _ _ ⟨_, hg⟩
        apply hg.good.tagsInRange
  | store a b => trivial

/-- On every layout every call of a run is sound, if neither the run nor the call frees a
block at the end of a heap that ends before the memory does. -/
theorem asserts_hold {S₀ : Sys} (h₀ : Initial S₀)
    (h : Reach (Step L) (FreesInner L) S₀ S) {e : Event} (he : Allowed S e)
    (hC : FreesInner L S e) :
  Sound L S e
  := by
  apply (sysInv_of_reach h (.inl h₀)).sound he hC

/-! ### The last chunk -/

/-- The layout of `ram.h` with its buffer at `0x20000000`. -/
def niceRam : Layout := nice 0x20000000 (by decide) (by decide) (by decide)

/-- The first block can be freed on the layout of `ram.h`. -/
theorem asserts_hold_first :
  ∃ s, Reach (Step niceRam) (FreesInner niceRam) powerOn ⟨s, [(niceRam.heap + 4, 8)]⟩
    ∧ Sound niceRam ⟨s, [(niceRam.heap + 4, 8)]⟩ (.free .kfree (niceRam.heap + 4))
  := by
  obtain ⟨r, s, hrun, rfl, hgood⟩ :=
    initial_powerOn.request (L := niceRam) .syskmalloc0 (n := 8) (by decide) (by decide)
  have hstep : Step niceRam powerOn (.alloc .syskmalloc0 8) _ :=
    Step.alloc (show 8 + 15 < 2 ^ 32 by decide) hrun
  rw [if_neg (by decide)] at hstep
  have hreach : Reach (Step niceRam) (FreesInner niceRam) powerOn ⟨s, [(niceRam.heap + 4, 8)]⟩ :=
    (Reach.refl _).snoc (show FreesInner niceRam powerOn (.alloc .syskmalloc0 8) from trivial) hstep
  refine ⟨s, hreach, ?_⟩
  apply asserts_hold initial_powerOn hreach
  · right
    exact ⟨8, List.mem_singleton_self _⟩
  · -- the chunk of the block has sixteen bytes
    rintro ⟨-, hend⟩
    have hfirst : (Heap.first niceRam powerOn.alloc.mem 8).1 = ⟨niceRam.heap, 16, none⟩ := by
      decide
    have hmem : (⟨niceRam.heap, 16, some 8⟩ : Chunk)
        ∈ (Heap.first niceRam powerOn.alloc.mem 8).2.chunks := by
      decide
    have hsize := (hgood.rep.head _ hmem).1
    rw [Nat.add_sub_cancel] at hend
    simp only at hend hsize
    rw [hsize] at hend
    revert hend
    decide

/-- The checks of a neighbour stop when the tags at its two ends have different sizes. -/
theorem assertNeighbour_stops (who : String) (beside : ChunkTag) {chk : Nat} {s : Alloc}
    (h : (tagAt s.mem chk).readSize ≠ (tagAt s.mem (Word32.sub (Word32.add chk
      (tagAt s.mem chk).readSize) sizeofChunkTag)).readSize) :
  Stops s (assertNeighbour who chk beside)
    (.assertion ("validateChunk() " ++ who ++ " size consistency error")) fun s' =>
      .tag (Word32.sub (Word32.add chk (tagAt s.mem chk).readSize) sizeofChunkTag) ∈ s'.log
  := by
  apply Stops.step (readTag_apply chk s)
  apply Stops.step (getFooter_apply chk _)
  apply Stops.step (readTag_apply _ _)
  apply Stops.assert h
  apply List.mem_cons_self

/-- Freeing a block that fills a heap that ends before the memory does stops, and reads a tag
outside the memory: what follows the heap is taken for a chunk. -/
theorem Good.kfree_last {H : Heap} {s : Alloc} {c : Chunk} {n : Nat} (h : Good L H [] s)
    (hc : c ∈ H.chunks) (hn : c.used = some n) (hfirst : c.addr = L.heap)
    (hend : c.addr + c.size = L.heapEnd) (hlt : L.heapEnd < L.sdramEnd)
    (hsize : (tagAt s.mem (Word32.sub (Word32.add L.heapEnd (tagAt s.mem L.heapEnd).readSize)
      sizeofChunkTag)).readSize ≠ (tagAt s.mem L.heapEnd).readSize)
    (hfar : ¬ (Access.tag (Word32.sub (Word32.add L.heapEnd (tagAt s.mem L.heapEnd).readSize)
      sizeofChunkTag)).InRange L) :
  Stops s (__kfree (c.addr + 4)) (.assertion "validateChunk() succ size consistency error")
    fun s' => ¬ TagsInRange L s'
  := by
  have hL := L.bounds
  obtain ⟨s₁, hm₁, h₁, heq⟩ := h.kfree_eq hc hn
  have hsucc : Word32.add c.addr c.size = L.heapEnd := by
    rw [Word32.add_of_lt (by omega), hend]
  rw [Stops, heq]
  apply Stops.first
  rw [Stops, assertChunk_apply, assertNeighbours, h₁.glob.heap, h₁.glob.high,
    (h₁.rep.head c hc).1, hsucc, when_neg (not_not_intro hfirst.symm), when_pos (by omega), hm₁]
  apply Stops.step (pure_apply () _)
  have hmem : (s₁.readTags c.addr).mem = s.mem := hm₁
  rw [← hmem] at hsize hfar ⊢
  obtain ⟨s', hx, hlog⟩ :=
    assertNeighbour_stops "succ" (tagAt (s₁.readTags c.addr).mem L.heapEnd) hsize.symm
  refine ⟨s', hx, ?_⟩
  intro hrange
  apply hfar (hrange _ hlog)

/-- The word that `initRam` leaves after the heap of `ram.h`, and the one that is taken for its
footer, when all of the memory was zero. -/
theorem tags_after_heap {s : Alloc}
    (h : Good niceRam (Heap.first niceRam powerOn.alloc.mem 1039408).2 [] s) :
  (tagAt s.mem niceRam.heapEnd).readSize = 0xfafafa * 8
    ∧ (tagAt s.mem (niceRam.heapEnd + 0xfafafa * 8 - 4)).readSize = 0
  := by
  have hload : ∀ a, niceRam.heapEnd ≤ a → s.mem.load32 a =
      (Heap.first niceRam powerOn.alloc.mem 1039408).2.data.load32 a := by
    intro a ha
    apply load32_congr
    intro x hx hx'
    apply h.rep.data x (.inr (.inl (by omega)))
  rw [tagAt, tagAt, hload _ (by decide), hload _ (by decide)]
  decide

/-- On the layout of `ram.h` a request for 1039408 bytes gives out all of the heap, and to free
the block stops at an assertion, after a tag outside the memory is read. -/
theorem asserts_fail_last :
  ∃ s, ReachAny (Step niceRam) powerOn ⟨s, [(niceRam.heap + 4, 1039408)]⟩
    ∧ Stops s.start (kfree (niceRam.heap + 4))
      (.assertion "validateChunk() succ size consistency error")
      (fun s' => ¬ TagsInRange niceRam s')
    ∧ ¬ Sound niceRam ⟨s, [(niceRam.heap + 4, 1039408)]⟩ (.free .kfree (niceRam.heap + 4))
  := by
  obtain ⟨s, hreach, hgood⟩ := reach_first (L := niceRam) (n := 1039408) (by decide) (by decide)
  have hmem : (⟨niceRam.heap, niceRam.heapSize, some 1039408⟩ : Chunk)
      ∈ (Heap.first niceRam powerOn.alloc.mem 1039408).2.chunks := by
    decide
  obtain ⟨htag, hfoot⟩ := tags_after_heap hgood.start
  have haddr : Word32.sub (Word32.add niceRam.heapEnd (0xfafafa * 8)) sizeofChunkTag =
      niceRam.heapEnd + 0xfafafa * 8 - 4 := by
    decide
  have hstops : Stops s.start (kfree (niceRam.heap + 4))
      (.assertion "validateChunk() succ size consistency error")
      (fun s' => ¬ TagsInRange niceRam s') := by
    apply hgood.start.kfree_last hmem rfl rfl rfl (by decide)
    · rw [htag, haddr, hfoot]
      decide
    · rw [htag, haddr]
      simp only [Access.InRange]
      decide
  refine ⟨s, hreach, hstops, ?_⟩
  apply hstops.not_returns

end Kmalloc
