import Manos.Kmalloc.Run

/-!
# Isolation of blocks

The chunks of a memory are those found by walking the heap from its start by the sizes in
the tags.  On an initialised allocator they are the chunks of the heap it holds.  So a
block that is given out overlaps no other block and no tag, and the calls of the clients
change no byte of a block but those of the block they free.
-/

open ByteMem Tiling Run

namespace Kmalloc

open Exec

/-! ### The chunks of a memory -/

/-- There is a chunk at `a`: walking the heap by the sizes in the tags leads there. -/
inductive ChunkAt (L : Layout) (m : ByteMem) : Nat → Prop where
  | first : ChunkAt L m L.heap
  | next {a : Nat} (h : ChunkAt L m a) (hlt : a + (tagAt m a).readSize < L.heapEnd) :
      ChunkAt L m (a + (tagAt m a).readSize)

/-- The byte at `x` is one of a tag at the start or at the end of a chunk. -/
def TagByte (L : Layout) (m : ByteMem) (x : Nat) : Prop :=
  ∃ a, ChunkAt L m a ∧ ((a ≤ x ∧ x < a + 4)
    ∨ (a + (tagAt m a).readSize - 4 ≤ x ∧ x < a + (tagAt m a).readSize))

/-- The byte at `x` is one of the block `b`, given by its pointer and its size. -/
def InBlock (b : Nat × Nat) (x : Nat) : Prop := b.1 ≤ x ∧ x < b.1 + b.2

section

variable {L : Layout} {X : List Chunk} {H : Heap} {s : Alloc} {live : List (Nat × Nat)}

theorem mem_of_chunkAt (h : Good L H X s) {a : Nat} (ha : ChunkAt L s.mem a) :
  ∃ c ∈ H.chunks, c.addr = a
  := by
  have hL := L.bounds
  induction ha with
  | first =>
      have ht := h.inv.tiles
      cases hl : H.chunks with
      | nil =>
          rw [hl] at ht
          have : L.heap = L.heapEnd := ht
          omega
      | cons c l =>
          rw [hl] at ht
          refine ⟨c, List.mem_cons_self, ht.1⟩
  | next _ hlt ih =>
      obtain ⟨c, hc, rfl⟩ := ih
      rw [(h.rep.head c hc).1] at hlt ⊢
      apply h.inv.tiles.exists_succ hc
      omega

/-- A byte of a block is not one of a tag. -/
theorem not_tagByte (h : Good L H X s) (hb : Blocks H live) {b : Nat × Nat} {x : Nat}
    (hmem : b ∈ live) (hx : InBlock b x) :
  ¬ TagByte L s.mem x
  := by
  rintro ⟨a, ha, htag⟩
  obtain ⟨d, hd, rfl⟩ := mem_of_chunkAt h ha
  rw [(h.rep.head d hd).1] at htag
  obtain ⟨c, hc, hn, hp⟩ := (hb b.1 b.2).mp hmem
  obtain ⟨hx₁, hx₂⟩ := hx
  have hbc := h.inv.block_bounds hc hn
  by_cases heq : c = d
  · subst heq
    omega
  · have h₁ := h.inv.apart hc hd heq
    have h₂ := h.inv.place hd
    omega

/-- Blocks with different pointers have no byte in common. -/
theorem blocks_disjoint (h : H.Inv L X) (hb : Blocks H live) {b b' : Nat × Nat} {x : Nat}
    (hmem : b ∈ live) (hmem' : b' ∈ live) (hne : b.1 ≠ b'.1) (hx : InBlock b x) :
  ¬ InBlock b' x
  := by
  obtain ⟨c, hc, hn, hp⟩ := (hb b.1 b.2).mp hmem
  obtain ⟨d, hd, hk, hq⟩ := (hb b'.1 b'.2).mp hmem'
  have hcd : c ≠ d := by
    rintro rfl
    apply hne
    omega
  have h₁ := h.apart hc hd hcd
  have h₂ := h.block_bounds hc hn
  have h₃ := h.block_bounds hd hk
  rintro ⟨hx₁, hx₂⟩
  obtain ⟨hx₃, hx₄⟩ := hx
  omega

end

/-! ### The K70 -/

/-- On the K70 the heap ends where the memory does. -/
theorem k70_heapEnd :
  k70.heapEnd = k70.sdramEnd
  := by
  decide

/-- Every run on the K70 frees only blocks that the invariant allows to be freed. -/
theorem reach_k70 {S₀ S : Sys} (h : ReachAny (Step k70) S₀ S) :
  Reach (Step k70) (FreesInner k70) S₀ S
  := by
  apply h.mono
  intro T e _
  cases e with
  | free f p =>
      intro _
      apply k70_heapEnd
  | alloc q n => trivial
  | store a b => trivial

/-- Isolation: in every state of a run on the K70 a request returns, and a block that it gives
out is aligned, in the heap, zero, and apart from every other block and from every tag; and
neither a request nor a free of another block changes a byte of a block. -/
theorem isolation {S₀ S : Sys} (h₀ : Initial S₀) (h : ReachAny (Step k70) S₀ S) :
  (∀ (q : Request) (n : Nat), n + 15 < 2 ^ 32 →
    Returns S.alloc.start (q.run k70 n) fun r s' =>
      (r ≠ 0 → r % 8 = 0 ∧ s'.glob.heap ≤ r ∧ r + n ≤ s'.glob.ramHighAddress
        ∧ (∀ x, InBlock (r, n) x → s'.mem x = 0)
        ∧ (∀ b ∈ S.live, ∀ x, InBlock (r, n) x → ¬ InBlock b x)
        ∧ ∀ x, InBlock (r, n) x → ¬ TagByte k70 s'.mem x)
      ∧ ∀ b ∈ S.live, ∀ x, InBlock b x → s'.mem x = S.alloc.mem x)
  ∧ ∀ (f : Release) (p : Nat), (p = 0 ∨ ∃ n, (p, n) ∈ S.live) →
    Returns S.alloc.start (f.run p) fun _ s' =>
      ∀ b ∈ S.live, b.1 ≠ p → ∀ x, InBlock b x → s'.mem x = S.alloc.mem x
  := by
  have hS := sysInv_of_reach (reach_k70 h) (.inl h₀)
  constructor
  · intro q n hn
    apply Returns.mono (hS.request q hn)
    rintro r s' ⟨H', hg⟩
    refine ⟨?_, ?_⟩
    · intro hr
      have hblocks := hg.blocks
      rw [if_neg hr] at hblocks
      have hmem : (r, n) ∈ (r, n) :: S.live := List.mem_cons_self
      obtain ⟨h₁, h₂, h₃⟩ := hblocks.place hg.good.inv hmem
      have hend := k70_heapEnd
      refine ⟨h₁, ?_, ?_, ?_, ?_, ?_⟩
      · rw [hg.good.glob.heap]
        omega
      · rw [hg.good.glob.high]
        omega
      · rintro x ⟨hx, hx'⟩
        apply hg.zero hr x hx hx'
      · intro b hb x hx
        apply blocks_disjoint hg.good.inv hblocks hmem (List.mem_cons_of_mem _ hb) _ hx
        intro heq
        apply hg.fresh hr b.2
        rw [show (r, b.2) = b from Prod.ext heq rfl]
        apply hb
      · intro x hx
        apply not_tagByte hg.good hblocks hmem hx
    · rintro b hb x ⟨hx, hx'⟩
      apply hg.same b.1 b.2 hb x hx hx'
  · intro f p hp
    rcases hp with rfl | ⟨n, hp⟩
    · rw [f.run_eq]
      refine ⟨_, _, kfree_null _, ?_⟩
      intro b _ _ x _
      rfl
    · apply Returns.mono (hS.release f hp fun _ => k70_heapEnd)
      rintro _ s' ⟨H', hg⟩ b hb hne x ⟨hx, hx'⟩
      apply hg.same b.1 b.2 hb hne x hx hx'

/-- Isolation after a request for eight bytes. -/
theorem isolation_first :
  ∃ s, ReachAny (Step k70) powerOn ⟨s, [(k70.heap + 4, 8)]⟩
    ∧ Returns s.start (Request.syskmalloc0.run k70 16) fun r s' =>
      (r ≠ 0 → r % 8 = 0 ∧ s'.glob.heap ≤ r ∧ r + 16 ≤ s'.glob.ramHighAddress
        ∧ (∀ x, InBlock (r, 16) x → s'.mem x = 0)
        ∧ (∀ b ∈ [(k70.heap + 4, 8)], ∀ x, InBlock (r, 16) x → ¬ InBlock b x)
        ∧ ∀ x, InBlock (r, 16) x → ¬ TagByte k70 s'.mem x)
      ∧ ∀ b ∈ [(k70.heap + 4, 8)], ∀ x, InBlock b x → s'.mem x = s.mem x
  := by
  obtain ⟨s, h, -⟩ := reach_first (L := k70) (n := 8) (by decide) (by decide)
  refine ⟨s, h, ?_⟩
  apply (isolation initial_powerOn h).1 .syskmalloc0 16 (by decide)

end Kmalloc
