import Manos.Kmalloc.Rejection
import Manos.Kmalloc.Representation

/-!
# Immediate reuse

A chunk that is allocated exceeds the size asked for by at most `MIN_ALLOC_BYTES`, whichever of the
searches has found it.  So when its block is freed and the same size is asked for again, the chunk
is the first of the recent ones and an exact match, and the heap is as it was.
-/

open ByteMem Tiling Run

namespace Kmalloc

open Exec

/-! ### The heap -/

section

variable {L : Layout} {H H' : Heap} {c : Chunk} {n size : Nat}

/-- The chunk of a block that was just given out is a new one. -/
theorem Heap.Inv.claimed_notMem {X : List Chunk} (h : H.Inv L (c :: X)) (n : Nat) :
  c.claimed n ∉ H.chunks
  := by
  obtain ⟨hc, hfree, -⟩ := h.flight c List.mem_cons_self
  intro hmem
  have heq : c.claimed n = c := h.eq_of_addr hmem hc rfl
  have hused := congrArg Chunk.used heq
  rw [hfree] at hused
  cases hused

/-- A block that is freed as soon as it is given out leaves its chunk in front of the recent
ones. -/
theorem Heap.Inv.kfree_claim {X : List Chunk} (h : H.Inv L (c :: X)) (n : Nat) :
  ((H.claim c n).kfree (c.claimed n)).chunks = H.chunks
    ∧ ((H.claim c n).kfree (c.claimed n)).lists
      = Function.update H.lists .recent (c :: H.lists .recent)
  := by
  obtain ⟨hc, hfree, -⟩ := h.flight c List.mem_cons_self
  have hfreed : (c.claimed n).freed = c := by
    cases c
    simp only at hfree
    rw [hfree]
    rfl
  constructor
  · change Tiling.replace (c.claimed n) [(c.claimed n).freed]
      (Tiling.replace c [c.claimed n] H.chunks) = _
    rw [hfreed, replace_replace (h.claimed_notMem n)]
  · change Function.update H.lists .recent ((c.claimed n).freed :: H.lists .recent) = _
    rw [hfreed]

/-- The same request after a block is freed gives out the same chunk. -/
theorem Heap.kmalloc_again (hall : H.allocate size = (some c, H')) (hI : H'.Inv L [c]) (n : Nat) :
  let H₃ := ((H'.claim c n).kfree (c.claimed n)).kmalloc n size
  H₃.1 = c.addr + 4 ∧ H₃.2.chunks = (H'.claim c n).chunks ∧ H₃.2.lists = (H'.claim c n).lists
  := by
  obtain ⟨-, -, hoff⟩ := hI.flight c List.mem_cons_self
  obtain ⟨hchunks, hlists⟩ := hI.kfree_claim n
  generalize (H'.claim c n).kfree (c.claimed n) = H₂ at hchunks hlists ⊢
  have hexact : Exact size c := Heap.exact_of_allocate (congrArg Prod.fst hall)
  have hhead : (H₂.lists .recent).head?.filter (Exact size ·) = some c := by
    rw [hlists, Function.update_self, List.head?_cons, Option.filter_some, if_pos]
    apply decide_eq_true hexact
  have hagain : H₂.allocate size = (some c, H₂.unlink c) := by
    rw [Heap.allocate, hhead]
  rw [Heap.kmalloc, hagain]
  refine ⟨rfl, ?_, ?_⟩
  · change Tiling.replace c [c.claimed n] H₂.chunks = Tiling.replace c [c.claimed n] H'.chunks
    rw [hchunks]
  · funext b
    change (H₂.lists b).erase c = H'.lists b
    rw [hlists, Function.update_apply]
    split
    case isTrue hb => rw [List.erase_cons_head, hb]
    case isFalse => apply List.erase_of_not_mem (hoff b)

end

/-! ### The allocator -/

/-- The memories hold the same chunks, with the same sizes and free flags, and the same lists. -/
def SameHeap (L : Layout) (m m' : ByteMem) : Prop :=
  ∃ as lists, Representation L m as lists ∧ Representation L m' as lists
    ∧ ∀ a ∈ as, sizeAt m' a = sizeAt m a ∧ freeAt m' a = freeAt m a

variable {L : Layout} {S : Sys}

theorem Good.sameHeap {H H' : Heap} {s s' : Alloc} (h : Good L H [] s) (h' : Good L H' [] s')
    (hchunks : H'.chunks = H.chunks) (hlists : H'.lists = H.lists) (hL : L.totalRAM % 8 = 0)
    (hupper : 2 ^ 31 ≤ L.sdramStart) :
  SameHeap L s.mem s'.mem
  := by
  have hrep := h'.representation hL hupper
  rw [hchunks, hlists] at hrep
  refine ⟨_, _, h.representation hL hupper, hrep, ?_⟩
  intro a ha
  obtain ⟨c, hc, rfl⟩ := List.mem_map.mp ha
  have hhead := h.rep.head c hc
  rw [← hchunks] at hc
  have hhead' := h'.rep.head c hc
  refine ⟨hhead'.1.trans hhead.1.symm, hhead'.2.trans hhead.2.symm⟩

/-- A request, a free of the block that was given out and the same request again. -/
theorem Good.reuse {H : Heap} {s : Alloc} {n : Nat} (pid pid' : Int) (h : Good k70 H [] s)
    (hn : n + 15 < 2 ^ 32) :
  Returns s (__kmalloc k70 n pid) fun p s₁ => p ≠ 0 →
    Returns s₁.start (__kfree p) fun _ s₂ =>
      Returns s₂.start (__kmalloc k70 n pid') fun p' s₃ => p' = p ∧ SameHeap k70 s₁.mem s₃.mem
  := by
  have hI := h.inv_allocate (padded_chunkSizeFor hn).1
  apply Returns.mono (h.kmalloc pid hn)
  rintro p s₁ ⟨hp, h₁⟩ hp0
  rw [Heap.kmalloc] at hp h₁
  cases hall : H.allocate (chunkSizeFor n) with
  | mk o H' =>
      rw [hall] at hp h₁ hI
      cases o with
      | none => apply absurd hp hp0
      | some c =>
          obtain ⟨hc, -⟩ := hI.flight c List.mem_cons_self
          have hclaimed : c.claimed n ∈ (H'.claim c n).chunks :=
            mem_replace.mpr (.inr ⟨hc, List.mem_singleton_self _⟩)
          have hp' : p = (c.claimed n).addr + 4 := hp
          rw [hp']
          apply Returns.mono (h₁.start.kfree hclaimed rfl fun _ => k70_heapEnd)
          intro _ s₂ h₂
          apply Returns.mono (h₂.start.kmalloc pid' hn)
          rintro p' s₃ ⟨hp'', h₃⟩
          obtain ⟨haddr, hchunks, hlists⟩ := Heap.kmalloc_again hall hI n
          refine ⟨hp''.trans haddr, ?_⟩
          apply h₁.sameHeap h₃ hchunks hlists (by decide) (by decide)

/-- Immediate reuse: in every state of a run on the K70, a block that is given out and freed at
once is given out again for the same size, with the same chunks and lists as after the first
request. -/
theorem immediate_reuse {S₀ S : Sys} (h₀ : Initial S₀) (h : ReachAny (Step k70) S₀ S) {n : Nat}
    (hn : n + 15 < 2 ^ 32) (q q' : Request) (f : Release) :
  Returns S.alloc.start (q.run k70 n) fun p s₁ => p ≠ 0 →
    Returns s₁.start (f.run p) fun _ s₂ =>
      Returns s₂.start (q'.run k70 n) fun p' s₃ => p' = p ∧ SameHeap k70 s₁.mem s₃.mem
  := by
  obtain ⟨pid, hq⟩ := q.run_eq k70 n
  obtain ⟨pid', hq'⟩ := q'.run_eq k70 n
  simp only [hq, hq', f.run_eq]
  rcases sysInv_of_reachAny h (.inl h₀) with ⟨huninit, -⟩ | ⟨H, hgood, -⟩
  · obtain ⟨_, s₁, hinit, h₁⟩ := initRam_start huninit k70
    obtain ⟨p, s', hx, hp⟩ := h₁.reuse pid pid' hn
    refine ⟨p, s', ?_, hp⟩
    rw [← hx, __kmalloc, bind_done hinit, bind_done h₁.initRam]
  · apply hgood.reuse pid pid' hn

/-- The first block, of eight bytes, is reused for another eight bytes. -/
theorem immediate_reuse_first :
  ∃ s, ReachAny (Step k70) powerOn ⟨s, [(k70.heap + 4, 8)]⟩
    ∧ Returns s.start (Request.syskmalloc0.run k70 8) fun p s₁ => p ≠ 0 →
      Returns s₁.start (Release.syskfree.run p) fun _ s₂ =>
        Returns s₂.start (Request.syskmalloc0.run k70 8) fun p' s₃ =>
          p' = p ∧ SameHeap k70 s₁.mem s₃.mem
  := by
  obtain ⟨s, h, -⟩ := reach_first (L := k70) (n := 8) (by decide) (by decide)
  refine ⟨s, h, ?_⟩
  apply immediate_reuse initial_powerOn h (by decide)

end Kmalloc
