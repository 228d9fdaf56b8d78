import Mathlib.Algebra.BigOperators.Group.List.Basic
import Mathlib.Order.Bounds.Defs
import Manos.Kmalloc.Quiet
import Manos.Kmalloc.Rejection
import Manos.Kmalloc.Representation

/-!
# Accounting

The counters of the allocator.  A request that gives out a block counts the size in the tag of its
chunk, a free counts the size that is in the tag by then, and nothing else is counted but the first
chunk, by `initRam`.  As no operation changes the size of an allocated chunk, the counters account
for the chunks of the heap in every state of a run.
-/

open ByteMem PtrChain Tiling Run

namespace Kmalloc

open Exec

/-! ### The bytes in use -/

/-- The allocated chunks. -/
def Heap.allocated (H : Heap) : List Chunk := H.chunks.filter fun c => c.used.isSome

/-- The bytes of the allocated chunks. -/
def Heap.inUse (H : Heap) : Nat := (H.allocated.map Chunk.size).sum

section

variable {L : Layout} {X : List Chunk} {H H' : Heap} {c : Chunk}

theorem Heap.mem_allocated :
  c ∈ H.allocated ↔ c ∈ H.chunks ∧ c.used ≠ none
  := by
  rw [Heap.allocated, List.mem_filter, Option.isSome_iff_ne_none]

theorem Heap.Inv.nodup_allocated (h : H.Inv L X) :
  H.allocated.Nodup
  := by
  apply List.Nodup.filter
  apply h.tiles.nodup
  intro c hc
  have := (h.sized c hc).1
  omega

/-- Heaps with the same allocated chunks have the same bytes in use. -/
theorem Heap.inUse_of_perm {l : List Chunk} (h : H.Inv L X) (hl : l.Nodup)
    (hmem : ∀ c, c ∈ H.allocated ↔ c ∈ l) :
  H.inUse = (l.map Chunk.size).sum
  := by
  have hperm : H.allocated.Perm l :=
    (List.perm_ext_iff_of_nodup h.nodup_allocated hl).mpr hmem
  apply (hperm.map Chunk.size).sum_eq

theorem Heap.SameBlocks.inUse {X' : List Chunk} (h : H.SameBlocks H') (hI : H.Inv L X)
    (hI' : H'.Inv L X') :
  H'.inUse = H.inUse
  := by
  apply Heap.inUse_of_perm hI' hI.nodup_allocated
  intro c
  rw [Heap.mem_allocated, Heap.mem_allocated]
  constructor
  · rintro ⟨hc, hused⟩
    refine ⟨(h.chunks c hused).mp hc, hused⟩
  · rintro ⟨hc, hused⟩
    refine ⟨(h.chunks c hused).mpr hc, hused⟩

/-- A chunk that is given out is in use. -/
theorem Heap.Inv.inUse_claim {n : Nat} (h : H.Inv L (c :: X)) (hn : n + 8 ≤ c.size) :
  (H.claim c n).inUse = c.size + H.inUse
  := by
  obtain ⟨hc, hfree, -⟩ := h.flight c List.mem_cons_self
  have hsum : c.size + H.inUse = ((c.claimed n :: H.allocated).map Chunk.size).sum := by
    rw [List.map_cons, List.sum_cons]
    rfl
  rw [hsum]
  apply Heap.inUse_of_perm (h.claim hn)
  · apply List.nodup_cons.mpr
    refine ⟨?_, h.nodup_allocated⟩
    intro hmem
    obtain ⟨hmem, hused⟩ := Heap.mem_allocated.mp hmem
    have heq : c.claimed n = c := h.eq_of_addr hmem hc rfl
    rw [heq] at hused
    apply hused hfree
  · intro d
    rw [Heap.mem_allocated, List.mem_cons, Heap.mem_allocated, Heap.claim, mem_replace,
      List.mem_singleton]
    constructor
    · rintro ⟨⟨hd, -⟩ | ⟨-, rfl⟩, hused⟩
      · right
        refine ⟨hd, hused⟩
      · left
        rfl
    · rintro (rfl | ⟨hd, hused⟩)
      · refine ⟨.inr ⟨hc, rfl⟩, Option.some_ne_none n⟩
      · refine ⟨.inl ⟨hd, ?_⟩, hused⟩
        rintro rfl
        apply hused hfree

/-- A chunk that is taken back was in use. -/
theorem Heap.Inv.inUse_kfree {n : Nat} (h : H.Inv L X) (hc : c ∈ H.chunks)
    (hn : c.used = some n) :
  H.inUse = c.size + (H.kfree c).inUse
  := by
  have hI : (H.kfree c).Inv L X := (h.release hc hn).pushRecent
  have hsum : c.size + (H.kfree c).inUse
      = ((c :: (H.kfree c).allocated).map Chunk.size).sum := by
    rw [List.map_cons, List.sum_cons]
    rfl
  have hmem : ∀ d, d ∈ (H.kfree c).allocated ↔ d ∈ H.allocated ∧ d ≠ c := by
    intro d
    rw [Heap.mem_allocated, Heap.mem_allocated, show (H.kfree c).chunks
      = Tiling.replace c [c.freed] H.chunks from rfl, mem_replace, List.mem_singleton]
    constructor
    · rintro ⟨⟨hd, hne⟩ | ⟨-, rfl⟩, hused⟩
      · refine ⟨⟨hd, hused⟩, hne⟩
      · apply absurd rfl hused
    · rintro ⟨⟨hd, hused⟩, hne⟩
      refine ⟨.inl ⟨hd, hne⟩, hused⟩
  rw [hsum]
  apply Heap.inUse_of_perm h
  · apply List.nodup_cons.mpr
    refine ⟨?_, hI.nodup_allocated⟩
    intro hcmem
    apply ((hmem c).mp hcmem).2 rfl
  · intro d
    rw [List.mem_cons, hmem d]
    constructor
    · intro hd
      by_cases heq : d = c
      · left
        apply heq
      · right
        refine ⟨hd, heq⟩
    · rintro (rfl | ⟨hd, -⟩)
      · apply Heap.mem_allocated.mpr
        rw [hn]
        refine ⟨hc, Option.some_ne_none n⟩
      · apply hd

end

/-! ### What is counted -/

variable {L : Layout} {S : Sys}

/-- A request counts the chunk of the block, if it gives out one. -/
theorem Good.kmalloc_ctr {H : Heap} {s s' : Alloc} {n r : Nat} {pid : Int} (h : Good L H [] s)
    (hn : n + 15 < 2 ^ 32) (hrun : __kmalloc L n pid s = .done r s') :
  s'.ctr = match (H.allocate (chunkSizeFor n)).1 with
    | some c => s.ctr.countAlloc c.size
    | none => s.ctr
  := by
  have hL := L.bounds
  obtain ⟨hpadded, hroom⟩ := padded_chunkSizeFor hn
  have hgood := (h.kmalloc pid hn).done hrun
  rw [__kmalloc, bind_done h.initRam] at hrun
  obtain ⟨chunk, s₁, hrun₁, hrun⟩ := bind_eq_done_iff.mp hrun
  have hquiet := (quiet_allocateChunk _).done hrun₁
  obtain ⟨rfl, h₁⟩ := (h.allocateChunk hpadded).done hrun₁
  cases hall : H.allocate (chunkSizeFor n) with
  | mk o H' =>
      rw [hall] at h₁ hrun
      rw [Heap.kmalloc, hall] at hgood
      cases o with
      | none =>
          simp only [addrOf_none, ne_eq, not_true_eq_false, ↓reduceIte] at hrun
          cases hrun
          apply hquiet.1
      | some c =>
          obtain ⟨hc, -⟩ := h₁.inv.flight c List.mem_cons_self
          have hc0 := h₁.inv.addr_ne_zero hc
          have hpc := h₁.inv.place hc
          have hle := Heap.size_le_of_allocate (H := H) (congrArg Prod.fst hall)
          simp only [addrOf_some, ne_eq, hc0, not_false_eq_true, ↓reduceIte] at hrun
          obtain ⟨-, -, m, hctr, hmem⟩ := claimChunk_done hrun
          -- the tag lies before what is cleared
          have htag : tagAt s'.mem c.addr = tagAt m c.addr := by
            apply tagAt_congr
            intro x hx hx'
            rw [hmem, kmemset_eq_fill, fill_apply, if_neg]
            rw [getPayload, sizeofChunkTag, Word32.add_of_lt (by omega)]
            omega
          have hclaimed : c.claimed n ∈ (H'.claim c n).chunks :=
            mem_replace.mpr (.inr ⟨hc, List.mem_singleton_self _⟩)
          have hsize := (hgood.2.rep.head _ hclaimed).1
          rw [hctr, ← htag, hquiet.1]
          congr 1

/-- A free that returns counts the size in the tag of the chunk. -/
theorem kfree_ctr {s s' : Alloc} {p : Nat} (h0 : p ≠ 0) (h8 : p % 8 = 0) (hp : p < 2 ^ 32)
    (hrun : __kfree p s = .done () s') :
  s'.ctr = s.ctr.countFree (tagAt s.mem (p - 4)).readSize
  := by
  rcases kfree_cases h0 h8 hp with ⟨-, msg, hstop⟩ | ⟨-, heq⟩
  · rw [hstop] at hrun
    cases hrun
  · obtain ⟨l, -, ⟨-, hx⟩ | ⟨-, msg, hx⟩⟩ := assertChunk_checks (s.access
      [.bitmap (getAddrByte s.glob.heap p), .bitmap (getAddrByte s.glob.heap p)]) (p - 4)
    · rw [heq, bind_done hx] at hrun
      have hctr := releaseChunk_ctr (p - 4) p ((s.access [.bitmap (getAddrByte s.glob.heap p),
        .bitmap (getAddrByte s.glob.heap p)]).access l)
      rw [hrun] at hctr
      apply hctr
    · rw [heq, bind_stop hx] at hrun
      cases hrun

theorem quiet_invalidateBins (header n i : Nat) :
  Follows Quiet (invalidateBins header n i)
  := by
  induction n generalizing i with
  | zero => apply Follows.pure
  | succ n ih =>
      refine .bind (quiet_storePtr _ _) fun _ => .bind (quiet_storePtr _ _) fun _ => ?_
      apply ih

/-- `initRam` counts the first chunk as free. -/
theorem initRam_ctr {s s' : Alloc} (h0 : s.glob.ram0 = 0)
    (hrun : initRam L s = .done () s') (hgood : Good L (Heap.initial L s.mem) [] s') :
  s'.ctr = { s.ctr with allocFree := .ofNat 32 L.heapSize }
  := by
  have hmodify : ∀ {f : Alloc → Alloc} {g : Unit → M Unit} {s : Alloc},
      (Exec.modify f >>= g) s = .done () s' → ∃ t, t = f s ∧ g () t = .done () s' :=
    fun h => ⟨_, rfl, h⟩
  rw [initRam, bind_done (get_apply s), when_pos h0] at hrun
  obtain ⟨t₁, h₁, hrun⟩ := hmodify hrun
  obtain ⟨t₂, h₂, hrun⟩ := hmodify hrun
  obtain ⟨t₃, h₃, hrun⟩ := hmodify hrun
  obtain ⟨_, t₄, h₄, hrun⟩ := (quiet_invalidateBins _ _ _).first hrun
  obtain ⟨t₅, h₅, hrun⟩ := hmodify hrun
  obtain ⟨t₆, h₆, hrun⟩ := hmodify hrun
  obtain ⟨t₇, h₇, hrun⟩ := hmodify hrun
  obtain ⟨chunk, t₈, hinit, hrun⟩ := bind_eq_done_iff.mp hrun
  have h₈ := (quiet_initChunk _ _).done hinit
  have hchunk : chunk = L.heap := initChunk_eq hinit
  obtain ⟨_, t₉, h₉, hrun⟩ := (quiet_getCleanBin _).first hrun
  obtain ⟨_, t₁₀, h₁₀, hrun⟩ := (quiet_storePtr _ _).first hrun
  obtain ⟨_, t₁₁, h₁₁, hrun⟩ := (quiet_getCleanBin _).first hrun
  obtain ⟨_, t₁₂, h₁₂, hrun⟩ := (quiet_storePtr _ _).first hrun
  cases hrun
  have hctr : t₁₂.ctr = s.ctr := by
    rw [h₁₂.1, h₁₁.1, h₁₀.1, h₉.1, h₈.1, h₇, h₆, h₅, h₄.1, h₃, h₂, h₁]
  have hsize := (hgood.rep.head L.firstChunk (List.mem_singleton_self _)).1
  simp only [← hctr, hchunk]
  congr 2

/-! ### The invariant of the counters -/

/-- The counters account for the chunks of the heap and the blocks of the clients. -/
structure Counted (L : Layout) (H : Heap) (live : List (Nat × Nat)) (c : Counters) : Prop where
  inUse : c.allocInUse = .ofNat 32 H.inUse
  total : c.allocInUse + c.allocFree = .ofNat 32 L.heapSize
  balance : c.allocPM = c.allocCount - c.freeCount
  blocks : c.allocPM = .ofNat 32 live.length
  peak : c.allocInUse ≤ c.allocHWM

/-- The high-water mark of `c'` is that of `c`, or what is in use if it is more. -/
def Counters.Follow (c c' : Counters) : Prop :=
  c'.allocHWM = if c'.allocInUse > c.allocHWM then c'.allocInUse else c.allocHWM

theorem Counted.follow_self {H : Heap} {live : List (Nat × Nat)} {c : Counters}
    (h : Counted L H live c) :
  c.Follow c
  := by
  rw [Counters.Follow, if_neg]
  have := h.peak
  bv_omega

theorem Counted.alloc {H H' : Heap} {live : List (Nat × Nat)} {c : Counters} {size : Nat}
    (b : Nat × Nat) (h : Counted L H live c) (hsize : H'.inUse = size + H.inUse) :
  Counted L H' (b :: live) (c.countAlloc size)
  where
  inUse := by
    change c.allocInUse + .ofNat 32 size = _
    rw [h.inUse, hsize, BitVec.ofNat_add, BitVec.add_comm]
  total := by
    rw [← h.total]
    change c.allocInUse + .ofNat 32 size + (c.allocFree - .ofNat 32 size) = _
    generalize c.allocInUse = x
    generalize c.allocFree = y
    generalize BitVec.ofNat 32 size = z
    bv_omega
  balance := by
    change c.allocPM + 1 = c.allocCount + 1 - c.freeCount
    rw [h.balance]
    generalize c.allocCount = x
    generalize c.freeCount = y
    bv_omega
  blocks := by
    change c.allocPM + 1 = _
    rw [h.blocks, List.length_cons, BitVec.ofNat_add]
    rfl
  peak := by
    change c.allocInUse + .ofNat 32 size ≤ if c.allocInUse + .ofNat 32 size > c.allocHWM
      then c.allocInUse + .ofNat 32 size else c.allocHWM
    generalize c.allocInUse + .ofNat 32 size = x
    split
    · apply BitVec.le_refl
    · bv_omega

theorem Counted.free {H H' : Heap} {live live' : List (Nat × Nat)} {c : Counters} {size : Nat}
    (h : Counted L H live c) (hsize : H.inUse = size + H'.inUse)
    (hlive : live.length = live'.length + 1) (hlt : H.inUse < 2 ^ 32) :
  Counted L H' live' (c.countFree size) ∧ c.Follow (c.countFree size)
  := by
  have hfree : c.allocInUse - .ofNat 32 size = .ofNat 32 H'.inUse := by
    rw [h.inUse, hsize]
    bv_omega
  have hle : (c.countFree size).allocInUse ≤ c.allocHWM := by
    have := h.peak
    rw [h.inUse] at this
    change c.allocInUse - .ofNat 32 size ≤ c.allocHWM
    rw [hfree]
    bv_omega
  constructor
  · constructor
    · apply hfree
    · rw [← h.total]
      change c.allocInUse - .ofNat 32 size + (c.allocFree + .ofNat 32 size) = _
      generalize c.allocInUse = x
      generalize c.allocFree = y
      generalize BitVec.ofNat 32 size = z
      bv_omega
    · change c.allocPM - 1 = c.allocCount - (c.freeCount + 1)
      rw [h.balance]
      generalize c.allocCount = x
      generalize c.freeCount = y
      bv_omega
    · change c.allocPM - 1 = _
      rw [h.blocks, hlive]
      bv_omega
    · apply hle
  · rw [Counters.Follow, if_neg]
    · rfl
    · bv_omega

/-! ### The counters in a run -/

/-- The allocator is uninitialised and has counted nothing, or it holds a heap with the blocks of
the clients, and its counters account for them. -/
def Accounted (L : Layout) (S : Sys) : Prop :=
  (Initial S ∧ S.alloc.ctr = ⟨0, 0, 0, 0, 0, 0⟩)
    ∨ ∃ H, Good L H [] S.alloc.start ∧ Blocks H S.live ∧ (S.live.map Prod.fst).Nodup
      ∧ Counted L H S.live S.alloc.ctr

/-- The counters account for what a request leaves. -/
theorem Counted.request {H : Heap} {s s' : Alloc} {live : List (Nat × Nat)} {n r : Nat}
    {pid : Int} (hc : Counted L H live s.ctr) (h : Good L H [] s) (hb : Blocks H live)
    (hnd : (live.map Prod.fst).Nodup) (hn : n + 15 < 2 ^ 32)
    (hrun : __kmalloc L n pid s = .done r s') :
  Accounted L ⟨s', if r = 0 then live else (r, n) :: live⟩ ∧ s.ctr.Follow s'.ctr
  := by
  obtain ⟨hpadded, hroom⟩ := padded_chunkSizeFor hn
  obtain ⟨hr, hgood⟩ := (h.kmalloc pid hn).done hrun
  have hctr := h.kmalloc_ctr hn hrun
  have hsame : H.SameBlocks (H.allocate (chunkSizeFor n)).2 := Heap.sameBlocks_allocate h.inv
  have hI := h.inv_allocate hpadded
  rw [Heap.kmalloc] at hr hgood
  cases hall : H.allocate (chunkSizeFor n) with
  | mk o H' =>
      rw [hall] at hr hgood hctr hsame hI
      cases o with
      | none =>
          have hr0 : r = 0 := hr
          have hctr' : s'.ctr = s.ctr := hctr
          rw [if_pos hr0, hctr']
          refine ⟨.inr ⟨H', hgood.start, hb.same hsame, hnd, ?_⟩, hc.follow_self⟩
          have hinUse : H'.inUse = H.inUse := hsame.inUse h.inv hI
          change Counted L H' live s'.ctr
          rw [hctr']
          refine ⟨?_, hc.total, hc.balance, hc.blocks, hc.peak⟩
          rw [hinUse, hc.inUse]
      | some c =>
          have hr0 : r = c.addr + 4 := hr
          have hctr' : s'.ctr = s.ctr.countAlloc c.size := hctr
          obtain ⟨hcm, hfree, -⟩ := hI.flight c List.mem_cons_self
          have hle := Heap.size_le_of_allocate (H := H) (congrArg Prod.fst hall)
          have hb' := hb.same hsame
          have hinUse : (H'.claim c n).inUse = c.size + H.inUse := by
            rw [hI.inUse_claim (by omega), hsame.inUse h.inv hI]
          rw [if_neg (by omega)]
          refine ⟨.inr ⟨H'.claim c n, hgood.start, ?_, ?_, ?_⟩, ?_⟩
          · rw [hr0]
            apply hb'.claim hcm hfree
          · apply List.nodup_cons.mpr
            refine ⟨?_, hnd⟩
            intro hmem
            obtain ⟨⟨p, k⟩, hp, heq⟩ := List.mem_map.mp hmem
            obtain ⟨d, hd, hk, hpd⟩ := (hb' p k).mp hp
            have hdc : d = c := hI.eq_of_addr hd hcm (by simp only at heq; omega)
            rw [hdc, hfree] at hk
            cases hk
          · change Counted L _ _ s'.ctr
            rw [hctr']
            apply hc.alloc _ hinUse
          · rw [hctr']
            rfl

/-- The counters account for what a free leaves. -/
theorem Counted.release {H : Heap} {s s' : Alloc} {live : List (Nat × Nat)} {n p : Nat}
    (hc : Counted L H live s.ctr) (h : Good L H [] s) (hb : Blocks H live)
    (hnd : (live.map Prod.fst).Nodup) (hp : (p, n) ∈ live) (hrun : __kfree p s = .done () s') :
  Accounted L ⟨s', live.filter fun b => b.1 ≠ p⟩ ∧ s.ctr.Follow s'.ctr
  := by
  have hL := L.bounds
  obtain ⟨c, hcm, hn, rfl⟩ := (hb p n).mp hp
  have hac := h.inv.align hcm
  have hpc := h.inv.place hcm
  have hgood := h.kfree_done hcm hn hrun
  have hctr := kfree_ctr (by omega) (by omega) (by omega) hrun
  rw [Nat.add_sub_cancel, (h.rep.head c hcm).1] at hctr
  have hinUse := h.inv.inUse_kfree hcm hn
  have hle : H.inUse ≤ L.heapSize := by
    have := h.inv.tiles.sum_le fun c => c.used.isSome
    rw [Heap.inUse, Heap.allocated]
    omega
  have hmap : (live.filter fun b => b.1 ≠ c.addr + 4).map Prod.fst
      = (live.map Prod.fst).erase (c.addr + 4) := by
    rw [hnd.erase_eq_filter, List.filter_map]
    apply congrArg (List.map Prod.fst)
    apply List.filter_congr
    intro b _
    apply decide_not
  have hmem : c.addr + 4 ∈ live.map Prod.fst := List.mem_map.mpr ⟨_, hp, rfl⟩
  have hlength : live.length = (live.filter fun b => b.1 ≠ c.addr + 4).length + 1 := by
    have h₁ := congrArg List.length hmap
    have h₂ := List.length_erase_add_one hmem
    rw [List.length_map] at h₁ h₂
    omega
  obtain ⟨hc', hfollow⟩ := hc.free hinUse hlength (by omega)
  rw [← hctr] at hc' hfollow
  refine ⟨.inr ⟨H.kfree c, hgood, hb.kfree h.inv hcm, ?_, hc'⟩, hfollow⟩
  rw [hmap]
  apply hnd.erase

/-- Every step keeps the counters in order. -/
theorem Accounted.step {S' : Sys} {e : Event} (h : Accounted L S) (hs : Step L S e S') :
  Accounted L S' ∧ S.alloc.ctr.Follow S'.alloc.ctr
  := by
  cases hs with
  | @alloc q n r s' hallow hrun =>
      obtain ⟨pid, hq⟩ := q.run_eq L n
      rw [hq] at hrun
      rcases h with ⟨⟨huninit, hlive⟩, hctr⟩ | ⟨H, hgood, hblocks, hnd, hcount⟩
      · obtain ⟨_, s₁, hinit, h₁⟩ := initRam_start huninit L
        have hrun₁ : __kmalloc L n pid s₁ = .done r s' := by
          rw [← hrun, __kmalloc, bind_done hinit, bind_done h₁.initRam]
        have hctr₁ : s₁.ctr = ⟨0, 0, 0, 0, .ofNat 32 L.heapSize, 0⟩ := by
          rw [initRam_ctr (s := S.alloc.start) (congrArg Globals.ram0 huninit) hinit h₁,
            show S.alloc.start.ctr = S.alloc.ctr from rfl, hctr]
        have hcount : Counted L (Heap.initial L S.alloc.mem) [] s₁.ctr := by
          rw [hctr₁]
          refine ⟨rfl, ?_, (BitVec.sub_self _).symm, rfl, ?_⟩
          · apply BitVec.zero_add
          · apply BitVec.le_refl
        obtain ⟨hacc, hfollow⟩ := hcount.request h₁ (blocks_initial L _) List.nodup_nil hallow hrun₁
        rw [hlive]
        refine ⟨hacc, ?_⟩
        rw [hctr₁] at hfollow
        rw [hctr]
        apply hfollow
      · apply Counted.request (s := S.alloc.start) hcount hgood hblocks hnd hallow hrun
  | @free f p s' hallow hrun =>
      rw [f.run_eq] at hrun
      rcases hallow with rfl | ⟨n, hp⟩
      · rw [kfree_null] at hrun
        cases hrun
        rcases h with ⟨⟨huninit, hlive⟩, hctr⟩ | ⟨H, hgood, hblocks, hnd, hcount⟩
        · refine ⟨.inl ⟨⟨huninit, ?_⟩, hctr⟩, ?_⟩
          · rw [hlive]
            rfl
          · change S.alloc.ctr.Follow S.alloc.ctr
            rw [hctr]
            rfl
        · have hfilter : (S.live.filter fun b => b.1 ≠ 0) = S.live := by
            apply List.filter_eq_self.mpr
            intro b hb
            have := hblocks.place hgood.inv (p := b.1) (n := b.2) hb
            apply decide_eq_true
            omega
          rw [hfilter]
          refine ⟨.inr ⟨H, hgood, hblocks, hnd, hcount⟩, hcount.follow_self⟩
      · rcases h with ⟨⟨-, hlive⟩, -⟩ | ⟨H, hgood, hblocks, hnd, hcount⟩
        · rw [hlive] at hp
          cases hp
        · apply Counted.release (s := S.alloc.start) hcount hgood hblocks hnd hp hrun
  | @store a b hallow =>
      obtain ⟨p, n, hp, ha, ha'⟩ := hallow
      rcases h with ⟨⟨-, hlive⟩, -⟩ | ⟨H, hgood, hblocks, hnd, hcount⟩
      · rw [hlive] at hp
        cases hp
      · refine ⟨.inr ⟨_, hgood.store b hblocks hp ha ha', hblocks, hnd, ?_⟩, hcount.follow_self⟩
        refine ⟨hcount.inUse, hcount.total, hcount.balance, hcount.blocks, hcount.peak⟩

/-- The counters of `S` account for the chunks at `as`. -/
structure Balanced (L : Layout) (S : Sys) (as : List Nat) : Prop where
  /-- `allocInUse` is the sum of the sizes of the allocated chunks -/
  inUse : S.alloc.ctr.allocInUse = .ofNat 32
    ((as.filter fun a => !freeAt S.alloc.mem a).map (sizeAt S.alloc.mem)).sum
  /-- `allocInUse + allocFree` is the size of the first chunk -/
  total : S.alloc.ctr.allocInUse + S.alloc.ctr.allocFree = .ofNat 32 L.firstChunk.size
  /-- `allocPM` is `allocCount - freeCount` -/
  balance : S.alloc.ctr.allocPM = S.alloc.ctr.allocCount - S.alloc.ctr.freeCount
  /-- no block is counted twice -/
  once : (S.live.map Prod.fst).Nodup
  /-- `allocPM` is the number of blocks -/
  blocks : S.alloc.ctr.allocPM = .ofNat 32 S.live.length

/-- The chunks of a heap that the counters account for. -/
theorem Counted.balanced {H : Heap} (h : Counted L H S.live S.alloc.ctr)
    (hgood : Good L H [] S.alloc.start) (hnd : (S.live.map Prod.fst).Nodup) :
  Balanced L S (H.chunks.map Chunk.addr)
  where
  inUse := by
    rw [h.inUse, Heap.inUse, Heap.allocated, List.filter_map, List.map_map]
    have hfilter : H.chunks.filter ((fun a => !freeAt S.alloc.mem a) ∘ Chunk.addr)
        = H.chunks.filter fun c => c.used.isSome := by
      apply List.filter_congr
      intro c hc
      have hfree : freeAt S.alloc.mem c.addr = c.used.isNone := (hgood.rep.head c hc).2
      rw [Function.comp_apply, hfree, Option.not_isNone]
    rw [hfilter]
    congr 2
    apply List.map_congr_left
    intro c hc
    apply (hgood.rep.head c (List.mem_of_mem_filter hc)).1.symm
  total := h.total
  balance := h.balance
  once := hnd
  blocks := h.blocks

/-- Along a run the high-water mark is the largest value that `allocInUse` has had. -/
theorem isGreatest_allocHWM {S : Nat → Sys} {n : Nat}
    (h₀ : (S 0).alloc.ctr.allocHWM = (S 0).alloc.ctr.allocInUse)
    (hfollow : ∀ i < n, (S i).alloc.ctr.Follow (S (i + 1)).alloc.ctr) :
  IsGreatest {x | ∃ i ≤ n, x = (S i).alloc.ctr.allocInUse} (S n).alloc.ctr.allocHWM
  := by
  induction n with
  | zero =>
      constructor
      · refine ⟨0, Nat.le_refl 0, h₀⟩
      · rintro x ⟨i, hi, rfl⟩
        rw [Nat.le_zero.mp hi, h₀]
        apply BitVec.le_refl
  | succ n ih =>
      obtain ⟨⟨k, hk, hmax⟩, hle⟩ := ih fun i hi => hfollow i (by omega)
      have hlast := hfollow n (by omega)
      rw [Counters.Follow] at hlast
      constructor
      · split at hlast
        · refine ⟨n + 1, Nat.le_refl _, hlast⟩
        · refine ⟨k, by omega, ?_⟩
          rw [hlast, hmax]
      · rintro x ⟨i, hi, rfl⟩
        rcases Nat.lt_or_ge n i with hi' | hi'
        · rw [show i = n + 1 by omega, hlast]
          split
          · apply BitVec.le_refl
          · bv_omega
        · have := hle ⟨i, hi', rfl⟩
          rw [hlast]
          split
          · bv_omega
          · apply this

/-- Accounting: along a run on the K70 the counters account for the chunks of the heap and the
blocks of the clients as soon as there is a heap, and are zero before; and the high-water mark is
the largest value that `allocInUse` has had. -/
theorem accounting {S : Nat → Sys} {n : Nat} (h₀ : Initial (S 0))
    (hctr : (S 0).alloc.ctr = ⟨0, 0, 0, 0, 0, 0⟩) (hrun : Path (Step k70) S n) :
  ((Initial (S n) ∧ (S n).alloc.ctr = ⟨0, 0, 0, 0, 0, 0⟩)
      ∨ ∃ as lists, Representation k70 (S n).alloc.mem as lists ∧ Balanced k70 (S n) as)
    ∧ IsGreatest {x | ∃ i ≤ n, x = (S i).alloc.ctr.allocInUse} (S n).alloc.ctr.allocHWM
  := by
  have hacc : ∀ i, i ≤ n → Accounted k70 (S i) := by
    intro i hi
    apply hrun.invariant (.inl ⟨h₀, hctr⟩) _ hi
    intro T e T' hT hs
    apply (hT.step hs).1
  constructor
  · rcases hacc n (Nat.le_refl n) with h | ⟨H, hgood, -, hnd, hcount⟩
    · left
      apply h
    · right
      refine ⟨_, _, hgood.representation (by decide) (by decide), hcount.balanced hgood hnd⟩
  · apply isGreatest_allocHWM
    · rw [hctr]
    · intro i hi
      obtain ⟨e, hs⟩ := hrun i hi
      apply ((hacc i (by omega)).step hs).2

/-- Accounting after a request for eight bytes. -/
theorem accounting_first :
  ∃ S : Nat → Sys, S 0 = powerOn ∧ (S 1).live = [(k70.heap + 4, 8)]
    ∧ ((Initial (S 1) ∧ (S 1).alloc.ctr = ⟨0, 0, 0, 0, 0, 0⟩)
      ∨ ∃ as lists, Representation k70 (S 1).alloc.mem as lists ∧ Balanced k70 (S 1) as)
    ∧ IsGreatest {x | ∃ i ≤ 1, x = (S i).alloc.ctr.allocInUse} (S 1).alloc.ctr.allocHWM
  := by
  obtain ⟨r, s, hrun, rfl, -⟩ :=
    initial_powerOn.request (L := k70) .syskmalloc0 (n := 8) (by decide) (by decide)
  have hstep : Step k70 powerOn (.alloc .syskmalloc0 8) _ :=
    Step.alloc (show 8 + 15 < 2 ^ 32 by decide) hrun
  rw [if_neg (by decide)] at hstep
  have hpath : Path (Step k70)
      (fun i => if i = 0 then powerOn else ⟨s, [(k70.heap + 4, 8)]⟩) 1 := by
    intro i hi
    rw [show i = 0 by omega]
    refine ⟨_, hstep⟩
  refine ⟨fun i => if i = 0 then powerOn else ⟨s, [(k70.heap + 4, 8)]⟩, rfl, rfl, ?_⟩
  apply accounting initial_powerOn rfl hpath

end Kmalloc
