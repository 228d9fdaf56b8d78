import Manos.Kmalloc.Accounting
import Manos.Kmalloc.Refusal

/-!
# Requests of every size

The size of the chunk for a request is computed with 32-bit words.  Near the top of the range the
sum wraps: from `2 ^ 32 - 8` on the smallest chunk is asked for, and in the seven sizes below, a
chunk of no bytes, whose bin is far outside the table.  So a request is honoured exactly when its
size does not wrap, or wraps to the smallest chunk and is refused.
-/

open ByteMem PtrChain Tiling Run

namespace Kmalloc

open Exec

/-! ### Sizes that wrap -/

theorem chunkSizeFor_of_le {n : Nat} (h : 2 ^ 32 ≤ n + 8) (hn : n < 2 ^ 32) :
  chunkSizeFor n = 16
  := by
  have hnew : Word32.add n (2 * sizeofChunkTag) = n + 8 - 2 ^ 32 := by
    rw [Word32.add, sizeofChunkTag]
    omega
  have hlt : n + 8 - 2 ^ 32 < minAllocBytes := by
    rw [minAllocBytes]
    omega
  rw [chunkSizeFor, hnew]
  simp only [hlt, ↓reduceIte]
  rw [minAllocBytes, Word32.sub_of_le (by omega) (by omega), Word32.add_of_lt (by omega), dwordPad,
    Word32.add_of_lt (by rw [dwordBytes]; omega), dwordBytes]
  omega

theorem chunkSizeFor_of_lt {n : Nat} (h : 2 ^ 32 ≤ n + 15) (hn : n + 8 < 2 ^ 32) :
  chunkSizeFor n = 0
  := by
  have hnew : Word32.add n (2 * sizeofChunkTag) = n + 8 :=
    Word32.add_of_lt (show n + 8 < 2 ^ 32 by omega)
  have hge : ¬ n + 8 < minAllocBytes := by
    rw [minAllocBytes]
    omega
  rw [chunkSizeFor, hnew]
  simp only [hge, ↓reduceIte]
  rw [dwordPad, Word32.add, dwordBytes]
  omega

/-- The bin for no bytes is outside the table. -/
theorem le_getBinIndex_zero :
  maxBins ≤ getBinIndex 0
  := by
  decide

/-! ### Chunks of a heap -/

section

variable {L : Layout} {X : List Chunk} {H : Heap} {s : Alloc} {c : Chunk}

/-- Walking the heap comes to every chunk. -/
theorem Good.chunkAt (h : Good L H X s) (hc : c ∈ H.chunks) :
  ChunkAt L s.mem c.addr
  := by
  have hpos : ∀ d ∈ H.chunks, 16 ≤ d.size := fun d hd => (h.inv.sized d hd).1
  induction hk : c.addr using Nat.strongRecOn generalizing c with
  | ind k ih =>
      by_cases hfirst : c.addr = L.heap
      · rw [← hk, hfirst]
        apply ChunkAt.first
      · obtain ⟨d, hd, hdc⟩ := h.inv.tiles.exists_pred hc hfirst
        have hd16 := hpos d hd
        have hsize := (h.rep.head d hd).1
        have hpc := h.inv.place hc
        have hat := ih d.addr (by omega) hd rfl
        rw [← hk, ← hdc, ← hsize]
        apply hat.next
        omega

end

/-! ### Requests that are honoured -/

variable {L : Layout} {S : Sys}

/-- The memory when a request for `n` bytes has found a chunk and has not claimed it yet. -/
def allotted (L : Layout) (S : Sys) (n : Nat) : ByteMem :=
  ((initRam L >>= fun _ => allocateChunk (chunkSizeFor n)) S.alloc.start).state.mem

/-- What an honoured request for `n` bytes leaves: `NULL` with the blocks, the bitmap and the
counters as `initRam` leaves them, or the payload of a chunk that has room for `n` bytes and its
two tags; no bin outside the table was looked up, no byte of a block or outside the memory has
changed, and what was stored or cleared after the chunk was found is in the chunk, but for the size
of the last allocation and the bit for the block. -/
structure Honours (L : Layout) (S : Sys) (n r : Nat) (s' : Alloc) : Prop where
  bins : ∀ i, .bin i ∈ s'.log → i < maxBins
  refused : r = 0 → s'.ctr = (initRam L S.alloc.start).state.ctr
    ∧ ∀ i, i < 8 * L.bitmapSize → bitAt L s'.mem i = bitAt L (searched L S) i
  granted : r ≠ 0 → ChunkAt L s'.mem (r - 4) ∧ n + 8 ≤ sizeAt s'.mem (r - 4)
  cleared : r ≠ 0 → Claimed L (allotted L S n) s'.mem (r - 4) (sizeAt s'.mem (r - 4))
  blocks : ∀ b ∈ S.live, ∀ x, InBlock b x → s'.mem x = S.alloc.mem x
  outside : ∀ x, x < L.sdramStart ∨ L.sdramEnd ≤ x → s'.mem x = S.alloc.mem x

/-- The condition for a request for `n` bytes to be honoured: no sum wraps, or the smallest chunk
is asked for instead and there is none. -/
def Honourable (L : Layout) (S : Sys) (n : Nat) : Prop :=
  n + 15 < 2 ^ 32 ∨ (2 ^ 32 ≤ n + 8 ∧ ¬ Served L (searched L S) minAllocBytes)

/-- What the allocator finds when it starts to search: a heap with the blocks of the clients, and
the bytes that are not its own. -/
structure Found (L : Layout) (S : Sys) (H : Heap) (s₁ : Alloc) : Prop where
  good : Good L H [] s₁
  state : s₁ = (initRam L S.alloc.start).state
  blocks : Blocks H S.live
  same : ∀ x, (x < L.sdramStart ∨ L.sdramEnd ≤ x ∨ ∃ b ∈ S.live, InBlock b x) →
    s₁.mem x = S.alloc.mem x
  run : ∀ n pid, __kmalloc L n pid S.alloc.start = __kmalloc L n pid s₁
  chunk : ∀ n, allotted L S n = (allocateChunk (chunkSizeFor n) s₁).state.mem

theorem Initial.found (h : Initial S) (L : Layout) :
  ∃ s₁, Found L S (Heap.initial L S.alloc.mem) s₁
  := by
  obtain ⟨_, s₁, hinit, h₁⟩ := initRam_start h.1 L
  refine ⟨s₁, h₁, ?_, ?_, ?_, ?_, ?_⟩
  · rw [hinit]
    rfl
  · rw [h.2]
    apply blocks_initial
  · intro x hx
    have hL := L.bounds
    have htotal := L.totalRAM_eq
    have hdata : (Heap.initial L S.alloc.mem).data = S.alloc.mem.fill L.heap L.totalRAM 0xfa := rfl
    rcases hx with hx | hx | ⟨b, hb, -⟩
    · rw [h₁.rep.data x (.inl hx), hdata, fill_apply, if_neg (by omega)]
    · rw [h₁.rep.data x (.inr (.inl (by omega))), hdata, fill_apply, if_neg (by omega)]
    · rw [h.2] at hb
      cases hb
  · intro n pid
    rw [__kmalloc, bind_done hinit, bind_done h₁.initRam]
  · intro n
    rw [allotted, bind_done hinit]

theorem SysInv.found (h : SysInv L S) :
  ∃ H s₁, Found L S H s₁
  := by
  rcases h with h | ⟨H, hgood, hblocks⟩
  · obtain ⟨s₁, hf⟩ := h.found L
    refine ⟨_, s₁, hf⟩
  · refine ⟨H, S.alloc.start, hgood, ?_, hblocks, fun _ _ => rfl, fun _ _ => rfl, ?_⟩
    · rw [hgood.initRam]
      rfl
    · intro n
      rw [allotted, bind_done hgood.initRam]

/-- The bytes that are neither the allocator's nor in its memory. -/
theorem Found.unchanged {H H' : Heap} {s₁ s' : Alloc} {x : Nat} (h : Found L S H s₁)
    (h' : Good L H' [] s') (hdata : H'.data x = H.data x)
    (hx : x < L.sdramStart ∨ L.sdramEnd ≤ x) :
  s'.mem x = S.alloc.mem x
  := by
  have hL := L.bounds
  have hown : ∀ H : Heap, H.Owned L x := by
    intro H
    rcases hx with hx | hx
    · left
      apply hx
    · right
      left
      omega
  rw [h'.rep.data x (hown H'), hdata, ← h.good.rep.data x (hown H)]
  apply h.same
  rcases hx with hx | hx
  · left
    apply hx
  · right
    left
    apply hx

/-- A request that is refused is honoured. -/
theorem Found.honours_refused {H H' : Heap} {s₁ s' : Alloc} {n size : Nat} (h : Found L S H s₁)
    (hall : H.allocate size = (none, H')) (h' : Good L H' [] s') (hctr : s'.ctr = s₁.ctr) :
  Honours L S n 0 s'
  := by
  have hsame : H.SameBlocks H' := by
    have hsame : H.SameBlocks (H.allocate size).2 := Heap.sameBlocks_allocate h.good.inv
    rw [hall] at hsame
    apply hsame
  have hchunks : H'.chunks = H.chunks := by
    have hchunks := Heap.chunks_of_refused (congrArg Prod.fst hall)
    rw [hall] at hchunks
    apply hchunks
  constructor
  case bins =>
    intro i hi
    apply h'.log _ hi
  case refused =>
    intro _
    refine ⟨hctr.trans (congrArg Alloc.ctr h.state), ?_⟩
    intro i hi
    rw [searched, ← h.state, Bool.eq_iff_iff, h'.rep.bitmap i hi, h.good.rep.bitmap i hi, hchunks]
  case granted =>
    intro hr
    apply absurd rfl hr
  case cleared =>
    intro hr
    apply absurd rfl hr
  case blocks =>
    intro b hb x hx
    have hown : H.Owned L x := h.blocks.owned (p := b.1) (n := b.2) hb hx.1 hx.2
    have hown' : H'.Owned L x := (h.blocks.same hsame).owned (p := b.1) (n := b.2) hb hx.1 hx.2
    rw [h'.rep.data x hown', hsame.data, ← h.good.rep.data x hown]
    apply h.same
    right
    right
    refine ⟨b, hb, hx⟩
  case outside =>
    intro x hx
    apply h.unchanged h' _ hx
    rw [hsame.data]

/-- Claiming the chunk that was found changes nothing outside it. -/
theorem Found.claimed {H H' : Heap} {s₁ s' : Alloc} {n r : Nat} {c : Chunk} {pid : Int}
    (h : Found L S H s₁) (hn : n + 15 < 2 ^ 32) (hall : H.allocate (chunkSizeFor n) = (some c, H'))
    (hx : __kmalloc L n pid s₁ = .done r s') :
  Claimed L (allotted L S n) s'.mem c.addr c.size
  := by
  obtain ⟨hpadded, hroom⟩ := padded_chunkSizeFor hn
  have hle := Heap.size_le_of_allocate (H := H) (congrArg Prod.fst hall)
  rw [__kmalloc, bind_done h.good.initRam] at hx
  obtain ⟨chunk, s₂, hfound, hx⟩ := bind_eq_done_iff.mp hx
  obtain ⟨rfl, h₂⟩ := (h.good.allocateChunk hpadded).done hfound
  rw [hall] at h₂ hx
  have hc0 := h₂.inv.addr_ne_zero (h₂.inv.flight c List.mem_cons_self).1
  rw [addrOf_some, if_pos hc0] at hx
  rw [h.chunk, hfound]
  exact ((h₂.claimChunk pid (by omega)).done hx).2

/-- A request whose size does not wrap is honoured. -/
theorem Found.honours_of_lt {H : Heap} {s₁ : Alloc} {n : Nat} (pid : Int) (h : Found L S H s₁)
    (hn : n + 15 < 2 ^ 32) :
  Returns s₁ (__kmalloc L n pid) (Honours L S n)
  := by
  have hL := L.bounds
  obtain ⟨r, s', hx, hr, h'⟩ := h.good.kmalloc pid hn
  obtain ⟨_, hgiven⟩ := (h.good.request pid h.blocks hn).done hx
  have hctr := h.good.kmalloc_ctr hn hx
  have hI := h.good.inv_allocate (padded_chunkSizeFor hn).1
  have hsame : H.SameBlocks (H.allocate (chunkSizeFor n)).2 := Heap.sameBlocks_allocate h.good.inv
  refine ⟨r, s', hx, ?_⟩
  rw [Heap.kmalloc] at hr h'
  cases hall : H.allocate (chunkSizeFor n) with
  | mk o H' =>
      rw [hall] at hr h' hctr hI hsame
      cases o with
      | none =>
          rw [show r = 0 from hr]
          apply h.honours_refused hall h' hctr
      | some c =>
          have hr0 : r = c.addr + 4 := hr
          obtain ⟨hc, -⟩ := hI.flight c List.mem_cons_self
          have hpc := hI.place hc
          have hle := Heap.size_le_of_allocate (H := H) (congrArg Prod.fst hall)
          have hroom := (padded_chunkSizeFor hn).2
          have hclaimed : c.claimed n ∈ (H'.claim c n).chunks :=
            mem_replace.mpr (.inr ⟨hc, List.mem_singleton_self _⟩)
          have hgood : Good L (H'.claim c n) [] s' := h'
          have hsize : sizeAt s'.mem c.addr = c.size := (hgood.rep.head _ hclaimed).1
          constructor
          case bins =>
            intro i hi
            apply h'.log _ hi
          case refused =>
            intro hzero
            omega
          case granted =>
            intro _
            rw [hr0, Nat.add_sub_cancel]
            have hat := hgood.chunkAt hclaimed
            refine ⟨hat, ?_⟩
            rw [hsize]
            omega
          case cleared =>
            intro _
            rw [hr0, Nat.add_sub_cancel, hsize]
            apply h.claimed hn hall hx
          case blocks =>
            rintro b hb x ⟨hx₁, hx₂⟩
            rw [hgiven.same b.1 b.2 hb x hx₁ hx₂]
            apply h.same
            right
            right
            refine ⟨b, hb, hx₁, hx₂⟩
          case outside =>
            intro x hx
            apply h.unchanged h' _ hx
            change H'.data.fill (c.addr + 4) n 0 x = H.data x
            rw [fill_apply, if_neg (by omega), hsame.data]

/-- A request that asks for the smallest chunk instead is honoured if there is none. -/
theorem Found.honours_of_not_fits {H : Heap} {s₁ : Alloc} {n : Nat} (pid : Int)
    (h : Found L S H s₁) (hsize : chunkSizeFor n = 16) (hno : ¬ H.Fits 16) :
  Returns s₁ (__kmalloc L n pid) fun r s' =>
    r = 0 ∧ Honours L S n r s' ∧ ∃ H', Good L H' [] s' ∧ H.SameBlocks H'
  := by
  have hpadded : Padded 16 := ⟨by decide, by decide, by decide⟩
  obtain ⟨chunk, s₂, hx, rfl, h₂⟩ := h.good.allocateChunk hpadded
  have hquiet := (quiet_allocateChunk 16).done hx
  have hsame : H.SameBlocks (H.allocate 16).2 := Heap.sameBlocks_allocate h.good.inv
  have hnone := (Heap.allocate_eq_none_iff h.good.inv).mpr hno
  rw [__kmalloc, hsize]
  apply Returns.step h.good.initRam
  apply Returns.step hx
  cases hall : H.allocate 16 with
  | mk o H' =>
      rw [hall] at h₂ hsame hnone
      have ho : o = none := hnone
      rw [ho] at h₂ hall
      simp only [ho, addrOf_none, ne_eq, not_true_eq_false, ↓reduceIte]
      have hgood : Good L H' [] { s₂ with errno := enomem } := ⟨h₂.inv, h₂.glob, h₂.rep, h₂.log⟩
      refine ⟨0, _, rfl, rfl, ?_, H', hgood, hsame⟩
      apply h.honours_refused hall hgood hquiet.1

/-! ### Requests that are not honoured -/

theorem sizeAt_lt (m : ByteMem) (a : Nat) :
  sizeAt m a < 2 ^ 27
  := by
  have := (tagAt m a).size.isLt
  rw [sizeAt, ChunkTag.readSize]
  omega

theorem bin_mem_log {i a : Nat} {s s' : Alloc} (hrun : getDirtyBin i s = .done a s') :
  .bin i ∈ s'.log
  := by
  cases hrun
  apply List.mem_cons_self

/-- A request for no bytes gives out the chunk freed last, or comes to a bin outside the table. -/
theorem Good.allocateChunk_zero {H : Heap} {s s' : Alloc} {chunk : Nat} (h : Good L H [] s)
    (hrun : Kmalloc.allocateChunk 0 s = .done chunk s') :
  (∃ c ∈ H.chunks, chunk = c.addr) ∨ .bin (getBinIndex 0) ∈ s'.log
  := by
  obtain ⟨list, s₁, hx₁, hrun⟩ := bind_eq_done_iff.mp hrun
  obtain ⟨rfl, -, h₁⟩ := (getDirtyBin_returns (i := 0) h (by decide)).done hx₁
  obtain ⟨recent, s₂, hx₂, hrun⟩ := bind_eq_done_iff.mp hrun
  cases hx₂
  rw [h₁.load_list (b := .dirty 0) (by decide)] at hrun
  obtain ⟨found, s₃, hx₃, hrun⟩ := bind_eq_done_iff.mp hrun
  cases found with
  | true =>
      left
      rw [if_pos rfl] at hrun
      rw [unlinkChunk_eq hrun]
      cases hl : H.lists (.dirty 0) with
      | nil =>
          rw [hl, List.map_nil, PtrChain.head, isExactMatch, if_pos rfl] at hx₃
          cases hx₃
      | cons c l =>
          have hc : c ∈ H.lists (.dirty 0) := by
            rw [hl]
            apply List.mem_cons_self
          refine ⟨c, (h.inv.listed _ c hc).1, rfl⟩
  | false =>
      right
      rw [if_neg (by simp)] at hrun
      obtain ⟨list, s₄, hx₄, hrun⟩ := bind_eq_done_iff.mp hrun
      have hmem := bin_mem_log hx₄
      apply ((quiet_allocateDirty 0 list).done hrun).2.subset hmem

/-- A request that is not honourable is not honoured. -/
theorem Found.not_honours {H : Heap} {s₁ : Alloc} {n : Nat} (pid : Int) (h : Found L S H s₁)
    (hn : n < 2 ^ 32) (hno : ¬ Honourable L S n) :
  ¬ Returns s₁ (__kmalloc L n pid) (Honours L S n)
  := by
  rintro ⟨r, s', hrun, hh⟩
  rw [Honourable, not_or, searched, ← h.state, h.good.served_iff
    (show 16 ≤ minAllocBytes from Nat.le_refl 16), not_and, not_not] at hno
  obtain ⟨hlarge, hserved⟩ := hno
  -- no chunk has room for the bytes that were asked for
  have hr : r = 0 := by
    by_contra hr
    have hle := (hh.granted hr).2
    have hlt := sizeAt_lt s'.mem (r - 4)
    omega
  have hpayload : ∀ {X : List Chunk} {H' : Heap} {c : Chunk}, H'.Inv L X → c ∈ H'.chunks →
      r ≠ getPayload c.addr := by
    intro X H' c hI hc
    have hL := L.bounds
    have hpc := hI.place hc
    rw [hr, getPayload, sizeofChunkTag, Word32.add_of_lt (by omega)]
    omega
  rw [__kmalloc, bind_done h.good.initRam] at hrun
  obtain ⟨chunk, s₂, hall, hrun⟩ := bind_eq_done_iff.mp hrun
  by_cases hwrap : 2 ^ 32 ≤ n + 8
  · rw [chunkSizeFor_of_le hwrap hn] at hall
    have hpadded : Padded 16 := ⟨by decide, by decide, by decide⟩
    obtain ⟨rfl, h₂⟩ := (h.good.allocateChunk hpadded).done hall
    have hfits : (H.allocate 16).1 ≠ none := by
      rw [Ne, Heap.allocate_eq_none_iff h.good.inv]
      apply not_not_intro (hserved hwrap)
    obtain ⟨c, hc⟩ := Option.ne_none_iff_exists'.mp hfits
    rw [hc] at h₂ hrun
    obtain ⟨hmem, -⟩ := h₂.inv.flight c List.mem_cons_self
    rw [addrOf_some, if_pos (h₂.inv.addr_ne_zero hmem)] at hrun
    apply hpayload h₂.inv hmem (claimChunk_done hrun).1
  · rw [chunkSizeFor_of_lt (by omega) (by omega)] at hall
    rcases h.good.allocateChunk_zero hall with ⟨c, hc, rfl⟩ | hbin
    · rw [if_pos (h.good.inv.addr_ne_zero hc)] at hrun
      apply hpayload h.good.inv hc (claimChunk_done hrun).1
    · have hlog : s₂.log <:+ s'.log := by
        split at hrun
        · apply (claimChunk_done hrun).2.1
        · cases hrun
          apply List.suffix_rfl
      have hlt := hh.bins _ (hlog.subset hbin)
      have hle := le_getBinIndex_zero
      omega

/-! ### Runs with requests of every size -/

/-- The steps of the allocator and its clients, with requests of every size. -/
inductive AnyStep (L : Layout) : Sys → Event → Sys → Prop where
  | step {S S' : Sys} {e : Event} (h : Step L S e S') : AnyStep L S e S'
  | alloc {S : Sys} {q : Request} {n r : Nat} {s' : Alloc} (hn : n < 2 ^ 32)
      (hrun : q.run L n S.alloc.start = .done r s') :
      AnyStep L S (.alloc q n) ⟨s', if r = 0 then S.live else (r, n) :: S.live⟩

/-- The requests among the events are honourable. -/
def OnlyHonourable (L : Layout) (S : Sys) : Event → Prop
  | .alloc _ n => Honourable L S n
  | _ => True

/-- The invariant of the system is kept by every honourable request. -/
theorem SysInv.any_step {S' : Sys} {e : Event} (h : SysInv L S) (he : OnlyHonourable L S e)
    (hs : AnyStep L S e S') :
  SysInv L S'
  := by
  cases hs with
  | step hs => apply h.step_any hs
  | @alloc q n r s' hn hrun =>
      rcases he with hlt | ⟨hle, hno⟩
      · apply h.step_any (.alloc hlt hrun)
      · obtain ⟨H, s₁, hf⟩ := h.found
        obtain ⟨pid, hq⟩ := q.run_eq L n
        rw [hq, hf.run] at hrun
        rw [Kmalloc.searched, ← hf.state, hf.good.served_iff
          (show 16 ≤ minAllocBytes from Nat.le_refl 16)] at hno
        have hreq := hf.honours_of_not_fits pid (chunkSizeFor_of_le hle hn) hno
        obtain ⟨hr, -, H', hgood, hsame⟩ := hreq.done hrun
        right
        refine ⟨H', hgood.start, ?_⟩
        rw [if_pos hr]
        apply hf.blocks.same hsame

/-- In every state of a run whose requests are honourable, a request of any size is honoured exactly
when it is honourable. -/
theorem honours_every_size_iff {S₀ : Sys} (h₀ : Initial S₀)
    (h : Reach (AnyStep L) (OnlyHonourable L) S₀ S) (q : Request) {n : Nat} (hn : n < 2 ^ 32) :
  Returns S.alloc.start (q.run L n) (Honours L S n) ↔ Honourable L S n
  := by
  have hS : SysInv L S := h.invariant (.inl h₀) fun _ _ _ hT he hs => hT.any_step he hs
  obtain ⟨H, s₁, hf⟩ := hS.found
  obtain ⟨pid, hq⟩ := q.run_eq L n
  rw [hq, Returns, hf.run]
  constructor
  · intro hret
    by_contra hno
    apply hf.not_honours pid hn hno hret
  · rintro (hlt | ⟨hle, hno⟩)
    · apply hf.honours_of_lt pid hlt
    · rw [searched, ← hf.state, hf.good.served_iff
      (show 16 ≤ minAllocBytes from Nat.le_refl 16)] at hno
      apply (hf.honours_of_not_fits pid (chunkSizeFor_of_le hle hn) hno).mono
      rintro r s' ⟨-, hh, -⟩
      apply hh

/-- After a request for eight bytes, one for a hundred bytes is honoured. -/
theorem honours_every_size_iff_second :
  ∃ S, Reach (AnyStep k70) (OnlyHonourable k70) powerOn S ∧ S.live = [(k70.heap + 4, 8)]
    ∧ Returns S.alloc.start ((Request.kmalloc 1).run k70 100) (Honours k70 S 100)
  := by
  have hfirst : OnlyHonourable k70 powerOn (.alloc .syskmalloc0 8) := .inl (by decide)
  obtain ⟨r, s, hrun, rfl, -⟩ :=
    initial_powerOn.request (L := k70) (n := 8) .syskmalloc0 (by decide) (by decide)
  have hstep : AnyStep k70 powerOn (.alloc .syskmalloc0 8) _ := .alloc (by decide) hrun
  rw [if_neg (by decide)] at hstep
  have hreach := (Reach.refl powerOn).snoc (C := OnlyHonourable k70) hfirst hstep
  refine ⟨_, hreach, rfl, ?_⟩
  exact (honours_every_size_iff initial_powerOn hreach (.kmalloc 1) (by decide)).mpr
    (.inl (by decide))

/-- The first request, for the largest size whose sum wraps to nothing, is not honoured. -/
theorem size_not_honoured :
  ¬ Returns powerOn.alloc.start (Request.syskmalloc0.run k70 (2 ^ 32 - 8))
    (Honours k70 powerOn (2 ^ 32 - 8))
  := by
  obtain ⟨s₁, hf⟩ := initial_powerOn.found k70
  have hfits : (Heap.initial k70 powerOn.alloc.mem).Fits 16 := by
    by_contra hno
    have hnone := (Heap.allocate_eq_none_iff hf.good.inv).mpr hno
    rw [Heap.allocate_initial powerOn.alloc.mem (by decide) (Nat.le_refl 16)] at hnone
    cases hnone
  change ¬ Returns _ (__kmalloc k70 (2 ^ 32 - 8) 0) _
  rw [Returns, hf.run]
  apply hf.not_honours 0 (by decide)
  rintro (hlt | ⟨-, hno⟩)
  · revert hlt
    decide
  · rw [searched, ← hf.state, hf.good.served_iff
      (show 16 ≤ minAllocBytes from Nat.le_refl 16)] at hno
    apply hno hfits

end Kmalloc
