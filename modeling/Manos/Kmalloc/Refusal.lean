import Manos.Kmalloc.Rejection
import Manos.Kmalloc.Representation

/-!
# Requests that are refused

What a request for a chunk is served from: an exact match among the recent chunks or in the dirty
bin of its size, or any large enough chunk of the clean lists that are searched.  Dirty chunks of
other bins and recent ones that are too large are passed over, as nothing brings them back to a
clean list.  So a request may be refused while there is a free chunk that is large enough.
-/

open ByteMem PtrChain Tiling Run

namespace Kmalloc

open Exec

/-! ### Heaps -/

/-- The heap has a chunk that a request for a chunk of `size` bytes is served from. -/
def Heap.Fits (size : Nat) (H : Heap) : Prop :=
  (∃ b ∈ [Bin.recent, .dirty (getBinIndex size)], ∃ c ∈ H.lists b, Exact size c)
    ∨ ∃ b ∈ cleanBins size, ∃ c ∈ H.lists b, size ≤ c.size

section

variable {L : Layout} {X : List Chunk} {H : Heap} {size : Nat}

theorem Heap.chunks_rebin (l : List Chunk) :
  (H.rebin size l).2.chunks = H.chunks
  := by
  induction l generalizing H with
  | nil => rfl
  | cons c l ih =>
      rw [Heap.rebin]
      split
      · rfl
      · apply ih

/-- Rebinning does not touch the clean lists. -/
theorem Heap.clean_rebin {l : List Chunk} {i : Nat} (h : ∀ c ∈ l, c ∉ H.lists (.clean i)) :
  (H.rebin size l).2.lists (.clean i) = H.lists (.clean i)
  := by
  induction l generalizing H with
  | nil => rfl
  | cons c l ih =>
      have hkeep : ((H.unlink c).binDirty c).lists (.clean i) = H.lists (.clean i) := by
        rw [Heap.binDirty, Heap.lists_setList, if_neg (by simp)]
        apply List.erase_of_not_mem (h c List.mem_cons_self)
      rw [Heap.rebin]
      split
      · rfl
      · rw [ih, hkeep]
        intro d hd
        rw [hkeep]
        apply h d (List.mem_cons_of_mem _ hd)

/-- Rebinning finds an exact match if there is one. -/
theorem Heap.rebin_eq_none_iff {l : List Chunk} :
  (H.rebin size l).1 = none ↔ ∀ c ∈ l, ¬ Exact size c
  := by
  induction l generalizing H with
  | nil => simp [Heap.rebin]
  | cons c l ih =>
      rw [Heap.rebin, List.forall_mem_cons]
      split
      case isTrue hex => simp [hex]
      case isFalse hex =>
        rw [ih]
        simp [hex]

theorem Heap.firstFit_eq_none_iff {bs : List Bin} :
  H.firstFit size bs = none ↔ ∀ b ∈ bs, ∀ c ∈ H.lists b, ¬ size ≤ c.size
  := by
  simp only [Heap.firstFit, List.findSome?_eq_none_iff, List.find?_eq_none, decide_eq_true_eq]

theorem Heap.clean_of_mem_cleanBins {b : Bin} (h : b ∈ Heap.cleanBins size) :
  ∃ i, b = .clean i
  := by
  simp only [Heap.cleanBins, List.mem_cons, List.mem_map] at h
  rcases h with rfl | rfl | ⟨i, -, rfl⟩
  · use 0
  · use getBinIndex size
  · use i

/-- A request is refused exactly when no chunk fits, and then no chunk is cut. -/
theorem Heap.allocate_eq_none_iff (h : H.Inv L X) :
  (H.allocate size).1 = none ↔ ¬ H.Fits size
  := by
  have hsame : ∀ i, (H.rebin size (H.lists .recent)).2.lists (.clean i) = H.lists (.clean i) := by
    intro i
    apply Heap.clean_rebin
    intro c hc hc'
    cases h.distinct _ _ c hc hc'
  rw [Heap.allocate]
  split
  case h_1 c hrecent =>
    obtain ⟨hc, hex⟩ := Option.filter_eq_some_iff.mp hrecent
    simp only [reduceCtorEq, false_iff, not_not]
    left
    refine ⟨.recent, by simp, c, List.mem_of_mem_head? hc, of_decide_eq_true hex⟩
  · split
    case h_1 c hdirty =>
      simp only [reduceCtorEq, false_iff, not_not]
      left
      refine ⟨.dirty (getBinIndex size), by simp, c, List.mem_of_find?_eq_some hdirty, ?_⟩
      have hex := List.find?_some hdirty
      apply of_decide_eq_true hex
    case h_2 hdirty =>
      rw [List.find?_eq_none] at hdirty
      split
      case h_1 c H' heq =>
        simp only [reduceCtorEq, false_iff, not_not]
        left
        have hfound : (H.rebin size (H.lists .recent)).1 ≠ none := by
          rw [heq]
          apply Option.some_ne_none
        rw [Ne, Heap.rebin_eq_none_iff] at hfound
        push Not at hfound
        refine ⟨.recent, by simp, hfound⟩
      case h_2 H' heq =>
        have hnone := Heap.rebin_eq_none_iff.mp (congrArg Prod.fst heq)
        have hlists : ∀ b ∈ Heap.cleanBins size, H'.lists b = H.lists b := by
          intro b hb
          obtain ⟨i, rfl⟩ := Heap.clean_of_mem_cleanBins hb
          rw [← hsame i, heq]
        split
        case h_1 c hfit =>
          simp only [reduceCtorEq, false_iff, not_not]
          right
          obtain ⟨⟨b, hb, hc⟩, hle⟩ := Heap.mem_of_firstFit hfit
          rw [hlists b hb] at hc
          refine ⟨b, hb, c, hc, hle⟩
        case h_2 hfit =>
          simp only [true_iff]
          rw [Heap.firstFit_eq_none_iff] at hfit
          rintro (⟨b, hb, c, hc, hex⟩ | ⟨b, hb, c, hc, hle⟩)
          · simp only [List.mem_cons, List.not_mem_nil, or_false] at hb
            rcases hb with rfl | rfl
            · apply hnone c hc hex
            · apply hdirty c hc (decide_eq_true hex)
          · rw [← hlists b hb] at hc
            apply hfit b hb c hc hle

/-- A request that is refused leaves the chunks as they are. -/
theorem Heap.chunks_of_refused (h : (H.allocate size).1 = none) :
  (H.allocate size).2.chunks = H.chunks
  := by
  rw [Heap.allocate] at h ⊢
  split at h
  · cases h
  · split at h
    · cases h
    · split at h
      · cases h
      case h_2 H' heq =>
        split at h
        · cases h
        · change H'.chunks = H.chunks
          rw [← @Heap.chunks_rebin H size (H.lists .recent), heq]

end

/-! ### Memories -/

/-- The chunk at an address is on the list whose first pointer is at `p`. -/
inductive OnList (m : ByteMem) (p : Nat) : Nat → Prop where
  | first (h : m.load32 p ≠ 0) : OnList m p (m.load32 p)
  | next {a : Nat} (h : OnList m p a) (hne : m.load32 (nextField a) ≠ 0) :
      OnList m p (m.load32 (nextField a))

/-- No free chunk on a list has `size` bytes. -/
def NoneLarge (L : Layout) (m : ByteMem) (size : Nat) : Prop :=
  ∀ b : Bin, b.index < maxBins → ∀ a, OnList m (b.addr L) a → sizeAt m a < size

/-- A recent chunk or one of the dirty bin for `size` exceeds `size` by at most `MIN_ALLOC_BYTES`,
or one of the clean lists that are searched for `size` has a chunk of at least `size` bytes. -/
def Served (L : Layout) (m : ByteMem) (size : Nat) : Prop :=
  (∃ b ∈ [Bin.recent, .dirty (getBinIndex size)], ∃ a, OnList m (b.addr L) a
      ∧ size ≤ sizeAt m a ∧ sizeAt m a ≤ size + minAllocBytes)
    ∨ ∃ b ∈ Heap.cleanBins size, ∃ a, OnList m (b.addr L) a ∧ size ≤ sizeAt m a

section

variable {L : Layout} {X : List Chunk} {H : Heap} {s : Alloc} {size : Nat}

/-- Walking a list comes to the nodes of a chain that starts at it or after one of its nodes. -/
theorem onList_of_chain {m : ByteMem} {p q : Nat} {l : List Nat} (h : Chain 4 8 m.load32 q l)
    (hl : 0 ∉ l) (hq : q = p ∨ ∃ x, OnList m p x ∧ q = nextField x) :
  ∀ a ∈ l, OnList m p a
  := by
  induction l generalizing q with
  | nil =>
      intro a ha
      cases ha
  | cons x l ih =>
      rw [List.mem_cons, not_or] at hl
      obtain ⟨hx, -, h⟩ := h
      have hx0 : m.load32 q ≠ 0 := by
        rw [hx]
        apply Ne.symm hl.1
      have hmem : OnList m p x := by
        rw [← hx]
        rcases hq with rfl | ⟨y, hy, rfl⟩
        · apply OnList.first hx0
        · apply hy.next hx0
      intro a ha
      rcases List.mem_cons.mp ha with rfl | ha
      · apply hmem
      · apply ih h hl.2 (.inr ⟨x, hmem, rfl⟩) a ha

/-- The nodes of a chain are those that walking it comes to. -/
theorem onList_iff {m : ByteMem} {p a : Nat} {l : List Nat} (h : Chain 4 8 m.load32 p l)
    (hl : 0 ∉ l) :
  OnList m p a ↔ a ∈ l
  := by
  constructor
  · intro ha
    induction ha with
    | first hne =>
        cases l with
        | nil => apply absurd h hne
        | cons x l =>
            rw [h.1]
            apply List.mem_cons_self
    | @next a _ hne ih =>
        obtain ⟨l₁, l₂, rfl⟩ := List.append_of_mem ih
        have hnext := h.load_next
        change m.load32 (a + 8) ≠ 0 at hne
        change m.load32 (a + 8) ∈ _
        rw [hnext] at hne ⊢
        have hmem := List.mem_of_mem_head? (head_mem_head? hne)
        apply List.mem_append_right _ (List.mem_cons_of_mem _ hmem)
  · apply onList_of_chain h hl (.inl rfl) a

/-- The lists of a heap in memory. -/
theorem Linked.onList {b : Bin} {a : Nat} {m : ByteMem} (h : Linked L H X m) (hS : H.Sound L X)
    (hb : b.index < maxBins) :
  OnList m (b.addr L) a ↔ ∃ c ∈ H.lists b, c.addr = a
  := by
  rw [onList_iff (h.chain b hb), List.mem_map]
  intro hmem
  obtain ⟨c, hc, h0⟩ := List.mem_map.mp hmem
  have := hS.align (hS.listed b c hc).1
  omega

theorem Good.onList {b : Bin} {a : Nat} (h : Good L H X s) (hb : b.index < maxBins) :
  OnList s.mem (b.addr L) a ↔ ∃ c ∈ H.lists b, c.addr = a
  := h.rep.linked.onList h.inv.sound hb

/-- What is on a list of a heap in memory. -/
theorem Good.exists_onList {b : Bin} (P : Nat → Prop) (h : Good L H X s) (hb : b.index < maxBins) :
  (∃ a, OnList s.mem (b.addr L) a ∧ P (sizeAt s.mem a)) ↔ ∃ c ∈ H.lists b, P c.size
  := by
  have hsize : ∀ c ∈ H.lists b, sizeAt s.mem c.addr = c.size :=
    fun c hc => (h.rep.head c (h.inv.listed b c hc).1).1
  constructor
  · rintro ⟨a, ha, hP⟩
    obtain ⟨c, hc, rfl⟩ := (h.onList hb).mp ha
    rw [hsize c hc] at hP
    refine ⟨c, hc, hP⟩
  · rintro ⟨c, hc, hP⟩
    refine ⟨c.addr, (h.onList hb).mpr ⟨c, hc, rfl⟩, ?_⟩
    rw [hsize c hc]
    apply hP

/-- Without chunks in flight the chunks on lists are the free ones. -/
theorem Good.noneLarge_iff (h : Good L H [] s) :
  NoneLarge L s.mem size ↔ ∀ c ∈ H.chunks, c.used = none → c.size < size
  := by
  constructor
  · intro hnone c hc hfree
    rcases h.inv.covered c hc hfree with hX | ⟨b, hb⟩
    · cases hX
    · have hidx := h.inv.index b c hb
      rw [← (h.rep.head c hc).1]
      apply hnone b hidx c.addr ((h.onList hidx).mpr ⟨c, hb, rfl⟩)
  · intro hall b hb a ha
    obtain ⟨c, hc, rfl⟩ := (h.onList hb).mp ha
    obtain ⟨hmem, hfree⟩ := h.inv.listed b c hc
    rw [sizeAt, (h.rep.head c hmem).1]
    apply hall c hmem hfree

/-- The lists that are searched are among the bins. -/
theorem index_of_searched {b : Bin} (hsize : 16 ≤ size)
    (hb : b ∈ [Bin.recent, .dirty (getBinIndex size)] ∨ b ∈ Heap.cleanBins size) :
  b.index < maxBins
  := by
  have hidx := getBinIndex_bounds hsize
  simp only [Heap.cleanBins, List.mem_cons, List.not_mem_nil, or_false, List.mem_map,
    List.mem_range'_1] at hb
  rcases hb with (rfl | rfl) | rfl | rfl | ⟨i, hi, rfl⟩
  all_goals
    simp only [Bin.index, maxBins] at *
    omega

theorem Good.served_iff (h : Good L H X s) (hsize : 16 ≤ size) :
  Served L s.mem size ↔ H.Fits size
  := by
  apply or_congr
  · apply exists_congr
    intro b
    apply and_congr_right
    intro hb
    apply h.exists_onList (fun k => size ≤ k ∧ k ≤ size + minAllocBytes)
      (index_of_searched hsize (.inl hb))
  · apply exists_congr
    intro b
    apply and_congr_right
    intro hb
    apply h.exists_onList (fun k => size ≤ k) (index_of_searched hsize (.inr hb))

end

/-! ### Refusals -/

variable {L : Layout} {S : Sys}

/-- The memory in which a call in `S` starts to search: `initRam` has been called. -/
def searched (L : Layout) (S : Sys) : ByteMem := (initRam L S.alloc.start).state.mem

/-- The heap in which a call starts to search. -/
theorem SysInv.searched (h : SysInv L S) :
  ∃ H s₁, Good L H [] s₁ ∧ s₁.mem = searched L S
    ∧ ∀ n pid, __kmalloc L n pid S.alloc.start = __kmalloc L n pid s₁
  := by
  rcases h with ⟨huninit, -⟩ | ⟨H, hgood, -⟩
  · obtain ⟨_, s₁, hinit, h₁⟩ := initRam_start huninit L
    refine ⟨_, s₁, h₁, ?_, ?_⟩
    · rw [Kmalloc.searched, hinit]
      rfl
    · intro n pid
      rw [__kmalloc, bind_done hinit, bind_done h₁.initRam]
  · refine ⟨H, S.alloc.start, hgood, ?_, fun _ _ => rfl⟩
    rw [Kmalloc.searched, hgood.initRam]
    rfl

/-- The request returns, and it returns `NULL` only if no chunk on a list has the size that is
needed for it. -/
def NotSpurious (L : Layout) (S : Sys) (q : Request) (n : Nat) : Prop :=
  Returns S.alloc.start (q.run L n) fun r s' =>
    r = 0 → NoneLarge L s'.mem (max 16 ((n + 15) / 8 * 8))

/-- A request is refused only for want of a chunk exactly when a chunk fits or none is large
enough. -/
theorem Good.refused_iff {H : Heap} {s : Alloc} {n : Nat} (pid : Int) (h : Good L H [] s)
    (hn : n + 15 < 2 ^ 32) :
  Returns s (__kmalloc L n pid) (fun r s' => r = 0 → NoneLarge L s'.mem (chunkSizeFor n))
    ↔ H.Fits (chunkSizeFor n) ∨ NoneLarge L s.mem (chunkSizeFor n)
  := by
  obtain ⟨r, s', hx, hr, h'⟩ := h.kmalloc pid hn
  rw [Returns, hx, h.noneLarge_iff]
  have hnone : (H.allocate (chunkSizeFor n)).1 = none ↔ _ := Heap.allocate_eq_none_iff h.inv
  have hrefused := @Heap.chunks_of_refused H (chunkSizeFor n)
  rw [Heap.kmalloc] at hr h'
  cases hall : H.allocate (chunkSizeFor n) with
  | mk o H' =>
      rw [hall] at hr h' hnone hrefused
      cases o with
      | none =>
          -- the chunks are as before, and so are the free ones
          have hchunks : H'.chunks = H.chunks := hrefused rfl
          have hiff : NoneLarge L s'.mem (chunkSizeFor n)
              ↔ ∀ c ∈ H.chunks, c.used = none → c.size < chunkSizeFor n := by
            rw [← hchunks]
            apply h'.noneLarge_iff
          constructor
          · rintro ⟨_, _, ⟨⟩, hr0⟩
            right
            apply hiff.mp (hr0 hr)
          · rintro (hfits | hlarge)
            · apply absurd hfits (hnone.mp rfl)
            · refine ⟨_, _, rfl, fun _ => hiff.mpr hlarge⟩
      | some c =>
          have hfits : H.Fits (chunkSizeFor n) := by
            by_contra hno
            cases hnone.mpr hno
          have hr0 : r = c.addr + 4 := hr
          constructor
          · intro _
            left
            apply hfits
          · intro _
            refine ⟨_, _, rfl, ?_⟩
            intro hzero
            omega

/-- In every state of a run, a request is refused only for want of a chunk exactly when it is
served from the lists that are searched or no chunk on a list is large enough. -/
theorem no_spurious_refusal_iff {S₀ : Sys} (h₀ : Initial S₀) (h : ReachAny (Step L) S₀ S)
    (q : Request) {n : Nat} (hn : n + 15 < 2 ^ 32) :
  NotSpurious L S q n ↔ Served L (searched L S) (max 16 ((n + 15) / 8 * 8))
    ∨ NoneLarge L (searched L S) (max 16 ((n + 15) / 8 * 8))
  := by
  obtain ⟨H, s₁, hgood, hmem, hrun⟩ := (sysInv_of_reachAny h (.inl h₀)).searched
  obtain ⟨pid, hq⟩ := q.run_eq L n
  have hiff := hgood.refused_iff pid hn
  rw [Returns, ← hrun n pid, ← hgood.served_iff (padded_chunkSizeFor hn).1.min, hmem, ← hq,
    chunkSizeFor_eq hn] at hiff
  apply hiff

/-- A request after the first one, for eight bytes, is served. -/
theorem no_spurious_refusal_iff_first :
  ∃ S, ReachAny (Step k70) powerOn S ∧ S.live = [(k70.heap + 4, 8)]
    ∧ NotSpurious k70 S .syskmalloc0 100
  := by
  obtain ⟨s, h, hgood⟩ := reach_first (L := k70) (n := 8) (by decide) (by decide)
  refine ⟨_, h, rfl, ?_⟩
  apply (no_spurious_refusal_iff initial_powerOn h .syskmalloc0 (by decide)).mpr
  left
  rw [searched, hgood.start.initRam]
  apply (hgood.start.served_iff (by decide)).mpr
  -- the rest of the first chunk is the remainder of the last split
  have hrest : (Heap.first k70 powerOn.alloc.mem 8).2.lists .remainder =
      [⟨k70.heap + 16, k70.heapSize - 16, none⟩] := by
    decide
  refine .inr ⟨.remainder, List.mem_cons_self, _, hrest ▸ List.mem_singleton_self _, ?_⟩
  decide

/-- The bytes of a block that takes the whole heap of the K70. -/
def wholeHeap : Nat := k70.heapSize - 8

/-- The heap of the K70 after all of it was given out and taken back. -/
def Heap.emptied : Heap :=
  (Heap.first k70 powerOn.alloc.mem wholeHeap).2.kfree (k70.firstChunk.claimed wholeHeap)

/-- The only chunk is on the list of recent chunks. -/
theorem Heap.lists_emptied (b : Bin) :
  Heap.emptied.lists b = if b = .recent then [k70.firstChunk] else []
  := by
  have hfirst : ∀ b, (Heap.first k70 powerOn.alloc.mem wholeHeap).2.lists b = [] := by
    intro b
    rw [Heap.first, Heap.allocateSplit, if_pos (by decide)]
    change ((Heap.initial k70 powerOn.alloc.mem).lists b).erase k70.firstChunk = []
    simp only [Heap.initial]
    split
    · apply List.erase_cons_head
    · rfl
  change Function.update _ Bin.recent _ b = _
  rw [Function.update_apply]
  split
  · change _ :: (Heap.first k70 powerOn.alloc.mem wholeHeap).2.lists .recent = _
    rw [hfirst]
    rfl
  · apply hfirst

/-- It fits no other size. -/
theorem Heap.not_fits_emptied :
  ¬ Heap.emptied.Fits 16
  := by
  have hrecent : ∀ b, ∀ c ∈ Heap.emptied.lists b, b = .recent ∧ c = k70.firstChunk := by
    intro b c hc
    rw [Heap.lists_emptied] at hc
    split at hc
    case isTrue hb => refine ⟨hb, List.mem_singleton.mp hc⟩
    case isFalse => cases hc
  rintro (⟨b, -, c, hc, hex⟩ | ⟨b, hb, c, hc, -⟩)
  · rw [(hrecent b c hc).2] at hex
    revert hex
    decide
  · obtain ⟨i, rfl⟩ := Heap.clean_of_mem_cleanBins hb
    cases (hrecent _ c hc).1

/-- A request for eight bytes is refused while all of the memory is free. -/
theorem spurious_refusal :
  ∃ S, ReachAny (Step k70) powerOn S ∧ S.live = [] ∧ ¬ NotSpurious k70 S .syskmalloc0 8
  := by
  obtain ⟨r, s, hrun, rfl, hgood⟩ :=
    initial_powerOn.request (L := k70) .syskmalloc0 (n := wholeHeap) (by decide) (by decide)
  have hstep : Step k70 powerOn (.alloc .syskmalloc0 wholeHeap) _ :=
    Step.alloc (show wholeHeap + 15 < 2 ^ 32 by decide) hrun
  rw [if_neg (by decide)] at hstep
  have hc : k70.firstChunk.claimed wholeHeap
      ∈ (Heap.first k70 powerOn.alloc.mem wholeHeap).2.chunks := by
    decide
  obtain ⟨_, s₂, hfree, hgood₂⟩ := hgood.start.kfree hc rfl fun _ => k70_heapEnd
  have hstep₂ : Step k70 ⟨s, [(k70.heap + 4, wholeHeap)]⟩ (.free .syskfree (k70.heap + 4)) _ :=
    Step.free (.inr ⟨wholeHeap, List.mem_singleton_self _⟩) hfree
  have hreach := ReachAny.snoc (ReachAny.snoc (Reach.refl powerOn) hstep) hstep₂
  refine ⟨_, hreach, by simp, ?_⟩
  intro hnot
  have hn : 8 + 15 < 2 ^ 32 := by decide
  rcases (hgood₂.start.refused_iff 0 hn).mp hnot with hfits | hlarge
  · apply Heap.not_fits_emptied hfits
  · have hmem : k70.firstChunk ∈ Heap.emptied.chunks := by
      decide
    have hlt := hgood₂.start.noneLarge_iff.mp hlarge _ hmem rfl
    revert hlt
    decide

end Kmalloc
