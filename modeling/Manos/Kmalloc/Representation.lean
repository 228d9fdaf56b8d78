import Manos.Kmalloc.Isolation

/-!
# The representation invariant

`Representation L m` says of the memory alone what the allocator keeps true in it between
calls: the chunks tile the heap, their tags agree, the bitmap has the bits of the allocated
chunks, and the free ones are on the lists.  It holds in every state of a run on the K70.
-/

open ByteMem PtrChain Tiling Run

namespace Kmalloc

/-- The size in the tag at `a`. -/
def sizeAt (m : ByteMem) (a : Nat) : Nat := (tagAt m a).readSize

/-- The free flag in the tag at `a`. -/
def freeAt (m : ByteMem) (a : Nat) : Bool := (tagAt m a).free

/-- The memory `m` holds the chunks at `as` and the lists `lists` of free chunks. -/
structure Representation (L : Layout) (m : ByteMem) (as : List Nat) (lists : Bin → List Nat) :
    Prop where
  /-- the chunks tile the heap -/
  tiles : Tiles (fun a => a) (sizeAt m) L.heap (L.heap + L.totalRAM) as
  /-- sizes are at least sixteen and multiples of eight -/
  sizes : ∀ a ∈ as, minAllocBytes ≤ sizeAt m a ∧ sizeAt m a % 8 = 0
  /-- header and footer agree -/
  footers : ∀ a ∈ as, sizeAt m (a + sizeAt m a - 4) = sizeAt m a
    ∧ freeAt m (a + sizeAt m a - 4) = freeAt m a
  /-- the bitmap has the bits of the allocated chunks -/
  bitmap : ∀ i, i < 8 * L.bitmapSize →
    (bitAt L m i = true ↔ ∃ a ∈ as, freeAt m a = false ∧ L.slot (a + 4) = i)
  /-- every list is a chain whose chunks point back at the pointer that refers to them -/
  chains : ∀ b : Bin, b.index < maxBins → Chain 4 8 m.load32 (b.addr L) (lists b)
  /-- there are no other lists -/
  bins : ∀ b : Bin, maxBins ≤ b.index → lists b = []
  /-- no chunk is twice on a list -/
  once : ∀ b, (lists b).Nodup
  /-- the chunks on lists are chunks of the heap -/
  listed : ∀ b, ∀ a ∈ lists b, a ∈ as
  /-- every free chunk is on exactly one list -/
  free : ∀ a ∈ as, freeAt m a = true → ∃ b, a ∈ lists b ∧ ∀ b', a ∈ lists b' → b' = b
  /-- every allocated chunk is on none -/
  allocated : ∀ a ∈ as, freeAt m a = false → ∀ b, a ∉ lists b
  /-- a dirty list has the chunks of its index -/
  binned : ∀ i, 1 ≤ i → ∀ a ∈ lists (.dirty i), getBinIndex (sizeAt m a) = i
  /-- in increasing order of their addresses -/
  sorted : ∀ i, 1 ≤ i → (lists (.dirty i)).Pairwise (· < ·)
  /-- at most one chunk is on the clean lists, among them the list of remainders -/
  single : ((List.range maxBins).flatMap fun i => lists (.clean i)).length ≤ 1

/-- Equal pieces of a list without duplicates are at most one. -/
theorem length_le_one {α : Type} {l : List α} (hnd : l.Nodup) (h : ∀ a ∈ l, ∀ b ∈ l, a = b) :
  l.length ≤ 1
  := by
  cases l with
  | nil => apply Nat.zero_le
  | cons a l =>
      cases l with
      | nil => apply Nat.le_refl
      | cons b l =>
          have hab : a = b := h a (by simp) b (by simp)
          rw [hab] at hnd
          simp at hnd

section

variable {L : Layout} {H : Heap} {s : Alloc}

/-- The chunks of a heap tile it in memory. -/
theorem tiles_addr {m : ByteMem} {l : List Chunk} {lo hi : Nat}
    (h : Tiles Chunk.addr Chunk.size lo hi l) (hsize : ∀ c ∈ l, sizeAt m c.addr = c.size) :
  Tiles (fun a => a) (sizeAt m) lo hi (l.map Chunk.addr)
  := by
  induction l generalizing lo with
  | nil => apply h
  | cons c l ih =>
      obtain ⟨hc, h⟩ := h
      refine ⟨hc, ?_⟩
      have hc' := hsize c List.mem_cons_self
      rw [hc']
      apply ih h fun d hd => hsize d (List.mem_cons_of_mem _ hd)

/-- The state of an allocator without chunks in flight is a representation, when the heap fills
the memory and the addresses are in the upper half. -/
theorem Good.representation (h : Good L H [] s) (hL : L.totalRAM % 8 = 0)
    (hupper : 2 ^ 31 ≤ L.sdramStart) :
  Representation L s.mem (H.chunks.map Chunk.addr) fun b => (H.lists b).map Chunk.addr
  := by
  have hsize : ∀ c ∈ H.chunks, sizeAt s.mem c.addr = c.size := fun c hc => (h.rep.head c hc).1
  have hfree : ∀ c ∈ H.chunks, freeAt s.mem c.addr = c.used.isNone :=
    fun c hc => (h.rep.head c hc).2
  have hinj : ∀ b, ∀ c ∈ H.chunks, c.addr ∈ (H.lists b).map Chunk.addr → c ∈ H.lists b := by
    intro b c hc hmem
    obtain ⟨d, hd, heq⟩ := List.mem_map.mp hmem
    rw [← h.inv.eq_of_addr (h.inv.listed b d hd).1 hc heq]
    apply hd
  constructor
  case tiles =>
    have hend : L.heap + L.totalRAM = L.heapEnd := by
      simp only [Layout.heapEnd, Layout.heapSize]
      omega
    rw [hend]
    apply tiles_addr h.inv.tiles hsize
  case sizes =>
    intro a ha
    obtain ⟨c, hc, rfl⟩ := List.mem_map.mp ha
    rw [hsize c hc]
    apply h.inv.sized c hc
  case footers =>
    intro a ha
    obtain ⟨c, hc, rfl⟩ := List.mem_map.mp ha
    rw [hsize c hc, hfree c hc]
    apply h.rep.foot c hc
  case bitmap =>
    intro i hi
    rw [h.rep.bitmap i hi]
    constructor
    · rintro ⟨c, hc, hused, hslot⟩
      refine ⟨c.addr, List.mem_map_of_mem hc, ?_, hslot⟩
      rw [hfree c hc]
      simpa [Option.isSome_iff_ne_none] using hused
    · rintro ⟨a, ha, hused, hslot⟩
      obtain ⟨c, hc, rfl⟩ := List.mem_map.mp ha
      refine ⟨c, hc, ?_, hslot⟩
      rw [hfree c hc] at hused
      simpa [Option.isSome_iff_ne_none] using hused
  case chains => apply h.rep.chain
  case bins =>
    intro b hb
    rw [List.map_eq_nil_iff]
    apply List.eq_nil_iff_forall_not_mem.mpr
    intro c hc
    have := h.inv.index b c hc
    omega
  case once =>
    intro b
    apply List.Nodup.map_on _ (h.inv.nodup b)
    intro c hc d hd heq
    apply h.inv.eq_of_addr (h.inv.listed b c hc).1 (h.inv.listed b d hd).1 heq
  case listed =>
    intro b a ha
    obtain ⟨c, hc, rfl⟩ := List.mem_map.mp ha
    apply List.mem_map_of_mem (h.inv.listed b c hc).1
  case free =>
    intro a ha hf
    obtain ⟨c, hc, rfl⟩ := List.mem_map.mp ha
    rw [hfree c hc, Option.isNone_iff_eq_none] at hf
    rcases h.inv.covered c hc hf with hX | ⟨b, hb⟩
    · cases hX
    · refine ⟨b, List.mem_map_of_mem hb, ?_⟩
      intro b' hb'
      apply h.inv.distinct b' b c (hinj b' c hc hb') hb
  case allocated =>
    intro a ha hf b hb
    obtain ⟨c, hc, rfl⟩ := List.mem_map.mp ha
    rw [hfree c hc, (h.inv.listed b c (hinj b c hc hb)).2] at hf
    cases hf
  case binned =>
    intro i hi a ha
    obtain ⟨c, hc, rfl⟩ := List.mem_map.mp ha
    rw [hsize c (h.inv.listed _ c hc).1]
    apply h.inv.binned i (by omega) c hc
  case sorted =>
    intro i hi
    rw [List.pairwise_map]
    apply (h.inv.sorted i (by omega)).imp_of_mem
    intro c d hc hd hlt
    have hb := L.bounds
    have h₁ := h.inv.place (h.inv.listed _ c hc).1
    have h₂ := h.inv.place (h.inv.listed _ d hd).1
    apply (Word32.toSigned_lt_of_upper (by omega) (by omega)).mp hlt
  case single =>
    apply length_le_one
    · apply List.nodup_flatMap.mpr
      constructor
      · intro i _
        apply List.Nodup.map_on _ (h.inv.nodup _)
        intro c hc d hd _
        apply h.inv.single i i c d hc hd
      · apply List.Nodup.pairwise_of_forall_ne List.nodup_range
        intro i _ j _ hij a ha ha'
        obtain ⟨c, hc, rfl⟩ := List.mem_map.mp ha
        have hd := hinj _ c (h.inv.listed _ c hc).1 ha'
        have hbins := h.inv.distinct _ _ c hc hd
        injection hbins with heq
        apply hij heq
    · intro a ha a' ha'
      obtain ⟨i, -, hi⟩ := List.mem_flatMap.mp ha
      obtain ⟨j, -, hj⟩ := List.mem_flatMap.mp ha'
      obtain ⟨c, hc, rfl⟩ := List.mem_map.mp hi
      obtain ⟨d, hd, rfl⟩ := List.mem_map.mp hj
      rw [h.inv.single i j c d hc hd]

end

/-- The representation invariant: in every state that is reached on the K70 from the end of
`initRam` the memory holds chunks and lists in order. -/
theorem representation_invariant {s s₀ : Alloc} {S : Sys} (h₀ : Uninitialised s)
    (hinit : initRam k70 s.start = .done () s₀) (h : ReachAny (Step k70) ⟨s₀, []⟩ S) :
  ∃ as lists, Representation k70 S.alloc.mem as lists
  := by
  have hgood := (initRam_start h₀ k70).done hinit
  have hS : Holds k70 S := by
    apply (reach_k70 h).invariant
    · refine ⟨_, hgood.start, blocks_initial k70 _⟩
    · intro T e T' hT he hs
      apply hT.step he hs
  obtain ⟨H, hgood, -⟩ := hS
  refine ⟨_, _, hgood.representation (by decide) (by decide)⟩

/-- The representation invariant after a request for eight bytes. -/
theorem representation_invariant_first :
  ∃ s : Alloc, (∃ s₀, initRam k70 powerOn.alloc.start = .done () s₀
      ∧ ReachAny (Step k70) ⟨s₀, []⟩ ⟨s, [(k70.heap + 4, 8)]⟩)
    ∧ ∃ as lists, Representation k70 s.mem as lists
  := by
  have h0 : Uninitialised powerOn.alloc := rfl
  obtain ⟨_, s₀, hinit, hgood⟩ := initRam_start h0 k70
  obtain ⟨r, s, hrun, rfl, -⟩ := hgood.start.firstRequest 0 (n := 8) (by decide) (by decide)
  have hallow : Allowed ⟨s₀, []⟩ (.alloc .syskmalloc0 8) := show 8 + 15 < 2 ^ 32 by decide
  have hstep : Step k70 ⟨s₀, []⟩ (.alloc .syskmalloc0 8) _ := Step.alloc hallow hrun
  rw [if_neg (by omega)] at hstep
  have hreach : ReachAny (Step k70) ⟨s₀, []⟩ ⟨s, [(k70.heap + 4, 8)]⟩ :=
    (Reach.refl _).snoc trivial hstep
  refine ⟨s, ⟨s₀, hinit, hreach⟩, ?_⟩
  apply representation_invariant h0 hinit hreach

end Kmalloc
